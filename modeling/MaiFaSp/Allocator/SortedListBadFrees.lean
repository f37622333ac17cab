import MaiFaSp.Allocator.SortedListRequests

/-!
# `allocator_sorted_list`: pointers that are refused (`allocator_sorted_list.cpp:207-292`)

The throw for a foreign header stands inside the test for a logger. A header that the
allocator takes back keeps no tag: its place is the link to the next free block.
-/

namespace MaiFaSp.SortedList

open Memory Tiling Block

/-! ### What a call may end with -/

theorem prevFreeFrom_fault {s : SortedList} {header n prev : ℕ} {it : Iterator} {e : AllocFault}
    (h : prevFreeFrom s header n it prev = .error e) : e = .diverged := by
  induction n generalizing it prev with
  | zero =>
    unfold prevFreeFrom at h
    split at h <;> cases h
    rfl
  | succ n ih =>
    unfold prevFreeFrom at h
    split at h
    · cases h
    · exact ih h

/-- The header in front of a pointer does not carry the allocator's address. -/
def ForeignTag (s : SortedList) (p : ℕ) : Prop :=
  getNextPtr s.memory (sizeSub p blockMetadataSize) ≠ s.trusted

/-- The call throws before it stores anything. -/
def Rejects (s : SortedList) (p : ℕ) : Prop := s.deallocate p = .error .badAlloc

theorem deallocate_accepted {s s' : SortedList} {p : ℕ} (h : s.deallocate p = .ok s') :
    ∃ prev, prevFreeFrom s (sizeSub p blockMetadataSize) (turns s) (begin s) 0 = .ok prev ∧
      s'.memory = putBack s.memory prev (sizeSub p blockMetadataSize)
        (if prev ≠ 0 then getNextPtr s.memory prev else s.firstFree) := by
  unfold deallocate at h
  generalize sizeSub p blockMetadataSize = header at h ⊢
  dsimp only at h
  split at h
  · cases h
  · cases hprev : prevFreeFrom s header (turns s) (begin s) 0 with
    | error e =>
      rw [hprev] at h
      cases h
    | ok prev =>
      rw [hprev] at h
      simp only [bind, Except.bind] at h
      split at h
      · cases h
      · cases h
        exact ⟨prev, rfl, rfl⟩

theorem rejects_iff {s : SortedList} {p : ℕ} :
    Rejects s p ↔ s.logger = true ∧ ForeignTag s p := by
  unfold Rejects ForeignTag deallocate
  generalize sizeSub p blockMetadataSize = header
  dsimp only
  split
  case isTrue hbad =>
    constructor
    · exact fun _ => hbad.symm
    · exact fun _ => rfl
  case isFalse hgood =>
    constructor
    · intro h
      cases hprev : prevFreeFrom s header (turns s) (begin s) 0 with
      | error e =>
        rw [hprev] at h
        cases h
        cases prevFreeFrom_fault hprev
      | ok prev =>
        rw [hprev] at h
        simp only [bind, Except.bind] at h
        split at h
        case h_1 e hreport =>
          cases h
          cases report_fault hreport
        case h_2 => cases h
    · exact fun h => absurd h.symm hgood

/-! ### The header of a block that was taken back -/

theorem agreeOn_tryMerge {m : Memory} {left right lo hi : ℕ} (h : hi ≤ left ∨ left + 16 ≤ lo) :
    AgreeOn (tryMerge m left right).2 m lo hi := by
  unfold tryMerge
  split
  · exact fun _ _ _ => rfl
  · split
    · exact (agreeOn_setNextPtr _ left _ lo hi h).trans (agreeOn_setSize m left _ lo hi h)
    · exact fun _ _ _ => rfl

/-- The link of a header that is merged with the block behind it, or not. -/
theorem getNextPtr_tryMerge {m : Memory} {header next : ℕ} (hpos : 0 < header)
    (hnext : next = 0 ∨ header + 16 ≤ next) :
    getNextPtr (tryMerge m header next).2 header = getNextPtr m header ∨
      (next ≠ 0 ∧ getNextPtr (tryMerge m header next).2 header = getNextPtr m next) := by
  unfold tryMerge
  split
  · exact Or.inl rfl
  case isFalse hne =>
    split
    · have hne0 : next ≠ 0 := fun h => hne (Or.inr h)
      have hfar := hnext.resolve_left hne0
      refine Or.inr ⟨hne0, ?_⟩
      have hsame : getNextPtr (setSize m header
          (sizeAdd (sizeAdd (getSize m header) (getSize m next)) blockMetadataSize)) next =
          getNextPtr m next := getNextPtr_congr (agreeOn_setSize _ _ _ _ _ (Or.inr hfar))
      dsimp only
      rw [hsame]
      refine getNextPtr_setNextPtr hpos ?_
      rw [getNextPtr_of_pos (by omega)]
      exact load64_lt m _
    · exact Or.inl rfl

/-- After `do_deallocate_sm` the header links to the free block behind it or to the one
after that. -/
theorem getNextPtr_putBack {m : Memory} {prev header next : ℕ} (hpos : 0 < header)
    (hprev : prev = 0 ∨ prev + 16 ≤ header) (hnext : next = 0 ∨ header + 16 ≤ next)
    (hlt : next < 2 ^ 64) :
    getNextPtr (putBack m prev header next) header = next ∨
      (next ≠ 0 ∧ getNextPtr (putBack m prev header next) header = getNextPtr m next) := by
  have hheader : getNextPtr (setNextPtr (relink m prev header) header next) header = next :=
    getNextPtr_setNextPtr hpos hlt
  have hput : putBack m prev header next =
      if (tryMerge (setNextPtr (relink m prev header) header next) prev header).1 then
        (tryMerge (tryMerge (setNextPtr (relink m prev header) header next) prev header).2 prev
          next).2
      else (tryMerge (tryMerge (setNextPtr (relink m prev header) header next) prev header).2
        header next).2 := rfl
  have hfirst (x : ℕ) (hx : x = header ∨ header + 16 ≤ x) :
      getNextPtr (tryMerge (setNextPtr (relink m prev header) header next) prev header).2 x =
        getNextPtr (setNextPtr (relink m prev header) header next) x := by
    rcases hprev with rfl | hprev
    · unfold tryMerge
      rw [if_pos (Or.inl rfl)]
    · exact getNextPtr_congr (agreeOn_tryMerge (by omega))
  rw [hput]
  split
  case isTrue hmerged =>
    left
    have hprev' : prev + 16 ≤ header := by
      refine hprev.resolve_left ?_
      rintro rfl
      unfold tryMerge at hmerged
      rw [if_pos (Or.inl rfl)] at hmerged
      cases hmerged
    rw [getNextPtr_congr (agreeOn_tryMerge (Or.inr hprev')), hfirst header (Or.inl rfl), hheader]
  case isFalse hmerged =>
    rcases getNextPtr_tryMerge (m := (tryMerge (setNextPtr (relink m prev header) header next) prev
      header).2) hpos hnext with hsame | ⟨hne, hsame⟩
    · left
      rw [hsame, hfirst header (Or.inl rfl), hheader]
    · have hfar := hnext.resolve_left hne
      refine Or.inr ⟨hne, ?_⟩
      rw [hsame, hfirst next (Or.inr hfar),
        getNextPtr_congr (agreeOn_setNextPtr _ header next next (next + 16) (Or.inr hfar))]
      exact getNextPtr_congr (agreeOn_relink m prev header _ _ (by omega))

theorem Linked.free_next {m : Memory} {tag : Option ℕ} {a x : ℕ} {b : Block} {bs : List Block}
    (hl : Linked m tag a bs 0) (hx : (x, b) ∈ placed len a bs) (hf : b.free = true) :
    getNextPtr m x = 0 ∨ a ≤ getNextPtr m x := by
  obtain ⟨pre, post, rfl, rfl⟩ := (mem_placed_iff len).mp hx
  obtain ⟨-, -, hn, -⟩ := (linked_append ..).mp hl
  rw [hf, if_pos rfl] at hn
  rw [hn]
  have hbounds := firstFreeOf_bounds (a + span len pre + b.len) post 0
  omega

theorem firstFreeOf_placed {a : ℕ} {bs : List Block} (h : firstFreeOf a bs 0 ≠ 0) :
    ∃ b, (firstFreeOf a bs 0, b) ∈ placed len a bs ∧ b.free = true := by
  induction bs generalizing a with
  | nil => exact absurd rfl h
  | cons c bs ih =>
    rw [firstFreeOf] at h ⊢
    cases hf : c.free with
    | true =>
      rw [if_pos rfl]
      exact ⟨c, List.mem_cons_self .., hf⟩
    | false =>
      rw [hf, if_neg Bool.false_ne_true] at h
      rw [if_neg Bool.false_ne_true]
      obtain ⟨b, hb, hbf⟩ := ih h
      exact ⟨b, List.mem_cons_of_mem _ hb, hbf⟩

theorem Pool.freed_tag {s s' : SortedList} {pre post : List Block} {b : Block}
    (h : Pool s (pre ++ b :: post)) (hf : b.free = false)
    (hok : s.deallocate (base s + span len pre + 16) = .ok s') :
    getNextPtr s'.memory (base s + span len pre) ≠ s.trusted := by
  have hbase := base_eq s
  have hpos := h.nonnull
  have hb := b.len_eq
  have hbound := h.bounded
  have htiles := h.tiles
  rw [span_append, span_cons] at htiles
  obtain ⟨prev, hfound, hmemory⟩ := deallocate_accepted hok
  rw [h.header_eq] at hfound hmemory
  rw [h.prevFree_ok] at hfound
  cases hfound
  rw [h.nextFree_eq hf] at hmemory
  have hlast := lastFreeOf_bounds (base s) pre 0
  have hnext := firstFreeOf_bounds (base s + span len pre + b.len) post 0
  rw [hmemory]
  have hprev : lastFreeOf (base s) pre 0 = 0 ∨
      lastFreeOf (base s) pre 0 + 16 ≤ base s + span len pre := by omega
  have hfar : firstFreeOf (base s + span len pre + b.len) post 0 = 0 ∨
      base s + span len pre + 16 ≤ firstFreeOf (base s + span len pre + b.len) post 0 := by omega
  rcases getNextPtr_putBack (m := s.memory) (show 0 < base s + span len pre by omega) hprev hfar
    (by omega) with hlink | ⟨hne, hlink⟩
  · rw [hlink]
    omega
  · rw [hlink]
    obtain ⟨c, hc, hcf⟩ := firstFreeOf_placed hne
    obtain ⟨-, -, -, hpost⟩ := (linked_append ..).mp h.linked
    have hfree := hpost.free_next hc hcf
    omega

/-! ### Which pointers are refused -/

theorem Kept.freed_foreign {trusted n : ℕ} {s s' : SortedList} {live : List (ℕ × ℕ)} {p size : ℕ}
    (h : Kept trusted n s live) (hm : (p, size) ∈ live) (hok : s.deallocate p = .ok s')
    {m : Memory} (hsame : AgreeOn s'.memory m (p - 8) p) :
    getNextPtr m (sizeSub p blockMetadataSize) ≠ trusted := by
  obtain ⟨rfl, -, bs, hpool, hlive⟩ := h
  obtain ⟨pre, b, post, rfl, hf, -, rfl⟩ := held_of_grants (hlive.mem_iff.mp hm)
  have htag := hpool.freed_tag hf hok
  have hbase := base_eq s
  have hpos := hpool.nonnull
  have hbound := hpool.bounded
  have htiles := hpool.tiles
  rw [hpool.header_eq]
  rw [getNextPtr_of_pos (by omega)] at htag ⊢
  rwa [← load64_congr (hsame.mono (by omega) (by omega))]

/-- A pointer is refused exactly if a logger is attached and the header carries another
address. The header of a free block does, and so does the header of a block that was
returned, for as long as nobody stores over it. -/
theorem sorted_list_refuses_iff (trusted n : ℕ) (logger : Bool) (mode : FitMode) (m : Memory)
    (ht : 0 < trusted) (hregion : trusted + n + 92 ≤ 2 ^ 64) (c : Client SortedList)
    (hr : ops.Reachable NoWrap (construct trusted n logger mode m) c) :
    (∀ p, Rejects c.state p ↔ c.state.logger = true ∧ ForeignTag c.state p) ∧
    (∀ blocks, c.state.freeBlocks = .ok blocks →
      ∀ x ∈ blocks, Rejects c.state (x + blockMetadataSize) ↔ c.state.logger = true) ∧
    ∀ p size s' c', (p, size) ∈ c.live → c.state.deallocate p = .ok s' →
      Relation.ReflTransGen (ops.Step NoWrap) ⟨s', c.live.erase (p, size)⟩ c' →
      AgreeOn s'.memory c'.state.memory (p - 8) p →
      (Rejects c'.state p ↔ c'.state.logger = true) := by
  have hfresh : Kept trusted n (construct trusted n logger mode m) [] :=
    ⟨rfl, rfl, _, construct_pool trusted n logger mode m ht hregion, List.Perm.refl _⟩
  have hk := keeps.reachable hfresh hr
  refine ⟨fun p => rejects_iff, fun blocks hblocks x hx => ?_,
    fun p size s' c' hm hok hrun hsame => ?_⟩
  · obtain ⟨-, -, bs, hpool, -⟩ := hk
    rw [hpool.freeBlocks] at hblocks
    cases hblocks
    obtain ⟨⟨y, b⟩, hy, rfl⟩ := List.mem_map.mp hx
    obtain ⟨hy, hf⟩ := List.mem_filter.mp hy
    have hfree := hpool.linked.free_next hy hf
    have hplace := placed_bounds len hy
    have hb := b.len_eq
    have htiles := hpool.tiles
    have hbound := hpool.bounded
    have hbase := base_eq c.state
    have hpos := hpool.nonnull
    have hsub : sizeSub (y + blockMetadataSize) blockMetadataSize = y := by
      show (y + 16 + (2 ^ 64 - 16 % 2 ^ 64)) % 2 ^ 64 = y
      omega
    rw [rejects_iff, ForeignTag, hsub]
    refine and_iff_left ?_
    omega
  · have hstep : ops.Step NoWrap c ⟨s', c.live.erase (p, size)⟩ :=
      AllocatorOps.Step.deallocate hm hok
    have hk' := keeps.reachable hfresh ((hr.tail hstep).trans hrun)
    rw [rejects_iff, ForeignTag, hk'.1]
    exact and_iff_left (hk.freed_foreign hm hok hsame)

theorem sorted_list_refuses_iff_logged :
    Rejects (construct 4096 64 true .firstFit (fun _ => 0)) 5000 :=
  ((sorted_list_refuses_iff 4096 64 true .firstFit (fun _ => 0) (by decide) (by decide) ⟨_, []⟩
    Relation.ReflTransGen.refl).1 5000).mpr ⟨rfl, by unfold ForeignTag; decide +kernel⟩

/-- Without a logger a block can be returned twice, and then the free list has no end. -/
theorem sorted_list_unlogged_freed_twice :
    ((do
      let (p, s) ← (construct 4096 64 false .firstFit (fun _ => 0)).allocate 8
      let s ← s.deallocate p
      s.deallocate p).map freeBlocks).map Except.toOption = .ok none := by
  decide +kernel

end MaiFaSp.SortedList
