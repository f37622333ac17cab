import MaiFaSp.Allocator.SortedListFree

/-!
# `allocator_sorted_list`: every reachable state

From a fresh allocator, allocations, returns, changes of the fit mode and stores
of the clients inside their grants all keep the pool linked, tiled and coalesced.
-/

namespace MaiFaSp.SortedList

open Memory Tiling Block

/-- What the code's own walks and headers show of a pool with the blocks `bs`. -/
structure PoolInvariant (s : SortedList) (live : List (ℕ × ℕ)) (bs : List Block) : Prop where
  tiles : base s + span len bs = s.trusted + 92 + s.spaceSize
  sizes : ∀ x b, (x, b) ∈ placed len (base s) bs → getSize s.memory x = b.size
  walk : s.getBlocksInfo = .ok (bs.map (fun b => (b.size, !b.free)))
  freeList : s.freeBlocks = .ok (freeAddresses (base s) bs)
  ascending : (freeAddresses (base s) bs).Pairwise (· < ·)
  coalesced : Coalesced free bs
  tags : ∀ x b, (x, b) ∈ placed len (base s) bs → b.free = false →
    getNextPtr s.memory x = s.trusted
  granted : live.Perm (grants len request 16 (base s) bs)
  fits : ∀ p size, (p, size) ∈ live → size ≤ getSize s.memory (p - 16)
  disjoint : (grants len request 16 (base s) bs).Pairwise
    (fun g h => g.1 + getSize s.memory (g.1 - 16) + 16 ≤ h.1)

/-- What is kept along a run. -/
def Kept (trusted n : ℕ) (s : SortedList) (live : List (ℕ × ℕ)) : Prop :=
  s.trusted = trusted ∧ s.spaceSize = n ∧
    ∃ bs, Pool s bs ∧ live.Perm (grants len request 16 (base s) bs)

theorem freeAddresses_ascending (a : ℕ) (bs : List Block) :
    (freeAddresses a bs).Pairwise (· < ·) := by
  rw [freeAddresses, List.pairwise_map]
  apply List.Pairwise.filter
  refine (placed_pairwise len a bs).imp ?_
  intro p q h
  have hp := p.2.len_eq
  omega

theorem linked_of_placed {m : Memory} {tag : Option ℕ} {a x nf : ℕ} {b : Block} {bs : List Block}
    (hl : Linked m tag a bs nf) (h : (x, b) ∈ placed len a bs) :
    getSize m x = b.size ∧ (b.free = false → ∀ t, tag = some t → getNextPtr m x = t) := by
  obtain ⟨pre, post, rfl, rfl⟩ := (mem_placed_iff len).mp h
  obtain ⟨-, hs, hn, -⟩ := (linked_append ..).mp hl
  refine ⟨hs, fun hf => ?_⟩
  rw [hf, if_neg Bool.false_ne_true] at hn
  exact hn

theorem held_of_grants {a p size : ℕ} {bs : List Block}
    (h : (p, size) ∈ grants len request 16 a bs) :
    ∃ pre b post, bs = pre ++ b :: post ∧ b.free = false ∧ b.request = some size ∧
      p = a + span len pre + 16 := by
  obtain ⟨pre, b, post, hbs, hr, hp⟩ := mem_grants len request 16 h
  refine ⟨pre, b, post, hbs, ?_, hr, hp⟩
  rw [free, hr]
  rfl

theorem Pool.invariant {s : SortedList} {bs : List Block} {live : List (ℕ × ℕ)} (h : Pool s bs)
    (hlive : live.Perm (grants len request 16 (base s) bs)) : PoolInvariant s live bs where
  tiles := by
    rw [h.tiles, base_eq]
    omega
  sizes x b hm := (linked_of_placed h.linked hm).1
  walk := h.getBlocksInfo
  freeList := h.freeBlocks
  ascending := freeAddresses_ascending _ _
  coalesced := h.coalesced
  tags x b hm hf := (linked_of_placed h.linked hm).2 hf _ rfl
  granted := hlive
  fits p size hm := by
    obtain ⟨pre, b, post, rfl, -, hr, rfl⟩ := held_of_grants (hlive.mem_iff.mp hm)
    have hs := ((linked_append ..).mp h.linked).2.1
    rw [Nat.add_sub_cancel, hs]
    exact b.fits size hr
  disjoint := by
    rw [grants, List.pairwise_filterMap]
    refine (placed_pairwise len (base s) bs).imp_of_mem ?_
    rintro ⟨x, c⟩ ⟨y, d⟩ hx - hxy g hg g' hg'
    have hs := (linked_of_placed h.linked hx).1
    have hc := c.len_eq
    obtain ⟨r, -, rfl⟩ := Option.map_eq_some_iff.mp hg
    obtain ⟨r', -, rfl⟩ := Option.map_eq_some_iff.mp hg'
    dsimp only at hxy ⊢
    rw [Nat.add_sub_cancel, hs]
    omega

/-! ### What a call keeps -/

theorem construct_pool (trusted n : ℕ) (logger : Bool) (mode : FitMode) (m : Memory)
    (ht : 0 < trusted) (hbound : trusted + n + 92 ≤ 2 ^ 64) :
    Pool (construct trusted n logger mode m) [vacant n] where
  nonnull := ht
  bounded := hbound
  tiles := by
    show 16 + n + 0 = n + 16
    omega
  first := rfl
  linked := by
    refine ⟨?_, ?_, trivial⟩
    · show getSize (setNextPtr (setSize m (trusted + 76) n) (trusted + 76) 0) (trusted + 76) = n
      rw [getSize_setNextPtr, getSize_setSize (by omega)]
    · exact getNextPtr_setNextPtr (Nat.add_pos_left ht 76) (by decide)
  top := fun b _ => Or.inl le_rfl
  coalesced := List.isChain_singleton _

theorem Linked.write {m : Memory} {tag : Option ℕ} {a x : ℕ} {pre post : List Block} {b : Block}
    (hl : Linked m tag a (pre ++ b :: post) 0) (v : UInt8) (hlo : a + span len pre + 16 ≤ x)
    (hhi : x < a + span len pre + 16 + b.size) :
    Linked (Function.update m x v) tag a (pre ++ b :: post) 0 := by
  have hb := b.len_eq
  obtain ⟨hpre, hs, hn, hpost⟩ := (linked_append ..).mp hl
  have hframe (lo hi : ℕ) (h : x < lo ∨ hi ≤ x) := agreeOn_update m x v lo hi h
  have hhead := hframe (a + span len pre) (a + span len pre + 16) (by omega)
  apply (linked_append ..).mpr
  refine ⟨hpre.congr (hframe _ _ (by omega)), (getSize_congr hhead).trans hs, ?_,
    hpost.congr (hframe _ _ (by omega))⟩
  rwa [getNextPtr_congr hhead]

theorem Pool.setMode {s : SortedList} {bs : List Block} (h : Pool s bs) (mode : FitMode) :
    Pool { s with fitMode := mode } bs :=
  ⟨⟨h.nonnull, h.bounded, h.tiles, h.first, h.linked, h.top⟩, h.coalesced⟩

theorem Pool.write {s : SortedList} {pre post : List Block} {b : Block} {x : ℕ}
    (h : Pool s (pre ++ b :: post)) (v : UInt8) (hlo : base s + span len pre + 16 ≤ x)
    (hhi : x < base s + span len pre + 16 + b.size) :
    Pool { s with memory := Function.update s.memory x v } (pre ++ b :: post) :=
  ⟨⟨h.nonnull, h.bounded, h.tiles, h.first, h.linked.write v hlo hhi, h.top⟩, h.coalesced⟩

variable {trusted n : ℕ}

theorem Kept.allocate {s s' : SortedList} {live : List (ℕ × ℕ)} {size p : ℕ}
    (h : Kept trusted n s live) (hsize : size + 16 < 2 ^ 64)
    (ha : s.allocate size = .ok (p, s')) : Kept trusted n s' ((p, size) :: live) := by
  obtain ⟨ht, hn, bs, hpool, hlive⟩ := h
  rcases allocate_spec hpool hsize with herr | ⟨pre, b, post, s'', hfit, rfl, hf, hok, ht', hn', hp⟩
  · rw [ha] at herr
    cases herr
  · rw [ha] at hok
    cases hok
    have hbase : base s' = base s := by rw [base_eq, base_eq, ht']
    refine ⟨ht'.trans ht, hn'.trans hn, _, hp, ?_⟩
    rw [hbase, grants_append, grants_carve hfit]
    rw [grants_append, grants_cons_none len request 16 (b.free_iff.mp hf)] at hlive
    exact (hlive.cons _).trans List.perm_middle.symm

theorem Kept.deallocate {s : SortedList} {live : List (ℕ × ℕ)} {size p : ℕ}
    (h : Kept trusted n s live) (hm : (p, size) ∈ live) :
    ∃ s', s.deallocate p = .ok s' ∧ Kept trusted n s' (live.erase (p, size)) := by
  obtain ⟨ht, hn, bs, hpool, hlive⟩ := h
  obtain ⟨pre, b, post, rfl, hf, hr, rfl⟩ := held_of_grants (hlive.mem_iff.mp hm)
  obtain ⟨xs, z, s', hj, hok, ht', hn', hp⟩ := deallocate_spec hpool hf
  have hbase : base s' = base s := by rw [base_eq, base_eq, ht']
  refine ⟨s', hok, ht'.trans ht, hn'.trans hn, _, hp, ?_⟩
  have hspan := hj.span_eq
  have hb := b.len_eq
  rw [grants_append, grants_cons_some len request 16 hr] at hlive
  have hrest := ((List.perm_cons_erase hm).symm.trans (hlive.trans List.perm_middle)).cons_inv
  rw [hbase, grants_append, hj.grants_eq, grants_joinRight]
  rwa [show base s + span len xs + (16 + z) = base s + span len pre + b.len by omega]

/-- Sizes that `do_allocate_sm` can be asked for without a wrap in its comparison. -/
def NoWrap (size : ℕ) : Prop := size + 16 < 2 ^ 64

theorem keeps : ops.Keeps NoWrap (Kept trusted n) where
  allocate h hsize ha := h.allocate hsize ha
  deallocate h hm hd := by
    obtain ⟨s', hok, hk⟩ := h.deallocate hm
    rw [show ops.deallocate _ _ = _ from hok] at hd
    cases hd
    exact hk
  setMode mode h := by
    obtain ⟨ht, hn, bs, hpool, hlive⟩ := h
    exact ⟨ht, hn, bs, hpool.setMode mode, hlive⟩
  write v h hm hw := by
    obtain ⟨ht, hn, bs, hpool, hlive⟩ := h
    obtain ⟨pre, b, post, rfl, -, hr, rfl⟩ := held_of_grants (hlive.mem_iff.mp hm)
    have hfit := b.fits _ hr
    exact ⟨ht, hn, _, hpool.write v hw.1 (hw.2.trans_le (by omega)), hlive⟩

theorem total : ops.Total NoWrap (Kept trusted n) where
  allocate h hsize := by
    obtain ⟨-, -, bs, hpool, -⟩ := h
    rcases allocate_spec hpool hsize with herr | ⟨pre, b, post, s', -, -, -, hok, -⟩
    · exact Or.inr herr
    · exact Or.inl ⟨_, s', hok⟩
  deallocate h hm := by
    obtain ⟨s', hok, -⟩ := h.deallocate hm
    exact ⟨s', hok⟩

theorem Kept.all_free {s : SortedList} (h : Kept trusted n s []) : PoolInvariant s [] [vacant n] := by
  obtain ⟨ht, hn, bs, hpool, hlive⟩ := h
  have hnone := request_eq_none_of_grants len request 16 (List.nil_perm.mp hlive)
  have hone := coalesced_all_free hpool.coalesced (fun b hb => b.free_iff.mpr (hnone b hb))
  have htiles := hpool.tiles
  cases bs with
  | nil => exact absurd rfl hpool.nonempty
  | cons b bs =>
    have hnil : bs = [] := by
      apply List.eq_nil_of_length_eq_zero
      rw [List.length_cons] at hone
      omega
    have hsize : b = vacant n := by
      have hb := b.len_eq
      have hreq := hnone b (List.mem_cons_self ..)
      rw [hnil, span_cons, span_nil, hn] at htiles
      obtain ⟨size, request, fits⟩ := b
      cases hreq
      have hs : size = n := by
        dsimp only at hb
        omega
      cases hs
      rfl
    rw [hnil, hsize] at hpool
    exact hpool.invariant (List.Perm.refl _)

end MaiFaSp.SortedList
