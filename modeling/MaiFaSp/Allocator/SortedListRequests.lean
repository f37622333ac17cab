import MaiFaSp.Allocator.SortedListInvariant

/-!
# `allocator_sorted_list`: which requests are safe (`allocator_sorted_list.cpp:129-205`)

The size of the header is added to the request modulo `2 ^ 64` before the fit test, so
a request close to the maximum looks like a small one.
-/

namespace MaiFaSp.SortedList

open Memory Tiling Block

/-! ### The search finds a block when there is one -/

theorem replacedBy_none {c : Choice} (h : c.result = 0) (mode : FitMode) (n : ℕ) :
    c.replacedBy mode n = true := by
  cases mode with
  | firstFit => rfl
  | theBestFit => exact decide_eq_true (Or.inl h)
  | theWorstFit => exact decide_eq_true (Or.inl h)

theorem fitLoop_finds {m : Memory} {tag : Option ℕ} {a n : ℕ} {bs : List Block} {mode : FitMode}
    {size prev : ℕ} {c c' : Choice} (hl : Linked m tag a bs 0) (ha : 0 < a) (hn : bs.length ≤ n)
    (hfit : c.result ≠ 0 ∨ ∃ b ∈ bs, b.free = true ∧ sizeAdd size blockMetadataSize ≤ b.size)
    (h : fitLoop m mode size n (firstFreeOf a bs 0) prev c = .ok c') : c'.result ≠ 0 := by
  induction bs generalizing a n prev c with
  | nil =>
    have hc : c' = c := by cases n <;> cases h <;> rfl
    rw [hc]
    exact hfit.resolve_right (by rintro ⟨b, hb, -⟩; cases hb)
  | cons b bs ih =>
    obtain ⟨hs, hnext, hr⟩ := hl
    rw [List.length_cons] at hn
    cases hf : b.free with
    | false =>
      rw [firstFreeOf, hf, if_neg Bool.false_ne_true] at h
      refine ih hr (by omega) (by omega) (hfit.imp_right ?_) h
      rintro ⟨d, hd, hdf, hds⟩
      rcases List.mem_cons.mp hd with rfl | hd
      · rw [hf] at hdf
        cases hdf
      · exact ⟨d, hd, hdf, hds⟩
    | true =>
      rw [hf, if_pos rfl] at hnext
      obtain ⟨k, rfl⟩ : ∃ k, n = k + 1 := ⟨n - 1, by omega⟩
      rw [firstFreeOf, hf, if_pos rfl, fitLoop, if_neg ha.ne', hs, hnext] at h
      dsimp only at h
      split at h
      case isTrue hb =>
        split at h
        case isTrue hmode =>
          cases h
          exact ha.ne'
        case isFalse hmode => exact ih hr (by omega) (by omega) (Or.inl ha.ne') h
      case isFalse hb =>
        refine ih hr (by omega) (by omega) ?_ h
        by_cases hc : c.result = 0
        · obtain ⟨d, hd, hdf, hds⟩ := hfit.resolve_left (not_not.mpr hc)
          rcases List.mem_cons.mp hd with rfl | hd
          · exact absurd ⟨hds, replacedBy_none hc mode _⟩ hb
          · exact Or.inr ⟨d, hd, hdf, hds⟩
        · exact Or.inl hc

/-! ### What the logger's walks may end with -/

theorem blocksFrom_fault {s : SortedList} {n : ℕ} {it : Iterator} {e : AllocFault}
    (h : blocksFrom s n it = .error e) : e = .diverged := by
  induction n generalizing it with
  | zero =>
    unfold blocksFrom at h
    split at h <;> cases h
    rfl
  | succ n ih =>
    unfold blocksFrom at h
    split at h
    · cases h
    · cases hrest : blocksFrom s n (it.next s) with
      | error f =>
        rw [hrest] at h
        cases h
        exact ih hrest
      | ok rest =>
        rw [hrest] at h
        cases h

theorem freeBlocksFrom_fault {m : Memory} {n it : ℕ} {e : AllocFault}
    (h : freeBlocksFrom m n it = .error e) : e = .diverged := by
  induction n generalizing it with
  | zero =>
    unfold freeBlocksFrom at h
    split at h <;> cases h
    rfl
  | succ n ih =>
    unfold freeBlocksFrom at h
    split at h
    · cases h
    · cases hrest : freeBlocksFrom m n (getNextPtr m it) with
      | error f =>
        rw [hrest] at h
        cases h
        exact ih hrest
      | ok rest =>
        rw [hrest] at h
        cases h

theorem report_fault {s : SortedList} {e : AllocFault} (h : report s = .error e) :
    e = .diverged := by
  unfold report getFreeMemoryCount at h
  split at h
  case isFalse => cases h
  case isTrue =>
    cases hfree : s.freeBlocks with
    | error f =>
      rw [hfree] at h
      cases h
      exact freeBlocksFrom_fault hfree
    | ok free =>
      cases hblocks : s.getBlocksInfo with
      | error f =>
        rw [hfree, hblocks] at h
        cases h
        exact blocksFrom_fault hblocks
      | ok blocks =>
        rw [hfree, hblocks] at h
        cases h

/-! ### Refusals -/

/-- No free block passes the fit test. -/
def NothingFits (s : SortedList) (size : ℕ) : Prop :=
  ∀ blocks, s.freeBlocks = .ok blocks →
    ∀ b ∈ blocks, getSize s.memory b < sizeAdd size blockMetadataSize

theorem Pool.nothingFits_iff {s : SortedList} {bs : List Block} (h : Pool s bs) {size : ℕ} :
    NothingFits s size ↔ ∀ b ∈ bs, b.free = true → b.size < sizeAdd size blockMetadataSize := by
  have hsizes {x : ℕ} {b : Block} (hx : (x, b) ∈ placed len (base s) bs) :
      getSize s.memory x = b.size := (linked_of_placed h.linked hx).1
  constructor
  · intro hfits b hb hf
    obtain ⟨pre, post, rfl⟩ := List.append_of_mem hb
    have hx : (base s + span len pre, b) ∈ placed len (base s) (pre ++ b :: post) :=
      (mem_placed_iff len).mpr ⟨pre, post, rfl, rfl⟩
    rw [← hsizes hx]
    refine hfits _ h.freeBlocks _ ?_
    exact List.mem_map.mpr ⟨_, List.mem_filter.mpr ⟨hx, hf⟩, rfl⟩
  · intro hfits blocks hblocks x hx
    rw [h.freeBlocks] at hblocks
    cases hblocks
    obtain ⟨⟨y, b⟩, hy, rfl⟩ := List.mem_map.mp hx
    obtain ⟨hy, hf⟩ := List.mem_filter.mp hy
    rw [hsizes hy]
    obtain ⟨pre, post, rfl, -⟩ := (mem_placed_iff len).mp hy
    exact hfits b (by simp) hf

theorem allocate_refuses {s : SortedList} {size : ℕ}
    (h : fitLoop s.memory s.fitMode size (turns s) s.firstFree 0 noChoice = .ok noChoice) :
    s.allocate size = .error .badAlloc := by
  unfold allocate
  rw [h]
  rfl

theorem allocate_not_refused {s : SortedList} {size : ℕ} {c : Choice}
    (h : fitLoop s.memory s.fitMode size (turns s) s.firstFree 0 noChoice = .ok c)
    (hc : c.result ≠ 0) : s.allocate size ≠ .error .badAlloc := by
  intro hbad
  unfold allocate at hbad
  rw [h] at hbad
  simp only [bind, Except.bind, if_neg hc] at hbad
  split at hbad
  case h_1 e hreport =>
    cases hbad
    cases report_fault hreport
  case h_2 => cases hbad

theorem Pool.allocate_refused_iff {s : SortedList} {bs : List Block} (h : Pool s bs) {size : ℕ} :
    s.allocate size = .error .badAlloc ↔ NothingFits s size := by
  have hpos : 0 < base s := Nat.add_pos_left h.nonnull _
  obtain ⟨c, hc, hchosen⟩ := fitLoop_spec s.fitMode size h.linked hpos h.length_le 0 noChoice
  rw [h.nothingFits_iff]
  constructor
  · intro hbad b hb hf
    by_contra hle
    have hne := fitLoop_finds h.linked hpos h.length_le (Or.inr ⟨b, hb, hf, not_lt.mp hle⟩) hc
    rw [← h.first] at hc
    exact allocate_not_refused hc hne hbad
  · intro hfits
    rcases hchosen with rfl | ⟨pre, b, post, rfl, hf, hle, -⟩
    · rw [← h.first] at hc
      exact allocate_refuses hc
    · exact absurd hle (not_le.mpr (hfits b (by simp) hf))

/-! ### Safe requests -/

/-- The bytes that the header of a grant records. -/
def payloadSize (s : SortedList) (p : ℕ) : ℕ := getSize s.memory (p - blockMetadataSize)

/-- The request is refused, or the grant has `size` bytes, lies in the pool and meets no
other grant. -/
def RequestSafe (s : SortedList) (live : List (ℕ × ℕ)) (size : ℕ) : Prop :=
  s.allocate size = .error .badAlloc ∨
    ∃ p s', s.allocate size = .ok (p, s') ∧ size ≤ payloadSize s' p ∧
      base s + blockMetadataSize ≤ p ∧ p + payloadSize s' p ≤ base s + blockMetadataSize + s.spaceSize ∧
      ∀ q n, (q, n) ∈ live → q + payloadSize s' q ≤ p ∨ p + payloadSize s' p ≤ q

theorem PoolInvariant.grant_bounds {s : SortedList} {live : List (ℕ × ℕ)} {bs : List Block}
    (h : PoolInvariant s live bs) {p size : ℕ} (hm : (p, size) ∈ live) :
    base s + 16 ≤ p ∧ p + payloadSize s p ≤ base s + 16 + s.spaceSize := by
  obtain ⟨pre, b, post, rfl, -, -, rfl⟩ := held_of_grants (h.granted.mem_iff.mp hm)
  have hx : (base s + span len pre, b) ∈ placed len (base s) (pre ++ b :: post) :=
    (mem_placed_iff len).mpr ⟨pre, post, rfl, rfl⟩
  have hsize : payloadSize s (base s + span len pre + 16) = b.size := h.sizes _ _ hx
  have htiles := h.tiles
  have hb := b.len_eq
  rw [span_append, span_cons, base_eq] at htiles
  rw [hsize, base_eq]
  omega

theorem Kept.requestSafe {trusted n : ℕ} {s : SortedList} {live : List (ℕ × ℕ)} {size : ℕ}
    (h : Kept trusted n s live) (hsize : NoWrap size) : RequestSafe s live size := by
  rcases total.allocate h hsize with ⟨p, s', hok⟩ | hbad
  · refine Or.inr ⟨p, s', hok, ?_⟩
    obtain ⟨ht', hn', bs, hpool, hlive⟩ := h.allocate hsize hok
    have hinv := hpool.invariant hlive
    have hmem : (p, size) ∈ (p, size) :: live := List.mem_cons_self ..
    obtain ⟨hlo, hhi⟩ := hinv.grant_bounds hmem
    have hbase : base s' = base s := by rw [base_eq, base_eq, ht', h.1]
    rw [hbase, hn', ← h.2.1] at hhi
    rw [hbase] at hlo
    refine ⟨hinv.fits p size hmem, hlo, hhi, fun q m hq => ?_⟩
    rcases new_grant_related hlive hinv.disjoint (q, m) hq with hpq | hqp
    · exact Or.inr ((Nat.le_add_right _ 16).trans hpq)
    · exact Or.inl ((Nat.le_add_right _ 16).trans hqp)
  · exact Or.inl hbad

/-- A request is safe exactly if its size with the header is computed without a wrap, or
the wrapped size fits into no free block. -/
theorem sorted_list_requestSafe_iff (trusted n : ℕ) (logger : Bool) (mode : FitMode) (m : Memory)
    (ht : 0 < trusted) (hregion : trusted + n + 92 ≤ 2 ^ 64) (c : Client SortedList)
    (hr : ops.Reachable NoWrap (construct trusted n logger mode m) c) (size : ℕ) :
    RequestSafe c.state c.live size ↔ NoWrap size ∨ NothingFits c.state size := by
  have hfresh : Kept trusted n (construct trusted n logger mode m) [] :=
    ⟨rfl, rfl, _, construct_pool trusted n logger mode m ht hregion, List.Perm.refl _⟩
  have hk := keeps.reachable hfresh hr
  obtain ⟨-, -, bs, hpool, -⟩ := id hk
  constructor
  · rintro (hbad | ⟨p, s', -, hfits, hlo, hhi, -⟩)
    · exact Or.inr (hpool.allocate_refused_iff.mp hbad)
    · have hbound := hpool.bounded
      have hbase := base_eq c.state
      left
      unfold NoWrap
      omega
  · rintro (hsize | hfits)
    · exact hk.requestSafe hsize
    · exact Or.inl (hpool.allocate_refused_iff.mpr hfits)

theorem sorted_list_requestSafe_iff_small :
    RequestSafe (construct 4096 64 false .firstFit (fun _ => 0)) [] 24 :=
  (sorted_list_requestSafe_iff 4096 64 false .firstFit (fun _ => 0) (by decide) (by decide) ⟨_, []⟩
    Relation.ReflTransGen.refl 24).mpr (Or.inl (show 24 + 16 < 2 ^ 64 by decide))

/-- A request that wraps gets a block of the fresh pool of 64 bytes. -/
theorem sorted_list_request_wrapped :
    ¬ RequestSafe (construct 4096 64 false .firstFit (fun _ => 0)) [] (2 ^ 64 - 16) := by
  rintro (hbad | ⟨p, s', -, hfits, hlo, hhi, -⟩)
  · have hok : ((construct 4096 64 false .firstFit (fun _ => 0)).allocate (2 ^ 64 - 16)).map
        Prod.fst = .ok (4096 + 92) := by decide +kernel
    rw [hbad] at hok
    cases hok
  · change 4096 + 76 + 16 ≤ p at hlo
    change p + payloadSize s' p ≤ 4096 + 76 + 16 + 64 at hhi
    omega

end MaiFaSp.SortedList
