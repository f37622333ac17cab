import MaiFaSp.Allocator.BoundaryTagsInvariant
import MaiFaSp.Lib.FirstLeast

/-!
# `allocator_boundary_tags`: which gap a request gets (`allocator_boundary_tags.cpp:249-326`)

A gap is known by the block in front of it, the leading gap by the address of the pool. The loops
look for it among the positions of the iterator.
-/

namespace MaiFaSp.BoundaryTags

open Memory Tiling DoublyLinked Tile

variable {s : BoundaryTags} {pre post ts : List Tile} {t : Tile} {size p : ℕ}

/-! ### Gaps -/

/-- Where the free space behind `p` ends. -/
def gapEnd (s : BoundaryTags) (p : ℕ) : ℕ :=
  if blockAfter s p = 0 then allocatorEnd s else blockAfter s p

def gapSize (s : BoundaryTags) (p : ℕ) : ℕ := gapEnd s p - endOf s p

/-- There is free space behind `p`, one of the blocks `xs` or the marker of the leading gap. -/
def IsGap (s : BoundaryTags) (xs : List ℕ) (p : ℕ) : Prop :=
  p ∈ s.trusted :: xs ∧ endOf s p < gapEnd s p

namespace Pool

theorem gapEnd_eq (h : Pool s (pre ++ t :: post)) (ht : t.free = true) :
    gapEnd s (lastBlock s pre) = base s + span len pre + t.len := by
  have hafter := h.blockAfter_gap ht
  have htiles := h.tiles
  have hpos := h.nonnull
  have hb := base_eq s
  rw [span_append, span_cons] at htiles
  rw [gapEnd, hafter, allocatorEnd_eq]
  cases post with
  | nil =>
    rw [if_pos rfl, if_pos rfl, ← htiles, span_nil]
    omega
  | cons u post =>
    rw [if_neg (List.cons_ne_nil u post), if_neg (by omega)]

theorem gapSize_eq (h : Pool s (pre ++ t :: post)) (ht : t.free = true) :
    gapSize s (lastBlock s pre) = t.len := by
  rw [gapSize, h.gapEnd_eq ht, h.endOf_eq ht]
  omega

theorem lastBlock_mem (s : BoundaryTags) (pre post : List Tile) :
    lastBlock s pre ∈ s.trusted :: addresses (base s) (pre ++ post) := by
  rcases lastBlock_cases s pre with ⟨-, hp⟩ | ⟨hlast, -⟩
  · rw [hp]
    exact List.mem_cons_self
  · rw [addresses_append]
    exact List.mem_cons_of_mem _ (List.mem_append_left _ (List.mem_of_getLast? hlast))

/-- Behind the last tile of `pre`, unless that is a gap, there is free space only if a gap is next. -/
theorem next_free_of_lt (h : Pool s (pre ++ post)) (hp : endOf s p = base s + span len pre)
    (hafter : blockAfter s p = (addresses (base s + span len pre) post).headD 0)
    (hlt : endOf s p < gapEnd s p) : ∃ t rest, post = t :: rest ∧ t.free = true := by
  have htiles := h.tiles
  have hb := base_eq s
  have hpos := h.nonnull
  rw [gapEnd, hafter, hp] at hlt
  cases post with
  | nil =>
    rw [List.append_nil] at htiles
    rw [addresses_nil, List.headD_nil, if_pos rfl, allocatorEnd_eq, ← htiles] at hlt
    exact absurd hlt (lt_irrefl _)
  | cons t rest =>
    cases ht : t.free with
    | true => exact ⟨t, rest, rfl, ht⟩
    | false =>
      rw [addresses_cons_held rest ht, List.headD_cons, if_neg (by omega)] at hlt
      exact absurd hlt (lt_irrefl _)

/-- The gaps behind the linked blocks are the free tiles. -/
theorem isGap_iff (h : Pool s ts) : IsGap s (addresses (base s) ts) p ↔
    ∃ pre t post, ts = pre ++ t :: post ∧ t.free = true ∧ p = lastBlock s pre := by
  constructor
  · rintro ⟨hp, hlt⟩
    rcases List.mem_cons.mp hp with rfl | hp
    · have hend : endOf s s.trusted = base s + span len [] := if_pos rfl
      have hafter : blockAfter s s.trusted = (addresses (base s + span len []) ts).headD 0 :=
        (if_pos rfl).trans h.first
      have h' : Pool s ([] ++ ts) := h
      obtain ⟨t, rest, rfl, ht⟩ := h'.next_free_of_lt hend hafter hlt
      exact ⟨[], t, rest, rfl, ht, rfl⟩
    · obtain ⟨⟨x, u⟩, hm, rfl⟩ := List.mem_map.mp hp
      obtain ⟨hplaced, hu⟩ := mem_blocks hm
      obtain ⟨pre, post, rfl, rfl⟩ := (mem_placed_iff len).mp hplaced
      obtain ⟨hend, -, -, -, hnext⟩ := h.held_header hu
      have hlast : lastBlock s (pre ++ [u]) = base s + span len pre := lastBlock_append_held hu
      have hne : base s + span len pre ≠ s.trusted := by
        have hb := base_eq s
        omega
      have hspan : base s + span len (pre ++ [u]) = base s + span len pre + u.len := by
        rw [span_append, span_cons, span_nil, Nat.add_zero, ← Nat.add_assoc]
      have h' : Pool s ((pre ++ [u]) ++ post) := by simpa using h
      obtain ⟨t, rest, rfl, ht⟩ := h'.next_free_of_lt
        (show endOf s (base s + span len pre) = _ by rw [endOf, if_neg hne, hend, hspan])
        (show blockAfter s (base s + span len pre) = _ by rw [blockAfter, if_neg hne, hnext, hspan])
        hlt
      exact ⟨pre ++ [u], t, rest, by simp, ht, hlast.symm⟩
  · rintro ⟨pre, t, post, rfl, ht, rfl⟩
    refine ⟨lastBlock_mem s pre _, ?_⟩
    rw [h.endOf_eq ht, h.gapEnd_eq ht]
    have hne := t.nonempty
    omega

end Pool

/-! ### Positions on large enough gaps -/

/-- What the loops look for. -/
def suits (s : BoundaryTags) (size : ℕ) (it : Iterator) : Bool :=
  !it.occupied && decide (size ≤ it.size s)

theorem suits_iff {it : Iterator} :
    suits s size it = true ↔ it.occupied = false ∧ size ≤ it.size s := by
  unfold suits
  rw [Bool.and_eq_true, Bool.not_eq_true', decide_eq_true_iff]

/-- The positions that suit, in the order of the loops. -/
def suitable (s : BoundaryTags) (size : ℕ) (ts : List Tile) : List Iterator :=
  (positions s [] ts).filter (suits s size)

namespace Pool

theorem position_ne (h : Pool s ts) {it : Iterator} (hit : it ∈ positions s [] ts) :
    it.occupiedPtr ≠ 0 := by
  obtain ⟨pre, t, post, rfl, rfl⟩ := mem_positions hit
  exact h.iterAt_nonnull

theorem mem_suitable (h : Pool s ts) {it : Iterator} : it ∈ suitable s size ts ↔
    ∃ pre t post, ts = pre ++ t :: post ∧ t.free = true ∧ size ≤ t.len ∧
      it = ⟨lastBlock s pre, false⟩ := by
  rw [suitable, List.mem_filter, suits_iff]
  constructor
  · rintro ⟨hm, hocc, hsize⟩
    obtain ⟨pre, t, post, rfl, rfl⟩ := mem_positions hm
    rw [List.nil_append] at hocc hsize ⊢
    have ht : t.free = true := by
      rwa [iterAt_occupied, Bool.not_eq_false'] at hocc
    rw [h.iterAt_size] at hsize
    exact ⟨pre, t, post, rfl, ht, hsize, if_pos ht⟩
  · rintro ⟨pre, t, post, rfl, ht, hsize, rfl⟩
    have hat : iterAt s pre (t :: post) = ⟨lastBlock s pre, false⟩ := if_pos ht
    have hm := positions_mem s [] pre t post
    rw [List.nil_append, hat] at hm
    have hlen := h.iterAt_size
    rw [hat] at hlen
    exact ⟨hm, rfl, hsize.trans_eq hlen.symm⟩

/-- A position on a large enough gap stands for it. -/
theorem suitable_gap (h : Pool s ts) {it : Iterator} (hit : it ∈ suitable s size ts) :
    IsGap s (addresses (base s) ts) it.occupiedPtr ∧ size ≤ gapSize s it.occupiedPtr ∧
      it.size s = gapSize s it.occupiedPtr ∧
      getNextFreeBlockSize s it.occupiedPtr = gapSize s it.occupiedPtr := by
  obtain ⟨pre, t, post, rfl, ht, hsize, rfl⟩ := h.mem_suitable.mp hit
  have hat : iterAt s pre (t :: post) = ⟨lastBlock s pre, false⟩ := if_pos ht
  have hlen := h.iterAt_size
  rw [hat] at hlen
  refine ⟨h.isGap_iff.mpr ⟨pre, t, post, rfl, ht, rfl⟩, ?_, ?_, ?_⟩
  · rw [h.gapSize_eq ht]
    exact hsize
  · rw [hlen, h.gapSize_eq ht]
  · rw [h.getNextFreeBlockSize_eq ht, h.gapSize_eq ht]

/-- Every large enough gap is at one of the positions. -/
theorem gap_suitable (h : Pool s ts) (hp : IsGap s (addresses (base s) ts) p)
    (hsize : size ≤ gapSize s p) : (⟨p, false⟩ : Iterator) ∈ suitable s size ts := by
  obtain ⟨pre, t, post, rfl, ht, rfl⟩ := h.isGap_iff.mp hp
  rw [h.gapSize_eq ht] at hsize
  exact h.mem_suitable.mpr ⟨pre, t, post, rfl, ht, hsize, rfl⟩

/-- The positions on gaps come in the order of their addresses. -/
theorem positions_pairwise (h : Pool s (pre ++ post)) :
    (positions s pre post).Pairwise fun it it' => it.occupied = false → it'.occupied = false →
      endOf s it.occupiedPtr ≤ endOf s it'.occupiedPtr := by
  induction post generalizing pre with
  | nil => exact List.Pairwise.nil
  | cons t post ih =>
    have h' : Pool s ((pre ++ [t]) ++ post) := by simpa using h
    refine List.Pairwise.cons (fun it' hm hocc hocc' => ?_) (ih h')
    obtain ⟨xs, u, ys, rfl, rfl⟩ := mem_positions hm
    have hu : Pool s ((pre ++ [t] ++ xs) ++ u :: ys) := by simpa using h
    rw [iterAt_occupied, Bool.not_eq_false'] at hocc hocc'
    rw [iterAt, if_pos hocc, iterAt, if_pos hocc', h.endOf_eq hocc, hu.endOf_eq hocc', span_append,
      span_append]
    omega

theorem suitable_pairwise (h : Pool s ts) : (suitable s size ts).Pairwise fun it it' =>
    endOf s it.occupiedPtr ≤ endOf s it'.occupiedPtr := by
  have h' : Pool s ([] ++ ts) := h
  refine (h'.positions_pairwise.filter _).imp_of_mem fun {it it'} hm hm' hle => ?_
  exact hle (suits_iff.mp (List.mem_filter.mp hm).2).1 (suits_iff.mp (List.mem_filter.mp hm').2).1

end Pool

/-! ### The loops -/

/-- `result` is the marker of a large enough gap that is as good as any other, or null without one. -/
def Chooses (s : BoundaryTags) (xs : List ℕ) (size : ℕ) (better : ℕ → ℕ → Prop)
    (result : Except AllocFault ℕ) : Prop :=
  ∃ p, result = .ok p ∧ (p = 0 ↔ ∀ q, IsGap s xs q → gapSize s q < size) ∧
    (p ≠ 0 → IsGap s xs p ∧ size ≤ gapSize s p ∧
      (∀ q, IsGap s xs q → size ≤ gapSize s q → better p q) ∧
      getNextFreeBlockSize s p = gapSize s p)

namespace Pool

theorem chooses_none (h : Pool s ts) (hnil : suitable s size ts = []) (better : ℕ → ℕ → Prop) :
    Chooses s (addresses (base s) ts) size better (.ok 0) := by
  refine ⟨0, rfl, iff_of_true rfl fun q hq => ?_, fun hne => absurd rfl hne⟩
  by_contra hle
  have hm := h.gap_suitable hq (not_lt.mp hle)
  rw [hnil] at hm
  cases hm

theorem chooses_some (h : Pool s ts) {it : Iterator} (hit : it ∈ suitable s size ts)
    {better : ℕ → ℕ → Prop}
    (hbest : ∀ it' ∈ suitable s size ts, better it.occupiedPtr it'.occupiedPtr) :
    Chooses s (addresses (base s) ts) size better (.ok it.occupiedPtr) := by
  obtain ⟨hgap, hsize, -, hnext⟩ := h.suitable_gap hit
  have hne := h.position_ne (List.mem_of_mem_filter hit)
  refine ⟨_, rfl, iff_of_false hne fun hall => ?_, fun _ => ⟨hgap, hsize, fun q hq hqs => ?_, hnext⟩⟩
  · exact absurd hsize (not_le.mpr (hall _ hgap))
  · exact hbest _ (h.gap_suitable hq hqs)

end Pool

theorem foldUntil_find (size : ℕ) (its : List Iterator) :
    foldUntil (fun result it =>
      if !it.occupied ∧ it.size s ≥ size then ForInStep.done it.occupiedPtr
      else ForInStep.yield result) 0 its =
        ((its.filter (suits s size)).head?.map Iterator.occupiedPtr).getD 0 := by
  induction its with
  | nil => rfl
  | cons it its ih =>
    rw [foldUntil]
    by_cases hfit : suits s size it = true
    · obtain ⟨hocc, hsize⟩ := suits_iff.mp hfit
      rw [List.filter_cons_of_pos hfit, if_pos ⟨by rw [hocc]; rfl, hsize⟩]
      rfl
    · have hno : ¬ ((!it.occupied) = true ∧ it.size s ≥ size) := by
        rintro ⟨hocc, hsize⟩
        rw [Bool.not_eq_true'] at hocc
        exact hfit (suits_iff.mpr ⟨hocc, hsize⟩)
      rw [List.filter_cons_of_neg hfit, if_neg hno]
      exact ih

namespace Pool

theorem firstFit (h : Pool s ts) (size : ℕ) :
    Chooses s (addresses (base s) ts) size (fun p q => endOf s p ≤ endOf s q)
      (getBlockFirstFit s size) := by
  have hpair : (suitable s size ts).Pairwise _ := h.suitable_pairwise
  rw [getBlockFirstFit, h.loop_begin, foldUntil_find, ← suitable]
  cases hs : suitable s size ts with
  | nil =>
    have hnone : Chooses s _ size (fun p q => endOf s p ≤ endOf s q) _ := h.chooses_none hs _
    exact hnone
  | cons it its =>
    have hit : it ∈ suitable s size ts := hs ▸ List.mem_cons_self
    have hfirst : ∀ it' ∈ suitable s size ts, endOf s it.occupiedPtr ≤ endOf s it'.occupiedPtr := by
      intro it' hm
      rw [hs] at hm hpair
      rcases List.mem_cons.mp hm with rfl | hm
      · exact le_rfl
      · exact (List.pairwise_cons.mp hpair).1 it' hm
    have hsome : Chooses s _ size (fun p q => endOf s p ≤ endOf s q) _ := h.chooses_some hit hfirst
    exact hsome

/-- What a best or worst fit loop keeps at its end. -/
theorem kept_chooses (h : Pool s ts) {γ : Type} [LinearOrder γ] {rank : Iterator → γ} {it : Iterator}
    {better : ℕ → ℕ → Prop}
    (hkept : suitable s size ts = [] ∧ it = noIterator ∨ FirstLeast rank (suitable s size ts) it)
    (hbetter : ∀ it' ∈ suitable s size ts, it ∈ suitable s size ts → rank it ≤ rank it' →
      better it.occupiedPtr it'.occupiedPtr) :
    Chooses s (addresses (base s) ts) size better (.ok it.occupiedPtr) := by
  rcases hkept with ⟨hnil, rfl⟩ | hleast
  · exact h.chooses_none hnil better
  · exact h.chooses_some hleast.mem fun it' hm => hbetter it' hm hleast.mem (hleast.rank_le hm)

theorem result_nonnull (h : Pool s ts) {r : Iterator}
    (hr : r = noIterator ∨ r ∈ positions s [] ts) : r.occupiedPtr = 0 ↔ r = noIterator := by
  rcases hr with rfl | hm
  · exact iff_of_true rfl rfl
  · have hne := h.position_ne hm
    exact iff_of_false hne fun heq => hne (by rw [heq]; rfl)

end Pool

/-- One turn of the loop of `get_block_best_fit`. -/
abbrev bestStep (s : BoundaryTags) (size : ℕ) (result it : Iterator) : Iterator :=
  if !it.occupied ∧ it.size s ≥ size ∧ (it.size s < result.size s ∨ result.occupiedPtr = 0) then it
  else result

/-- One turn of the loop of `get_block_worst_fit`. -/
abbrev worstStep (s : BoundaryTags) (size : ℕ) (result it : Iterator) : Iterator :=
  if !it.occupied ∧ it.size s ≥ size ∧ it.size s > result.size s then it else result

namespace Pool

theorem getBlockBestFit_eq (h : Pool s ts) (size : ℕ) : getBlockBestFit s size =
    .ok ((positions s [] ts).foldl (bestStep s size) noIterator).occupiedPtr := by
  rw [getBlockBestFit, ← foldUntil_yield]
  simp only [apply_ite ForInStep.yield, h.loop_begin]
  rfl

theorem getBlockWorstFit_eq (h : Pool s ts) (size : ℕ) : getBlockWorstFit s size =
    .ok ((positions s [] ts).foldl (worstStep s size) noIterator).occupiedPtr := by
  rw [getBlockWorstFit, ← foldUntil_yield]
  simp only [apply_ite ForInStep.yield, h.loop_begin]
  rfl

theorem position_ne_none (h : Pool s ts) : ∀ it ∈ positions s [] ts, it ≠ noIterator :=
  fun it hm heq => h.position_ne hm (by rw [heq]; rfl)

theorem bestFit (h : Pool s ts) (size : ℕ) :
    Chooses s (addresses (base s) ts) size (fun p q => gapSize s p ≤ gapSize s q)
      (getBlockBestFit s size) := by
  have hstep (r : Iterator) (hr : r = noIterator ∨ r ∈ positions s [] ts) (it : Iterator) :
      bestStep s size r it =
        if suits s size it = true ∧ (r = noIterator ∨ it.size s < r.size s) then it else r := by
    have hnull := h.result_nonnull hr
    refine if_congr ?_ rfl rfl
    rw [suits_iff, hnull, Bool.not_eq_true', and_assoc, or_comm]
  rw [h.getBlockBestFit_eq]
  refine h.kept_chooses (foldl_firstLeast (fun r hr it _ => hstep r hr it) h.position_ne_none)
    fun it' hm hit hle => ?_
  rw [← (h.suitable_gap hit).2.2.1, ← (h.suitable_gap hm).2.2.1]
  exact hle

/-- Without a candidate the size to beat is 0, and a large enough gap is larger. -/
theorem worstFit (h : Pool s ts) (hsize : 0 < size) :
    Chooses s (addresses (base s) ts) size (fun p q => gapSize s q ≤ gapSize s p)
      (getBlockWorstFit s size) := by
  have hstep (r it : Iterator) : worstStep s size r it =
      if suits s size it = true ∧ (r = noIterator ∨ -(it.size s : ℤ) < -(r.size s : ℤ)) then it
      else r := by
    refine if_congr ?_ rfl rfl
    rw [suits_iff, Bool.not_eq_true', and_assoc, neg_lt_neg_iff, Nat.cast_lt]
    refine and_congr_right fun _ => and_congr_right fun hfit => ?_
    constructor
    · exact Or.inr
    · rintro (rfl | hlt)
      · exact hsize.trans_le hfit
      · exact hlt
  rw [h.getBlockWorstFit_eq]
  refine h.kept_chooses (foldl_firstLeast (fun r _ it _ => hstep r it) h.position_ne_none)
    fun it' hm hit hle => ?_
  rw [← (h.suitable_gap hit).2.2.1, ← (h.suitable_gap hm).2.2.1]
  exact Nat.cast_le.mp (neg_le_neg_iff.mp hle)

end Pool

/-- The three searches over the gaps between the blocks `xs`. -/
structure FitPolicy (s : BoundaryTags) (xs : List ℕ) (size : ℕ) : Prop where
  first : Chooses s xs size (fun p q => endOf s p ≤ endOf s q) (getBlockFirstFit s size)
  best : Chooses s xs size (fun p q => gapSize s p ≤ gapSize s q) (getBlockBestFit s size)
  worst : Chooses s xs size (fun p q => gapSize s q ≤ gapSize s p) (getBlockWorstFit s size)

end MaiFaSp.BoundaryTags
