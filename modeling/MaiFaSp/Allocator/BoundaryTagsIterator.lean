import MaiFaSp.Allocator.BoundaryTagsInvariant

/-!
# `boundary_iterator`: forward and back (`allocator_boundary_tags.cpp:382-427`)

`operator--` finds the way back from a block to the gap in front of it through the block before
that gap. The leading gap has no such block, and is never returned to.
-/

namespace MaiFaSp.BoundaryTags

open Memory Tiling DoublyLinked Tile

variable {s : BoundaryTags} {pre post ts : List Tile} {t u : Tile} {it : Iterator}

/-- `operator--`. -/
def Iterator.prev (s : BoundaryTags) (it : Iterator) : Iterator :=
  let block := it.occupiedPtr
  if !it.occupied then ⟨block, true⟩
  else if getPrev s.memory block ≠ s.trusted then
    ⟨getPrev s.memory block, blockEnd s.memory (getPrev s.memory block) = block⟩
  else it

/-- The positions from `begin()` on, each but the first by `operator++` from one that is not
`end()`. -/
inductive Visited (s : BoundaryTags) : Iterator → Prop
  | begin : Visited s (begin s)
  | next {it : Iterator} (h : Visited s it) (hend : it.occupiedPtr ≠ 0) : Visited s (it.next s)

theorem prev_gap (s : BoundaryTags) (p : ℕ) : (Iterator.mk p false).prev s = ⟨p, true⟩ := rfl

theorem prev_block (s : BoundaryTags) (x : ℕ) : (Iterator.mk x true).prev s =
    if getPrev s.memory x = s.trusted then ⟨x, true⟩
    else ⟨getPrev s.memory x, blockEnd s.memory (getPrev s.memory x) = x⟩ := by
  simp only [Iterator.prev, Bool.not_true, if_neg Bool.false_ne_true, ne_eq, ite_not]

namespace Pool

theorem visited_iterAt (h : Pool s ts) (hit : Visited s it) :
    ∃ pre post, ts = pre ++ post ∧ it = iterAt s pre post := by
  induction hit with
  | begin => exact ⟨[], ts, rfl, h.begin_eq⟩
  | next _ hend ih =>
    obtain ⟨pre, post, rfl, rfl⟩ := ih
    cases post with
    | nil => exact absurd rfl hend
    | cons t post => exact ⟨pre ++ [t], post, by simp, h.iterAt_next⟩

theorem block_ne_trusted (s : BoundaryTags) (pre : List Tile) : base s + span len pre ≠ s.trusted := by
  have hb := base_eq s
  omega

/-- Back from a gap, to the block in front of it. -/
theorem prev_iterAt_gap (h : Pool s (pre ++ t :: u :: post)) (hu : u.free = true) :
    (iterAt s (pre ++ [t]) (u :: post)).prev s = iterAt s pre (t :: u :: post) ∧
      (iterAt s pre (t :: u :: post)).occupiedPtr ≠ s.trusted := by
  obtain ⟨-, -, -, hright⟩ := coalesced_append_cons.mp h.coalesced
  have ht : t.free = false := by simpa [hu] using hright u rfl
  have hat : iterAt s pre (t :: u :: post) = ⟨base s + span len pre, true⟩ := by
    rw [iterAt, ht]
    rfl
  rw [hat, iterAt, if_pos hu, prev_gap, lastBlock_append_held ht]
  exact ⟨rfl, block_ne_trusted s pre⟩

theorem prev_iterAt_blocks (h : Pool s (pre ++ t :: u :: post)) (ht : t.free = false)
    (hu : u.free = false) :
    (iterAt s (pre ++ [t]) (u :: post)).prev s = iterAt s pre (t :: u :: post) ∧
      (iterAt s pre (t :: u :: post)).occupiedPtr ≠ s.trusted := by
  have h' : Pool s ((pre ++ [t]) ++ u :: post) := by simpa using h
  obtain ⟨-, -, -, hprev, -⟩ := h'.held_header hu
  obtain ⟨hend, -⟩ := h.held_header ht
  have hne := block_ne_trusted s pre
  have hspan : base s + span len (pre ++ [t]) = base s + span len pre + t.len := by
    rw [span_append, span_cons, span_nil, Nat.add_zero, ← Nat.add_assoc]
  have hat : iterAt s pre (t :: u :: post) = ⟨base s + span len pre, true⟩ := by
    rw [iterAt, ht]
    rfl
  rw [lastBlock_append_held ht] at hprev
  rw [hat, iterAt, hu, if_neg Bool.false_ne_true, prev_block, hprev, if_neg hne, hspan, hend]
  exact ⟨by rw [decide_eq_true rfl], hne⟩

/-- Back from a block, to the gap in front of it if there is a block before that gap. -/
theorem prev_iterAt_block (h : Pool s (pre ++ t :: u :: post)) (ht : t.free = true)
    (hu : u.free = false) :
    (iterAt s (pre ++ [t]) (u :: post)).prev s = iterAt s pre (t :: u :: post) ↔
      (iterAt s pre (t :: u :: post)).occupiedPtr ≠ s.trusted := by
  have h' : Pool s ((pre ++ [t]) ++ u :: post) := by simpa using h
  obtain ⟨-, -, -, hprev, -⟩ := h'.held_header hu
  have hsame : lastBlock s (pre ++ [t]) = lastBlock s pre := by
    rw [lastBlock, addresses_append, addresses_cons_free [] ht, addresses_nil, List.append_nil]
    rfl
  have hat : iterAt s pre (t :: u :: post) = ⟨lastBlock s pre, false⟩ := if_pos ht
  rw [hat, iterAt, hu, if_neg Bool.false_ne_true, prev_block, hprev, hsame]
  by_cases hp : lastBlock s pre = s.trusted
  · rw [if_pos hp]
    refine iff_of_false (fun heq => ?_) (not_not.mpr hp)
    cases congrArg Iterator.occupied heq
  · have hend := h.endOf_eq ht
    have hpos := t.nonempty
    rw [endOf, if_neg hp] at hend
    rw [if_neg hp, hend, span_append, span_cons, span_nil, decide_eq_false (by omega)]
    exact iff_of_true rfl hp

theorem prev_next_iff (h : Pool s ts) (hit : Visited s it) (hend : it.occupiedPtr ≠ 0)
    (hnext : (it.next s).occupiedPtr ≠ 0) :
    (it.next s).prev s = it ↔ it.occupiedPtr ≠ s.trusted := by
  obtain ⟨pre, post, rfl, rfl⟩ := h.visited_iterAt hit
  cases post with
  | nil => exact absurd rfl hend
  | cons t post =>
    rw [h.iterAt_next] at hnext ⊢
    cases post with
    | nil => exact absurd rfl hnext
    | cons u post =>
      cases hu : u.free with
      | true => exact iff_of_true (h.prev_iterAt_gap hu).1 (h.prev_iterAt_gap hu).2
      | false =>
        cases ht : t.free with
        | true => exact h.prev_iterAt_block ht hu
        | false => exact iff_of_true (h.prev_iterAt_blocks ht hu).1 (h.prev_iterAt_blocks ht hu).2

end Pool

/-- In a reachable state `operator--` undoes `operator++` everywhere but on the leading gap. -/
theorem boundary_iterator_reversible_iff (trusted n : ℕ) (mode : FitMode) (m : Memory)
    (ht : 0 < trusted) (hregion : trusted + n + 80 < 2 ^ 64) (fresh : BoundaryTags)
    (hc : construct trusted n mode m = .ok fresh) (c : Client BoundaryTags)
    (hr : ops.Reachable NoWrap fresh c) (it : Iterator) (hit : Visited c.state it)
    (hend : it.occupiedPtr ≠ 0) (hnext : (it.next c.state).occupiedPtr ≠ 0) :
    (it.next c.state).prev c.state = it ↔ it.occupiedPtr ≠ c.state.trusted := by
  obtain ⟨hn, hpool, htr, hms⟩ := construct_pool ht hregion hc
  have hfresh : Kept trusted n fresh [] :=
    ⟨htr, hms, _, hpool, by rw [grants_cons_none len request 32 rfl, grants_nil]⟩
  obtain ⟨-, -, ts, hpool', -⟩ := keeps.reachable hfresh hr
  exact hpool'.prev_next_iff hit hend hnext

/-- On the block of a request. -/
theorem boundary_iterator_reversible_iff_block : ∃ c : Client BoundaryTags,
    (begin c.state).occupiedPtr = 4176 ∧
      ((begin c.state).next c.state).prev c.state = begin c.state := by
  obtain ⟨c, hr, htest⟩ := AllocatorOps.exists_reachable [.allocate 8]
    (fun c : Client BoundaryTags => decide (c.state.trusted = 4096 ∧
      (begin c.state).occupiedPtr = 4176 ∧ ((begin c.state).next c.state).occupiedPtr ≠ 0))
    (show ∀ size, AllocatorOps.Call.allocate size ∈ [.allocate 8] → NoWrap size by
      rintro size (_ | ⟨_, hm⟩)
      · exact (by decide : 8 + 32 < 2 ^ 64)
      · cases hm)
    (show (ops.runCalls _ ⟨⟨4096, .firstFit, 128, 0, fun _ => 0⟩, []⟩).any _ = true by decide +kernel)
  obtain ⟨htr, hat, hnext⟩ := of_decide_eq_true htest
  refine ⟨c, hat, (boundary_iterator_reversible_iff 4096 128 .firstFit (fun _ => 0) (by decide)
    (by decide) _ rfl c hr _ Visited.begin (by omega) hnext).mpr (by omega)⟩

/-- Of two blocks the first is returned. `operator--` stays on the other. -/
theorem boundary_iterator_irreversible : ∃ c : Client BoundaryTags,
    ops.Reachable NoWrap ⟨4096, .firstFit, 128, 0, fun _ => 0⟩ c ∧
      ((begin c.state).next c.state).occupiedPtr ≠ 0 ∧
      ((begin c.state).next c.state).prev c.state ≠ begin c.state := by
  obtain ⟨c, hr, htest⟩ := AllocatorOps.exists_reachable [.allocate 8, .allocate 8, .deallocate 1]
    (fun c : Client BoundaryTags => decide (((begin c.state).next c.state).occupiedPtr ≠ 0 ∧
      ((begin c.state).next c.state).prev c.state ≠ begin c.state))
    (show ∀ size, AllocatorOps.Call.allocate size ∈ [.allocate 8, .allocate 8, .deallocate 1] →
        NoWrap size by
      intro size hm
      have h8 : size = 8 := by simpa using hm
      rw [h8]
      exact (by decide : 8 + 32 < 2 ^ 64))
    (show (ops.runCalls _ ⟨⟨4096, .firstFit, 128, 0, fun _ => 0⟩, []⟩).any _ = true by decide +kernel)
  obtain ⟨hnext, hprev⟩ := of_decide_eq_true htest
  exact ⟨c, hr, hnext, hprev⟩

end MaiFaSp.BoundaryTags
