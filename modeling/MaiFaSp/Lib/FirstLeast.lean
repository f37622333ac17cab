import Mathlib.Data.List.Basic
import Mathlib.Order.Defs.LinearOrder
import Mathlib.Tactic

/-!
# The first of the least entries

One pass over a list that keeps the entry of the least rank so far and replaces it only by an entry
of a smaller rank.
-/

namespace MaiFaSp

variable {α β : Type*} [LinearOrder β] (rank : α → β)

/-- No entry has a smaller rank than `x`, and no entry before `x` has the same. -/
def FirstLeast (xs : List α) (x : α) : Prop :=
  ∃ l r, xs = l ++ x :: r ∧ (∀ y ∈ l, rank x < rank y) ∧ ∀ y ∈ r, rank x ≤ rank y

def keepLeast (b : α) : List α → α
  | [] => b
  | x :: xs => keepLeast (if rank x < rank b then x else b) xs

variable {rank} {xs ys : List α} {x b : α}

theorem firstLeast_singleton : FirstLeast rank [x] x :=
  ⟨[], [], rfl, fun _ h => absurd h List.not_mem_nil, fun _ h => absurd h List.not_mem_nil⟩

theorem FirstLeast.mem (h : FirstLeast rank xs x) : x ∈ xs := by
  obtain ⟨l, r, rfl, -, -⟩ := h
  exact List.mem_append_right l List.mem_cons_self

theorem FirstLeast.rank_le (h : FirstLeast rank xs x) {y : α} (hy : y ∈ xs) : rank x ≤ rank y := by
  obtain ⟨l, r, rfl, hl, hr⟩ := h
  rcases List.mem_append.mp hy with hy | hy
  · exact (hl y hy).le
  · rcases List.mem_cons.mp hy with rfl | hy
    · exact le_rfl
    · exact hr y hy

/-- One more entry at the end. -/
theorem FirstLeast.snoc (h : FirstLeast rank xs b) (x : α) :
    FirstLeast rank (xs ++ [x]) (if rank x < rank b then x else b) := by
  split
  case isTrue hlt =>
    refine ⟨xs, [], rfl, fun y hy => hlt.trans_le (h.rank_le hy), ?_⟩
    exact fun _ h => absurd h List.not_mem_nil
  case isFalse hlt =>
    obtain ⟨l, r, rfl, hl, hr⟩ := h
    refine ⟨l, r ++ [x], by simp, hl, fun y hy => ?_⟩
    rcases List.mem_append.mp hy with hy | hy
    · exact hr y hy
    · rw [List.mem_singleton.mp hy]
      exact not_lt.mp hlt

theorem FirstLeast.keepLeast (h : FirstLeast rank xs b) :
    FirstLeast rank (xs ++ ys) (keepLeast rank b ys) := by
  induction ys generalizing xs b with
  | nil =>
    rw [List.append_nil]
    exact h
  | cons y ys ih =>
    have hnext := ih (h.snoc y)
    rw [List.append_assoc] at hnext
    exact hnext

/-- The pass that starts with the first entry. -/
theorem firstLeast_keepLeast (b : α) (ys : List α) : FirstLeast rank (b :: ys) (keepLeast rank b ys) :=
  firstLeast_singleton.keepLeast

/-- A pass that starts with nothing, and of the entries that pass a test keeps the least one so far. -/
theorem foldl_firstLeast [DecidableEq α] {fits : α → Bool} {step : α → α → α} {nothing : α}
    (hstep : ∀ r, r = nothing ∨ r ∈ xs → ∀ x ∈ xs,
      step r x = if fits x = true ∧ (r = nothing ∨ rank x < rank r) then x else r)
    (hne : ∀ x ∈ xs, x ≠ nothing) :
    xs.filter fits = [] ∧ xs.foldl step nothing = nothing ∨
      FirstLeast rank (xs.filter fits) (xs.foldl step nothing) := by
  induction xs using List.reverseRecOn with
  | nil => exact Or.inl ⟨rfl, rfl⟩
  | append_singleton xs x ih =>
    have hleft {y : α} (hy : y ∈ xs) : y ∈ xs ++ [x] := List.mem_append_left [x] hy
    have hprev := ih (fun r hr y hy => hstep r (hr.imp_right hleft) y (hleft hy))
      fun y hy => hne y (hleft hy)
    have hlast (r : α) (hr : r = nothing ∨ r ∈ xs) :=
      hstep r (hr.imp_right hleft) x (List.mem_append_right xs (List.mem_singleton_self x))
    rw [List.foldl_append, List.foldl_cons, List.foldl_nil, List.filter_append]
    by_cases hfit : fits x = true
    · rw [List.filter_cons_of_pos hfit, List.filter_nil]
      rcases hprev with ⟨hnil, hnothing⟩ | hleast
      · rw [hnil, hnothing, hlast nothing (Or.inl rfl), if_pos ⟨hfit, Or.inl rfl⟩]
        exact Or.inr firstLeast_singleton
      · have hmem := List.mem_of_mem_filter hleast.mem
        have hnot := hne _ (hleft hmem)
        rw [hlast _ (Or.inr hmem)]
        simp only [hfit, hnot, true_and, false_or]
        exact Or.inr (hleast.snoc x)
    · rw [List.filter_cons_of_neg hfit, List.filter_nil, List.append_nil]
      rcases hprev with ⟨hnil, hnothing⟩ | hleast
      · rw [hnothing, hlast nothing (Or.inl rfl), if_neg fun h => hfit h.1]
        exact Or.inl ⟨hnil, rfl⟩
      · rw [hlast _ (Or.inr (List.mem_of_mem_filter hleast.mem)), if_neg fun h => hfit h.1]
        exact Or.inr hleast

/-- In a list that is ordered otherwise, it comes before the others of its rank. -/
theorem FirstLeast.before {R : α → α → Prop} (h : FirstLeast rank xs x) (hxs : xs.Pairwise R) {y : α}
    (hy : y ∈ xs) (hrank : rank x = rank y) : x = y ∨ R x y := by
  obtain ⟨l, r, rfl, hl, -⟩ := h
  rcases List.mem_append.mp hy with hy | hy
  · exact absurd hrank (hl y hy).ne
  · rcases List.mem_cons.mp hy with rfl | hy
    · exact Or.inl rfl
    · obtain ⟨-, hcons, -⟩ := List.pairwise_append.mp hxs
      exact Or.inr ((List.pairwise_cons.mp hcons).1 y hy)

end MaiFaSp
