import Mathlib.Data.List.Basic
import Mathlib.Tactic

/-!
# Doubly linked lists

A list of nodes linked in both directions by two functions, `next` and `prev`.
What stands before the first node and after the last one are parameters, so that
a part of a list is linked like a whole one. A change of the links around one
place of the list is a splice.
-/

namespace MaiFaSp.DoublyLinked

/-- The nodes stand between `p` and `nx`. -/
def Linked (next prev : ℕ → ℕ) : ℕ → List ℕ → ℕ → Prop
  | _, [], _ => True
  | p, a :: as, nx => prev a = p ∧ next a = as.headD nx ∧ Linked next prev a as nx

theorem headD_append (xs ys : List ℕ) (nx : ℕ) :
    (xs ++ ys).headD nx = xs.headD (ys.headD nx) := by
  cases xs <;> rfl

variable {next prev next' prev' : ℕ → ℕ} {p nx : ℕ} {xs ys : List ℕ}

theorem linked_append :
    Linked next prev p (xs ++ ys) nx ↔
      Linked next prev p xs (ys.headD nx) ∧ Linked next prev (xs.getLastD p) ys nx := by
  induction xs generalizing p with
  | nil => simp [Linked]
  | cons a xs ih =>
    rw [List.cons_append, Linked, Linked, ih, headD_append, List.getLastD_cons, and_assoc,
      and_assoc]

/-- `prev` undoes `next` inside the list, and the other way round. -/
theorem Linked.inverse {a b : ℕ} (h : Linked next prev p (xs ++ a :: b :: ys) nx) :
    next a = b ∧ prev b = a := by
  obtain ⟨-, -, hnext, hprev, -⟩ := linked_append.mp h
  exact ⟨hnext, hprev⟩

theorem Linked.next_last {a : ℕ} (h : Linked next prev p xs nx) (hl : xs.getLast? = some a) :
    next a = nx := by
  obtain ⟨ys, rfl⟩ := List.getLast?_eq_some_iff.mp hl
  exact (linked_append.mp h).2.2.1

theorem Linked.congr (h : Linked next prev p xs nx) (hnext : ∀ y ∈ xs, next' y = next y)
    (hprev : ∀ y ∈ xs, prev' y = prev y) : Linked next' prev' p xs nx := by
  induction xs generalizing p with
  | nil => trivial
  | cons a xs ih =>
    obtain ⟨hp, hn, hr⟩ := h
    refine ⟨(hprev a (List.mem_cons_self ..)).trans hp,
      (hnext a (List.mem_cons_self ..)).trans hn, ih hr ?_ ?_⟩
    · exact fun y hy => hnext y (List.mem_cons_of_mem _ hy)
    · exact fun y hy => hprev y (List.mem_cons_of_mem _ hy)

/-- What follows the last node changes. -/
theorem Linked.relinkLast {nx' : ℕ} (h : Linked next prev p xs nx) (hnd : xs.Nodup)
    (hnext : ∀ y ∈ xs, next' y = if xs.getLast? = some y then nx' else next y)
    (hprev : ∀ y ∈ xs, prev' y = prev y) : Linked next' prev' p xs nx' := by
  induction xs generalizing p with
  | nil => trivial
  | cons a xs ih =>
    obtain ⟨hp, hn, hr⟩ := h
    obtain ⟨ha, hnd⟩ := List.nodup_cons.mp hnd
    have hfirst := hnext a (List.mem_cons_self ..)
    have hprevFirst := (hprev a (List.mem_cons_self ..)).trans hp
    cases xs with
    | nil => exact ⟨hprevFirst, by simpa using hfirst, trivial⟩
    | cons b xs =>
      have hlast : (a :: b :: xs).getLast? = (b :: xs).getLast? := List.getLast?_cons_cons
      have hne : (b :: xs).getLast? ≠ some a := fun h => ha (List.mem_of_getLast? h)
      rw [hlast, if_neg hne] at hfirst
      refine ⟨hprevFirst, hfirst.trans hn, ih hr hnd ?_ ?_⟩
      · intro y hy
        rw [hnext y (List.mem_cons_of_mem _ hy), hlast]
      · exact fun y hy => hprev y (List.mem_cons_of_mem _ hy)

/-- What stands before the first node changes. -/
theorem Linked.relinkFirst {p' : ℕ} (h : Linked next prev p xs nx) (hnd : xs.Nodup)
    (hnext : ∀ y ∈ xs, next' y = next y)
    (hprev : ∀ y ∈ xs, prev' y = if xs.head? = some y then p' else prev y) :
    Linked next' prev' p' xs nx := by
  cases xs with
  | nil => trivial
  | cons a xs =>
    obtain ⟨-, hn, hr⟩ := h
    obtain ⟨ha, -⟩ := List.nodup_cons.mp hnd
    have hfirst := hprev a (List.mem_cons_self ..)
    rw [List.head?_cons, if_pos rfl] at hfirst
    refine ⟨hfirst, (hnext a (List.mem_cons_self ..)).trans hn, hr.congr ?_ ?_⟩
    · exact fun y hy => hnext y (List.mem_cons_of_mem _ hy)
    · intro y hy
      have hne : a ≠ y := fun h => ha (h ▸ hy)
      rw [hprev y (List.mem_cons_of_mem _ hy), List.head?_cons, if_neg (by simpa using hne)]

/-- Between the nodes `xs` and `ys` now stand the nodes `mid`. -/
theorem Linked.splice {q nx' : ℕ} {mid : List ℕ} (hpre : Linked next prev p xs nx')
    (hpost : Linked next prev q ys nx) (hnd : (xs ++ ys).Nodup)
    (hmid : Linked next' prev' (xs.getLastD p) mid (ys.headD nx))
    (hnext : ∀ y ∈ xs ++ ys,
      next' y = if xs.getLast? = some y then (mid ++ ys).headD nx else next y)
    (hprev : ∀ y ∈ xs ++ ys,
      prev' y = if ys.head? = some y then (xs ++ mid).getLastD p else prev y) :
    Linked next' prev' p (xs ++ (mid ++ ys)) nx := by
  obtain ⟨hxs, hys, hdisj⟩ := List.nodup_append.mp hnd
  rw [linked_append, linked_append]
  refine ⟨hpre.relinkLast hxs (fun y hy => hnext y (List.mem_append_left _ hy)) ?_, hmid,
    hpost.relinkFirst hys ?_ ?_⟩
  · intro y hy
    have hne : ys.head? ≠ some y := fun h => hdisj y hy y (List.mem_of_head? h) rfl
    rw [hprev y (List.mem_append_left _ hy), if_neg hne]
  · intro y hy
    have hne : xs.getLast? ≠ some y := fun h => hdisj y (List.mem_of_getLast? h) y hy rfl
    rw [hnext y (List.mem_append_right _ hy), if_neg hne]
  · intro y hy
    rw [hprev y (List.mem_append_right _ hy)]
    cases mid with
    | nil => simp
    | cons b mid => simp [List.getLastD_eq_getLast?, List.getLast?_append]

/-- A node is put in. -/
theorem Linked.insert {x : ℕ} (h : Linked next prev p (xs ++ ys) nx) (hnd : (xs ++ ys).Nodup)
    (hx : next' x = ys.headD nx) (hp : prev' x = xs.getLastD p)
    (hnext : ∀ y ∈ xs ++ ys, next' y = if xs.getLast? = some y then x else next y)
    (hprev : ∀ y ∈ xs ++ ys, prev' y = if ys.head? = some y then x else prev y) :
    Linked next' prev' p (xs ++ x :: ys) nx := by
  obtain ⟨hpre, hpost⟩ := linked_append.mp h
  have hmid : Linked next' prev' (xs.getLastD p) [x] (ys.headD nx) := ⟨hp, hx, trivial⟩
  apply hpre.splice hpost hnd hmid hnext
  intro y hy
  rw [hprev y hy]
  simp [List.getLastD_eq_getLast?]

/-- A node is taken out. -/
theorem Linked.remove {x : ℕ} (h : Linked next prev p (xs ++ x :: ys) nx)
    (hnd : (xs ++ ys).Nodup)
    (hnext : ∀ y ∈ xs ++ ys, next' y = if xs.getLast? = some y then ys.headD nx else next y)
    (hprev : ∀ y ∈ xs ++ ys, prev' y = if ys.head? = some y then xs.getLastD p else prev y) :
    Linked next' prev' p (xs ++ ys) nx := by
  obtain ⟨hpre, -, -, hpost⟩ := linked_append.mp h
  have hmid : Linked next' prev' (xs.getLastD p) [] (ys.headD nx) := trivial
  apply hpre.splice hpost hnd hmid hnext
  intro y hy
  rw [hprev y hy, List.append_nil]

end MaiFaSp.DoublyLinked
