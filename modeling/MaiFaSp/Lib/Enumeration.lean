import MaiFaSp.Lib.Outcomes
import Mathlib.Data.List.Basic
import Mathlib.Order.Nat

/-!
# Walks with a cursor

What a loop from one cursor to the end collects. A walk over parts that follow one another is made of the
walks over the parts: it collects all where each of them does, and it misses something or fails where one of them
does.
-/

namespace MaiFaSp

variable {σ α ε : Type}

structure Cursor (σ α ε : Type) where
  atEnd : σ → Bool
  read : σ → Except ε α
  next : σ → Except ε σ

namespace Cursor

variable (c : Cursor σ α ε)

/-- The loop from `s` to the end, with a bound on its turns. -/
def collect (diverged : ε) : ℕ → σ → Except ε (List α)
  | 0, _ => throw diverged
  | n + 1, s =>
    if c.atEnd s then pure []
    else do
      let x ← c.read s
      let s' ← c.next s
      let xs ← collect diverged n s'
      pure (x :: xs)

/-- From `s` the loop reads `xs` and comes to `s'`. -/
inductive Run : σ → List α → σ → Prop
  | nil (s : σ) : Run s [] s
  | cons {s s' s'' : σ} {x : α} {xs : List α} (hend : c.atEnd s = false) (hread : c.read s = .ok x)
      (hnext : c.next s = .ok s') (hrun : Run s' xs s'') : Run s (x :: xs) s''

/-- It is not at the end, and there is nothing to read. -/
def Stuck (s : σ) : Prop := c.atEnd s = false ∧ ∀ x, c.read s ≠ .ok x

/-- Less than `es` is read on the way to `s'`, or the loop fails. -/
def Falls (s : σ) (es : List α) (s' : σ) : Prop :=
  (∃ xs, xs.length < es.length ∧ c.Run s xs s') ∨ ∃ xs s'', c.Run s xs s'' ∧ c.Stuck s''

/-- From `s` to `s'` the loop reads `es` if `P` holds, and only then. -/
structure Segment (P : Prop) (s : σ) (es : List α) (s' : σ) : Prop where
  run : P → c.Run s es s'
  falls : ¬ P → c.Falls s es s'

variable {c} {s s' s'' : σ} {es es' xs : List α} {P Q : Prop} {diverged : ε} {turns : ℕ}

theorem Run.append (h : c.Run s xs s') (h' : c.Run s' es s'') : c.Run s (xs ++ es) s'' := by
  induction h with
  | nil s => exact h'
  | cons hend hread hnext _ ih => exact .cons hend hread hnext (ih h')

theorem Segment.congr (h : c.Segment P s es s') (hPQ : P ↔ Q) : c.Segment Q s es s' :=
  ⟨fun hQ => h.run (hPQ.mpr hQ), fun hQ => h.falls fun hP => hQ (hPQ.mp hP)⟩

/-- Two segments that follow one another. -/
theorem Segment.append (h : c.Segment P s es s') (h' : c.Segment Q s' es' s'') :
    c.Segment (P ∧ Q) s (es ++ es') s'' := by
  refine ⟨fun hPQ => (h.run hPQ.1).append (h'.run hPQ.2), fun hPQ => ?_⟩
  have hfirst : (∃ xs, xs.length ≤ es.length ∧ c.Run s xs s' ∧ (¬ P → xs.length < es.length)) ∨
      ∃ xs s₁, c.Run s xs s₁ ∧ c.Stuck s₁ := by
    by_cases hP : P
    · exact Or.inl ⟨es, le_rfl, h.run hP, fun hn => absurd hP hn⟩
    · exact (h.falls hP).imp_left fun ⟨xs, hlt, hrun⟩ => ⟨xs, hlt.le, hrun, fun _ => hlt⟩
  obtain ⟨xs, hle, hrun, hlt⟩ | ⟨xs, s₁, hrun, hstuck⟩ := hfirst
  · by_cases hQ : Q
    · have hless := hlt fun hP => hPQ ⟨hP, hQ⟩
      exact Or.inl ⟨xs ++ es', by simp [hless], hrun.append (h'.run hQ)⟩
    · obtain ⟨ys, hless, hrun'⟩ | ⟨ys, s₁, hrun', hstuck⟩ := h'.falls hQ
      · exact Or.inl ⟨xs ++ ys, by simp only [List.length_append]; omega, hrun.append hrun'⟩
      · exact Or.inr ⟨xs ++ ys, s₁, hrun.append hrun', hstuck⟩
  · exact Or.inr ⟨xs, s₁, hrun, hstuck⟩

/-- One step in front. -/
theorem Segment.cons {x : α} (hend : c.atEnd s = false) (hread : c.read s = .ok x) (hnext : c.next s = .ok s')
    (h : c.Segment P s' es s'') : c.Segment P s (x :: es) s'' := by
  have hone : c.Segment True s [x] s' := ⟨fun _ => .cons hend hread hnext (.nil s'), fun h => absurd trivial h⟩
  exact (hone.append h).congr (iff_of_eq (true_and P))

theorem Segment.nil : c.Segment True s ([] : List α) s := ⟨fun _ => .nil s, fun h => absurd trivial h⟩

/-- A part that is passed over is read if there is nothing in it. -/
theorem Segment.skip (s : σ) (es : List α) : c.Segment (es = []) s es s := by
  refine ⟨fun h => h ▸ .nil s, fun h => Or.inl ⟨[], List.length_pos_of_ne_nil h, .nil s⟩⟩

theorem Segment.stuck (h : c.Stuck s) : c.Segment False s es s' :=
  ⟨False.elim, fun _ => Or.inr ⟨[], s, .nil s, h⟩⟩

theorem collect_run (h : c.Run s xs s') (n : ℕ) :
    c.collect diverged (n + xs.length) s = (c.collect diverged n s').map (xs ++ ·) := by
  induction h with
  | nil s => cases c.collect diverged n s <;> rfl
  | @cons s s' s'' x xs hend hread hnext _ ih =>
    rw [List.length_cons, ← Nat.add_assoc, collect, hend, if_neg Bool.false_ne_true, hread, ok_bind, hnext, ok_bind, ih]
    cases c.collect diverged n s'' <;> rfl

theorem collect_stuck (h : c.Run s xs s') (hstuck : c.Stuck s') : ∀ es, c.collect diverged turns s ≠ .ok es := by
  induction h generalizing turns with
  | nil s =>
    intro es hok
    cases turns with
    | zero => cases hok
    | succ n =>
      rw [collect, hstuck.1, if_neg Bool.false_ne_true, bind_eq_ok] at hok
      obtain ⟨x, hx, -⟩ := hok
      exact hstuck.2 x hx
  | cons hend hread hnext _ ih =>
    intro es hok
    cases turns with
    | zero => cases hok
    | succ n =>
      rw [collect, hend, if_neg Bool.false_ne_true, hread, ok_bind, hnext, ok_bind, bind_eq_ok] at hok
      obtain ⟨ys, hys, -⟩ := hok
      exact ih hstuck ys hys

/-- With more turns than `es` has elements the loop collects just them, or not. -/
theorem Segment.collect_iff (h : c.Segment P s es s') (hend : c.atEnd s' = true) (hturns : es.length < turns) :
    c.collect diverged turns s = .ok es ↔ P := by
  have hlast (n : ℕ) : c.collect diverged (n + 1) s' = .ok [] := by rw [collect, if_pos hend]; rfl
  have hresult {xs : List α} (hle : xs.length ≤ es.length) (hrun : c.Run s xs s') :
      c.collect diverged turns s = .ok xs := by
    obtain ⟨n, rfl⟩ : ∃ n, turns = n + 1 + xs.length := ⟨turns - 1 - xs.length, by omega⟩
    rw [collect_run hrun, hlast]
    exact congrArg Except.ok (List.append_nil xs)
  by_cases hP : P
  · exact iff_of_true (hresult le_rfl (h.run hP)) hP
  · refine iff_of_false (fun hok => ?_) hP
    obtain ⟨xs, hlt, hrun⟩ | ⟨xs, s'', hrun, hstuck⟩ := h.falls hP
    · rw [hresult hlt.le hrun] at hok
      cases hok
      exact lt_irrefl _ hlt
    · exact collect_stuck hrun hstuck es hok

end Cursor

end MaiFaSp
