import Mathlib.Data.List.Forall2

/-!
# Calls that return or fail
-/

namespace MaiFaSp

@[simp]
theorem ok_bind {ε α β : Type _} (x : α) (f : α → Except ε β) : (Except.ok x >>= f) = f x := rfl

theorem bind_eq_ok {ε α β : Type _} {x : Except ε α} {f : α → Except ε β} {b : β} :
    (x >>= f) = .ok b ↔ ∃ a, x = .ok a ∧ f a = .ok b := by
  cases x with
  | error e =>
    constructor
    · intro h
      cases h
    · rintro ⟨a, h, -⟩
      cases h
  | ok a =>
    constructor
    · intro h
      exact ⟨a, rfl, h⟩
    · rintro ⟨a', h, h'⟩
      cases h
      exact h'

/-- What holds of the result of a call that returns. -/
def Ensures {ε α : Type _} (x : Except ε α) (P : α → Prop) : Prop := ∀ a, x = .ok a → P a

namespace Ensures

variable {ε α β : Type _} {x : Except ε α} {f : α → Except ε β} {P P' : α → Prop} {Q : β → Prop}

theorem pure {a : α} (h : P a) : Ensures (Pure.pure a : Except ε α) P := by
  intro b hb
  cases hb
  exact h

theorem throw {e : ε} : Ensures (MonadExcept.throw e : Except ε α) P := by
  intro b hb
  cases hb

theorem mono (h : Ensures x P) (hP : ∀ a, P a → P' a) : Ensures x P' := fun a ha => hP a (h a ha)

theorem bind (h : Ensures x P) (hf : ∀ a, P a → Ensures (f a) Q) : Ensures (x >>= f) Q := by
  intro b hb
  obtain ⟨a, ha, hb⟩ := bind_eq_ok.mp hb
  exact hf a (h a ha) b hb

/-- Nothing is asked of the first call. -/
theorem after (hf : ∀ a, Ensures (f a) Q) : Ensures (x >>= f) Q :=
  bind (P := fun _ => True) (fun _ _ => trivial) fun a _ => hf a

end Ensures

section Lists

variable {ε α β : Type _} {f : α → Except ε β} {xs : List α}

/-- A list of calls returns when each of them does. -/
theorem mapM_eq_ok {ys : List β} :
    xs.mapM f = .ok ys ↔ List.Forall₂ (fun x y => f x = .ok y) xs ys := by
  induction xs generalizing ys with
  | nil =>
    simp only [List.mapM_nil, List.forall₂_nil_left_iff]
    constructor
    · intro h
      cases h
      rfl
    · rintro rfl
      rfl
  | cons x xs ih =>
    simp only [List.mapM_cons, bind_eq_ok, List.forall₂_cons_left_iff]
    constructor
    · rintro ⟨y, hy, ys', hys', h⟩
      cases h
      exact ⟨y, ys', hy, ih.mp hys', rfl⟩
    · rintro ⟨y, ys', hy, hys', rfl⟩
      exact ⟨y, hy, ys', ih.mpr hys', rfl⟩

/-- It fails as the first call that fails. -/
theorem mapM_eq_error {e : ε} : xs.mapM f = .error e ↔ ∃ before x after,
    xs = before ++ x :: after ∧ (∀ z ∈ before, ∃ y, f z = .ok y) ∧ f x = .error e := by
  induction xs with
  | nil =>
    constructor
    · intro h
      cases h
    · rintro ⟨before, x, after, h, -⟩
      cases before <;> cases h
  | cons x xs ih =>
    rw [List.mapM_cons]
    cases hx : f x with
    | error e' =>
      constructor
      · intro h
        cases h
        exact ⟨[], x, xs, rfl, by simp, hx⟩
      · rintro ⟨before, z, after, h, hbefore, hz⟩
        cases before with
        | nil =>
          cases h
          rw [hx] at hz
          cases hz
          rfl
        | cons b before =>
          cases h
          obtain ⟨y, hy⟩ := hbefore x List.mem_cons_self
          rw [hx] at hy
          cases hy
    | ok y =>
      have hrest : (Except.ok y >>= fun y => xs.mapM f >>= fun ys => pure (y :: ys)) = .error e ↔
          xs.mapM f = .error e := by
        cases xs.mapM f with
        | error e' => exact Iff.rfl
        | ok ys =>
          constructor
          · intro h
            cases h
          · intro h
            cases h
      rw [hrest, ih]
      constructor
      · rintro ⟨before, z, after, rfl, hbefore, hz⟩
        refine ⟨x :: before, z, after, rfl, ?_, hz⟩
        intro w hw
        rcases List.mem_cons.mp hw with rfl | hw
        · exact ⟨y, hx⟩
        · exact hbefore w hw
      · rintro ⟨before, z, after, h, hbefore, hz⟩
        cases before with
        | nil =>
          cases h
          rw [hx] at hz
          cases hz
        | cons b before =>
          cases h
          exact ⟨before, z, after, rfl, fun w hw => hbefore w (List.mem_cons_of_mem _ hw), hz⟩

end Lists

end MaiFaSp
