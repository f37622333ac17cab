import MaiFaSp.Lib.BoundedVector
import Mathlib.Data.List.Forall2

/-!
# Two runs in lockstep

Two computations with faults that end alike, up to one fault that is left out, and the vectors
of two such runs entry by entry.
-/

namespace MaiFaSp

open BoundedVector

section

variable {ε α β γ δ : Type} {fault : ε} {P P' : α → β → Prop} {Q : γ → δ → Prop}
  {x : Except ε α} {y : Except ε β}

/-- Both have results that are related, or both end with the same fault, or one of them with
`fault`. -/
def Lockstep (fault : ε) (P : α → β → Prop) (x : Except ε α) (y : Except ε β) : Prop :=
  x = .error fault ∨ y = .error fault ∨ (∃ a b, x = .ok a ∧ y = .ok b ∧ P a b) ∨
    ∃ e, x = .error e ∧ y = .error e

namespace Lockstep

theorem ok {a : α} {b : β} (h : P a b) : Lockstep fault P (.ok a) (.ok b) :=
  Or.inr (Or.inr (Or.inl ⟨a, b, rfl, rfl, h⟩))

theorem error (e : ε) : Lockstep fault P (.error e) (.error e) :=
  Or.inr (Or.inr (Or.inr ⟨e, rfl, rfl⟩))

theorem refl (x : Except ε α) : Lockstep fault (fun a b => a = b ∧ x = .ok a) x x := by
  cases x with
  | error e => exact error e
  | ok a => exact ok ⟨rfl, rfl⟩

theorem mono (h : Lockstep fault P x y) (hP : ∀ a b, P a b → P' a b) : Lockstep fault P' x y := by
  rcases h with h | h | ⟨a, b, hx, hy, hab⟩ | h
  · exact Or.inl h
  · exact Or.inr (Or.inl h)
  · exact Or.inr (Or.inr (Or.inl ⟨a, b, hx, hy, hP a b hab⟩))
  · exact Or.inr (Or.inr (Or.inr h))

/-- The results with the computations that they are results of. -/
theorem attach (h : Lockstep fault P x y) :
    Lockstep fault (fun a b => P a b ∧ x = .ok a ∧ y = .ok b) x y := by
  rcases h with h | h | ⟨a, b, hx, hy, hab⟩ | h
  · exact Or.inl h
  · exact Or.inr (Or.inl h)
  · exact Or.inr (Or.inr (Or.inl ⟨a, b, hx, hy, hab, hx, hy⟩))
  · exact Or.inr (Or.inr (Or.inr h))

theorem bind {f : α → Except ε γ} {g : β → Except ε δ} (h : Lockstep fault P x y)
    (hf : ∀ a b, P a b → Lockstep fault Q (f a) (g b)) : Lockstep fault Q (x >>= f) (y >>= g) := by
  rcases h with rfl | rfl | ⟨a, b, rfl, rfl, hab⟩ | ⟨e, rfl, rfl⟩
  · exact Or.inl rfl
  · exact Or.inr (Or.inl rfl)
  · exact hf a b hab
  · exact error e

theorem ite {c d : Prop} [Decidable c] [Decidable d] {x' : Except ε α} {y' : Except ε β}
    (hcd : c ↔ d) (h : c → Lockstep fault P x y) (h' : ¬ c → Lockstep fault P x' y') :
    Lockstep fault P (if c then x else x') (if d then y else y') := by
  by_cases hc : c
  · rw [if_pos hc, if_pos (hcd.mp hc)]
    exact h hc
  · rw [if_neg hc, if_neg (hc ∘ hcd.mpr)]
    exact h' hc

/-- A result of one run has a related one, if neither ends with `fault`. -/
theorem of_ok {a : α} (h : Lockstep fault P (.ok a) y) (hy : y ≠ .error fault) :
    ∃ b, y = .ok b ∧ P a b := by
  rcases h with h | h | ⟨a', b, ha, hb, hab⟩ | ⟨e, he, -⟩
  · cases h
  · exact absurd h hy
  · cases ha
    exact ⟨b, hb, hab⟩
  · cases he

end Lockstep

end

/-! ### Lists entry by entry -/

section

variable {α β : Type} {R : α → β → Prop} {xs : List α} {ys : List β} {a : α} {b : β} {i : ℕ}

theorem Forall₂.eraseIdx (h : List.Forall₂ R xs ys) (i : ℕ) :
    List.Forall₂ R (xs.eraseIdx i) (ys.eraseIdx i) := by
  rw [List.eraseIdx_eq_take_drop_succ, List.eraseIdx_eq_take_drop_succ]
  exact List.rel_append (List.forall₂_take i h) (List.forall₂_drop (i + 1) h)

theorem Forall₂.set (h : List.Forall₂ R xs ys) (i : ℕ) (hab : R a b) :
    List.Forall₂ R (xs.set i a) (ys.set i b) := by
  induction h generalizing i with
  | nil => exact List.Forall₂.nil
  | cons hxy _ ih =>
    cases i with
    | zero => exact List.Forall₂.cons hab ‹_›
    | succ i => exact List.Forall₂.cons hxy (ih i)

theorem Forall₂.insertIdx (h : List.Forall₂ R xs ys) (i : ℕ) (hab : R a b) :
    List.Forall₂ R (xs.insertIdx i a) (ys.insertIdx i b) := by
  induction h generalizing i with
  | nil =>
    cases i with
    | zero => exact List.Forall₂.cons hab List.Forall₂.nil
    | succ i => exact List.Forall₂.nil
  | cons hxy hrest ih =>
    cases i with
    | zero => exact List.Forall₂.cons hab (List.Forall₂.cons hxy hrest)
    | succ i => exact List.Forall₂.cons hxy (ih i)

theorem Forall₂.replicate (n : ℕ) (hab : R a b) :
    List.Forall₂ R (List.replicate n a) (List.replicate n b) := by
  induction n with
  | zero => exact List.Forall₂.nil
  | succ n ih => exact List.Forall₂.cons hab ih

/-- Both have an entry at the index, or neither. -/
theorem Forall₂.getElem? (h : List.Forall₂ R xs ys) (i : ℕ) :
    (∃ a b, xs[i]? = some a ∧ ys[i]? = some b ∧ R a b) ∨ xs[i]? = none ∧ ys[i]? = none := by
  induction h generalizing i with
  | nil => exact Or.inr ⟨rfl, rfl⟩
  | @cons a b _ _ hab _ ih =>
    cases i with
    | zero => exact Or.inl ⟨a, b, rfl, rfl, hab⟩
    | succ i =>
      rw [List.getElem?_cons_succ, List.getElem?_cons_succ]
      exact ih i

/-- Both are empty, or both have a first entry. -/
theorem Forall₂.cases_head (h : List.Forall₂ R xs ys) : xs = [] ∧ ys = [] ∨
    ∃ a b xs' ys', xs = a :: xs' ∧ ys = b :: ys' ∧ R a b ∧ List.Forall₂ R xs' ys' := by
  cases h with
  | nil => exact Or.inl ⟨rfl, rfl⟩
  | cons hab hrest => exact Or.inr ⟨_, _, _, _, rfl, rfl, hab, hrest⟩

theorem Forall₂.headD (h : List.Forall₂ R xs ys) (hab : R a b) : R (xs.headD a) (ys.headD b) := by
  cases h with
  | nil => exact hab
  | cons hhead _ => exact hhead

theorem Forall₂.getD (h : List.Forall₂ R xs ys) (i : ℕ) (hab : R a b) :
    R (xs.getD i a) (ys.getD i b) := by
  rw [List.getD_eq_getElem?_getD, List.getD_eq_getElem?_getD]
  rcases Forall₂.getElem? h i with ⟨x, y, hx, hy, hxy⟩ | ⟨hx, hy⟩
  · rw [hx, hy]
    exact hxy
  · rw [hx, hy]
    exact hab

theorem Forall₂.getLastD (h : List.Forall₂ R xs ys) (hab : R a b) :
    R (xs.getLastD a) (ys.getLastD b) := by
  induction h generalizing a b with
  | nil => exact hab
  | cons hxy _ ih =>
    rw [List.getLastD_cons, List.getLastD_cons]
    exact ih hxy

end

/-! ### Vectors -/

section

variable {α β : Type} {R : α → β → Prop} {xs : List α} {ys : List β} {a : α} {b : β} {i : ℕ}
  {fault : NodeFault}

theorem Lockstep.get (h : List.Forall₂ R xs ys) (i : ℕ) :
    Lockstep fault R (get xs i) (get ys i) := by
  unfold BoundedVector.get
  rcases Forall₂.getElem? h i with ⟨x, y, hx, hy, hxy⟩ | ⟨hx, hy⟩
  · rw [hx, hy]
    exact Lockstep.ok hxy
  · rw [hx, hy]
    exact Lockstep.error _

theorem Lockstep.setAt (h : List.Forall₂ R xs ys) (i : ℕ) (hab : R a b) :
    Lockstep fault (List.Forall₂ R) (setAt xs i a) (setAt ys i b) := by
  unfold BoundedVector.setAt
  exact Lockstep.ite (by rw [h.length_eq]) (fun _ => Lockstep.ok (Forall₂.set h i hab))
    fun _ => Lockstep.error _

theorem Lockstep.eraseAt (h : List.Forall₂ R xs ys) (i : ℕ) :
    Lockstep fault (List.Forall₂ R) (eraseAt xs i) (eraseAt ys i) := by
  unfold BoundedVector.eraseAt
  exact Lockstep.ite (by rw [h.length_eq]) (fun _ => Lockstep.ok (Forall₂.eraseIdx h i))
    fun _ => Lockstep.error _

end

end MaiFaSp
