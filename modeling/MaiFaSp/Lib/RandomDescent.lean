import Mathlib.Logic.Relation
import Mathlib.Tactic.Common

/-!
# Runs of a counted length

Where two different steps from one state can be followed by one step each to a common state, the
order of the steps does not matter: all runs that end have the same length and the same end, and
there are no longer ones.
-/

namespace MaiFaSp

variable {α : Type*} {r : α → α → Prop} {a b c e : α} {m n : ℕ}

/-- A run of `n` steps. -/
inductive Takes (r : α → α → Prop) : ℕ → α → α → Prop
  | refl (a : α) : Takes r 0 a a
  | tail {n : ℕ} {a b c : α} (h : Takes r n a b) (hstep : r b c) : Takes r (n + 1) a c

/-- No step leads on. -/
def Stuck (r : α → α → Prop) (a : α) : Prop := ∀ b, ¬ r a b

def Diamond (r : α → α → Prop) : Prop := ∀ {a b c}, r a b → r a c → b = c ∨ ∃ d, r b d ∧ r c d

namespace Takes

theorem head (hstep : r a b) (h : Takes r n b c) : Takes r (n + 1) a c := by
  induction h with
  | refl b => exact .tail (.refl a) hstep
  | tail h hlast ih => exact .tail (ih hstep) hlast

theorem trans (h : Takes r m a b) (h' : Takes r n b c) : Takes r (m + n) a c := by
  induction h' with
  | refl b => exact h
  | tail h' hlast ih => exact .tail (ih h) hlast

theorem exists_head (h : Takes r (n + 1) a c) : ∃ b, r a b ∧ Takes r n b c := by
  generalize hn : n + 1 = k at h
  induction h generalizing n with
  | refl a => omega
  | @tail k a b c h hlast ih =>
    cases k with
    | zero =>
      cases h
      obtain rfl : n = 0 := by omega
      exact ⟨c, hlast, .refl c⟩
    | succ k =>
      obtain ⟨b', hfirst, hrest⟩ := ih rfl
      obtain rfl : n = k + 1 := by omega
      exact ⟨b', hfirst, hrest.tail hlast⟩

theorem reaches (h : Takes r n a b) : Relation.ReflTransGen r a b := by
  induction h with
  | refl a => exact .refl
  | tail h hstep ih => exact ih.tail hstep

/-- A step can be put first in a run that ends. -/
theorem after_step (hd : Diamond r) (hend : Stuck r e) (h : Takes r n a e) (hstep : r a b) :
    ∃ k, n = k + 1 ∧ Takes r k b e := by
  induction n generalizing a b with
  | zero =>
    cases h
    exact absurd hstep (hend b)
  | succ n ih =>
    obtain ⟨c, hfirst, hrest⟩ := h.exists_head
    obtain rfl | ⟨d, hcd, hbd⟩ := hd hfirst hstep
    · exact ⟨n, rfl, hrest⟩
    · obtain ⟨k, rfl, hk⟩ := ih hrest hcd
      exact ⟨k + 1, rfl, .head hbd hk⟩

/-- When one run ends, every run can be gone on with to the same end, in the same number of steps. -/
theorem descends (hd : Diamond r) (hend : Stuck r e) (h : Takes r n a e) (h' : Takes r m a b) :
    ∃ k, n = m + k ∧ Takes r k b e := by
  induction h' with
  | refl a => exact ⟨n, (Nat.zero_add n).symm, h⟩
  | tail h' hstep ih =>
    obtain ⟨k, rfl, hk⟩ := ih h
    obtain ⟨j, rfl, hj⟩ := hk.after_step hd hend hstep
    exact ⟨j, by omega, hj⟩

/-- Where an invariant holds and every step lowers a rank, a run is no longer than its first rank. -/
theorem le_rank {P : α → Prop} {rank : α → ℕ} (hP : ∀ {a b}, P a → r a b → P b)
    (hrank : ∀ {a b}, P a → r a b → rank b < rank a) (ha : P a) (h : Takes r n a b) :
    P b ∧ n + rank b ≤ rank a := by
  induction h with
  | refl a => exact ⟨ha, by omega⟩
  | tail h hstep ih =>
    obtain ⟨hb, hle⟩ := ih ha
    have hlt := hrank hb hstep
    exact ⟨hP hb hstep, by omega⟩

end Takes

end MaiFaSp
