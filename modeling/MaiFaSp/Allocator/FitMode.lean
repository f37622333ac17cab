import MaiFaSp.Lib.FirstLeast
import Mathlib.Tactic

/-!
# What the allocators share: the fit mode (`allocator_with_fit_mode.h`) and `size_t`
-/

namespace MaiFaSp

inductive FitMode where
  | firstFit
  | theBestFit
  | theWorstFit
  deriving Repr, DecidableEq

/-- `size_t` addition and subtraction. -/
def sizeAdd (a b : ℕ) : ℕ := (a + b) % 2 ^ 64

def sizeSub (a b : ℕ) : ℕ := (a + (2 ^ 64 - b % 2 ^ 64)) % 2 ^ 64

theorem sizeAdd_of_lt {a b : ℕ} (h : a + b < 2 ^ 64) : sizeAdd a b = a + b := Nat.mod_eq_of_lt h

theorem sizeSub_of_le {a b : ℕ} (h : b ≤ a) (ha : a < 2 ^ 64) : sizeSub a b = a - b := by
  unfold sizeSub
  omega

end MaiFaSp

/-!
## What the fit modes are for

Among the free blocks that are large enough the first fit takes the one with the lowest address,
the best fit one of minimal and the worst fit one of maximal size, the lowest of them.
-/

namespace MaiFaSp.FitMode

/-- The mode takes the block at `x` rather than the one at `y`. -/
def Prefers (mode : FitMode) (size : ℕ → ℕ) (x y : ℕ) : Prop :=
  match mode with
  | .firstFit => x ≤ y
  | .theBestFit => size x < size y ∨ size x = size y ∧ x ≤ y
  | .theWorstFit => size y < size x ∨ size x = size y ∧ x ≤ y

def rank (mode : FitMode) (size : ℕ → ℕ) (x : ℕ) : ℤ :=
  match mode with
  | .firstFit => 0
  | .theBestFit => size x
  | .theWorstFit => -size x

variable {mode : FitMode} {size : ℕ → ℕ} {xs : List ℕ} {x y : ℕ}

/-- Blocks in the order of their addresses. -/
theorem prefers_of_firstLeast (h : FirstLeast (mode.rank size) xs x) (hxs : xs.Pairwise (· < ·))
    (hy : y ∈ xs) : mode.Prefers size x y := by
  have hle := h.rank_le hy
  have hbefore := h.before hxs hy
  cases mode with
  | firstFit => exact (hbefore rfl).elim (fun heq => heq.le) fun hlt => hlt.le
  | theBestFit =>
    simp only [rank, Nat.cast_le, Nat.cast_inj] at hle hbefore
    rcases hle.lt_or_eq with hlt | heq
    · exact Or.inl hlt
    · exact Or.inr ⟨heq, (hbefore heq).elim (fun he => he.le) fun hlt => hlt.le⟩
  | theWorstFit =>
    simp only [rank, neg_le_neg_iff, neg_inj, Nat.cast_le, Nat.cast_inj] at hle hbefore
    rcases hle.lt_or_eq with hlt | heq
    · exact Or.inl hlt
    · exact Or.inr ⟨heq.symm, (hbefore heq.symm).elim (fun he => he.le) fun hlt => hlt.le⟩

end MaiFaSp.FitMode
