import Mathlib.Algebra.Order.Archimedean.Basic
import Mathlib.Algebra.Order.Field.Basic
import Mathlib.Algebra.Order.Ring.Pow
import Mathlib.Tactic.FieldSimp
import Mathlib.Tactic.Linarith
import Mathlib.Tactic.Positivity

/-!
# Newton's iteration for roots

The iteration for the root of degree `m + 1` of a positive number. After one step it is
not below the root, and then it falls. The last step bounds what is left above it.
-/

namespace MaiFaSp.NewtonRoot

variable {F : Type*} [Field F] [LinearOrder F] [IsStrictOrderedRing F] {x g a ε : F} {m : ℕ}

def step (x : F) (m : ℕ) (g : F) : F := (m * g + x / g ^ m) / (m + 1)

theorem step_pos (hx : 0 < x) (hg : 0 < g) : 0 < step x m g := by
  unfold step
  positivity

/-- A step leads to the root or above it, by Bernoulli's inequality. -/
theorem le_step_pow (hx : 0 < x) (hg : 0 < g) : x ≤ step x m g ^ (m + 1) := by
  have hm : (0 : F) < m + 1 := by positivity
  have hpow : (0 : F) < g ^ (m + 1) := by positivity
  -- the step is `g` times one plus a small change
  have hstep : step x m g = g * (1 + (x / g ^ (m + 1) - 1) / (m + 1)) := by
    unfold step
    field_simp
    ring
  have hratio : 0 < x / g ^ (m + 1) := div_pos hx hpow
  have hge : (-2 : F) ≤ (x / g ^ (m + 1) - 1) / (m + 1) := by
    rw [le_div_iff₀ hm]
    have hm' : (0 : F) ≤ m := Nat.cast_nonneg m
    linarith
  have hbernoulli := one_add_mul_le_pow hge (m + 1)
  have hleft : 1 + ((m + 1 : ℕ) : F) * ((x / g ^ (m + 1) - 1) / (m + 1)) = x / g ^ (m + 1) := by
    push_cast
    field_simp
    ring
  rw [hleft, div_le_iff₀ hpow] at hbernoulli
  rw [hstep, mul_pow, mul_comm]
  exact hbernoulli

/-- From the root or above it, a step goes down. -/
theorem step_le (hg : 0 < g) (hpow : x ≤ g ^ (m + 1)) : step x m g ≤ g := by
  have hm : (0 : F) < m + 1 := by positivity
  have hdiv : x / g ^ m ≤ g := by
    rw [div_le_iff₀ (by positivity), ← pow_succ']
    exact hpow
  unfold step
  rw [div_le_iff₀ hm]
  linarith

/-- What is left is at most `m + 1` times the last step. -/
theorem sub_root_le (ha : 0 < a) (hroot : a ^ (m + 1) = x) (hg : a ≤ g) :
    g - a ≤ (m + 1) * (g - step x m g) := by
  have hm : (0 : F) < m + 1 := by positivity
  have hg0 : 0 < g := ha.trans_le hg
  have hdiv : x / g ^ m ≤ a := by
    rw [div_le_iff₀ (by positivity), ← hroot, pow_succ']
    exact mul_le_mul_of_nonneg_left (pow_le_pow_left₀ ha.le hg m) ha.le
  have hstep : (m + 1) * step x m g = m * g + x / g ^ m := by
    unfold step
    field_simp
  linarith

/-- A step that is at most `ε` long ends at most `m * ε` above the root. -/
theorem step_close (ha : 0 < a) (hroot : a ^ (m + 1) = x) (hm : 1 ≤ m) (hg : 0 < g)
    (hshort : |step x m g - g| ≤ ε) : a ≤ step x m g ∧ step x m g ≤ a + m * ε := by
  have hx : 0 < x := hroot ▸ pow_pos ha _
  have hm' : (1 : F) ≤ m := by exact_mod_cast hm
  have hε : 0 ≤ ε := (abs_nonneg _).trans hshort
  obtain ⟨hdown, hup⟩ := abs_le.mp hshort
  have hlow : a ≤ step x m g := by
    have hpow : a ^ (m + 1) ≤ step x m g ^ (m + 1) := hroot.le.trans (le_step_pow hx hg)
    exact le_of_pow_le_pow_left₀ (Nat.succ_ne_zero m) (step_pos hx hg).le hpow
  refine ⟨hlow, ?_⟩
  by_cases hag : a ≤ g
  · have hrest := sub_root_le ha hroot hag
    have hscaled : (m : F) * (g - step x m g) ≤ m * ε :=
      mul_le_mul_of_nonneg_left (by linarith) (by linarith)
    linarith
  · -- the first step may start below the root
    have hone : ε ≤ m * ε := le_mul_of_one_le_left hε hm'
    linarith [not_le.mp hag]

/-! ### The iteration -/

def guess (x : F) (m : ℕ) (g : F) : ℕ → F
  | 0 => g
  | k + 1 => step x m (guess x m g k)

theorem guess_pos (hx : 0 < x) (hg : 0 < g) (k : ℕ) : 0 < guess x m g k := by
  induction k with
  | zero => exact hg
  | succ k ih => exact step_pos hx ih

theorem guess_falls (hx : 0 < x) (hg : 0 < g) (k : ℕ) :
    guess x m g (k + 2) ≤ guess x m g (k + 1) :=
  step_le (guess_pos hx hg (k + 1)) (le_step_pow hx (guess_pos hx hg k))

/-- As long as the steps are longer than `ε`, each takes that much off. -/
theorem guess_le_of_long (hx : 0 < x) (hg : 0 < g)
    (hlong : ∀ k, ε < |guess x m g (k + 1) - guess x m g k|) (k : ℕ) :
    guess x m g (k + 1) ≤ guess x m g 1 - k * ε := by
  induction k with
  | zero => simp
  | succ k ih =>
    have hfalls := guess_falls (m := m) hx hg k
    have hstep := hlong (k + 1)
    rw [abs_of_nonpos (by linarith)] at hstep
    push_cast
    linarith

/-- The steps become short. -/
theorem exists_short [Archimedean F] (hx : 0 < x) (hg : 0 < g) (hε : 0 < ε) :
    ∃ k, |guess x m g (k + 1) - guess x m g k| ≤ ε := by
  by_contra hnone
  have hlong : ∀ k, ε < |guess x m g (k + 1) - guess x m g k| := by
    intro k
    by_contra hk
    exact hnone ⟨k, not_lt.mp hk⟩
  obtain ⟨k, hk⟩ := Archimedean.arch (guess x m g 1) hε
  rw [nsmul_eq_mul] at hk
  have hle := guess_le_of_long hx hg hlong k
  have hpos := guess_pos (m := m) hx hg (k + 1)
  linarith

end MaiFaSp.NewtonRoot
