import Mathlib.Analysis.Analytic.Binomial
import Mathlib.Analysis.Calculus.SmoothSeries
import Mathlib.Analysis.SpecialFunctions.Trigonometric.InverseDeriv

/-!
# The power series of the arcsine

The series of `1 / √(1 - t)` is the binomial one, and the series of the arcsine has it as its
derivative. At both ends of the interval the coefficients sum up, since the partial sums stay below
`π / 2`.
-/

namespace MaiFaSp.ArcsineSeries

open Finset Set

/-- The coefficients of the odd powers. -/
def coeff : ℕ → ℚ
  | 0 => 1
  | n + 1 => coeff n * ((2 * n + 1) ^ 2 / ((2 * n + 2) * (2 * n + 3)))

theorem coeff_pos (n : ℕ) : 0 < coeff n := by
  induction n with
  | zero => exact one_pos
  | succ n ih =>
    rw [coeff]
    positivity

/-! ### The derivative -/

/-- The binomial coefficients of `-1 / 2` with alternating signs. -/
noncomputable def half (n : ℕ) : ℝ := Ring.choose ((1 / 2 : ℝ) + n - 1) n

theorem half_mul_factorial (n : ℕ) : n.factorial * half n = (ascPochhammer ℝ n).eval (1 / 2) := by
  have h := Ring.factorial_nsmul_multichoose_eq_ascPochhammer (1 / 2 : ℝ) n
  rw [Polynomial.ascPochhammer_smeval_eq_eval, Ring.multichoose_eq, nsmul_eq_mul] at h
  exact h

theorem half_zero : half 0 = 1 := by
  have h := half_mul_factorial 0
  simpa using h

theorem half_succ (n : ℕ) : half (n + 1) = half n * ((2 * n + 1) / (2 * n + 2)) := by
  have h := half_mul_factorial (n + 1)
  rw [ascPochhammer_succ_eval, ← half_mul_factorial, Nat.factorial_succ] at h
  have hfact : (n.factorial : ℝ) ≠ 0 := by exact_mod_cast n.factorial_ne_zero
  have hn : (2 * (n : ℝ) + 2) ≠ 0 := by positivity
  push_cast at h
  field_simp
  have hcancel : n.factorial * (half (n + 1) * (n + 1)) = n.factorial * (half n * (1 / 2 + n)) := by
    linarith
  have heq := mul_left_cancel₀ hfact hcancel
  linarith

theorem half_eq (n : ℕ) : half n = (2 * n + 1) * coeff n := by
  induction n with
  | zero => simp [half_zero, coeff]
  | succ n ih =>
    have h2 : (2 * (n : ℝ) + 2) ≠ 0 := by positivity
    have h3 : (2 * (n : ℝ) + 3) ≠ 0 := by positivity
    rw [half_succ, ih, coeff]
    push_cast
    field_simp
    ring

theorem half_hasSum {t : ℝ} (ht : |t| < 1) : HasSum (fun n => half n * t ^ n) (1 / √(1 - t)) := by
  have hball : t ∈ Metric.eball (0 : ℝ) 1 := by
    rw [mem_eball_zero_iff, ← ofReal_norm, ENNReal.ofReal_lt_one]
    exact ht
  have h := (Real.one_div_one_sub_rpow_hasFPowerSeriesOnBall_zero (1 / 2)).hasSum hball
  simp only [zero_add, FormalMultilinearSeries.ofScalars_apply_eq, smul_eq_mul] at h
  rw [Real.sqrt_eq_rpow]
  exact h

/-! ### Inside the interval -/

/-- The sum of the series. -/
noncomputable def series (x : ℝ) : ℝ := tsum fun n => (coeff n : ℝ) * x ^ (2 * n + 1)

theorem derivative_hasSum {x : ℝ} (hx : |x| < 1) :
    HasSum (fun n => ((2 * n + 1) * coeff n : ℝ) * x ^ (2 * n)) (1 / √(1 - x ^ 2)) := by
  have hsquare : |x ^ 2| < 1 := by
    rw [abs_pow]
    exact pow_lt_one₀ (abs_nonneg x) hx two_ne_zero
  have h := half_hasSum hsquare
  simp only [half_eq, ← pow_mul] at h
  exact h

theorem series_hasDerivAt {x : ℝ} (hx : |x| < 1) : HasDerivAt series (1 / √(1 - x ^ 2)) x := by
  obtain ⟨ρ, hρ, hρ1⟩ := exists_between hx
  have hρ0 : 0 < ρ := (abs_nonneg x).trans_lt hρ
  have hsum : Summable fun n : ℕ => ((2 * n + 1) * coeff n : ℝ) * ρ ^ (2 * n) :=
    (derivative_hasSum (by rwa [abs_of_pos hρ0])).summable
  have hderiv (n : ℕ) (y : ℝ) : HasDerivAt (fun y => (coeff n : ℝ) * y ^ (2 * n + 1))
      (((2 * n + 1) * coeff n : ℝ) * y ^ (2 * n)) y := by
    have h := (hasDerivAt_pow (2 * n + 1) y).const_mul (coeff n : ℝ)
    refine h.congr_deriv ?_
    rw [Nat.add_sub_cancel]
    push_cast
    ring
  have hbound (n : ℕ) (y : ℝ) (hy : y ∈ Ioo (-ρ) ρ) :
      ‖((2 * n + 1) * coeff n : ℝ) * y ^ (2 * n)‖ ≤ ((2 * n + 1) * coeff n : ℝ) * ρ ^ (2 * n) := by
    have hcoeff : (0 : ℝ) < coeff n := by exact_mod_cast coeff_pos n
    have hfactor : (0 : ℝ) ≤ (2 * n + 1) * coeff n := by positivity
    rw [norm_mul, Real.norm_of_nonneg hfactor, norm_pow]
    have hpow : ‖y‖ ^ (2 * n) ≤ ρ ^ (2 * n) :=
      pow_le_pow_left₀ (norm_nonneg y) (abs_le.mpr ⟨hy.1.le, hy.2.le⟩) _
    exact mul_le_mul_of_nonneg_left hpow hfactor
  have hzero : Summable fun n : ℕ => (coeff n : ℝ) * (0 : ℝ) ^ (2 * n + 1) := by
    simp only [zero_pow (Nat.succ_ne_zero _), mul_zero]
    exact summable_zero
  have hmem : (0 : ℝ) ∈ Ioo (-ρ) ρ := ⟨neg_lt_zero.mpr hρ0, hρ0⟩
  have h := hasDerivAt_tsum_of_isPreconnected hsum isOpen_Ioo isPreconnected_Ioo
    (fun n y _ => hderiv n y) hbound hmem hzero (abs_lt.mp hρ)
  rwa [(derivative_hasSum hx).tsum_eq] at h

theorem series_eq_arcsin : EqOn series Real.arcsin (Ioo (-1) 1) := by
  have hne {x : ℝ} (hx : x ∈ Ioo (-1 : ℝ) 1) : HasDerivAt Real.arcsin (1 / √(1 - x ^ 2)) x :=
    Real.hasDerivAt_arcsin hx.1.ne' hx.2.ne
  have hs {x : ℝ} (hx : x ∈ Ioo (-1 : ℝ) 1) : HasDerivAt series (1 / √(1 - x ^ 2)) x :=
    series_hasDerivAt (abs_lt.mpr hx)
  have hzero : (0 : ℝ) ∈ Ioo (-1 : ℝ) 1 := by norm_num
  have hstart : series 0 = Real.arcsin 0 := by
    simp [series, Real.arcsin_zero]
  exact isOpen_Ioo.eqOn_of_deriv_eq isPreconnected_Ioo
    (fun x hx => (hs hx).differentiableAt.differentiableWithinAt)
    (fun x hx => (hne hx).differentiableAt.differentiableWithinAt)
    (fun x hx => (hs hx).deriv.trans (hne hx).deriv.symm) hzero hstart

theorem summable_inside {x : ℝ} (hx : |x| < 1) : Summable fun n => (coeff n : ℝ) * x ^ (2 * n + 1) := by
  refine .of_norm_bounded (derivative_hasSum (x := |x|) (by rwa [abs_abs])).summable fun n => ?_
  have hcoeff : (0 : ℝ) < coeff n := by exact_mod_cast coeff_pos n
  rw [norm_mul, Real.norm_of_nonneg hcoeff.le, norm_pow, Real.norm_eq_abs, pow_succ]
  have hpow : 0 ≤ |x| ^ (2 * n) := by positivity
  have hfactor : (coeff n : ℝ) ≤ (2 * n + 1) * coeff n := by
    have hn : (0 : ℝ) ≤ n := Nat.cast_nonneg n
    nlinarith
  exact mul_le_mul hfactor (mul_le_of_le_one_right hpow hx.le) (by positivity) (by positivity)

/-! ### The ends of the interval -/

theorem coeff_summable : Summable fun n => (coeff n : ℝ) := by
  have hpos (n : ℕ) : (0 : ℝ) ≤ coeff n := by exact_mod_cast (coeff_pos n).le
  refine summable_of_sum_range_le (c := Real.pi / 2) hpos fun N => ?_
  -- the partial sums are bounded on the way to the end
  have hcont : Continuous fun x : ℝ => ∑ n ∈ range N, (coeff n : ℝ) * x ^ (2 * n + 1) := by fun_prop
  have hbound : ∀ x ∈ Ioo (0 : ℝ) 1, ∑ n ∈ range N, (coeff n : ℝ) * x ^ (2 * n + 1) ≤ Real.pi / 2 := by
    intro x hx
    have habs : |x| < 1 := abs_lt.mpr ⟨by linarith [hx.1], hx.2⟩
    have hle := (summable_inside habs).sum_le_tsum (range N) fun n _ =>
      mul_nonneg (hpos n) (pow_nonneg hx.1.le _)
    have heq : (tsum fun n => (coeff n : ℝ) * x ^ (2 * n + 1)) = Real.arcsin x :=
      series_eq_arcsin (abs_lt.mp habs)
    rw [heq] at hle
    exact hle.trans (Real.arcsin_le_pi_div_two x)
  have hend : (1 : ℝ) ∈ closure (Ioo (0 : ℝ) 1) := by
    rw [closure_Ioo zero_ne_one]
    exact right_mem_Icc.mpr zero_le_one
  have h := le_on_closure hbound hcont.continuousOn continuousOn_const hend
  simpa using h

theorem term_le {x : ℝ} (hx : |x| ≤ 1) (n : ℕ) : ‖(coeff n : ℝ) * x ^ (2 * n + 1)‖ ≤ coeff n := by
  have hcoeff : (0 : ℝ) ≤ coeff n := by exact_mod_cast (coeff_pos n).le
  rw [norm_mul, Real.norm_of_nonneg hcoeff, norm_pow]
  exact mul_le_of_le_one_right hcoeff (pow_le_one₀ (norm_nonneg x) hx)

/-- The series of the arcsine, with both ends of the interval. -/
theorem arcsin_hasSum {x : ℝ} (hx : |x| ≤ 1) :
    HasSum (fun n => (coeff n : ℝ) * x ^ (2 * n + 1)) (Real.arcsin x) := by
  have hsummable : Summable fun n => (coeff n : ℝ) * x ^ (2 * n + 1) :=
    .of_norm_bounded coeff_summable (term_le hx)
  have hcont : ContinuousOn series (Icc (-1) 1) :=
    continuousOn_tsum (fun n => by fun_prop) coeff_summable fun n y hy => term_le (abs_le.mpr hy) n
  have hclosure : Icc (-1 : ℝ) 1 ⊆ closure (Ioo (-1) 1) := by
    rw [closure_Ioo (by norm_num)]
  have heq : series x = Real.arcsin x :=
    series_eq_arcsin.of_subset_closure hcont Real.continuous_arcsin.continuousOn Ioo_subset_Icc_self
      hclosure (abs_le.mp hx)
  rw [← heq]
  exact hsummable.hasSum

end MaiFaSp.ArcsineSeries
