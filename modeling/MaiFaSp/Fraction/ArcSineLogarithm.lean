import MaiFaSp.Fraction.ArcTangent
import MaiFaSp.Fraction.Series
import MaiFaSp.Lib.ArcsineSeries
import Mathlib.Analysis.Complex.ExponentialBounds
import Mathlib.Analysis.SpecialFunctions.Log.Deriv

/-!
# `fraction`: arcsine and logarithm (`fraction.cpp:175-194, 354-377`)

Both loops stop at the first term that is at most `epsilon`, and `ln` doubles its sum after that. The
terms have one sign, so that all the terms left out count. The turns of the loops are bounded, and
running out of them is the fault `diverged`.
-/

namespace MaiFaSp.Fraction

open Finset Truncation

/-- `while (abs(term) > epsilon) { … }` -/
def arcsinLoop (xSquared epsilon : Fraction) :
    ℕ → Fraction → Fraction → ℤ → Except FractionFault Fraction
  | 0, _, _, _ => throw .diverged
  | turns + 1, result, term, n => do
    let size ← abs term
    if greater size epsilon then
      let result ← addAssign result term
      let numerator := (2 * n - 1) * (2 * n - 1)
      let denominator := 2 * n * (2 * n + 1)
      let coeff ← construct numerator denominator
      let term ← mul term xSquared
      let term ← mul term coeff
      arcsinLoop xSquared epsilon turns result term (n + 1)
    else pure result

def arcsin (turns : ℕ) (x epsilon : Fraction) : Except FractionFault Fraction := do
  let one ← construct 1 1
  let minusOne ← construct (-1) 1
  if greater x one || less x minusOne then throw (.domainError "arcsin is undefined for |x| > 1")
  else
    let result ← construct 0 1
    let xSquared ← mul x x
    arcsinLoop xSquared epsilon turns result x 1

/-- The loop of `ln`, which tests a term before it adds it. -/
def lnLoop (ySquared epsilon : Fraction) :
    ℕ → Fraction → Fraction → ℤ → Except FractionFault Fraction
  | 0, _, _, _ => throw .diverged
  | turns + 1, term, sum, denominator => do
    let term ← mulAssign term ySquared
    let denominator := denominator + 2
    let divisor ← construct denominator 1
    let delta ← div term divisor
    let size ← abs delta
    if lessEq size epsilon then pure sum
    else
      let sum ← addAssign sum delta
      lnLoop ySquared epsilon turns term sum denominator

def ln (turns : ℕ) (x epsilon : Fraction) : Except FractionFault Fraction := do
  let zero ← construct 0 1
  if lessEq x zero then throw (.domainError "Natural logarithm of non-positive number")
  else
    let one ← construct 1 1
    let lower ← sub x one
    let upper ← add x one
    let y ← div lower upper
    let ySquared ← mul y y
    let sum ← lnLoop ySquared epsilon turns y y 1
    let two ← construct 2 1
    mul sum two

/-! ### The loops -/

variable {x y ε : ℚ} {K : ℕ}

def arcsinTerm (x : ℚ) (i : ℕ) : ℚ := ArcsineSeries.coeff i * x ^ (2 * i + 1)

def lnTerm (y : ℚ) (i : ℕ) : ℚ := y ^ (2 * i + 1) / (2 * i + 1)

theorem arcsinTerm_succ (x : ℚ) (i : ℕ) :
    arcsinTerm x (i + 1) = arcsinTerm x i * (x * x) * ((2 * i + 1) ^ 2 / ((2 * i + 2) * (2 * i + 3))) := by
  unfold arcsinTerm
  rw [ArcsineSeries.coeff]
  ring

theorem arcsinLoop_eq (x ε : ℚ) (turns i : ℕ) :
    arcsinLoop (ofRat (x * x)) (ofRat ε) turns (ofRat (∑ j ∈ range i, arcsinTerm x j))
      (ofRat (arcsinTerm x i)) ((i : ℤ) + 1) =
      untilSmall (fun j => |arcsinTerm x j|) ε (fun K => ofRat (∑ j ∈ range K, arcsinTerm x j)) .diverged
        turns i := by
  induction turns generalizing i with
  | zero => rfl
  | succ turns ih =>
    rw [arcsinLoop, untilSmall, abs_ofRat, ok_bind, greater_ofRat]
    by_cases hbig : ε < |arcsinTerm x i|
    · have hd : 2 * ((i : ℤ) + 1) * (2 * ((i : ℤ) + 1) + 1) ≠ 0 := by positivity
      have hfactor : (((2 * ((i : ℤ) + 1) - 1) * (2 * ((i : ℤ) + 1) - 1) : ℤ) : ℚ) /
          ((2 * ((i : ℤ) + 1) * (2 * ((i : ℤ) + 1) + 1) : ℤ) : ℚ) =
          (2 * i + 1) ^ 2 / ((2 * i + 2) * (2 * i + 3)) := by
        push_cast
        ring
      have hn : (i : ℤ) + 1 + 1 = ((i + 1 : ℕ) : ℤ) + 1 := by
        push_cast
        rfl
      rw [if_pos hbig, decide_eq_true hbig, if_pos rfl, addAssign_ofRat, ok_bind]
      dsimp only
      rw [construct_ofRat _ hd, ok_bind, mul_ofRat, ok_bind, mul_ofRat, ok_bind, hfactor,
        ← arcsinTerm_succ, ← sum_range_succ, hn]
      exact ih (i + 1)
    · rw [if_neg hbig, decide_eq_false hbig, if_neg Bool.false_ne_true]
      rfl

theorem lnLoop_eq (y ε : ℚ) (turns i : ℕ) :
    lnLoop (ofRat (y * y)) (ofRat ε) turns (ofRat (y ^ (2 * i + 1)))
      (ofRat (∑ j ∈ range (i + 1), lnTerm y j)) (2 * (i : ℤ) + 1) =
      untilSmall (fun j => |lnTerm y (j + 1)|) ε (fun K => ofRat (∑ j ∈ range (K + 1), lnTerm y j)) .diverged
        turns i := by
  induction turns generalizing i with
  | zero => rfl
  | succ turns ih =>
    have hn : 2 * (i : ℤ) + 1 + 2 = 2 * ((i + 1 : ℕ) : ℤ) + 1 := by
      push_cast
      ring
    have hd : ((2 * ((i + 1 : ℕ) : ℤ) + 1 : ℤ) : ℚ) ≠ 0 := by
      rw [Int.cast_ne_zero]
      omega
    have hpower : y ^ (2 * i + 1) * (y * y) = y ^ (2 * (i + 1) + 1) := by ring
    have hterm : y ^ (2 * (i + 1) + 1) / ((2 * ((i + 1 : ℕ) : ℤ) + 1 : ℤ) : ℚ) = lnTerm y (i + 1) := by
      unfold lnTerm
      push_cast
      rfl
    rw [lnLoop, untilSmall, mulAssign_ofRat, ok_bind]
    dsimp only
    rw [hn, construct_one, ok_bind, div_ofRat _ hd, ok_bind, abs_ofRat, ok_bind, lessEq_ofRat, hpower, hterm]
    by_cases hsmall : |lnTerm y (i + 1)| ≤ ε
    · rw [if_neg (not_lt.mpr hsmall), decide_eq_true hsmall, if_pos rfl]
      rfl
    · rw [if_pos (not_le.mp hsmall), decide_eq_false hsmall, if_neg Bool.false_ne_true, addAssign_ofRat, ok_bind,
        ← sum_range_succ]
      exact ih (i + 1)

/-! ### The calls -/

theorem arcsin_eq (hx : |x| ≤ 1) (ε : ℚ) (turns : ℕ) :
    arcsin turns (ofRat x) (ofRat ε) =
      untilSmall (fun j => |arcsinTerm x j|) ε (fun K => ofRat (∑ j ∈ range K, arcsinTerm x j)) .diverged
        turns 0 := by
  obtain ⟨hlow, hhigh⟩ := abs_le.mp hx
  have hzero : arcsinTerm x 0 = x := by simp [arcsinTerm, ArcsineSeries.coeff]
  have hloop := arcsinLoop_eq x ε turns 0
  rw [sum_range_zero, hzero] at hloop
  have hminus : construct (-1) 1 = .ok (ofRat (-1)) := by
    rw [construct_one]
    norm_num
  rw [arcsin, one_eq, ok_bind, hminus, ok_bind, greater_ofRat, less_ofRat, decide_eq_false (not_lt.mpr hhigh),
    decide_eq_false (not_lt.mpr hlow), Bool.or_false, if_neg Bool.false_ne_true, construct_one, ok_bind, mul_ofRat,
    ok_bind, Int.cast_zero]
  exact hloop

/-- The argument that the series of `ln` is summed at. -/
def lnArgument (x : ℚ) : ℚ := (x - 1) / (x + 1)

theorem ln_eq (hx : 0 < x) (ε : ℚ) (turns : ℕ) :
    ln turns (ofRat x) (ofRat ε) =
      untilSmall (fun j => |lnTerm (lnArgument x) (j + 1)|) ε
        (fun K => ofRat (∑ j ∈ range (K + 1), lnTerm (lnArgument x) j)) .diverged turns 0 >>=
        fun sum => mul sum (ofRat 2) := by
  have hupper : x + 1 ≠ 0 := by positivity
  have hzero : lnTerm (lnArgument x) 0 = lnArgument x := by simp [lnTerm]
  have hloop := lnLoop_eq (lnArgument x) ε turns 0
  rw [sum_range_one, hzero, Nat.mul_zero, Nat.zero_add, pow_one] at hloop
  have htwo : construct 2 1 = .ok (ofRat 2) := by
    rw [construct_one]
    norm_num
  rw [ln, construct_one, ok_bind, lessEq_ofRat, Int.cast_zero, decide_eq_false (not_le.mpr hx),
    if_neg Bool.false_ne_true, one_eq, ok_bind, sub_ofRat, ok_bind, add_ofRat, ok_bind, div_ofRat _ hupper, ok_bind,
    mul_ofRat, ok_bind, htwo, ← hloop]
  rfl

/-! ### Terms of one sign -/

section OneSign

variable {t : ℕ → ℚ} {S : ℝ}

/-- What the terms that are at most `ε` in size sum up to, in size. -/
noncomputable def smallSizes (t : ℕ → ℚ) (ε : ℚ) : ℝ :=
  leftOut (fun j => |(t j : ℝ)|) (fun j => |(t j : ℝ)|) ε

/-- The error of the sum up to the first small term is the sum of all small sizes. -/
theorem sum_error {σ : ℚ} (hK : FirstSmall (fun j => |t j|) ε K) (ht : Antitone fun j => |t j|)
    (hsum : HasSum (fun j => (t j : ℝ)) S) (hσ : |σ| = 1) (hsign : ∀ j, t j = σ * |t j|) :
    |((∑ j ∈ range K, t j : ℚ) : ℝ) - S| = smallSizes t ε := by
  have hK' : FirstSmall (fun j => |(t j : ℝ)|) (ε : ℝ) K := by
    have h := hK.cast
    push_cast at h
    exact h
  have ht' : Antitone fun j => |(t j : ℝ)| := by
    intro i j hij
    have h : |t j| ≤ |t i| := ht hij
    show |(t j : ℝ)| ≤ |(t i : ℝ)|
    exact_mod_cast h
  have hσ' : |(σ : ℝ)| = 1 := by exact_mod_cast hσ
  have hsign' (j : ℕ) : (t j : ℝ) = σ * |(t j : ℝ)| := by exact_mod_cast hsign j
  rw [abs_sub_comm, Rat.cast_sum, hK'.error ht' hsum]
  exact abs_leftOut hσ' hsign'

theorem smallSizes_zero (ht : ∀ j, t j = 0) : smallSizes t ε = 0 := by
  unfold smallSizes leftOut
  simp only [ht, Rat.cast_zero, abs_zero, ite_self, tsum_zero]

theorem two_terms_le (ht : Antitone fun j => |t j|) (hsum : HasSum (fun j => (t j : ℝ)) S) :
    ((|t 0| + |t 1| : ℚ) : ℝ) ≤ smallSizes t |t 0| := by
  have hsmall (j : ℕ) : |(t j : ℝ)| ≤ ((|t 0| : ℚ) : ℝ) := by exact_mod_cast ht (Nat.zero_le j)
  have hall : smallSizes t |t 0| = tsum fun j => |(t j : ℝ)| := tsum_congr fun j => if_pos (hsmall j)
  have hle := hsum.summable.abs.sum_le_tsum (range 2) fun j _ => abs_nonneg _
  rw [sum_range_succ, sum_range_one] at hle
  rw [hall]
  push_cast
  exact hle

/-- An odd power with a positive coefficient has the sign of its base. -/
theorem odd_sign (x : ℚ) {c : ℚ} (hc : 0 ≤ c) (j : ℕ) :
    c * x ^ (2 * j + 1) = (if x < 0 then -1 else 1) * |c * x ^ (2 * j + 1)| := by
  rw [abs_mul, abs_of_nonneg hc, abs_pow]
  split
  case isTrue h =>
    have hodd : Odd (2 * j + 1) := ⟨j, rfl⟩
    rw [abs_of_neg h, hodd.neg_pow]
    ring
  case isFalse h => rw [abs_of_nonneg (not_lt.mp h), one_mul]

theorem abs_sign (x : ℚ) : |(if x < 0 then -1 else 1 : ℚ)| = 1 := by
  split
  · norm_num
  · norm_num

end OneSign

/-! ### The series -/

theorem arcsin_antitone (hx : |x| ≤ 1) : Antitone fun j => |arcsinTerm x j| := by
  apply antitone_nat_of_succ_le
  intro j
  have hsquare : |x * x| ≤ 1 := by
    rw [abs_mul]
    exact mul_le_one₀ hx (abs_nonneg x) hx
  have hfactor : |((2 * j + 1) ^ 2 / ((2 * j + 2) * (2 * j + 3)) : ℚ)| ≤ 1 := by
    have hj : (0 : ℚ) ≤ j := Nat.cast_nonneg j
    rw [abs_of_nonneg (by positivity), div_le_one (by positivity)]
    nlinarith
  rw [arcsinTerm_succ, abs_mul, abs_mul]
  have hstep : |arcsinTerm x j| * |x * x| ≤ |arcsinTerm x j| :=
    mul_le_of_le_one_right (abs_nonneg _) hsquare
  exact (mul_le_of_le_one_right (by positivity) hfactor).trans hstep

theorem ln_antitone (hy : |y| ≤ 1) : Antitone fun j => |lnTerm y j| := by
  apply antitone_nat_of_succ_le
  intro j
  unfold lnTerm
  rw [abs_div, abs_div, abs_pow, abs_pow]
  have hpow : |y| ^ (2 * (j + 1) + 1) ≤ |y| ^ (2 * j + 1) :=
    pow_le_pow_of_le_one (abs_nonneg y) hy (by omega)
  have hj : (0 : ℚ) ≤ j := Nat.cast_nonneg j
  have hden : |(2 * (j : ℚ) + 1)| ≤ |(2 * ((j + 1 : ℕ) : ℚ) + 1)| := by
    push_cast
    rw [abs_of_pos (by positivity), abs_of_pos (by positivity)]
    linarith
  exact div_le_div₀ (by positivity) hpow (by positivity) hden

theorem arcsin_sum (hx : |x| ≤ 1) : HasSum (fun j => (arcsinTerm x j : ℝ)) (Real.arcsin x) := by
  have hx' : |(x : ℝ)| ≤ 1 := by exact_mod_cast hx
  have h := ArcsineSeries.arcsin_hasSum hx'
  unfold arcsinTerm
  push_cast
  exact h

theorem lnArgument_lt (hx : 0 < x) : |lnArgument x| < 1 := by
  have hpos : 0 < x + 1 := by positivity
  unfold lnArgument
  rw [abs_lt]
  constructor
  · rw [lt_div_iff₀ hpos]
    linarith
  · rw [div_lt_one hpos]
    linarith

theorem ln_sum (hx : 0 < x) : HasSum (fun j => (lnTerm (lnArgument x) j : ℝ)) (Real.log x / 2) := by
  have hx' : (0 : ℝ) < x := by exact_mod_cast hx
  have hy : |((lnArgument x : ℚ) : ℝ)| < 1 := by exact_mod_cast lnArgument_lt hx
  obtain ⟨hlow, hhigh⟩ := abs_lt.mp hy
  have hquotient : (1 + (lnArgument x : ℝ)) / (1 - lnArgument x) = x := by
    unfold lnArgument
    push_cast
    have h1 : (x : ℝ) + 1 ≠ 0 := by positivity
    field_simp
    ring
  have h := (Real.hasSum_log_sub_log_of_abs_lt_one hy).div_const 2
  rw [← Real.log_div (by linarith) (by linarith), hquotient] at h
  have hterms (j : ℕ) : (lnTerm (lnArgument x) j : ℝ) =
      2 * (1 / (2 * j + 1)) * (lnArgument x : ℝ) ^ (2 * j + 1) / 2 := by
    unfold lnTerm
    push_cast
    ring
  simp only [hterms]
  exact h

/-! ### How close the results are -/

theorem arcsin_returns (hx : |x| ≤ 1) (hK : FirstSmall (fun j => |arcsinTerm x j|) ε K) :
    Returns .diverged (fun turns => arcsin turns (ofRat x) (ofRat ε)) (ofRat (∑ j ∈ range K, arcsinTerm x j)) := by
  simp only [arcsin_eq hx]
  exact untilSmall_returns hK

theorem arcsin_ofRat (hx : |x| ≤ 1) (hε : 0 < ε) :
    ∃ r, Returns .diverged (fun turns => arcsin turns (ofRat x) (ofRat ε)) (ofRat r) ∧
      |(r : ℝ) - Real.arcsin x| = smallSizes (arcsinTerm x) ε := by
  obtain ⟨K, hK⟩ := exists_firstSmall_term (arcsin_sum hx) hε
  have hsign (j : ℕ) : arcsinTerm x j = (if x < 0 then -1 else 1) * |arcsinTerm x j| :=
    odd_sign x (ArcsineSeries.coeff_pos j).le j
  exact ⟨_, arcsin_returns hx hK, sum_error hK (arcsin_antitone hx) (arcsin_sum hx) (abs_sign x) hsign⟩

/-- The terms of the logarithm behind the first one. -/
def lnRest (x : ℚ) (j : ℕ) : ℚ := lnTerm (lnArgument x) (j + 1)

theorem lnRest_sum (hx : 0 < x) :
    HasSum (fun j => (lnRest x j : ℝ)) (Real.log x / 2 - lnArgument x) := by
  have h := (hasSum_nat_add_iff' 1).mpr (ln_sum hx)
  rw [sum_range_one] at h
  have hzero : lnTerm (lnArgument x) 0 = lnArgument x := by simp [lnTerm]
  rw [hzero] at h
  exact h

theorem lnRest_antitone (hx : 0 < x) : Antitone fun j => |lnRest x j| := by
  intro i j hij
  exact ln_antitone (lnArgument_lt hx).le (Nat.succ_le_succ hij)

theorem ln_returns (hx : 0 < x) (hK : FirstSmall (fun j => |lnRest x j|) ε K) :
    Returns .diverged (fun turns => ln turns (ofRat x) (ofRat ε))
      (ofRat ((∑ j ∈ range K, lnRest x j + lnArgument x) * 2)) := by
  have hsplit : ∑ j ∈ range (K + 1), lnTerm (lnArgument x) j = ∑ j ∈ range K, lnRest x j + lnArgument x := by
    rw [sum_range_succ']
    congr 1
    simp [lnTerm]
  simp only [ln_eq hx]
  rw [← hsplit]
  exact (untilSmall_returns hK).bind (mul_ofRat _ 2)

theorem ln_ofRat (hx : 0 < x) (hε : 0 < ε) :
    ∃ r, Returns .diverged (fun turns => ln turns (ofRat x) (ofRat ε)) (ofRat r) ∧
      |(r : ℝ) - Real.log x| = 2 * smallSizes (lnRest x) ε := by
  obtain ⟨K, hK⟩ := exists_firstSmall_term (lnRest_sum hx) hε
  have hsign (j : ℕ) : lnRest x j = (if lnArgument x < 0 then -1 else 1) * |lnRest x j| := by
    have hcoeff : (0 : ℚ) ≤ 1 / (2 * ((j + 1 : ℕ) : ℚ) + 1) := by positivity
    have h := odd_sign (lnArgument x) hcoeff (j + 1)
    rwa [one_div_mul_eq_div] at h
  have herror := sum_error hK (lnRest_antitone hx) (lnRest_sum hx) (abs_sign _) hsign
  have hdouble : (((∑ j ∈ range K, lnRest x j + lnArgument x) * 2 : ℚ) : ℝ) - Real.log x =
      2 * (((∑ j ∈ range K, lnRest x j : ℚ) : ℝ) - (Real.log x / 2 - lnArgument x)) := by
    push_cast
    ring
  refine ⟨_, ln_returns hx hK, ?_⟩
  rw [hdouble, abs_mul, abs_two, herror]

theorem arcsin_small_iff (hx : |x| ≤ 1) :
    (∀ ε : ℚ, 0 < ε → smallSizes (arcsinTerm x) ε ≤ ε) ↔ x = 0 := by
  constructor
  · intro hall
    by_contra hne
    have hzero : arcsinTerm x 0 = x := by simp [arcsinTerm, ArcsineSeries.coeff]
    have hone : 0 < |arcsinTerm x 1| :=
      abs_pos.mpr (mul_ne_zero (ArcsineSeries.coeff_pos 1).ne' (pow_ne_zero _ hne))
    have hboth := two_terms_le (arcsin_antitone hx) (arcsin_sum hx)
    have hle := hall |arcsinTerm x 0| (by rw [hzero]; exact abs_pos.mpr hne)
    have hbad : |arcsinTerm x 0| + |arcsinTerm x 1| ≤ |arcsinTerm x 0| := by exact_mod_cast hboth.trans hle
    linarith
  · rintro rfl ε hε
    have hall (j : ℕ) : arcsinTerm 0 j = 0 := by simp [arcsinTerm]
    rw [smallSizes_zero hall]
    exact_mod_cast hε.le

theorem ln_small_iff (hx : 0 < x) : (∀ ε : ℚ, 0 < ε → 2 * smallSizes (lnRest x) ε ≤ ε) ↔ x = 1 := by
  have hupper : x + 1 ≠ 0 := by positivity
  constructor
  · intro hall
    by_contra hne
    have hy : lnArgument x ≠ 0 := div_ne_zero (sub_ne_zero.mpr hne) hupper
    have hpos : 0 < |lnRest x 0| := abs_pos.mpr (div_ne_zero (pow_ne_zero _ hy) (by positivity))
    have hboth := two_terms_le (lnRest_antitone hx) (lnRest_sum hx)
    have hle := hall |lnRest x 0| hpos
    have hone : 0 ≤ |lnRest x 1| := abs_nonneg _
    have hbad : 2 * (|lnRest x 0| + |lnRest x 1|) ≤ |lnRest x 0| := by
      have h := (mul_le_mul_of_nonneg_left hboth zero_le_two).trans hle
      exact_mod_cast h
    linarith
  · rintro rfl ε hε
    have hall (j : ℕ) : lnRest 1 j = 0 := by simp [lnRest, lnTerm, lnArgument]
    rw [smallSizes_zero hall, mul_zero]
    exact_mod_cast hε.le

/-- `arcsin` ends within `epsilon` of the arcsine. -/
def ArcsinAccurate (x epsilon : Fraction) : Prop :=
  Approximates (fun turns => arcsin turns x epsilon) (Real.arcsin (value x)) (value epsilon)

/-- `ln` ends within `epsilon` of the logarithm. -/
def LnAccurate (x epsilon : Fraction) : Prop :=
  Approximates (fun turns => ln turns x epsilon) (Real.log (value x)) (value epsilon)

theorem arcsinAccurate_iff (hx : |x| ≤ 1) (hε : 0 < ε) :
    ArcsinAccurate (ofRat x) (ofRat ε) ↔ smallSizes (arcsinTerm x) ε ≤ ε := by
  obtain ⟨r, hr, herror⟩ := arcsin_ofRat hx hε
  unfold ArcsinAccurate
  rw [value_ofRat, value_ofRat, approximates_iff hr, herror]

theorem lnAccurate_iff (hx : 0 < x) (hε : 0 < ε) :
    LnAccurate (ofRat x) (ofRat ε) ↔ 2 * smallSizes (lnRest x) ε ≤ ε := by
  obtain ⟨r, hr, herror⟩ := ln_ofRat hx hε
  unfold LnAccurate
  rw [value_ofRat, value_ofRat, approximates_iff hr, herror]

/-- What holds for every canonical `epsilon` holds for every positive rational number. -/
theorem forall_epsilon {P : Fraction → Prop} {Q : ℚ → Prop} (h : ∀ ε, 0 < ε → (P (ofRat ε) ↔ Q ε)) :
    (∀ epsilon, Canonical epsilon → 0 < value epsilon → P epsilon) ↔ ∀ ε, 0 < ε → Q ε := by
  constructor
  · intro hall ε hε
    exact (h ε hε).mp (hall _ (canonical_ofRat ε) (by rwa [value_ofRat]))
  · intro hall epsilon he hpos
    rw [he.eq_ofRat]
    exact (h _ hpos).mpr (hall _ hpos)

/-- Both functions end for every argument. The result is right where the small terms sum up to at most
`epsilon`; for every `epsilon` that is so at `0` and at `1` only. -/
theorem arcsin_ln_accurate_iff (x : Fraction) (hx : Canonical x) :
    (|value x| ≤ 1 →
      (∀ epsilon, Canonical epsilon → 0 < value epsilon →
        (∃ r, Returns .diverged (fun turns => arcsin turns x epsilon) r) ∧
          (ArcsinAccurate x epsilon ↔ smallSizes (arcsinTerm (value x)) (value epsilon) ≤ value epsilon)) ∧
        ((∀ epsilon, Canonical epsilon → 0 < value epsilon → ArcsinAccurate x epsilon) ↔ value x = 0)) ∧
    (0 < value x →
      (∀ epsilon, Canonical epsilon → 0 < value epsilon →
        (∃ r, Returns .diverged (fun turns => ln turns x epsilon) r) ∧
          (LnAccurate x epsilon ↔ 2 * smallSizes (lnRest (value x)) (value epsilon) ≤ value epsilon)) ∧
        ((∀ epsilon, Canonical epsilon → 0 < value epsilon → LnAccurate x epsilon) ↔ value x = 1)) := by
  rw [hx.eq_ofRat, value_ofRat]
  constructor
  · intro hone
    refine ⟨fun epsilon he hpos => ?_, ?_⟩
    · obtain ⟨r, hr, -⟩ := arcsin_ofRat hone hpos
      rw [he.eq_ofRat, value_ofRat]
      exact ⟨⟨_, hr⟩, arcsinAccurate_iff hone hpos⟩
    · exact (forall_epsilon fun ε hε => arcsinAccurate_iff hone hε).trans (arcsin_small_iff hone)
  · intro hzero
    refine ⟨fun epsilon he hpos => ?_, ?_⟩
    · obtain ⟨r, hr, -⟩ := ln_ofRat hzero hpos
      rw [he.eq_ofRat, value_ofRat]
      exact ⟨⟨_, hr⟩, lnAccurate_iff hzero hpos⟩
    · exact (forall_epsilon fun ε hε => lnAccurate_iff hzero hε).trans (ln_small_iff hzero)

theorem arcsin_ln_accurate_one :
    (∃ r, Returns .diverged (fun turns => arcsin turns ⟨1, 1⟩ ⟨1, 2⟩) r) ∧ LnAccurate ⟨1, 1⟩ ⟨1, 2⟩ := by
  have he : Canonical ⟨1, 2⟩ := ⟨by decide, by decide, by decide, by decide⟩
  have hpos : 0 < value ⟨1, 2⟩ := by norm_num [value]
  have hone : value ⟨1, 1⟩ = 1 := by norm_num [value]
  obtain ⟨harcsin, hln⟩ := arcsin_ln_accurate_iff ⟨1, 1⟩ canonical_one
  rw [hone] at harcsin hln
  exact ⟨((harcsin (by norm_num)).1 _ he hpos).1, (hln one_pos).2.mpr rfl _ he hpos⟩

/-- The arcsine of one is taken for one, and the logarithm of nine for `8 / 5`. -/
theorem arcsin_ln_short :
    Returns .diverged (fun turns => arcsin turns ⟨1, 1⟩ ⟨1, 2⟩) ⟨1, 1⟩ ∧ ¬ ArcsinAccurate ⟨1, 1⟩ ⟨1, 2⟩ ∧
      Returns .diverged (fun turns => ln turns ⟨9, 1⟩ ⟨1, 5⟩) ⟨8, 5⟩ ∧ ¬ LnAccurate ⟨9, 1⟩ ⟨1, 5⟩ := by
  have hone : ofRat 1 = ⟨1, 1⟩ := by decide +kernel
  have hhalf : ofRat (1 / 2) = ⟨1, 2⟩ := by decide +kernel
  have hnine : ofRat 9 = ⟨9, 1⟩ := by decide +kernel
  have hfifth : ofRat (1 / 5) = ⟨1, 5⟩ := by decide +kernel
  have height : ofRat (8 / 5) = ⟨8, 5⟩ := by decide +kernel
  have harcsin : FirstSmall (fun j => |arcsinTerm 1 j|) (1 / 2) 1 := by
    refine ⟨?_, fun j hj => ?_⟩
    · norm_num [arcsinTerm, ArcsineSeries.coeff]
    · obtain rfl : j = 0 := by omega
      norm_num [arcsinTerm, ArcsineSeries.coeff]
  have hln : FirstSmall (fun j => |lnRest 9 j|) (1 / 5) 0 := by
    refine ⟨?_, fun j hj => absurd hj (Nat.not_lt_zero j)⟩
    norm_num [lnRest, lnTerm, lnArgument]
  have hr := arcsin_returns abs_one.le harcsin
  have hs := ln_returns (by norm_num) hln
  have hsum : ∑ j ∈ range 1, arcsinTerm 1 j = 1 := by simp [arcsinTerm, ArcsineSeries.coeff]
  have hfirst : (∑ j ∈ range 0, lnRest 9 j + lnArgument 9) * 2 = 8 / 5 := by norm_num [lnArgument]
  rw [hsum] at hr
  rw [hfirst] at hs
  have hbad : ¬ ArcsinAccurate (ofRat 1) (ofRat (1 / 2)) := by
    unfold ArcsinAccurate
    rw [value_ofRat, value_ofRat, approximates_iff hr, Rat.cast_one, Real.arcsin_one, abs_sub_comm]
    intro hle
    have hlt := (abs_le.mp hle).2
    have hπ := Real.pi_gt_three
    push_cast at hlt
    linarith
  have hbad' : ¬ LnAccurate (ofRat 9) (ofRat (1 / 5)) := by
    unfold LnAccurate
    rw [value_ofRat, value_ofRat, approximates_iff hs, abs_sub_comm]
    intro hle
    have hlt := (abs_le.mp hle).2
    have hlog : (2 : ℝ) < Real.log 9 := by
      have htwo : Real.exp 2 = Real.exp 1 * Real.exp 1 := by
        rw [← Real.exp_add]
        norm_num
      rw [Real.lt_log_iff_exp_lt (by norm_num), htwo]
      have hthree := Real.exp_one_lt_three
      have hpos := Real.exp_pos 1
      nlinarith
    push_cast at hlt
    linarith
  rw [hone, hhalf] at hr hbad
  rw [hnine, hfifth] at hs hbad'
  rw [height] at hs
  exact ⟨hr, hbad, hs, hbad'⟩

end MaiFaSp.Fraction
