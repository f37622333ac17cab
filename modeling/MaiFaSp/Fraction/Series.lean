import MaiFaSp.Fraction.Rationals
import MaiFaSp.Lib.AlternatingSum
import MaiFaSp.Lib.Outcomes
import MaiFaSp.Lib.Truncation
import Mathlib.Analysis.SpecialFunctions.Trigonometric.Bounds

/-!
# `fraction`: sine and cosine (`fraction.cpp:161-173, 196-212`)

The loops add the terms of the Taylor series until one is at most `epsilon`. Their
turns are bounded, and running out of them is the fault `diverged`; the `int` that
counts the terms has no bound.
-/

namespace MaiFaSp.Fraction

open Finset AlternatingSum Truncation

/-- `while (abs(term) > epsilon) { … }` -/
def sinLoop (x epsilon : Fraction) :
    ℕ → Fraction → Fraction → ℤ → Except FractionFault Fraction
  | 0, _, _, _ => throw .diverged
  | turns + 1, result, term, n => do
    let size ← abs term
    if greater size epsilon then
      let result ← addAssign result term
      let negated ← neg x
      let square ← mul negated x
      let term ← mul term square
      let divisor ← construct (2 * n * (2 * n + 1)) 1
      let term ← divAssign term divisor
      sinLoop x epsilon turns result term (n + 1)
    else pure result

def sin (turns : ℕ) (x epsilon : Fraction) : Except FractionFault Fraction := do
  let result ← construct 0 1
  sinLoop x epsilon turns result x 1

/-- The loop of `cos`, which tests a term before it adds it. -/
def cosLoop (x epsilon : Fraction) :
    ℕ → Fraction → Fraction → ℤ → Except FractionFault Fraction
  | 0, _, _, _ => throw .diverged
  | turns + 1, result, term, n => do
    let negated ← neg x
    let square ← mul negated x
    let term ← mul term square
    let divisor ← construct ((2 * n - 1) * (2 * n)) 1
    let term ← divAssign term divisor
    let size ← abs term
    if lessEq size epsilon then pure result
    else
      let result ← addAssign result term
      cosLoop x epsilon turns result term (n + 1)

def cos (turns : ℕ) (x epsilon : Fraction) : Except FractionFault Fraction := do
  let result ← construct 1 1
  let term ← construct 1 1
  cosLoop x epsilon turns result term 1

/-! ### The terms -/

def sinTerm (x : ℚ) (i : ℕ) : ℚ := (-1) ^ i * x ^ (2 * i + 1) / (2 * i + 1).factorial

def cosTerm (x : ℚ) (i : ℕ) : ℚ := (-1) ^ i * x ^ (2 * i) / (2 * i).factorial

theorem sinTerm_succ (x : ℚ) (i : ℕ) :
    sinTerm x (i + 1) = sinTerm x i * (-x * x) / ((2 * (i + 1) * (2 * (i + 1) + 1) : ℤ) : ℚ) := by
  unfold sinTerm
  have hfact : (2 * (i + 1) + 1).factorial =
      (2 * i + 3) * ((2 * i + 2) * (2 * i + 1).factorial) := rfl
  have hne : ((2 * i + 1).factorial : ℚ) ≠ 0 := by
    exact_mod_cast (Nat.factorial_pos _).ne'
  rw [hfact]
  push_cast
  have h2 : (2 * (i : ℚ) + 2) ≠ 0 := by positivity
  have h3 : (2 * (i : ℚ) + 3) ≠ 0 := by positivity
  have h2' : (2 * ((i : ℚ) + 1)) ≠ 0 := by positivity
  have h3' : (2 * ((i : ℚ) + 1) + 1) ≠ 0 := by positivity
  field_simp
  ring

theorem cosTerm_succ (x : ℚ) (i : ℕ) :
    cosTerm x (i + 1) = cosTerm x i * (-x * x) / (((2 * (i + 1) - 1) * (2 * (i + 1)) : ℤ) : ℚ) := by
  unfold cosTerm
  have hfact : (2 * (i + 1)).factorial = (2 * i + 2) * ((2 * i + 1) * (2 * i).factorial) := rfl
  have hne : ((2 * i).factorial : ℚ) ≠ 0 := by
    exact_mod_cast (Nat.factorial_pos _).ne'
  rw [hfact]
  push_cast
  have h1 : (2 * (i : ℚ) + 1) ≠ 0 := by positivity
  have h2 : (2 * (i : ℚ) + 2) ≠ 0 := by positivity
  have h1' : (2 * ((i : ℚ) + 1) - 1) ≠ 0 := by
    have : (2 * ((i : ℚ) + 1) - 1) = 2 * i + 1 := by ring
    rw [this]
    exact h1
  have h2' : (2 * ((i : ℚ) + 1)) ≠ 0 := by positivity
  field_simp
  ring

/-! ### The loops -/

variable {x ε : ℚ} {K : ℕ}

theorem sinLoop_eq (x ε : ℚ) (turns i : ℕ) :
    sinLoop (ofRat x) (ofRat ε) turns (ofRat (∑ j ∈ range i, sinTerm x j)) (ofRat (sinTerm x i))
      ((i : ℤ) + 1) =
      untilSmall (fun j => |sinTerm x j|) ε (fun K => ofRat (∑ j ∈ range K, sinTerm x j)) .diverged
        turns i := by
  induction turns generalizing i with
  | zero => rfl
  | succ turns ih =>
    have hne : ((2 * ((i : ℤ) + 1) * (2 * ((i : ℤ) + 1) + 1) : ℤ) : ℚ) ≠ 0 := by
      rw [Int.cast_ne_zero]
      positivity
    rw [sinLoop, untilSmall, abs_ofRat, ok_bind, greater_ofRat]
    by_cases hbig : ε < |sinTerm x i|
    · rw [if_pos hbig, decide_eq_true hbig, if_pos rfl, addAssign_ofRat, ok_bind, neg_ofRat, ok_bind,
        mul_ofRat, ok_bind, mul_ofRat, ok_bind, construct_one, ok_bind, divAssign_ofRat _ hne, ok_bind,
        ← sinTerm_succ, ← sum_range_succ]
      exact ih (i + 1)
    · rw [if_neg hbig, decide_eq_false hbig, if_neg Bool.false_ne_true]
      rfl

/-- The loop of `cos` looks one term ahead. -/
theorem cosLoop_eq (x ε : ℚ) (turns i : ℕ) :
    cosLoop (ofRat x) (ofRat ε) turns (ofRat (∑ j ∈ range (i + 1), cosTerm x j)) (ofRat (cosTerm x i))
      ((i : ℤ) + 1) =
      untilSmall (fun j => |cosTerm x (j + 1)|) ε (fun K => ofRat (∑ j ∈ range (K + 1), cosTerm x j)) .diverged
        turns i := by
  induction turns generalizing i with
  | zero => rfl
  | succ turns ih =>
    have hne : (((2 * ((i : ℤ) + 1) - 1) * (2 * ((i : ℤ) + 1)) : ℤ) : ℚ) ≠ 0 := by
      rw [Int.cast_ne_zero]
      apply mul_ne_zero <;> omega
    rw [cosLoop, untilSmall, neg_ofRat, ok_bind, mul_ofRat, ok_bind, mul_ofRat, ok_bind, construct_one, ok_bind,
      divAssign_ofRat _ hne, ok_bind, ← cosTerm_succ, abs_ofRat, ok_bind, lessEq_ofRat]
    by_cases hsmall : |cosTerm x (i + 1)| ≤ ε
    · rw [if_neg (not_lt.mpr hsmall), decide_eq_true hsmall, if_pos rfl]
      rfl
    · rw [if_pos (not_le.mp hsmall), decide_eq_false hsmall, if_neg Bool.false_ne_true, addAssign_ofRat, ok_bind,
        ← sum_range_succ]
      exact ih (i + 1)

/-! ### The Taylor series -/

theorem sin_hasSum (x : ℚ) : HasSum (fun i => (sinTerm x i : ℝ)) (Real.sin x) := by
  have hsum := Real.hasSum_sin x
  unfold sinTerm
  push_cast
  exact hsum

theorem cos_hasSum (x : ℚ) : HasSum (fun i => (cosTerm x i : ℝ)) (Real.cos x) := by
  have hsum := Real.hasSum_cos x
  unfold cosTerm
  push_cast
  exact hsum

theorem sin_alternates (x : ℚ) :
    Alternates (fun i => (sinTerm x i : ℝ))
      fun i => (x : ℝ) * x / ((2 * ((i : ℝ) + 1)) * (2 * ((i : ℝ) + 1) + 1)) where
  next i := by
    rw [sinTerm_succ]
    push_cast
    ring
  nonneg i := div_nonneg (mul_self_nonneg _) (by positivity)
  falls i := by
    push_cast
    gcongr
    · exact mul_self_nonneg _
    · linarith
    · linarith

theorem cos_alternates (x : ℚ) :
    Alternates (fun i => (cosTerm x i : ℝ))
      fun i => (x : ℝ) * x / ((2 * ((i : ℝ) + 1) - 1) * (2 * ((i : ℝ) + 1))) where
  next i := by
    rw [cosTerm_succ]
    push_cast
    ring
  nonneg i := by
    have hodd : (0 : ℝ) ≤ 2 * ((i : ℝ) + 1) - 1 := by
      have : (0 : ℝ) ≤ i := Nat.cast_nonneg i
      linarith
    exact div_nonneg (mul_self_nonneg _) (mul_nonneg hodd (by positivity))
  falls i := by
    have hi : (0 : ℝ) ≤ i := Nat.cast_nonneg i
    have hodd : (0 : ℝ) < 2 * ((i : ℝ) + 1) - 1 := by linarith
    push_cast
    gcongr
    · exact mul_self_nonneg _
    · linarith
    · linarith
    · linarith

/-- The sum before the first small term, which may be the very first. -/
theorem sin_first_small (hK : FirstSmall (fun j => |sinTerm x j|) ε K) :
    |((∑ j ∈ range K, sinTerm x j : ℚ) : ℝ) - Real.sin x| ≤ ε := by
  obtain ⟨hsmall, hbig⟩ := hK
  rw [abs_sub_comm, Rat.cast_sum]
  cases K with
  | zero =>
    have hx : |(x : ℝ)| ≤ ε := by
      have hterm : sinTerm x 0 = x := by simp [sinTerm]
      rw [hterm] at hsmall
      exact_mod_cast hsmall
    rw [sum_range_zero, sub_zero]
    exact Real.abs_sin_le_abs.trans hx
  | succ K =>
    apply (sin_alternates x).stop (sin_hasSum x)
    · exact_mod_cast hbig K (Nat.lt_succ_self K)
    · exact_mod_cast hsmall

theorem cos_first_small (hK : FirstSmall (fun j => |cosTerm x (j + 1)|) ε K) :
    |((∑ j ∈ range (K + 1), cosTerm x j : ℚ) : ℝ) - Real.cos x| ≤ ε := by
  obtain ⟨hsmall, hbig⟩ := hK
  rw [abs_sub_comm, Rat.cast_sum]
  cases K with
  | zero =>
    have hx : (x : ℝ) ^ 2 / 2 ≤ ε := by
      have hterm : |cosTerm x 1| = x ^ 2 / 2 := by
        simp [cosTerm, abs_div]
      rw [hterm] at hsmall
      exact_mod_cast hsmall
    have hlow := Real.one_sub_sq_div_two_le_cos (x := (x : ℝ))
    have hone := Real.cos_le_one (x : ℝ)
    rw [sum_range_one]
    simp only [cosTerm, pow_zero, mul_zero, Nat.factorial_zero, Nat.cast_one, div_one, mul_one,
      Rat.cast_one]
    rw [abs_le]
    constructor <;> linarith
  | succ K =>
    apply (cos_alternates x).stop (cos_hasSum x)
    · exact_mod_cast hbig K (Nat.lt_succ_self K)
    · exact_mod_cast hsmall

/-! ### Both functions end, close to the real values -/

/-- With enough turns the result is `r`, which is canonical and at most `ε` from `z`. -/
def Approximates (f : ℕ → Except FractionFault Fraction) (z : ℝ) (ε : ℚ) : Prop :=
  ∃ r enough, (∀ turns ≥ enough, f turns = .ok r) ∧ Canonical r ∧ |(value r : ℝ) - z| ≤ ε

theorem approximates_iff {f : ℕ → Except FractionFault Fraction} {q : ℚ} {z : ℝ}
    (hr : Returns .diverged f (ofRat q)) : Approximates f z ε ↔ |(q : ℝ) - z| ≤ ε := by
  obtain ⟨enough, hok, -⟩ := hr
  constructor
  · rintro ⟨r, enough', hok', -, hle⟩
    have heq := (hok (max enough enough') (le_max_left ..)).symm.trans (hok' _ (le_max_right ..))
    rwa [← Except.ok.inj heq, value_ofRat] at hle
  · intro hle
    exact ⟨ofRat q, enough, hok, canonical_ofRat q, by rwa [value_ofRat]⟩

theorem exists_firstSmall_term {t : ℕ → ℚ} {S : ℝ} (hsum : HasSum (fun j => (t j : ℝ)) S) (hε : 0 < ε) :
    ∃ K, FirstSmall (fun j => |t j|) ε K := by
  have hzero := hsum.summable.tendsto_atTop_zero.abs
  rw [abs_zero] at hzero
  have hε' : (0 : ℝ) < ε := by exact_mod_cast hε
  obtain ⟨K, hK⟩ := Truncation.exists_small hzero hε'
  exact exists_firstSmall ⟨K, by exact_mod_cast hK.small⟩

theorem sin_eq (x ε : ℚ) (turns : ℕ) :
    sin turns (ofRat x) (ofRat ε) =
      untilSmall (fun j => |sinTerm x j|) ε (fun K => ofRat (∑ j ∈ range K, sinTerm x j)) .diverged turns 0 := by
  have hzero : sinTerm x 0 = x := by simp [sinTerm]
  have hloop := sinLoop_eq x ε turns 0
  rw [sum_range_zero, hzero] at hloop
  rw [sin, construct_one, ok_bind]
  exact hloop

theorem cos_eq (x ε : ℚ) (turns : ℕ) :
    cos turns (ofRat x) (ofRat ε) =
      untilSmall (fun j => |cosTerm x (j + 1)|) ε (fun K => ofRat (∑ j ∈ range (K + 1), cosTerm x j)) .diverged
        turns 0 := by
  have hzero : cosTerm x 0 = 1 := by simp [cosTerm]
  have hloop := cosLoop_eq x ε turns 0
  rw [sum_range_one, hzero] at hloop
  rw [cos, construct_one, ok_bind, ok_bind, Int.cast_one]
  exact hloop

theorem sin_ofRat (x : ℚ) (hε : 0 < ε) :
    Approximates (fun turns => sin turns (ofRat x) (ofRat ε)) (Real.sin x) ε := by
  obtain ⟨K, hK⟩ := exists_firstSmall_term (sin_hasSum x) hε
  refine (approximates_iff ?_).mpr (sin_first_small hK)
  simp only [sin_eq]
  exact untilSmall_returns hK

theorem cos_ofRat (x : ℚ) (hε : 0 < ε) :
    Approximates (fun turns => cos turns (ofRat x) (ofRat ε)) (Real.cos x) ε := by
  have hrest := (hasSum_nat_add_iff' 1).mpr (cos_hasSum x)
  obtain ⟨K, hK⟩ := exists_firstSmall_term hrest hε
  refine (approximates_iff ?_).mpr (cos_first_small hK)
  simp only [cos_eq]
  exact untilSmall_returns hK

/-- Sine and cosine of every fraction, to every positive `epsilon`. -/
theorem sine_cosine_accurate (x epsilon : Fraction) (hx : Canonical x) (he : Canonical epsilon)
    (hpos : 0 < value epsilon) :
    Approximates (fun turns => sin turns x epsilon) (Real.sin (value x)) (value epsilon) ∧
      Approximates (fun turns => cos turns x epsilon) (Real.cos (value x)) (value epsilon) := by
  rw [hx.eq_ofRat, he.eq_ofRat, value_ofRat, value_ofRat]
  exact ⟨sin_ofRat _ hpos, cos_ofRat _ hpos⟩

/-- At `-7/2`, where the terms rise first. -/
theorem sine_cosine_accurate_rising :
    Approximates (fun turns => sin turns ⟨7, -2⟩ ⟨1, 10⟩) (Real.sin (value ⟨7, -2⟩)) (value ⟨1, 10⟩) ∧
      Approximates (fun turns => cos turns ⟨7, -2⟩ ⟨1, 10⟩) (Real.cos (value ⟨7, -2⟩))
        (value ⟨1, 10⟩) := by
  apply sine_cosine_accurate ⟨7, -2⟩ ⟨1, 10⟩ ⟨by decide, by decide, by decide, by decide⟩
    ⟨by decide, by decide, by decide, by decide⟩
  unfold value
  norm_num

end MaiFaSp.Fraction
