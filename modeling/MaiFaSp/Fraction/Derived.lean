import MaiFaSp.Fraction.ArcSineLogarithm
import Mathlib.Analysis.Normed.Group.Tannery
import Mathlib.Analysis.Real.Pi.Irrational
import Mathlib.Analysis.SpecialFunctions.Log.Base

/-!
# `fraction`: the functions made of the series (`fraction.cpp:214-230, 252-307, 379-396`)

Quotients, reciprocals and complements of the functions that are summed up. The turns bound each of the
loops, and running out of them is the fault `diverged`.
-/

namespace MaiFaSp.Fraction

open Filter Truncation
open scoped Topology

/-- `tg` and `ctg`: two functions, each to `epsilon * epsilon`, and their quotient. -/
def quotient (upper lower : ℕ → Fraction → Fraction → Except FractionFault Fraction) (what : String)
    (turns : ℕ) (x epsilon : Fraction) : Except FractionFault Fraction := do
  let square ← mul epsilon epsilon
  let divisor ← lower turns x square
  if divisor.numerator = 0 then throw (.domainError what)
  else
    let square ← mul epsilon epsilon
    let dividend ← upper turns x square
    div dividend divisor

def tg : ℕ → Fraction → Fraction → Except FractionFault Fraction := quotient sin cos "Tangent undefined"

def ctg : ℕ → Fraction → Fraction → Except FractionFault Fraction := quotient cos sin "Cotangent undefined"

/-- `sec` and `cosec` -/
def reciprocal (f : ℕ → Fraction → Fraction → Except FractionFault Fraction) (what : String)
    (turns : ℕ) (x epsilon : Fraction) : Except FractionFault Fraction := do
  let divisor ← f turns x epsilon
  if divisor.numerator = 0 then throw (.domainError what)
  else
    let one ← construct 1 1
    div one divisor

def sec : ℕ → Fraction → Fraction → Except FractionFault Fraction := reciprocal cos "Secant undefined"

def cosec : ℕ → Fraction → Fraction → Except FractionFault Fraction := reciprocal sin "Cosecant undefined"

/-- `half.arcsin(epsilon) * fraction{3, 1}` -/
def piOver2 (turns : ℕ) (epsilon : Fraction) : Except FractionFault Fraction := do
  let half ← construct 1 2
  let sixth ← arcsin turns half epsilon
  let three ← construct 3 1
  mul sixth three

def arccos (turns : ℕ) (x epsilon : Fraction) : Except FractionFault Fraction := do
  let one ← construct 1 1
  let minusOne ← construct (-1) 1
  if greater x one || less x minusOne then throw (.domainError "arccos is undefined for |x| > 1")
  else
    let piOver2 ← piOver2 turns epsilon
    let arcsinVal ← arcsin turns x epsilon
    sub piOver2 arcsinVal

def arcctg (turns : ℕ) (x epsilon : Fraction) : Except FractionFault Fraction := do
  let zero ← construct 0 1
  if equals x zero then throw (.domainError "arcctg is undefined for x = 0")
  else
    let square ← mul epsilon epsilon
    let piOver2 ← piOver2 turns square
    let angle ← arctg turns x epsilon
    sub piOver2 angle

/-- `arcsec` and `arccosec`: a function of the inverse, which has to be at most one in size. -/
def ofInverse (f : ℕ → Fraction → Fraction → Except FractionFault Fraction) (atZero below : String)
    (turns : ℕ) (x epsilon : Fraction) : Except FractionFault Fraction := do
  let zero ← construct 0 1
  if equals x zero then throw (.domainError atZero)
  else
    let one ← construct 1 1
    let invX ← div one x
    let minusOne ← neg one
    if greater invX one || less invX minusOne then throw (.domainError below)
    else f turns invX epsilon

def arcsec : ℕ → Fraction → Fraction → Except FractionFault Fraction :=
  ofInverse arccos "arcsec is undefined for x = 0" "arcsec is undefined for |x| < 1"

def arccosec : ℕ → Fraction → Fraction → Except FractionFault Fraction :=
  ofInverse arcsin "arccosec is undefined for x = 0" "arccosec is undefined for |x| < 1"

/-- `log2` and `lg` -/
def logarithm (base : ℤ) (what : String) (turns : ℕ) (x epsilon : Fraction) : Except FractionFault Fraction := do
  let zero ← construct 0 1
  if lessEq x zero then throw (.domainError what)
  else
    let lnX ← ln turns x epsilon
    let base ← construct base 1
    let lnBase ← ln turns base epsilon
    div lnX lnBase

def log2 : ℕ → Fraction → Fraction → Except FractionFault Fraction :=
  logarithm 2 "Logarithm of non-positive number is undefined"

def lg : ℕ → Fraction → Fraction → Except FractionFault Fraction :=
  logarithm 10 "Base-10 logarithm of non-positive number is undefined"

/-- With enough turns the result is canonical and at most `bound` from `z`. -/
def Near (f : ℕ → Except FractionFault Fraction) (z bound : ℝ) : Prop :=
  ∃ r, Returns .diverged f r ∧ Canonical r ∧ |(value r : ℝ) - z| ≤ bound

/-- The results come as close to `z` as is asked, from some `epsilon` down. -/
def Converges (f : ℕ → Fraction → Except FractionFault Fraction) (z : ℝ) : Prop :=
  ∀ δ : ℝ, 0 < δ → ∃ ε₀ : ℚ, 0 < ε₀ ∧ ∀ epsilon, Canonical epsilon → 0 < value epsilon →
    value epsilon < ε₀ → Near (fun turns => f turns epsilon) z δ

/-! ### Quotients -/

section Quotients

variable {x ε q s c : ℚ} {S C z e : ℝ}
  {f upper lower : ℕ → Fraction → Fraction → Except FractionFault Fraction} {what : String}

theorem near_ofRat {f : ℕ → Except FractionFault Fraction} (hr : Returns .diverged f (ofRat q))
    (hq : |(q : ℝ) - z| ≤ e) : Near f z e :=
  ⟨ofRat q, hr, canonical_ofRat q, by rwa [value_ofRat]⟩

theorem sin_returns (x : ℚ) (hε : 0 < ε) : ∃ q,
    Returns .diverged (fun turns => sin turns (ofRat x) (ofRat ε)) (ofRat q) ∧ |(q : ℝ) - Real.sin x| ≤ ε := by
  obtain ⟨K, hK⟩ := exists_firstSmall_term (sin_hasSum x) hε
  refine ⟨_, ?_, sin_first_small hK⟩
  simp only [sin_eq]
  exact untilSmall_returns hK

theorem cos_returns (x : ℚ) (hε : 0 < ε) : ∃ q,
    Returns .diverged (fun turns => cos turns (ofRat x) (ofRat ε)) (ofRat q) ∧ |(q : ℝ) - Real.cos x| ≤ ε := by
  have hrest := (hasSum_nat_add_iff' 1).mpr (cos_hasSum x)
  obtain ⟨K, hK⟩ := exists_firstSmall_term hrest hε
  refine ⟨_, ?_, cos_first_small hK⟩
  simp only [cos_eq]
  exact untilSmall_returns hK

/-- How far off a reciprocal is when the divisor `C` is off by `e`. -/
noncomputable def spread (e C : ℝ) : ℝ := e / (|C| * (|C| - e))

theorem divisor_pos {c : ℝ} (hc : |c - C| ≤ e) (he : e < |C|) : 0 < |C| - e ∧ |C| - e ≤ |c| := by
  have htri := abs_sub_abs_le_abs_sub C c
  rw [abs_sub_comm] at htri
  constructor <;> linarith

theorem reciprocal_error {c : ℝ} (hc : |c - C| ≤ e) (he : e < |C|) : |1 / c - 1 / C| ≤ spread e C := by
  obtain ⟨hpos, hle⟩ := divisor_pos hc he
  have hC : 0 < |C| := lt_of_le_of_lt ((abs_nonneg _).trans hc) he
  have hc0 : c ≠ 0 := abs_pos.mp (hpos.trans_le hle)
  have heq : 1 / c - 1 / C = (C - c) / (C * c) := by
    field_simp [abs_pos.mp hC]
  rw [heq, abs_div, abs_mul, abs_sub_comm]
  exact div_le_div₀ ((abs_nonneg _).trans hc) hc (mul_pos hC hpos) (mul_le_mul_of_nonneg_left hle hC.le)

/-- Two numbers up to one, both off by at most `e`. -/
theorem quotient_error {s c : ℝ} (hs : |s - S| ≤ e) (hc : |c - C| ≤ e) (he : e < |C|) (hS : |S| ≤ 1)
    (hC1 : |C| ≤ 1) : |s / c - S / C| ≤ 2 * spread e C := by
  obtain ⟨hpos, hle⟩ := divisor_pos hc he
  have hC : 0 < |C| := lt_of_le_of_lt ((abs_nonneg _).trans hc) he
  have he0 : 0 ≤ e := (abs_nonneg _).trans hc
  have hc0 : c ≠ 0 := abs_pos.mp (hpos.trans_le hle)
  have heq : s / c - S / C = ((s - S) * C - S * (c - C)) / (C * c) := by
    field_simp [abs_pos.mp hC]
    ring
  have hupper : |(s - S) * C - S * (c - C)| ≤ 2 * e := by
    calc |(s - S) * C - S * (c - C)| ≤ |(s - S) * C| + |S * (c - C)| := abs_sub _ _
      _ = |s - S| * |C| + |S| * |c - C| := by rw [abs_mul, abs_mul]
      _ ≤ e * 1 + 1 * e := add_le_add (mul_le_mul hs hC1 hC.le he0) (mul_le_mul hS hc (abs_nonneg _) zero_le_one)
      _ = 2 * e := by ring
  rw [heq, abs_div, abs_mul, spread, mul_div_assoc']
  exact div_le_div₀ (by linarith) hupper (mul_pos hC hpos) (mul_le_mul_of_nonneg_left hle hC.le)

theorem numerator_ne_zero (hc : |(c : ℝ) - C| ≤ e) (he : e < |C|) : ¬ (ofRat c).numerator = 0 := by
  obtain ⟨hpos, hle⟩ := divisor_pos hc he
  intro hzero
  rw [numerator_ofRat_eq_zero.mp hzero, Rat.cast_zero, abs_zero] at hle
  linarith

theorem quotient_returns
    (hs : Returns .diverged (fun turns => upper turns (ofRat x) (ofRat (ε * ε))) (ofRat s))
    (hc : Returns .diverged (fun turns => lower turns (ofRat x) (ofRat (ε * ε))) (ofRat c))
    (hne : ¬ (ofRat c).numerator = 0) :
    Returns .diverged (fun turns => quotient upper lower what turns (ofRat x) (ofRat ε)) (ofRat (s / c)) := by
  have hdiv : div (ofRat s) (ofRat c) = .ok (ofRat (s / c)) := div_ofRat s (mt numerator_ofRat_eq_zero.mpr hne)
  unfold quotient
  simp only [mul_ofRat, ok_bind]
  refine hc.andThen ?_
  simp only [if_neg hne]
  exact hs.bind hdiv

theorem reciprocal_returns (hc : Returns .diverged (fun turns => f turns (ofRat x) (ofRat ε)) (ofRat c))
    (hne : ¬ (ofRat c).numerator = 0) :
    Returns .diverged (fun turns => reciprocal f what turns (ofRat x) (ofRat ε)) (ofRat (1 / c)) := by
  have hdiv : div (ofRat 1) (ofRat c) = .ok (ofRat (1 / c)) := div_ofRat 1 (mt numerator_ofRat_eq_zero.mpr hne)
  refine hc.bind ?_
  rw [if_neg hne, construct_one, ok_bind, Int.cast_one]
  exact hdiv

/-- A function that comes within `ε * ε` of `S`, divided by one that comes within `ε * ε` of `C`. -/
theorem quotient_near (hε : (ε : ℝ) ^ 2 < |C|) (hS : |S| ≤ 1) (hC : |C| ≤ 1)
    (hs : ∃ q, Returns .diverged (fun turns => upper turns (ofRat x) (ofRat (ε * ε))) (ofRat q) ∧
      |(q : ℝ) - S| ≤ (ε * ε : ℚ))
    (hc : ∃ q, Returns .diverged (fun turns => lower turns (ofRat x) (ofRat (ε * ε))) (ofRat q) ∧
      |(q : ℝ) - C| ≤ (ε * ε : ℚ)) :
    Near (fun turns => quotient upper lower what turns (ofRat x) (ofRat ε)) (S / C) (2 * spread (ε ^ 2) C) := by
  obtain ⟨s, hs, hserr⟩ := hs
  obtain ⟨c, hc, hcerr⟩ := hc
  rw [Rat.cast_mul, ← sq] at hserr hcerr
  refine near_ofRat (quotient_returns hs hc (numerator_ne_zero hcerr hε)) ?_
  rw [Rat.cast_div]
  exact quotient_error hserr hcerr hε hS hC

theorem reciprocal_near (hε : (ε : ℝ) < |C|)
    (hc : ∃ q, Returns .diverged (fun turns => f turns (ofRat x) (ofRat ε)) (ofRat q) ∧ |(q : ℝ) - C| ≤ ε) :
    Near (fun turns => reciprocal f what turns (ofRat x) (ofRat ε)) (1 / C) (spread ε C) := by
  obtain ⟨c, hc, hcerr⟩ := hc
  refine near_ofRat (reciprocal_returns hc (numerator_ne_zero hcerr hε)) ?_
  rw [Rat.cast_div, Rat.cast_one]
  exact reciprocal_error hcerr hε

/-- No rational number but 0 is a multiple of `π`. -/
theorem sin_ne_zero (hx : x ≠ 0) : Real.sin x ≠ 0 := by
  intro hzero
  obtain ⟨n, hn⟩ := Real.sin_eq_zero_iff.mp hzero
  have hn0 : n ≠ 0 := by
    rintro rfl
    rw [Int.cast_zero, zero_mul] at hn
    exact hx (by exact_mod_cast hn.symm)
  exact (irrational_pi.intCast_mul hn0) ⟨x, hn.symm⟩

theorem cos_ne_zero (x : ℚ) : Real.cos x ≠ 0 := by
  intro hzero
  obtain ⟨k, hk⟩ := Real.cos_eq_zero_iff.mp hzero
  have hodd : (2 * k + 1 : ℤ) ≠ 0 := by omega
  refine (irrational_pi.intCast_mul hodd) ⟨2 * x, ?_⟩
  push_cast
  linarith

theorem sin_zero (turns : ℕ) (hε : 0 < ε) : sin (turns + 1) (ofRat 0) (ofRat ε) = .ok (ofRat 0) := by
  have hsmall : ¬ ε < |sinTerm 0 0| := by
    rw [sinTerm]
    simpa using hε.le
  rw [sin_eq, untilSmall, if_neg hsmall, Finset.sum_range_zero]

end Quotients

section Limits

variable {x ε : ℚ} {a b z : ℝ} {f g : ℕ → Fraction → Except FractionFault Fraction}

/-- As `epsilon` falls to zero, the results tend to `z`. -/
def Tends (f : ℕ → Fraction → Except FractionFault Fraction) (z : ℝ) : Prop :=
  ∃ q : ℚ → ℚ, (∀ᶠ ε in 𝓝[>] (0 : ℚ), Returns .diverged (fun turns => f turns (ofRat ε)) (ofRat (q ε))) ∧
    Tendsto (fun ε => (q ε : ℝ)) (𝓝[>] 0) (𝓝 z)

theorem Tends.converges (h : Tends f z) : Converges f z := by
  obtain ⟨q, hreturns, hlim⟩ := h
  intro δ hδ
  have hnear : ∀ᶠ ε in 𝓝[>] (0 : ℚ), |(q ε : ℝ) - z| ≤ δ :=
    hlim.eventually (Metric.closedBall_mem_nhds z hδ)
  obtain ⟨ε₀, hε₀, hall⟩ := mem_nhdsGT_iff_exists_Ioo_subset.mp (hreturns.and hnear)
  refine ⟨ε₀, hε₀, fun epsilon he hpos hlt => ?_⟩
  obtain ⟨hr, hq⟩ := hall ⟨hpos, hlt⟩
  rw [he.eq_ofRat]
  exact near_ofRat hr hq

theorem Tends.of_error {e : ℚ → ℝ} (he : Tendsto e (𝓝[>] 0) (𝓝 0))
    (h : ∀ ε, 0 < ε → ∃ q, Returns .diverged (fun turns => f turns (ofRat ε)) (ofRat q) ∧ |(q : ℝ) - z| ≤ e ε) :
    Tends f z := by
  choose! q hreturns herror using h
  refine ⟨q, eventually_mem_nhdsWithin.mono hreturns, ?_⟩
  rw [tendsto_iff_dist_tendsto_zero]
  exact squeeze_zero' (.of_forall fun _ => dist_nonneg) (eventually_mem_nhdsWithin.mono herror) he

theorem Tends.congr (h : Tends f z) (heq : ∀ turns ε, g turns (ofRat ε) = f turns (ofRat ε)) : Tends g z := by
  obtain ⟨q, hreturns, hlim⟩ := h
  refine ⟨q, hreturns.mono fun ε hε => ?_, hlim⟩
  simp only [heq]
  exact hε

theorem Tends.sub (hf : Tends f a) (hg : Tends g b) :
    Tends (fun turns ε => f turns ε >>= fun p => g turns ε >>= fun q => Fraction.sub p q) (a - b) := by
  obtain ⟨p, hp, hplim⟩ := hf
  obtain ⟨q, hq, hqlim⟩ := hg
  refine ⟨fun ε => p ε - q ε, ?_, ?_⟩
  · filter_upwards [hp, hq] with ε hpε hqε
    exact hpε.andThen (hqε.bind (sub_ofRat _ _))
  · push_cast
    exact hplim.sub hqlim

theorem Tends.div (hf : Tends f a) (hg : Tends g b) (hb : b ≠ 0) :
    Tends (fun turns ε => f turns ε >>= fun p => g turns ε >>= fun q => Fraction.div p q) (a / b) := by
  obtain ⟨p, hp, hplim⟩ := hf
  obtain ⟨q, hq, hqlim⟩ := hg
  refine ⟨fun ε => p ε / q ε, ?_, ?_⟩
  · filter_upwards [hp, hq, hqlim.eventually_ne hb] with ε hpε hqε hne
    have hne : q ε ≠ 0 := by exact_mod_cast hne
    exact hpε.andThen (hqε.bind (div_ofRat _ hne))
  · push_cast
    exact hplim.div hqlim hb

theorem Tends.squared (hf : Tends f a) : Tends (fun turns ε => mul ε ε >>= f turns) a := by
  obtain ⟨q, hq, hlim⟩ := hf
  have hsquare : Tendsto (fun ε : ℚ => ε * ε) (𝓝[>] 0) (𝓝[>] 0) := by
    refine tendsto_nhdsWithin_iff.mpr ⟨?_, eventually_mem_nhdsWithin.mono fun ε hε => ?_⟩
    · have hcont : Continuous fun ε : ℚ => ε * ε := continuous_id.mul continuous_id
      have hzero := hcont.tendsto 0
      rw [mul_zero] at hzero
      exact hzero.mono_left nhdsWithin_le_nhds
    · have hpos : 0 < ε := hε
      exact mul_pos hpos hpos
  refine ⟨fun ε => q (ε * ε), (hsquare.eventually hq).mono fun ε hε => ?_, hlim.comp hsquare⟩
  simp only [mul_ofRat, ok_bind]
  exact hε

theorem smallSizes_tendsto {t : ℕ → ℚ} (ht : Summable fun j => |(t j : ℝ)|) :
    Tendsto (smallSizes t) (𝓝[>] 0) (𝓝 0) := by
  have hcast : Tendsto (fun ε : ℚ => (ε : ℝ)) (𝓝[>] 0) (𝓝[>] 0) := by
    refine tendsto_nhdsWithin_iff.mpr ⟨?_, eventually_mem_nhdsWithin.mono fun ε hε => ?_⟩
    · have hzero := (Rat.continuous_coe_real).tendsto 0
      rw [Rat.cast_zero] at hzero
      exact hzero.mono_left nhdsWithin_le_nhds
    · have hpos : 0 < ε := hε
      exact Set.mem_Ioi.mpr (by exact_mod_cast hpos)
  refine (leftOut_tendsto (fun n hn => ?_) ?_).comp hcast
  · exact le_antisymm hn (abs_nonneg _)
  · simpa only [abs_abs] using ht

theorem arcsin_tends (hx : |x| ≤ 1) : Tends (fun turns ε => arcsin turns (ofRat x) ε) (Real.arcsin x) := by
  refine .of_error (smallSizes_tendsto (arcsin_sum hx).summable.abs) fun ε hε => ?_
  obtain ⟨q, hreturns, herror⟩ := arcsin_ofRat hx hε
  exact ⟨q, hreturns, herror.le⟩

theorem ln_tends (hx : 0 < x) : Tends (fun turns ε => ln turns (ofRat x) ε) (Real.log x) := by
  have hlim := (smallSizes_tendsto (lnRest_sum hx).summable.abs).const_mul 2
  rw [mul_zero] at hlim
  refine .of_error hlim fun ε hε => ?_
  obtain ⟨q, hreturns, herror⟩ := ln_ofRat hx hε
  exact ⟨q, hreturns, herror.le⟩

theorem arcsin_half : Real.arcsin ((1 / 2 : ℚ) : ℝ) = Real.pi / 6 := by
  have hpi := Real.pi_pos
  push_cast
  rw [← Real.sin_pi_div_six]
  exact Real.arcsin_sin (by linarith) (by linarith)

theorem piOver2_tends : Tends piOver2 (Real.pi / 2) := by
  have hhalf : |(1 / 2 : ℚ)| ≤ 1 := by norm_num [abs_of_pos]
  obtain ⟨q, hreturns, hlim⟩ := arcsin_tends hhalf
  rw [arcsin_half] at hlim
  refine ⟨fun ε => q ε * 3, hreturns.mono fun ε hε => ?_, ?_⟩
  · have hconstruct : construct 1 2 = .ok (ofRat (1 / 2)) := by decide +kernel
    unfold piOver2
    simp only [hconstruct, construct_one, ok_bind]
    refine hε.bind ?_
    rw [mul_ofRat]
    rfl
  · have h := hlim.mul_const 3
    push_cast
    rw [show Real.pi / 2 = Real.pi / 6 * 3 by ring]
    exact h

theorem arccos_tends (hx : |x| ≤ 1) : Tends (fun turns ε => arccos turns (ofRat x) ε) (Real.arccos x) := by
  refine (piOver2_tends.sub (arcsin_tends hx)).congr fun turns ε => ?_
  obtain ⟨hlow, hhigh⟩ := abs_le.mp hx
  have hin : ¬ (greater (ofRat x) (ofRat (1 : ℤ)) || less (ofRat x) (ofRat (-1 : ℤ))) = true := by
    rw [greater_ofRat, less_ofRat]
    simp [hlow, hhigh]
  unfold arccos
  rw [construct_one, construct_one, ok_bind, ok_bind, if_neg hin]

theorem arccos_refused (hx : 1 < |x|) (turns : ℕ) (epsilon : Fraction) :
    arccos turns (ofRat x) epsilon = .error (.domainError "arccos is undefined for |x| > 1") := by
  have hout : (greater (ofRat x) (ofRat (1 : ℤ)) || less (ofRat x) (ofRat (-1 : ℤ))) = true := by
    rw [greater_ofRat, less_ofRat]
    rcases lt_abs.mp hx with h | h
    · simp [h]
    · simp [show x < -1 by linarith]
  unfold arccos
  rw [construct_one, construct_one, ok_bind, ok_bind, if_pos hout]
  rfl

theorem equals_zero : equals (ofRat x) (ofRat (0 : ℤ)) = true ↔ x = 0 := by
  constructor
  · intro h
    have hnum : (ofRat x).numerator = 0 := (of_decide_eq_true h).1
    exact numerator_ofRat_eq_zero.mp hnum
  · rintro rfl
    rfl

theorem ofInverse_eq {f : ℕ → Fraction → Fraction → Except FractionFault Fraction} {atZero below : String}
    (hx : x ≠ 0) (turns : ℕ) (epsilon : Fraction) :
    ofInverse f atZero below turns (ofRat x) epsilon =
      if 1 < |x⁻¹| then .error (.domainError below) else f turns (ofRat x⁻¹) epsilon := by
  have hsize : (greater (ofRat x⁻¹) (ofRat (1 : ℤ)) || less (ofRat x⁻¹) (ofRat (-(1 : ℤ) : ℚ))) = true ↔
      1 < |x⁻¹| := by
    rw [greater_ofRat, less_ofRat, lt_abs]
    simp [lt_neg]
  unfold ofInverse
  rw [construct_one, ok_bind, if_neg (mt equals_zero.mp hx), construct_one, ok_bind, div_ofRat _ hx, ok_bind,
    neg_ofRat, ok_bind, Int.cast_one, one_div]
  rw [Int.cast_one] at hsize
  simp only [hsize]
  rfl

theorem cast_tends_zero : Tendsto (fun ε : ℚ => (ε : ℝ)) (𝓝[>] 0) (𝓝 0) := by
  have hzero := (Rat.continuous_coe_real).tendsto 0
  rw [Rat.cast_zero] at hzero
  exact hzero.mono_left nhdsWithin_le_nhds

theorem arctg_tends (hx : |x| < 1) : Tends (fun turns ε => arctg turns (ofRat x) ε) (Real.arctan x) := by
  refine .of_error cast_tends_zero fun ε hε => ?_
  obtain ⟨K, hK⟩ := exists_small_power hε (Or.inl hx.ne)
  exact ⟨_, arctg_returns hK, arctg_accurate_unit hx.le hK⟩

theorem arcctg_eq (hx : x ≠ 0) (turns : ℕ) : arcctg turns (ofRat x) (ofRat ε) =
    piOver2 turns (ofRat (ε * ε)) >>= fun p => arctg turns (ofRat x) (ofRat ε) >>= fun q => Fraction.sub p q := by
  unfold arcctg
  rw [construct_one, ok_bind, if_neg (mt equals_zero.mp hx), mul_ofRat, ok_bind]

theorem arcctg_tends (hx : x ≠ 0) (hsmall : |x| < 1) :
    Tends (fun turns ε => arcctg turns (ofRat x) ε) (Real.pi / 2 - Real.arctan x) := by
  refine (piOver2_tends.squared.sub (arctg_tends hsmall)).congr fun turns ε => ?_
  rw [arcctg_eq hx, mul_ofRat, ok_bind]

/-- The loop of the arctangent does not end at one. -/
theorem arcctg_one (hx : |x| = 1) (hε : ε < 1) (turns : ℕ) (r : Fraction) :
    arcctg turns (ofRat x) (ofRat ε) ≠ .ok r := by
  have hne : x ≠ 0 := by
    rintro rfl
    norm_num at hx
  have hdiverges : arctg turns (ofRat x) (ofRat ε) = .error .diverged := by
    refine arctg_diverges (fun j => ?_) turns
    rwa [power_of_one hx]
  rw [arcctg_eq hne]
  cases piOver2 turns (ofRat (ε * ε)) with
  | error e => nofun
  | ok p =>
    rw [ok_bind, hdiverges]
    nofun

/-- Above one the results are off by about `(π - 1) / 2`, as those of the arctangent are. -/
theorem arcctg_large (hx : 1 < |x|) (hε : 0 < ε) (hquarter : ε ≤ 1 / 4) {q : ℚ} {r : Fraction}
    (hp : Returns .diverged (fun turns => piOver2 turns (ofRat (ε * ε))) (ofRat q))
    (hq : |(q : ℝ) - Real.pi / 2| < 1 / 4)
    (hr : Returns .diverged (fun turns => arcctg turns (ofRat x) (ofRat ε)) r) :
    1 / 4 < |(value r : ℝ) - (Real.pi / 2 - Real.arctan x)| := by
  have hne : x ≠ 0 := abs_pos.mp (zero_lt_one.trans hx)
  simp only [arcctg_eq hne] at hr
  obtain ⟨K, hK⟩ := exists_small_power hε (Or.inl hx.ne')
  obtain ⟨herror, hrest⟩ := arctg_error_large hx hK
  have hangle : Returns .diverged (fun turns => arctg turns (ofRat x) (ofRat ε) >>= fun a => Fraction.sub (ofRat q) a)
      (ofRat (q - arctgResult x K)) := (arctg_returns hK).bind (sub_ofRat q (arctgResult x K))
  have hboth : Returns .diverged (fun turns => piOver2 turns (ofRat (ε * ε)) >>= fun p =>
      arctg turns (ofRat x) (ofRat ε) >>= fun a => Fraction.sub p a) (ofRat (q - arctgResult x K)) :=
    hp.andThen hangle
  rw [hr.unique hboth, value_ofRat, Rat.cast_sub]
  have hπ := Real.pi_gt_three
  have hrest := (abs_le.mp hrest).2
  have hquarter : (ε : ℝ) ≤ ((1 / 4 : ℚ) : ℝ) := by exact_mod_cast hquarter
  push_cast at hquarter
  have hfar : 3 / 4 ≤ |(arctgResult x K : ℝ) - Real.arctan x| := by linarith
  have htri : |(arctgResult x K : ℝ) - Real.arctan x| ≤
      |(q : ℝ) - Real.pi / 2| + |(q : ℝ) - arctgResult x K - (Real.pi / 2 - Real.arctan x)| := by
    refine le_trans (le_of_eq ?_) (abs_sub _ _)
    congr 1
    ring
  linarith

/-- From one on the results do not tend to the arccotangent. -/
theorem arcctg_far (hx : 1 ≤ |x|) :
    ¬ Converges (fun turns => arcctg turns (ofRat x)) (Real.pi / 2 - Real.arctan x) := by
  intro hconv
  obtain ⟨ε₁, hε₁, hnear⟩ := hconv (1 / 4) (by norm_num)
  obtain ⟨q, hreturns, hlim⟩ := piOver2_tends.squared
  have hclose : ∀ᶠ ε in 𝓝[>] (0 : ℚ), |(q ε : ℝ) - Real.pi / 2| < 1 / 4 :=
    hlim.eventually (Metric.ball_mem_nhds _ (by norm_num))
  obtain ⟨ε₂, hε₂, hall⟩ := mem_nhdsGT_iff_exists_Ioo_subset.mp (hreturns.and hclose)
  have hε₂ : 0 < ε₂ := hε₂
  obtain ⟨ε, hpos, hlt⟩ := exists_between (lt_min (lt_min hε₁ hε₂) (by norm_num : (0 : ℚ) < 1 / 4))
  obtain ⟨hlt, hquarter⟩ := lt_min_iff.mp hlt
  obtain ⟨hlt₁, hlt₂⟩ := lt_min_iff.mp hlt
  obtain ⟨hp, hpnear⟩ := hall ⟨hpos, hlt₂⟩
  simp only [mul_ofRat, ok_bind] at hp
  obtain ⟨r, hr, -, hrnear⟩ := hnear (ofRat ε) (canonical_ofRat ε) (by rwa [value_ofRat]) (by rwa [value_ofRat])
  rcases hx.eq_or_lt with hone | hlarge
  · obtain ⟨enough, hok, -⟩ := hr
    exact arcctg_one hone.symm (by linarith) enough r (hok enough le_rfl)
  · exact absurd hrnear (not_le.mpr (arcctg_large hlarge hpos hquarter.le hp hpnear hr))

section Logarithm

variable {base : ℤ} {what : String}

theorem logarithm_tends (hx : 0 < x) (hbase : 1 < base) :
    Tends (fun turns ε => logarithm base what turns (ofRat x) ε) (Real.logb base x) := by
  have hone : (1 : ℝ) < (base : ℚ) := by exact_mod_cast hbase
  have hpos : (0 : ℚ) < base := by exact_mod_cast zero_lt_one.trans hbase
  have htends := (ln_tends hx).div (ln_tends hpos) (Real.log_pos hone).ne'
  rw [Rat.cast_intCast, Real.log_div_log] at htends
  refine htends.congr fun turns ε => ?_
  have hin : ¬ lessEq (ofRat x) (ofRat (0 : ℤ)) = true := by simpa using hx
  unfold logarithm
  simp only [construct_one, ok_bind, if_neg hin]

theorem logarithm_refused (hx : x ≤ 0) (turns : ℕ) (epsilon : Fraction) :
    logarithm base what turns (ofRat x) epsilon = .error (.domainError what) := by
  have hout : lessEq (ofRat x) (ofRat (0 : ℤ)) = true := by simpa using hx
  unfold logarithm
  rw [construct_one, ok_bind, if_pos hout]
  rfl

end Logarithm

end Limits

end MaiFaSp.Fraction
