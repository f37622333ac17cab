import MaiFaSp.Fraction.Rationals
import MaiFaSp.Lib.Outcomes
import MaiFaSp.Lib.Truncation
import Mathlib.Analysis.Real.Pi.Bounds
import Mathlib.Analysis.SpecialFunctions.Complex.Arctan

/-!
# `fraction`: the arctangent (`fraction.cpp:232-250`)

Negative arguments and arguments above one are reduced to the others, for which the loop adds up the
series until a power of the argument is at most `epsilon`. The calls and the turns of the loop are
bounded together, and running out of them is the fault `diverged`; the `int`s that count have no bound.
-/

namespace MaiFaSp.Fraction

open Finset Truncation

/-- `while (abs(term) > epsilon) { … }` -/
def arctgLoop (x epsilon : Fraction) :
    ℕ → Fraction → Fraction → ℤ → ℤ → Except FractionFault Fraction
  | 0, _, _, _, _ => throw .diverged
  | turns + 1, result, term, n, count => do
    let size ← abs term
    if greater size epsilon then
      let factor ← construct (if count % 2 = 0 then 1 else -1) n
      let added ← mul factor term
      let result ← addAssign result added
      let square ← mul x x
      let term ← mulAssign term square
      arctgLoop x epsilon turns result term (n + 2) (count + 1)
    else pure result

def arctg : ℕ → Fraction → Fraction → Except FractionFault Fraction
  | 0, _, _ => throw .diverged
  | turns + 1, x, epsilon =>
    if x.denominator < 0 then do
      let negated ← neg x
      let angle ← arctg turns negated epsilon
      neg angle
    else do
      let one ← construct 1 1
      if greater x one then
        let half ← construct 1 2
        let inverse ← div one x
        let angle ← arctg turns inverse epsilon
        sub half angle
      else
        let result ← construct 0 1
        arctgLoop x epsilon turns result x 1 0

/-! ### The loop -/

variable {x y ε : ℚ} {K i turns : ℕ}

def arctanTerm (y : ℚ) (i : ℕ) : ℚ := (-1) ^ i * (y ^ (2 * i + 1) / (2 * i + 1))

theorem construct_ofRat (n : ℤ) {d : ℤ} (hd : d ≠ 0) : construct n d = .ok (ofRat (n / d)) :=
  eq_ofRat_of_exact (optimise_exact hd rfl)

theorem denominator_ofRat_neg : (ofRat x).denominator < 0 ↔ x < 0 := by
  have h := (canonical_ofRat x).value_neg_iff
  rw [value_ofRat] at h
  exact h.symm

theorem sign_eq (i : ℕ) : (((if (i : ℤ) % 2 = 0 then 1 else -1 : ℤ)) : ℚ) = (-1) ^ i := by
  rcases Nat.even_or_odd i with h | h
  · have hmod : (i : ℤ) % 2 = 0 := by
      obtain ⟨k, rfl⟩ := h
      omega
    rw [if_pos hmod, h.neg_one_pow, Int.cast_one]
  · have hmod : ¬ (i : ℤ) % 2 = 0 := by
      obtain ⟨k, rfl⟩ := h
      omega
    rw [if_neg hmod, h.neg_one_pow, Int.cast_neg, Int.cast_one]

theorem arctgLoop_eq (y ε : ℚ) (turns i : ℕ) :
    arctgLoop (ofRat y) (ofRat ε) turns (ofRat (∑ j ∈ range i, arctanTerm y j))
      (ofRat (y ^ (2 * i + 1))) (2 * i + 1) i =
      untilSmall (fun j => |y ^ (2 * j + 1)|) ε (fun K => ofRat (∑ j ∈ range K, arctanTerm y j)) .diverged
        turns i := by
  induction turns generalizing i with
  | zero => rfl
  | succ turns ih =>
    rw [arctgLoop, untilSmall, abs_ofRat, ok_bind, greater_ofRat]
    by_cases hbig : ε < |y ^ (2 * i + 1)|
    · have hn : (2 * (i : ℤ) + 1) ≠ 0 := by omega
      have hterm : ((if (i : ℤ) % 2 = 0 then 1 else -1 : ℤ) : ℚ) / ((2 * (i : ℤ) + 1 : ℤ) : ℚ) *
          y ^ (2 * i + 1) = arctanTerm y i := by
        rw [sign_eq, arctanTerm]
        push_cast
        ring
      have hpower : y ^ (2 * i + 1) * (y * y) = y ^ (2 * (i + 1) + 1) := by ring
      have hn' : 2 * (i : ℤ) + 1 + 2 = 2 * ((i + 1 : ℕ) : ℤ) + 1 := by
        push_cast
        ring
      rw [if_pos hbig, decide_eq_true hbig, if_pos rfl, construct_ofRat _ hn, ok_bind, mul_ofRat, ok_bind,
        addAssign_ofRat, ok_bind, mul_ofRat, ok_bind, mulAssign_ofRat, ok_bind, hterm, hpower,
        ← sum_range_succ, hn']
      exact ih (i + 1)
    · rw [if_neg hbig, decide_eq_false hbig, if_neg Bool.false_ne_true]
      rfl

/-! ### The calls -/

theorem one_eq : construct 1 1 = .ok (ofRat 1) := by rw [construct_one, Int.cast_one]

theorem arctg_unit (h0 : 0 ≤ y) (h1 : y ≤ 1) (turns : ℕ) :
    arctg (turns + 1) (ofRat y) (ofRat ε) =
      untilSmall (fun j => |y ^ (2 * j + 1)|) ε (fun K => ofRat (∑ j ∈ range K, arctanTerm y j)) .diverged
        turns 0 := by
  have hneg : ¬ (ofRat y).denominator < 0 := mt denominator_ofRat_neg.mp (not_lt.mpr h0)
  have hloop := arctgLoop_eq y ε turns 0
  rw [sum_range_zero, Nat.mul_zero, Nat.zero_add, pow_one] at hloop
  rw [arctg, if_neg hneg, one_eq, ok_bind, greater_ofRat, decide_eq_false (not_lt.mpr h1),
    if_neg Bool.false_ne_true, construct_one, ok_bind, Int.cast_zero]
  exact hloop

theorem arctg_large (h1 : 1 < y) (turns : ℕ) :
    arctg (turns + 1) (ofRat y) (ofRat ε) =
      arctg turns (ofRat y⁻¹) (ofRat ε) >>= fun angle => sub (ofRat (1 / 2)) angle := by
  have h0 : 0 < y := one_pos.trans h1
  have hneg : ¬ (ofRat y).denominator < 0 := mt denominator_ofRat_neg.mp (not_lt.mpr h0.le)
  have hhalf : construct 1 2 = .ok (ofRat (1 / 2)) := by
    rw [construct_ofRat 1 two_ne_zero]
    norm_num
  rw [arctg, if_neg hneg, one_eq, ok_bind, greater_ofRat, decide_eq_true h1, if_pos rfl, hhalf, ok_bind,
    div_ofRat _ h0.ne', ok_bind, one_div]

theorem arctg_negative (h0 : y < 0) (turns : ℕ) :
    arctg (turns + 1) (ofRat y) (ofRat ε) = arctg turns (ofRat (-y)) (ofRat ε) >>= neg := by
  rw [arctg, if_pos (denominator_ofRat_neg.mpr h0), neg_ofRat, ok_bind]

/-- The argument that the series is summed at. -/
def reduced (x : ℚ) : ℚ := if 1 < |x| then |x|⁻¹ else |x|

/-- What is returned when the first `K` terms are summed. -/
def arctgResult (x : ℚ) (K : ℕ) : ℚ :=
  let sum := ∑ j ∈ range K, arctanTerm (reduced x) j
  let angle := if 1 < |x| then 1 / 2 - sum else sum
  if x < 0 then -angle else angle

theorem reduced_nonneg (x : ℚ) : 0 ≤ reduced x := by
  unfold reduced
  split
  · exact inv_nonneg.mpr (abs_nonneg x)
  · exact abs_nonneg x

theorem reduced_le (x : ℚ) : reduced x ≤ 1 := by
  unfold reduced
  split
  case isTrue h => exact inv_le_one_of_one_le₀ h.le
  case isFalse h => exact not_lt.mp h

theorem reduced_eq_one : reduced x = 1 ↔ |x| = 1 := by
  unfold reduced
  split
  case isTrue h => exact iff_of_false (inv_lt_one_of_one_lt₀ h).ne h.ne'
  case isFalse h => rfl

/-- The powers that the loop compares with `epsilon`. -/
def power (x : ℚ) (j : ℕ) : ℚ := |reduced x ^ (2 * j + 1)|

theorem power_eq (x : ℚ) (j : ℕ) : power x j = reduced x ^ (2 * j + 1) :=
  abs_of_nonneg (pow_nonneg (reduced_nonneg x) _)

theorem arctg_reduced (x ε : ℚ) (turns : ℕ) :
    arctg (turns + 1) (ofRat (reduced x)) (ofRat ε) =
      untilSmall (power x) ε (fun K => ofRat (∑ j ∈ range K, arctanTerm (reduced x) j)) .diverged turns 0 >>=
        pure := by
  rw [bind_pure]
  exact arctg_unit (reduced_nonneg x) (reduced_le x) turns

theorem arctg_abs (x ε : ℚ) (hx : 1 < |x|) (turns : ℕ) :
    arctg (turns + 1) (ofRat |x|) (ofRat ε) =
      arctg turns (ofRat (reduced x)) (ofRat ε) >>= fun angle => sub (ofRat (1 / 2)) angle := by
  rw [reduced, if_pos hx]
  exact arctg_large hx turns

theorem arctg_returns (hK : FirstSmall (power x) ε K) :
    Returns .diverged (fun turns => arctg turns (ofRat x) (ofRat ε)) (ofRat (arctgResult x K)) := by
  have hreduced : Returns .diverged (fun turns => arctg turns (ofRat (reduced x)) (ofRat ε))
      (ofRat (∑ j ∈ range K, arctanTerm (reduced x) j)) :=
    (untilSmall_returns hK).call rfl (arctg_reduced x ε) rfl
  have habs : Returns .diverged (fun turns => arctg turns (ofRat |x|) (ofRat ε))
      (ofRat (if 1 < |x| then 1 / 2 - ∑ j ∈ range K, arctanTerm (reduced x) j
        else ∑ j ∈ range K, arctanTerm (reduced x) j)) := by
    by_cases hx : 1 < |x|
    · rw [if_pos hx]
      exact hreduced.call rfl (arctg_abs x ε hx) (sub_ofRat ..)
    · rw [if_neg hx]
      rw [reduced, if_neg hx] at hreduced
      rwa [reduced, if_neg hx]
  unfold arctgResult
  by_cases hx : x < 0
  · rw [if_pos hx]
    rw [abs_of_neg hx] at habs
    rw [abs_of_neg hx]
    exact habs.call rfl (arctg_negative hx) (neg_ofRat _)
  · rw [if_neg hx]
    rw [abs_of_nonneg (not_lt.mp hx)] at habs
    rwa [abs_of_nonneg (not_lt.mp hx)]

theorem arctg_diverges (h : ∀ j, ε < power x j) (turns : ℕ) :
    arctg turns (ofRat x) (ofRat ε) = .error .diverged := by
  have hreduced : ∀ turns, arctg turns (ofRat (reduced x)) (ofRat ε) = .error .diverged :=
    diverges_call (fun _ => untilSmall_diverges h) rfl (arctg_reduced x ε)
  have habs : ∀ turns, arctg turns (ofRat |x|) (ofRat ε) = .error .diverged := by
    by_cases hx : 1 < |x|
    · exact diverges_call hreduced rfl (arctg_abs x ε hx)
    · rwa [reduced, if_neg hx] at hreduced
  by_cases hx : x < 0
  · rw [abs_of_neg hx] at habs
    exact diverges_call (f := fun turns => arctg turns (ofRat x) (ofRat ε)) habs rfl (arctg_negative hx) turns
  · rw [abs_of_nonneg (not_lt.mp hx)] at habs
    exact habs turns

/-! ### When it ends -/

theorem exists_small_power (hε : 0 < ε) (h : |x| ≠ 1 ∨ 1 ≤ ε) : ∃ K, FirstSmall (power x) ε K := by
  apply exists_firstSmall
  rcases h with h | h
  · have hlt : reduced x < 1 := lt_of_le_of_ne (reduced_le x) (mt reduced_eq_one.mp h)
    obtain ⟨K, hK⟩ := exists_pow_lt_of_lt_one hε hlt
    refine ⟨K, ?_⟩
    rw [power_eq]
    exact (pow_le_pow_of_le_one (reduced_nonneg x) (reduced_le x) (by omega)).trans hK.le
  · refine ⟨0, ?_⟩
    rw [power_eq]
    exact (pow_le_one₀ (reduced_nonneg x) (reduced_le x)).trans h

theorem power_of_one (hx : |x| = 1) (j : ℕ) : power x j = 1 := by
  rw [power_eq, reduced_eq_one.mpr hx, one_pow]

/-- At `1` and at `-1` no power is ever smaller than one. -/
theorem arctg_terminates_iff (x epsilon : Fraction) (hx : Canonical x) (he : Canonical epsilon)
    (hpos : 0 < value epsilon) :
    (∃ r, Returns .diverged (fun turns => arctg turns x epsilon) r) ↔ |value x| ≠ 1 ∨ 1 ≤ value epsilon := by
  rw [hx.eq_ofRat, he.eq_ofRat, value_ofRat, value_ofRat]
  constructor
  · intro hends
    by_contra hno
    rw [not_or, not_not, not_le] at hno
    obtain ⟨r, hr⟩ := hends
    refine not_returns (arctg_diverges fun j => ?_) hr
    rw [power_of_one hno.1]
    exact hno.2
  · intro h
    obtain ⟨K, hK⟩ := exists_small_power hpos h
    exact ⟨_, arctg_returns hK⟩

theorem canonical_one : Canonical ⟨1, 1⟩ := ⟨by decide, by decide, by decide, by decide⟩

theorem arctg_terminates_at_two :
    ∃ r, Returns .diverged (fun turns => arctg turns ⟨2, 1⟩ ⟨1, 10⟩) r := by
  refine (arctg_terminates_iff ⟨2, 1⟩ ⟨1, 10⟩ ⟨by decide, by decide, by decide, by decide⟩
    ⟨by decide, by decide, by decide, by decide⟩ ?_).mpr (Or.inl ?_)
  · norm_num [value]
  · norm_num [value]

/-- The arctangent of one, with the default `epsilon`. -/
theorem arctg_one_diverges :
    Canonical ⟨1, 1⟩ ∧ Canonical ⟨1, 1000000⟩ ∧ 0 < value ⟨1, 1000000⟩ ∧
      (∀ turns, arctg turns ⟨1, 1⟩ ⟨1, 1000000⟩ = .error .diverged) ∧
      ¬ ∃ r, Returns .diverged (fun turns => arctg turns ⟨1, 1⟩ ⟨1, 1000000⟩) r := by
  have he : Canonical ⟨1, 1000000⟩ := ⟨by decide, by decide, by decide, by decide⟩
  have hone : |value ⟨1, 1⟩| = 1 := by norm_num [value]
  have hall : ∀ turns, arctg turns ⟨1, 1⟩ ⟨1, 1000000⟩ = .error .diverged := by
    intro turns
    rw [canonical_one.eq_ofRat, he.eq_ofRat]
    refine arctg_diverges (fun j => ?_) turns
    rw [power_of_one hone]
    norm_num [value]
  refine ⟨canonical_one, he, ?_, hall, ?_⟩
  · norm_num [value]
  · rintro ⟨r, hr⟩
    exact not_returns hall hr

/-! ### How close it is -/

theorem arctan_hasSum (hy : |y| < 1) : HasSum (fun j => (arctanTerm y j : ℝ)) (Real.arctan y) := by
  have hnorm : ‖(y : ℝ)‖ < 1 := by
    rw [Real.norm_eq_abs]
    exact_mod_cast hy
  have hsum := Real.hasSum_arctan hnorm
  unfold arctanTerm
  push_cast at hsum ⊢
  simpa only [mul_div_assoc] using hsum

theorem arctan_sizes (h0 : 0 ≤ y) (h1 : y < 1) :
    (Antitone fun j : ℕ => (y : ℝ) ^ (2 * j + 1) / (2 * j + 1)) ∧
      Summable fun j : ℕ => (y : ℝ) ^ (2 * j + 1) / (2 * j + 1) := by
  have h0' : (0 : ℝ) ≤ y := by exact_mod_cast h0
  have h1' : (y : ℝ) < 1 := by exact_mod_cast h1
  constructor
  · apply antitone_nat_of_succ_le
    intro j
    have hpow : (y : ℝ) ^ (2 * (j + 1) + 1) ≤ (y : ℝ) ^ (2 * j + 1) :=
      pow_le_pow_of_le_one h0' h1'.le (by omega)
    have hpos : (0 : ℝ) ≤ (y : ℝ) ^ (2 * j + 1) := by positivity
    push_cast
    exact div_le_div₀ hpos hpow (by positivity) (by linarith)
  · refine .of_nonneg_of_le (fun j => by positivity) (fun j => ?_) (summable_geometric_of_lt_one h0' h1')
    have hpow : (y : ℝ) ^ (2 * j + 1) ≤ (y : ℝ) ^ j := pow_le_pow_of_le_one h0' h1'.le (by omega)
    have hdiv : (y : ℝ) ^ (2 * j + 1) / (2 * j + 1) ≤ (y : ℝ) ^ (2 * j + 1) :=
      div_le_self (by positivity) (by linarith [(Nat.cast_nonneg j : (0 : ℝ) ≤ j)])
    exact hdiv.trans hpow

/-- What the powers of `y` that are at most `ε` contribute to its arctangent. -/
noncomputable def arctanRest (y ε : ℚ) : ℝ :=
  leftOut (fun j => (y : ℝ) ^ (2 * j + 1)) (fun j => (arctanTerm y j : ℝ)) ε

theorem arctan_sum (h0 : 0 ≤ y) (h1 : y < 1) (hK : FirstSmall (fun j => y ^ (2 * j + 1)) ε K) :
    Real.arctan y - ((∑ j ∈ range K, arctanTerm y j : ℚ) : ℝ) = arctanRest y ε ∧
      |arctanRest y ε| ≤ (y : ℝ) ^ (2 * K + 1) := by
  have h0' : (0 : ℝ) ≤ y := by exact_mod_cast h0
  have h1' : (y : ℝ) < 1 := by exact_mod_cast h1
  have hsum := arctan_hasSum (y := y) (by rwa [abs_of_nonneg h0])
  have hpowers : Antitone fun j : ℕ => (y : ℝ) ^ (2 * j + 1) := fun i j hij =>
    pow_le_pow_of_le_one h0' h1'.le (by omega)
  have hK' : FirstSmall (fun j : ℕ => (y : ℝ) ^ (2 * j + 1)) (ε : ℝ) K := by
    have h := hK.cast
    push_cast at h
    exact h
  have herror : Real.arctan y - ((∑ j ∈ range K, arctanTerm y j : ℚ) : ℝ) = arctanRest y ε := by
    rw [Rat.cast_sum]
    exact hK'.error hpowers hsum
  refine ⟨herror, ?_⟩
  obtain ⟨hfalls, hsummable⟩ := arctan_sizes h0 h1
  have hterms (j : ℕ) : (arctanTerm y j : ℝ) = (-1) ^ j * ((y : ℝ) ^ (2 * j + 1) / (2 * j + 1)) := by
    unfold arctanTerm
    push_cast
    rfl
  have hbound := alternating_error hfalls hsummable (by simpa only [hterms] using hsum) K
  rw [← herror, Rat.cast_sum]
  simp only [hterms]
  refine hbound.trans (div_le_self (by positivity) ?_)
  linarith [(Nat.cast_nonneg K : (0 : ℝ) ≤ K)]

theorem arctgResult_error (x : ℚ) (K : ℕ) :
    |(arctgResult x K : ℝ) - Real.arctan x| =
      |((if 1 < |x| then 1 / 2 - ∑ j ∈ range K, arctanTerm (reduced x) j
        else ∑ j ∈ range K, arctanTerm (reduced x) j : ℚ) : ℝ) - Real.arctan (|x| : ℚ)| := by
  unfold arctgResult
  dsimp only
  by_cases hx : x < 0
  · rw [if_pos hx, abs_of_neg hx, Rat.cast_neg, Rat.cast_neg, Real.arctan_neg, ← abs_neg]
    congr 1
    ring
  · rw [if_neg hx, abs_of_nonneg (not_lt.mp hx)]

theorem arctg_accurate_unit (hx : |x| ≤ 1) (hK : FirstSmall (power x) ε K) :
    |(arctgResult x K : ℝ) - Real.arctan x| ≤ ε := by
  have hno : ¬ 1 < |x| := not_lt.mpr hx
  have hreduced : reduced x = |x| := if_neg hno
  have hpower (j : ℕ) : power x j = |x| ^ (2 * j + 1) := by rw [power_eq, hreduced]
  rw [arctgResult_error, if_neg hno, hreduced, abs_sub_comm]
  by_cases hone : |x| = 1
  · -- the loop ends at once
    have hε : 1 ≤ ε := by
      have h := hK.small
      rwa [power_of_one hone] at h
    have hK0 : K = 0 := by
      by_contra hne
      have h := hK.big 0 (Nat.pos_of_ne_zero hne)
      rw [power_of_one hone] at h
      exact absurd h (not_lt.mpr hε)
    subst hK0
    have hπ := Real.pi_lt_four
    have hε' : (1 : ℝ) ≤ ε := by exact_mod_cast hε
    rw [sum_range_zero, Rat.cast_zero, sub_zero, hone, Rat.cast_one, Real.arctan_one,
      abs_of_pos (by positivity)]
    linarith
  · have hfirst : FirstSmall (fun j => |x| ^ (2 * j + 1)) ε K := by
      have h : power x = fun j => |x| ^ (2 * j + 1) := funext hpower
      rwa [h] at hK
    obtain ⟨herror, hbound⟩ := arctan_sum (abs_nonneg x) (lt_of_le_of_ne hx hone) hfirst
    rw [herror]
    refine hbound.trans ?_
    exact_mod_cast hfirst.small

/-- Above one the result is short of `π / 2 - 1 / 2`, but for the rest of the series. -/
theorem arctg_error_large (hx : 1 < |x|) (hK : FirstSmall (power x) ε K) :
    |(arctgResult x K : ℝ) - Real.arctan x| = (Real.pi - 1) / 2 - arctanRest |x|⁻¹ ε ∧
      |arctanRest |x|⁻¹ ε| ≤ ε := by
  have h0 : 0 < |x| := one_pos.trans hx
  have hreduced : reduced x = |x|⁻¹ := if_pos hx
  have hfirst : FirstSmall (fun j => |x|⁻¹ ^ (2 * j + 1)) ε K := by
    have h : power x = fun j => |x|⁻¹ ^ (2 * j + 1) := by
      funext j
      rw [power_eq, hreduced]
    rwa [h] at hK
  have hone : |x|⁻¹ < 1 := inv_lt_one_of_one_lt₀ hx
  obtain ⟨herror, hbound⟩ := arctan_sum (inv_nonneg.mpr h0.le) hone hfirst
  have hsmall : |arctanRest |x|⁻¹ ε| ≤ ε := by
    refine hbound.trans ?_
    exact_mod_cast hfirst.small
  refine ⟨?_, hsmall⟩
  have hpower : ((|x|⁻¹ : ℚ) : ℝ) ^ (2 * K + 1) ≤ 1 := by
    have h : |x|⁻¹ ^ (2 * K + 1) ≤ 1 := pow_le_one₀ (inv_nonneg.mpr h0.le) hone.le
    exact_mod_cast h
  have hrest := (abs_le.mp (hbound.trans hpower)).2
  have hπ := Real.pi_gt_three
  have hpos : (0 : ℝ) < (|x| : ℚ) := by exact_mod_cast h0
  have hinv : Real.arctan ((|x|⁻¹ : ℚ) : ℝ) = Real.pi / 2 - Real.arctan (|x| : ℚ) := by
    rw [Rat.cast_inv]
    exact Real.arctan_inv_of_pos hpos
  rw [arctgResult_error, if_pos hx, hreduced, Rat.cast_sub, abs_sub_comm]
  push_cast at herror hinv ⊢
  have heq : Real.arctan |(x : ℝ)| - (1 / 2 - ∑ j ∈ range K, (arctanTerm |x|⁻¹ j : ℝ)) =
      (Real.pi - 1) / 2 - arctanRest |x|⁻¹ ε := by
    linarith
  rw [heq]
  exact abs_of_nonneg (by linarith)

/-- Whatever is returned is within `epsilon` of the arctangent. -/
def Accurate (x epsilon : Fraction) : Prop :=
  ∀ r, Returns .diverged (fun turns => arctg turns x epsilon) r →
    |(value r : ℝ) - Real.arctan (value x)| ≤ value epsilon

theorem accurate_ofRat (hK : FirstSmall (power x) ε K) :
    Accurate (ofRat x) (ofRat ε) ↔ |(arctgResult x K : ℝ) - Real.arctan x| ≤ ε := by
  have hr := arctg_returns hK
  unfold Accurate
  rw [value_ofRat, value_ofRat]
  constructor
  · intro h
    have hle := h _ hr
    rwa [value_ofRat] at hle
  · intro h r hr'
    rw [hr'.unique hr, value_ofRat]
    exact h

theorem accurate_unit (hx : |x| ≤ 1) : Accurate (ofRat x) (ofRat ε) := by
  by_cases h : ∃ K, power x K ≤ ε
  · obtain ⟨K, hK⟩ := exists_firstSmall h
    exact (accurate_ofRat hK).mpr (arctg_accurate_unit hx hK)
  · intro r hr
    exact absurd hr (not_returns (arctg_diverges fun j => not_le.mp fun hj => h ⟨j, hj⟩))

theorem accurate_large (hx : 1 < |x|) (hε : 0 < ε) :
    (Accurate (ofRat x) (ofRat ε) ↔ (Real.pi - 1) / 2 ≤ ε + arctanRest |x|⁻¹ ε) ∧
      |arctanRest |x|⁻¹ ε| ≤ ε := by
  obtain ⟨K, hK⟩ := exists_small_power hε (Or.inl hx.ne')
  obtain ⟨herror, hsmall⟩ := arctg_error_large hx hK
  refine ⟨?_, hsmall⟩
  rw [accurate_ofRat hK, herror]
  exact sub_le_iff_le_add

/-- Up to one the result is right. Above one it is right only where `epsilon` and the rest of the series
make up for `1 / 2` in the place of `π / 2`, which is not so for every `epsilon`. -/
theorem arctg_accurate_iff (x : Fraction) (hx : Canonical x) :
    (∀ epsilon, Canonical epsilon → 0 < value epsilon →
      (Accurate x epsilon ↔ |value x| ≤ 1 ∨
        (Real.pi - 1) / 2 ≤ value epsilon + arctanRest |value x|⁻¹ (value epsilon))) ∧
      ((∀ epsilon, Canonical epsilon → 0 < value epsilon → Accurate x epsilon) ↔ |value x| ≤ 1) := by
  rw [hx.eq_ofRat, value_ofRat]
  constructor
  · intro epsilon he hpos
    rw [he.eq_ofRat, value_ofRat]
    by_cases hone : |value x| ≤ 1
    · exact iff_of_true (accurate_unit hone) (Or.inl hone)
    · rw [(accurate_large (not_le.mp hone) hpos).1, or_iff_right hone]
  · constructor
    · intro hall
      by_contra hone
      have hhalf : (0 : ℚ) < 1 / 2 := by norm_num
      obtain ⟨hiff, hrest⟩ := accurate_large (not_le.mp hone) hhalf
      have hle := hiff.mp (hall (ofRat (1 / 2)) (canonical_ofRat _) (by rw [value_ofRat]; exact hhalf))
      have hbound := (abs_le.mp hrest).2
      have hπ := Real.pi_gt_three
      push_cast at hle hbound
      linarith
    · intro hone epsilon he _
      rw [he.eq_ofRat]
      exact accurate_unit hone

theorem arctg_accurate_half : Accurate ⟨1, -2⟩ ⟨1, 10⟩ := by
  have hx : Canonical ⟨1, -2⟩ := ⟨by decide, by decide, by decide, by decide⟩
  have he : Canonical ⟨1, 10⟩ := ⟨by decide, by decide, by decide, by decide⟩
  refine ((arctg_accurate_iff ⟨1, -2⟩ hx).1 ⟨1, 10⟩ he ?_).mpr (Or.inl ?_)
  · norm_num [value]
  · norm_num [value]

/-- At `2` the result is `1 / 24`, below `π / 4` even. -/
theorem arctg_two_short :
    Canonical ⟨2, 1⟩ ∧ Canonical ⟨1, 10⟩ ∧
      ∃ r, Returns .diverged (fun turns => arctg turns ⟨2, 1⟩ ⟨1, 10⟩) r ∧ value r = 1 / 24 ∧
        (value ⟨1, 10⟩ : ℝ) < |(value r : ℝ) - Real.arctan (value ⟨2, 1⟩)| := by
  have hx : Canonical ⟨2, 1⟩ := ⟨by decide, by decide, by decide, by decide⟩
  have he : Canonical ⟨1, 10⟩ := ⟨by decide, by decide, by decide, by decide⟩
  have htwo : value ⟨2, 1⟩ = 2 := by norm_num [value]
  have htenth : value ⟨1, 10⟩ = 1 / 10 := by norm_num [value]
  have hreduced : reduced 2 = 1 / 2 := by norm_num [reduced]
  have hfirst : FirstSmall (power 2) (1 / 10) 2 := by
    refine ⟨?_, fun j hj => ?_⟩
    · rw [power_eq, hreduced]
      norm_num
    · rw [power_eq, hreduced]
      interval_cases j <;> norm_num
  have hresult : arctgResult 2 2 = 1 / 24 := by
    norm_num [arctgResult, hreduced, sum_range_succ, arctanTerm]
  have hr := arctg_returns hfirst
  rw [← htwo, ← hx.eq_ofRat, ← htenth, ← he.eq_ofRat, htwo, hresult] at hr
  refine ⟨hx, he, _, hr, value_ofRat _, ?_⟩
  have hangle : Real.pi / 4 < Real.arctan 2 := by
    rw [← Real.arctan_one]
    exact Real.arctan_strictMono (by norm_num)
  have hπ := Real.pi_gt_three
  rw [value_ofRat, htwo, htenth, abs_sub_comm]
  push_cast
  rw [abs_of_pos] <;> linarith

end MaiFaSp.Fraction
