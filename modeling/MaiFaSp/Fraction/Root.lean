import MaiFaSp.Fraction.Rationals
import MaiFaSp.Lib.NewtonRoot
import MaiFaSp.Lib.Outcomes
import Mathlib.Analysis.SpecialFunctions.Pow.Real

/-!
# `fraction`: power (`fraction.cpp:309-323`)

Square and multiply over the bits of the degree. The base is multiplied by itself, which
is the product of two copies (`InPlace`).
-/

namespace MaiFaSp.Fraction

/-- `while (degree > 0) { … }` -/
def powLoop (base result : Fraction) (degree : ℕ) : Except FractionFault Fraction :=
  if degree = 0 then pure result
  else do
    let result ← if degree % 2 = 1 then mulAssign result base else pure result
    let base ← mulAssign base base
    powLoop base result (degree / 2)
termination_by degree

/-- `pow` -/
def pow (x : Fraction) (degree : ℕ) : Except FractionFault Fraction :=
  if degree = 0 then construct 1 1
  else do
    let result ← construct 1 1
    powLoop x result degree

/-- The result times the base to the remaining degree stays the same. -/
theorem powLoop_ofRat (base result : ℚ) (degree : ℕ) :
    powLoop (ofRat base) (ofRat result) degree = .ok (ofRat (result * base ^ degree)) := by
  induction degree using Nat.strong_induction_on generalizing base result with
  | h degree ih =>
    rw [powLoop]
    by_cases h0 : degree = 0
    · rw [if_pos h0, h0, pow_zero, mul_one]
      rfl
    · have hhalf : degree / 2 < degree := Nat.div_lt_self (by omega) (by decide)
      have hsquare : base ^ degree = (base * base) ^ (degree / 2) * base ^ (degree % 2) := by
        rw [← pow_two, ← pow_mul, ← pow_add, Nat.div_add_mod]
      rw [if_neg h0, mulAssign_ofRat]
      by_cases hodd : degree % 2 = 1
      · rw [if_pos hodd, mulAssign_ofRat]
        show powLoop (ofRat (base * base)) (ofRat (result * base)) (degree / 2) = _
        rw [ih _ hhalf, hsquare, hodd, pow_one]
        congr 2
        ring
      · have heven : degree % 2 = 0 := by omega
        rw [if_neg hodd]
        show powLoop (ofRat (base * base)) (ofRat result) (degree / 2) = _
        rw [ih _ hhalf, hsquare, heven, pow_zero, mul_one]

theorem pow_ofRat (q : ℚ) (degree : ℕ) : pow (ofRat q) degree = .ok (ofRat (q ^ degree)) := by
  have hone : construct 1 1 = .ok (ofRat 1) := by
    rw [construct_one, Int.cast_one]
  unfold pow
  rw [hone]
  by_cases h0 : degree = 0
  · rw [if_pos h0, h0, pow_zero]
  · rw [if_neg h0]
    show powLoop (ofRat q) (ofRat 1) degree = _
    rw [powLoop_ofRat, one_mul]

/-- `pow` is the power, for every degree. -/
theorem pow_exact (x : Fraction) (degree : ℕ) (hx : Canonical x) :
    ∃ r, pow x degree = .ok r ∧ Canonical r ∧ value r = value x ^ degree := by
  refine ⟨ofRat (value x ^ degree), ?_, canonical_ofRat _, value_ofRat _⟩
  conv_lhs => rw [hx.eq_ofRat]
  exact pow_ofRat _ _

/-- `(-1/2)^5` -/
theorem pow_exact_half : ∃ r, pow ⟨1, -2⟩ 5 = .ok r ∧ Canonical r ∧ value r = value ⟨1, -2⟩ ^ 5 :=
  pow_exact ⟨1, -2⟩ 5 ⟨by decide, by decide, by decide, by decide⟩

end MaiFaSp.Fraction

/-!
## `fraction`: roots (`fraction.cpp:326-351`)

Newton's iteration until a step is at most `epsilon` long. The turns of the loop are
bounded, and running out of them is the fault `diverged`. The guard against even roots of
negative numbers tests the numerator, where a fraction never has its sign.
-/

namespace MaiFaSp.Fraction

open NewtonRoot

/-- The next guess. -/
def rootTurn (x : Fraction) (degree : ℕ) (guess : Fraction) : Except FractionFault Fraction := do
  let power ← pow guess (degree - 1)
  if power.numerator = 0 then
    throw (.runtimeError "Division by zero in root calculation")
  else
    let factor ← construct ((degree - 1 : ℕ) : ℤ) 1
    let scaled ← mul factor guess
    let quotient ← div x power
    let sum ← add scaled quotient
    let divisor ← construct (degree : ℤ) 1
    div sum divisor

/-- `do { … } while ((guess - prev_guess > epsilon) || (prev_guess - guess > epsilon));` -/
def rootLoop (x epsilon : Fraction) (degree : ℕ) : ℕ → Fraction → Except FractionFault Fraction
  | 0, _ => throw .diverged
  | turns + 1, prevGuess => do
    let guess ← rootTurn x degree prevGuess
    let up ← sub guess prevGuess
    if greater up epsilon then rootLoop x epsilon degree turns guess
    else
      let down ← sub prevGuess guess
      if greater down epsilon then rootLoop x epsilon degree turns guess
      else pure guess

/-- `root` -/
def root (turns : ℕ) (x : Fraction) (degree : ℕ) (epsilon : Fraction) :
    Except FractionFault Fraction :=
  if degree = 0 then throw (.invalidArgument "Degree cannot be zero")
  else if degree = 1 then pure x
  else if x.numerator < 0 ∧ degree % 2 = 0 then
    throw (.domainError "Even root of negative number is not real")
  else do
    let divisor ← construct (degree : ℤ) 1
    let guess ← div x divisor
    let guess ← rootLoop x epsilon degree turns guess
    if x.numerator < 0 ∧ degree % 2 = 1 then neg guess else pure guess

variable {x ε g : ℚ} {m turns : ℕ}

/-! ### The turns -/

/-- A turn is a step of Newton's iteration, unless the power of the guess is zero. -/
theorem rootTurn_ofRat (x g : ℚ) (m : ℕ) :
    rootTurn (ofRat x) (m + 1) (ofRat g) =
      if g ^ m = 0 then .error (.runtimeError "Division by zero in root calculation")
      else .ok (ofRat (step x m g)) := by
  rw [rootTurn, Nat.add_sub_cancel, pow_ofRat, ok_bind]
  simp only [numerator_ofRat_eq_zero]
  by_cases hg : g ^ m = 0
  · rw [if_pos hg, if_pos hg]
    rfl
  · have hdegree : (((m + 1 : ℕ) : ℤ) : ℚ) ≠ 0 := by
      rw [Int.cast_ne_zero, Int.natCast_ne_zero]
      exact Nat.succ_ne_zero m
    rw [if_neg hg, if_neg hg, construct_one, ok_bind, mul_ofRat, ok_bind, div_ofRat _ hg, ok_bind,
      add_ofRat, ok_bind, construct_one, ok_bind, div_ofRat _ hdegree]
    unfold step
    push_cast
    rfl

/-- The two comparisons say whether the step is longer than `ε`. -/
theorem rootLoop_ofRat (hg : g ^ m ≠ 0) :
    rootLoop (ofRat x) (ofRat ε) (m + 1) (turns + 1) (ofRat g) =
      if |step x m g - g| ≤ ε then .ok (ofRat (step x m g))
      else rootLoop (ofRat x) (ofRat ε) (m + 1) turns (ofRat (step x m g)) := by
  rw [rootLoop, rootTurn_ofRat, if_neg hg, ok_bind, sub_ofRat, ok_bind, greater_ofRat]
  by_cases hup : ε < step x m g - g
  · have hlong : ¬ |step x m g - g| ≤ ε := fun h => absurd hup (not_lt.mpr (abs_le.mp h).2)
    rw [if_neg hlong, decide_eq_true hup, if_pos rfl]
  · rw [decide_eq_false hup, if_neg Bool.false_ne_true, sub_ofRat, ok_bind, greater_ofRat]
    by_cases hdown : ε < g - step x m g
    · have hlong : ¬ |step x m g - g| ≤ ε := by
        intro h
        have := (abs_le.mp h).1
        linarith
      rw [if_neg hlong, decide_eq_true hdown, if_pos rfl]
    · have hshort : |step x m g - g| ≤ ε := by
        rw [abs_le]
        constructor <;> linarith
      rw [if_pos hshort, decide_eq_false hdown, if_neg Bool.false_ne_true]
      rfl

theorem root_ofRat (turns : ℕ) (x ε : ℚ) (hm : 1 ≤ m) :
    root turns (ofRat x) (m + 1) (ofRat ε) =
      rootLoop (ofRat x) (ofRat ε) (m + 1) turns (ofRat (x / (m + 1))) := by
  have hnumerator := not_lt.mpr (canonical_ofRat x).numerator_nonneg
  have hdegree : (((m + 1 : ℕ) : ℤ) : ℚ) ≠ 0 := by
    rw [Int.cast_ne_zero, Int.natCast_ne_zero]
    exact Nat.succ_ne_zero m
  have hcast : (((m + 1 : ℕ) : ℤ) : ℚ) = m + 1 := by
    push_cast
    rfl
  rw [root, if_neg (Nat.succ_ne_zero m), if_neg (by omega), if_neg fun h => hnumerator h.1,
    construct_one, ok_bind, div_ofRat _ hdegree, ok_bind, hcast]
  -- the last test is never met either
  simp only [hnumerator, false_and, if_false]
  exact bind_pure _

/-! ### Roots of positive numbers -/

theorem rootLoop_guess {K k : ℕ} (hx : 0 < x) (hg : 0 < g)
    (hlong : ∀ j < K, ¬ |guess x m g (j + 1) - guess x m g j| ≤ ε)
    (hshort : |guess x m g (K + 1) - guess x m g K| ≤ ε) (hk : k ≤ K) (hturns : K < k + turns) :
    rootLoop (ofRat x) (ofRat ε) (m + 1) turns (ofRat (guess x m g k)) =
      .ok (ofRat (guess x m g (K + 1))) := by
  induction turns generalizing k with
  | zero => omega
  | succ turns ih =>
    have hne : guess x m g k ^ m ≠ 0 := (pow_pos (guess_pos hx hg k) m).ne'
    rw [rootLoop_ofRat hne]
    by_cases heq : k = K
    · subst heq
      exact if_pos hshort
    · have hlt : k < K := by omega
      have hrest := ih (k := k + 1) hlt (by omega)
      exact (if_neg (hlong k hlt)).trans hrest

theorem cast_step (x g : ℚ) (m : ℕ) : ((step x m g : ℚ) : ℝ) = step (x : ℝ) m g := by
  unfold step
  push_cast
  rfl

/-- With enough turns the root of a positive fraction is `r`, at most `(n - 1) * epsilon` too
large. -/
theorem root_accurate (x epsilon : Fraction) (n : ℕ) (hx : Canonical x) (he : Canonical epsilon)
    (hpos : 0 < value x) (heps : 0 < value epsilon) (hn : 2 ≤ n) :
    ∃ r enough, (∀ turns ≥ enough, root turns x n epsilon = .ok r) ∧ Canonical r ∧
      (value x : ℝ) ^ (1 / (n : ℝ)) ≤ value r ∧
      (value r : ℝ) ≤ (value x : ℝ) ^ (1 / (n : ℝ)) + (n - 1) * value epsilon := by
  obtain ⟨m, rfl⟩ : ∃ m, n = m + 1 := ⟨n - 1, by omega⟩
  have hm : 1 ≤ m := by omega
  rw [hx.eq_ofRat, he.eq_ofRat, value_ofRat, value_ofRat]
  generalize value x = q at hpos
  generalize value epsilon = ε at heps
  have hstart : 0 < q / (m + 1) := by positivity
  have hexists := exists_short (m := m) hpos hstart heps
  have hshort := Nat.find_spec hexists
  have hlong : ∀ j < Nat.find hexists, ¬ |guess q m (q / (m + 1)) (j + 1) -
      guess q m (q / (m + 1)) j| ≤ ε := fun j hj => Nat.find_min hexists hj
  generalize Nat.find hexists = K at hshort hlong
  have hqpos : (0 : ℝ) < q := by exact_mod_cast hpos
  have hroot : ((q : ℝ) ^ (1 / ((m + 1 : ℕ) : ℝ))) ^ (m + 1) = q := by
    rw [one_div]
    exact Real.rpow_inv_natCast_pow hqpos.le (Nat.succ_ne_zero m)
  have hlast : guess q m (q / (m + 1)) (K + 1) = step q m (guess q m (q / (m + 1)) K) := rfl
  have hshort' : |step (q : ℝ) m ((guess q m (q / (m + 1)) K : ℚ) : ℝ) -
      ((guess q m (q / (m + 1)) K : ℚ) : ℝ)| ≤ (ε : ℝ) := by
    rw [← cast_step]
    exact_mod_cast hshort
  have hgpos : (0 : ℝ) < ((guess q m (q / (m + 1)) K : ℚ) : ℝ) := by
    exact_mod_cast guess_pos hpos hstart K
  obtain ⟨hlow, hhigh⟩ :=
    step_close (Real.rpow_pos_of_pos hqpos _) hroot hm hgpos hshort'
  rw [← cast_step, ← hlast] at hlow hhigh
  refine ⟨ofRat (guess q m (q / (m + 1)) (K + 1)), K + 1, ?_, canonical_ofRat _, ?_, ?_⟩
  · intro turns hturns
    rw [root_ofRat turns q ε hm]
    exact rootLoop_guess (k := 0) hpos hstart hlong hshort (Nat.zero_le K) (by omega)
  · rw [value_ofRat]
    exact hlow
  · have hone : ((m + 1 : ℕ) : ℝ) - 1 = m := by
      push_cast
      ring
    rw [value_ofRat, hone]
    exact hhigh

/-- The square root of two. -/
theorem root_accurate_two :
    ∃ r enough, (∀ turns ≥ enough, root turns ⟨2, 1⟩ 2 ⟨1, 10⟩ = .ok r) ∧ Canonical r ∧
      (value ⟨2, 1⟩ : ℝ) ^ (1 / ((2 : ℕ) : ℝ)) ≤ value r ∧
      (value r : ℝ) ≤ (value ⟨2, 1⟩ : ℝ) ^ (1 / ((2 : ℕ) : ℝ)) +
        (((2 : ℕ) : ℝ) - 1) * value ⟨1, 10⟩ :=
  root_accurate ⟨2, 1⟩ ⟨1, 10⟩ 2 ⟨by decide, by decide, by decide, by decide⟩
    ⟨by decide, by decide, by decide, by decide⟩ (by norm_num [value]) (by norm_num [value])
    (by decide)

/-! ### Even roots of negative numbers -/

/-- What the loop ends with other than a number. -/
theorem rootLoop_faults (x ε g : ℚ) (m turns : ℕ) :
    (∃ y, rootLoop (ofRat x) (ofRat ε) (m + 1) turns (ofRat g) = .ok (ofRat y)) ∨
    rootLoop (ofRat x) (ofRat ε) (m + 1) turns (ofRat g) = .error .diverged ∨
    rootLoop (ofRat x) (ofRat ε) (m + 1) turns (ofRat g) =
      .error (.runtimeError "Division by zero in root calculation") := by
  induction turns generalizing g with
  | zero => exact Or.inr (Or.inl rfl)
  | succ turns ih =>
    by_cases hg : g ^ m = 0
    · right
      right
      rw [rootLoop, rootTurn_ofRat, if_pos hg]
      rfl
    · rw [rootLoop_ofRat hg]
      by_cases hshort : |step x m g - g| ≤ ε
      · rw [if_pos hshort]
        exact Or.inl ⟨_, rfl⟩
      · rw [if_neg hshort]
        exact ih (step x m g)

/-- No root of a fraction is refused with a domain error, not even an even root of a negative
one. -/
theorem even_root_not_refused (x epsilon : Fraction) (n : ℕ) (hx : Canonical x)
    (he : Canonical epsilon) :
    ¬ ∃ turns what, root turns x n epsilon = .error (.domainError what) := by
  intro h
  obtain ⟨turns, what, hroot⟩ := h
  match n with
  | 0 => cases hroot
  | 1 => cases hroot
  | m + 2 =>
    rw [hx.eq_ofRat, he.eq_ofRat, root_ofRat turns _ _ (Nat.succ_pos m)] at hroot
    obtain ⟨y, hy⟩ | hy | hy :=
      rootLoop_faults (value x) (value epsilon) (value x / ((m + 1 : ℕ) + 1)) (m + 1) turns
    all_goals
      rw [hy] at hroot
      simp at hroot

theorem even_root_not_refused_four :
    ¬ ∃ turns what, root turns ⟨4, -1⟩ 2 ⟨1, 10⟩ = .error (.domainError what) :=
  even_root_not_refused ⟨4, -1⟩ ⟨1, 10⟩ 2 ⟨by decide, by decide, by decide, by decide⟩
    ⟨by decide, by decide, by decide, by decide⟩

/-- The square root of `-1` to within `2` is `3/4`. -/
theorem even_root_of_negative :
    Canonical ⟨1, -1⟩ ∧ value ⟨1, -1⟩ < 0 ∧
      (∀ turns, root (turns + 1) ⟨1, -1⟩ 2 ⟨2, 1⟩ = .ok ⟨3, 4⟩) ∧
      ¬ ∃ turns what, root turns ⟨1, -1⟩ 2 ⟨2, 1⟩ = .error (.domainError what) := by
  have hx : (⟨1, -1⟩ : Fraction) = ofRat (-1) := by decide
  have hε : (⟨2, 1⟩ : Fraction) = ofRat 2 := by decide
  have hr : (⟨3, 4⟩ : Fraction) = ofRat (3 / 4) := by
    have h : Canonical ⟨3, 4⟩ := ⟨by decide, by decide, by decide, by decide⟩
    simpa [value] using h.eq_ofRat
  have hroot : ∀ turns, root (turns + 1) ⟨1, -1⟩ 2 ⟨2, 1⟩ = .ok ⟨3, 4⟩ := by
    intro turns
    rw [hx, hε, hr, root_ofRat (m := 1) (turns + 1) (-1) 2 le_rfl, rootLoop_ofRat (by norm_num)]
    norm_num [step, abs_le]
  refine ⟨⟨by decide, by decide, by decide, by decide⟩, by norm_num [value], hroot, ?_⟩
  intro h
  obtain ⟨turns, what, h⟩ := h
  cases turns with
  | zero =>
    rw [hx, hε, root_ofRat (m := 1) 0 (-1) 2 le_rfl] at h
    cases h
  | succ turns =>
    rw [hroot] at h
    cases h

end MaiFaSp.Fraction
