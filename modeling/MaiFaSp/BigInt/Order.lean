import MaiFaSp.BigInt.Modulo
import Mathlib.Data.Ordering.Basic

/-!
# `big_int`: the order of `operator<=>` is the order of the values (`big_int.cpp:112-131`)

Signs and lengths decide for canonical numbers as the values do. For one sign and one length
the digit loop decides, by the digits that it visits.
-/

namespace MaiFaSp.BigInt

/-- The number of the other sign; zero stays as it is. -/
def negated (x : BigInt) : BigInt := if x.isZero then x else { x with sign := !x.sign }

/-- `a <= b`, as it is rewritten with `operator<=>`. -/
def lessEqual (x y : BigInt) : Bool := (spaceship x y).isLE

/-- The digits that the comparison of two numbers of one sign and one length skips do not
change its outcome. -/
def SeenOrder (x y : BigInt) : Prop :=
  x.sign = y.sign → x.digits.length = y.digits.length →
    compare (visited x) (visited y) = compare (mag x.digits) (mag y.digits)

/-- The comparison of the numbers of a set is that of their values: a total order that goes
the other way round for the numbers of the other sign. -/
structure Ordered (S : Set BigInt) : Prop where
  order : ∀ x ∈ S, ∀ y ∈ S, spaceship x y = compare x.toInt y.toInt
  equal : ∀ x ∈ S, ∀ y ∈ S, equals x y = true ↔ x.toInt = y.toInt
  total : ∀ x ∈ S, ∀ y ∈ S, lessEqual x y ∨ lessEqual y x
  antisymm : ∀ x ∈ S, ∀ y ∈ S, lessEqual x y → lessEqual y x → x = y
  trans : ∀ x ∈ S, ∀ y ∈ S, ∀ z ∈ S, lessEqual x y → lessEqual y z → lessEqual x z
  negation : ∀ x ∈ S, ∀ y ∈ S, spaceship (negated x) (negated y) = spaceship y x

/-! ### Magnitudes and values -/

theorem compare_cast (m n : ℕ) : compare (m : ℤ) (n : ℤ) = compare m n := by
  rcases Nat.lt_trichotomy m n with h | h | h
  · rw [compare_lt_iff_lt.mpr h, compare_lt_iff_lt]
    exact_mod_cast h
  · rw [h, compare_eq_iff_eq.mpr rfl, compare_eq_iff_eq.mpr rfl]
  · rw [compare_gt_iff_gt.mpr h, compare_gt_iff_gt]
    exact_mod_cast h

theorem compare_neg_cast (m n : ℕ) : compare (-(m : ℤ)) (-(n : ℤ)) = compare n m := by
  rcases Nat.lt_trichotomy n m with h | h | h
  · rw [compare_lt_iff_lt.mpr h, compare_lt_iff_lt]
    omega
  · rw [h, compare_eq_iff_eq.mpr rfl, compare_eq_iff_eq.mpr rfl]
  · rw [compare_gt_iff_gt.mpr h, compare_gt_iff_gt]
    omega

theorem scanDown_false (xs ys : List UInt32) (k : ℕ) :
    scanDown false xs ys k = scanDown true ys xs k := by
  induction k with
  | zero => rfl
  | succ k ih =>
    unfold scanDown
    by_cases h : xs.getD k 0 = ys.getD k 0
    · rw [if_neg (not_not.mpr h), if_neg (not_not.mpr h.symm), ih]
    · rw [if_pos h, if_pos (Ne.symm h)]
      rfl

/-- With one sign the magnitudes are compared, in the other direction for negative numbers. -/
theorem spaceship_of_sign_eq {x y : BigInt} (h : x.sign = y.sign) :
    spaceship x y = if x.sign then spaceship x.abs y.abs else spaceship y.abs x.abs := by
  cases hs : x.sign
  · by_cases hl : x.digits.length = y.digits.length
    · simp [spaceship, ← h, hs, hl, scanDown_false]
    · simp [spaceship, ← h, hs, hl, Ne.symm hl]
  · simp [spaceship, ← h, hs]

theorem spaceship_abs_iff {x y : BigInt} (hx : Canonical x) (hy : Canonical y) :
    spaceship x.abs y.abs = compare (mag x.digits) (mag y.digits) ↔
      (x.digits.length = y.digits.length →
        compare (visited x) (visited y) = compare (mag x.digits) (mag y.digits)) := by
  by_cases hl : x.digits.length = y.digits.length
  · rw [spaceship_abs_same_length x y hl]
    unfold visited
    rw [← hl]
    simp [hl]
  · simp [spaceship_abs_of_length_ne hx hy hl, hl]

theorem compare_toInt_of_sign_ne {x y : BigInt} (hx : Canonical x) (hy : Canonical y)
    (h : x.sign ≠ y.sign) : spaceship x y = compare x.toInt y.toInt := by
  unfold spaceship toInt
  cases hsx : x.sign <;> cases hsy : y.sign
  · exact absurd (hsx.trans hsy.symm) h
  · have hpos : mag x.digits ≠ 0 := by
      intro hz
      rw [hx.zeroPositive (hx.isZero_iff.mpr hz)] at hsx
      cases hsx
    refine Eq.symm (compare_lt_iff_lt.mpr ?_)
    simp only [Bool.false_eq_true, if_false, if_true]
    omega
  · have hpos : mag y.digits ≠ 0 := by
      intro hz
      rw [hy.zeroPositive (hy.isZero_iff.mpr hz)] at hsy
      cases hsy
    refine Eq.symm (compare_gt_iff_gt.mpr ?_)
    simp only [Bool.false_eq_true, if_false, if_true]
    omega
  · exact absurd (hsx.trans hsy.symm) h

/-- Two numbers are ordered as their values just when the digits visited order them so. -/
theorem spaceship_exact_iff {x y : BigInt} (hx : Canonical x) (hy : Canonical y) :
    spaceship x y = compare x.toInt y.toInt ↔ SeenOrder x y := by
  by_cases hs : x.sign = y.sign
  · have hflip : ∀ m n : ℕ, (compare n m).swap = compare m n := fun m n => Nat.compare_swap n m
    rw [spaceship_of_sign_eq hs]
    unfold SeenOrder toInt
    cases hsx : x.sign
    · rw [hsx] at hs
      simp only [← hs, Bool.false_eq_true, if_false]
      rw [compare_neg_cast, spaceship_abs_iff hy hx]
      refine ⟨fun h _ hl => ?_, fun h hl => ?_⟩
      · rw [← hflip, h hl.symm, hflip]
      · rw [← hflip, h trivial hl.symm, hflip]
    · rw [hsx] at hs
      simp only [← hs, if_true]
      rw [compare_cast, spaceship_abs_iff hx hy]
      simp
  · exact iff_of_true (compare_toInt_of_sign_ne hx hy hs) (fun h => absurd h hs)

theorem seenOrder_of_lt {x y : BigInt} (h : x.digits.length < 2 ^ 31) : SeenOrder x y := by
  intro _ hl
  rw [visited_of_lt h, visited_of_lt (hl ▸ h)]

/-! ### Negation -/

theorem canonical_negated {x : BigInt} (hx : Canonical x) : Canonical (negated x) := by
  unfold negated
  split
  case isTrue hz => exact hx
  case isFalse hz => exact canonical_withSign hx hz _

theorem toInt_negated (x : BigInt) : (negated x).toInt = -x.toInt := by
  unfold negated
  split
  case isTrue hz =>
    rw [toInt_eq, mag_eq_zero_of_isZero x hz]
    simp
  case isFalse hz =>
    rw [toInt_eq, toInt_eq, signum_not]
    ring

theorem negated_digits (x : BigInt) : (negated x).digits = x.digits := by
  unfold negated
  split <;> rfl

theorem negated_sign {x : BigInt} (h : x.digits.length ≠ 1) : (negated x).sign = !x.sign := by
  have hz : ¬ x.isZero = true := by
    intro hz
    rw [isZero, decide_eq_true_eq] at hz
    exact h hz.1
  rw [negated, if_neg hz]

theorem seenOrder_negated {x y : BigInt} (h : SeenOrder x y) :
    SeenOrder (negated x) (negated y) := by
  by_cases hlt : x.digits.length < 2 ^ 31
  · refine seenOrder_of_lt ?_
    rw [negated_digits]
    exact hlt
  · intro hs hl
    rw [negated_digits, negated_digits] at hl
    rw [negated_sign (by omega), negated_sign (by omega)] at hs
    have hseen := h (Bool.not_inj hs) hl
    unfold visited at hseen ⊢
    rw [negated_digits, negated_digits]
    exact hseen

theorem compare_neg (m n : ℤ) : compare (-m) (-n) = compare n m := by
  rcases lt_trichotomy n m with h | h | h
  · rw [compare_lt_iff_lt.mpr h, compare_lt_iff_lt]
    omega
  · rw [h, compare_eq_iff_eq.mpr rfl, compare_eq_iff_eq.mpr rfl]
  · rw [compare_gt_iff_gt.mpr h, compare_gt_iff_gt]
    omega

/-! ### The order of a set of numbers -/

theorem lessEqual_iff {x y : BigInt} (h : spaceship x y = compare x.toInt y.toInt) :
    lessEqual x y = true ↔ x.toInt ≤ y.toInt := by
  rw [lessEqual, h]
  rcases lt_trichotomy x.toInt y.toInt with hlt | heq | hgt
  · rw [compare_lt_iff_lt.mpr hlt]
    exact iff_of_true rfl hlt.le
  · rw [compare_eq_iff_eq.mpr heq]
    exact iff_of_true rfl heq.le
  · rw [compare_gt_iff_gt.mpr hgt]
    exact iff_of_false (by decide) hgt.not_ge

/-- The canonical numbers of a set are ordered as their values just when every two of them are
ordered so by the digits that the comparison visits. -/
theorem ordered_iff (S : Set BigInt) (hS : ∀ x ∈ S, Canonical x) :
    Ordered S ↔ ∀ x ∈ S, ∀ y ∈ S, SeenOrder x y := by
  refine ⟨fun h x hx y hy => ?_, fun h => ?_⟩
  · exact (spaceship_exact_iff (hS x hx) (hS y hy)).mp (h.order x hx y hy)
  · have horder : ∀ x ∈ S, ∀ y ∈ S, spaceship x y = compare x.toInt y.toInt :=
      fun x hx y hy => (spaceship_exact_iff (hS x hx) (hS y hy)).mpr (h x hx y hy)
    have hle : ∀ x ∈ S, ∀ y ∈ S, lessEqual x y = true ↔ x.toInt ≤ y.toInt :=
      fun x hx y hy => lessEqual_iff (horder x hx y hy)
    refine ⟨horder, ?_, ?_, ?_, ?_, ?_⟩
    · intro x hx y hy
      rw [equals, decide_eq_true_eq, horder x hx y hy]
      exact compare_eq_iff_eq
    · intro x hx y hy
      rw [hle x hx y hy, hle y hy x hx]
      exact le_total _ _
    · intro x hx y hy hxy hyx
      have hv := le_antisymm ((hle x hx y hy).mp hxy) ((hle y hy x hx).mp hyx)
      exact (hS x hx).ext (hS y hy) hv
    · intro x hx y hy z hz hxy hyz
      have hxz := ((hle x hx y hy).mp hxy).trans ((hle y hy z hz).mp hyz)
      exact (hle x hx z hz).mpr hxz
    · intro x hx y hy
      have hneg := (spaceship_exact_iff (canonical_negated (hS x hx))
        (canonical_negated (hS y hy))).mpr (seenOrder_negated (h x hx y hy))
      rw [hneg, toInt_negated, toInt_negated, compare_neg, horder y hy x hx]

/-- The numbers of fewer than `2^31` digits. -/
theorem ordered_below : Ordered {x | Canonical x ∧ x.digits.length < 2 ^ 31} :=
  (ordered_iff {x | Canonical x ∧ x.digits.length < 2 ^ 31} (fun _ hx => hx.1)).mpr
    (fun _ hx _ _ => seenOrder_of_lt hx.2)

theorem spaceship_basePow_unseen (n : ℕ) (h : scanLen (n + 2) = 0) :
    spaceship (basePow (n + 1)) (basePowSucc n) = .eq := by
  have hl : (basePow (n + 1)).digits.length = n + 2 := by simp [basePow]
  have hr : (basePowSucc n).digits.length = n + 2 := by simp [basePowSucc]
  have hsame := spaceship_abs_same_length (basePow (n + 1)) (basePowSucc n) (hl.trans hr.symm)
  rw [hl, h, List.take_zero, List.take_zero] at hsame
  exact hsame

theorem toInt_basePow_ne (n : ℕ) : (basePow (n + 1)).toInt ≠ (basePowSucc n).toInt := by
  have hx : (basePow (n + 1)).sign = true := rfl
  have hy : (basePowSucc n).sign = true := rfl
  rw [toInt_of_sign hx, toInt_of_sign hy, mag_basePow, mag_basePowSucc]
  omega

/-- With `2^31 + 1` digits the loop takes no turn, and all positive numbers are equal. -/
theorem order_unseen :
    Canonical (basePow (2147483647 + 1)) ∧ Canonical (basePowSucc 2147483647) ∧
      spaceship (basePow (2147483647 + 1)) (basePowSucc 2147483647) = .eq ∧
      equals (basePow (2147483647 + 1)) (basePowSucc 2147483647) = true ∧
      (basePow (2147483647 + 1)).toInt ≠ (basePowSucc 2147483647).toInt := by
  have heq := spaceship_basePow_unseen 2147483647 scanLen_two_pow_31_succ
  exact ⟨canonical_basePow _, canonical_basePowSucc _, heq, decide_eq_true heq,
    toInt_basePow_ne _⟩

end MaiFaSp.BigInt
