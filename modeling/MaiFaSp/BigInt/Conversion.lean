import MaiFaSp.BigInt.Divide

/-!
# `big_int`: conversion from the integer types (`big_int.h:179-189`)

`big_int(Num d)` negates a negative `d` in the type that integer promotion gives it and
widens the result afterwards. An `int` has 32 bits and an `unsigned long long` has 64.
The negation of the minimum of a signed type that is not promoted overflows, which is
undefined behaviour and no value here.
-/

namespace MaiFaSp

/-- An integer type of the language. -/
structure IntegralType where
  signed : Bool
  width : ℕ
  deriving Repr, DecidableEq

namespace IntegralType

def minimum (T : IntegralType) : ℤ := if T.signed then -2 ^ (T.width - 1) else 0

def maximum (T : IntegralType) : ℤ := if T.signed then 2 ^ (T.width - 1) - 1 else 2 ^ T.width - 1

/-- A value of the type. -/
def Value (T : IntegralType) : Type := {d : ℤ // T.minimum ≤ d ∧ d ≤ T.maximum}

/-- Every type narrower than `int` is promoted to `int`, which holds its values. -/
def promoted (T : IntegralType) : IntegralType := if T.width < 32 then ⟨true, 32⟩ else T

/-- `-d` in the type itself. -/
def negate (T : IntegralType) (d : ℤ) : Option ℤ :=
  if T.signed then
    if d = T.minimum then none else some (-d)
  else some (-d % 2 ^ T.width)

end IntegralType

namespace BigInt

/-- `static_cast<unsigned long long>(d < 0 ? -d : d)`. -/
def magnitude (Num : IntegralType) (d : ℤ) : Option ℕ := do
  let v ← if d < 0 then Num.promoted.negate d else some d
  pure (v % 2 ^ 64).toNat

/-- `big_int(Num d)`. -/
def ofIntegral (Num : IntegralType) (d : Num.Value) : Option BigInt := do
  let number ← magnitude Num d.val
  pure (optimise ⟨d.val ≥ 0, pushDigits number ++ [0]⟩)

variable {Num : IntegralType}

/-- The negation overflows at one value of the signed types from 32 bits on. -/
theorem negate_promoted (d : Num.Value) (hneg : d.val < 0) :
    Num.promoted.negate d.val =
      if 32 ≤ Num.width ∧ d.val = Num.minimum then none else some (-d.val) := by
  obtain ⟨hmin, hmax⟩ := d.property
  have hsigned : Num.signed = true := by
    by_contra hs
    simp only [IntegralType.minimum, hs] at hmin
    exact absurd hmin (not_le.mpr hneg)
  by_cases hw : Num.width < 32
  · -- a promoted value is above the minimum of `int`
    have hwidth : ¬ 32 ≤ Num.width := not_le.mpr hw
    have hpow : (2 : ℤ) ^ (Num.width - 1) ≤ 2 ^ 30 := pow_le_pow_right₀ (by decide) (by omega)
    have hne : ¬ d.val = -2147483648 := by
      simp only [IntegralType.minimum, hsigned, if_true] at hmin
      omega
    simp [IntegralType.promoted, IntegralType.negate, IntegralType.minimum, hw, hwidth, hne]
  · have hwidth : 32 ≤ Num.width := not_lt.mp hw
    simp [IntegralType.promoted, IntegralType.negate, hw, hwidth, hsigned]

theorem magnitude_eq (d : Num.Value) :
    magnitude Num d.val =
      if 32 ≤ Num.width ∧ d.val < 0 ∧ d.val = Num.minimum then none
      else some (d.val.natAbs % 2 ^ 64) := by
  unfold magnitude
  by_cases hneg : d.val < 0
  · have habs : (-d.val % 2 ^ 64).toNat = d.val.natAbs % 2 ^ 64 := by omega
    rw [if_pos hneg, negate_promoted d hneg]
    by_cases hover : 32 ≤ Num.width ∧ d.val = Num.minimum
    · simp [hover.1, hover.2, hover.2 ▸ hneg]
    · simp only [hover, hneg, true_and, if_false]
      exact congrArg some habs
  · have habs : (d.val % 2 ^ 64).toNat = d.val.natAbs % 2 ^ 64 := by omega
    simp only [hneg, false_and, and_false, if_false]
    exact congrArg some habs

/-- The digits and the sign stand for the value with its magnitude modulo `2^64`. -/
theorem toInt_converted (z : ℤ) (number : ℕ) :
    toInt (optimise ⟨z ≥ 0, pushDigits number ++ [0]⟩) = if 0 ≤ z then (number : ℤ) else -number := by
  have hmag : mag (pushDigits number ++ [0]) = number := by
    rw [mag_append, mag_pushDigits]
    simp
  rw [toInt_optimise, toInt, hmag]
  simp

/-- The conversion is right but for the minimum of a signed type that is not promoted, and for
values of types wider than 64 bits that do not fit. -/
theorem integral_exact_iff (Num : IntegralType) (d : Num.Value) :
    (∃ x, ofIntegral Num d = some x ∧ Canonical x ∧ x.toInt = d.val) ↔
      ¬ (32 ≤ Num.width ∧ d.val < 0 ∧ d.val = Num.minimum) ∧ |d.val| < 2 ^ 64 := by
  unfold ofIntegral
  rw [magnitude_eq, Int.abs_eq_natAbs]
  by_cases hover : 32 ≤ Num.width ∧ d.val < 0 ∧ d.val = Num.minimum
  · rw [if_pos hover]
    apply iff_of_false
    · intro h
      obtain ⟨x, hx, -⟩ := h
      cases hx
    · intro h
      exact h.1 hover
  · rw [if_neg hover]
    have hvalue := toInt_converted d.val (d.val.natAbs % 2 ^ 64)
    constructor
    · intro h
      obtain ⟨x, hx, -, hv⟩ := h
      cases hx
      rw [hvalue] at hv
      refine ⟨hover, ?_⟩
      split at hv <;> omega
    · intro h
      have hsmall := h.2
      refine ⟨_, rfl, canonical_optimise _ (by simp), ?_⟩
      rw [hvalue]
      split <;> omega

/-- `big_int(-2147483648)`, with an `int`, negates the minimum of `int`. -/
theorem int_minimum_not_converted :
    ¬ ∃ x, ofIntegral ⟨true, 32⟩ ⟨-2147483648, by decide⟩ = some x ∧ Canonical x ∧
      x.toInt = -2147483648 := by
  have hnone : ofIntegral ⟨true, 32⟩ ⟨-2147483648, by decide⟩ = none := rfl
  rw [hnone]
  simp

end BigInt

end MaiFaSp
