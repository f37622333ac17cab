import MaiFaSp.Fraction.Operators

/-!
# `fraction`: comparison (`fraction.cpp:9-11, 103-126`)

`operator<=>` looks at the signs of the denominators and then multiplies crosswise with
the magnitudes. On canonical fractions it is the order of the rational values.
-/

namespace MaiFaSp.Fraction

/-- `std::partial_ordering` -/
inductive PartialOrdering where
  | less
  | equivalent
  | greater
  | unordered
  deriving Repr, DecidableEq

/-- `operator==` -/
def equals (x other : Fraction) : Bool :=
  x.numerator = other.numerator ∧ x.denominator = other.denominator

/-- `operator<=>` -/
def spaceship (x other : Fraction) : PartialOrdering :=
  let thisNeg := x.denominator < 0
  let otherNeg := other.denominator < 0
  if ¬ (thisNeg ↔ otherNeg) then if thisNeg then .less else .greater
  else
    let lhs := x.numerator * bigAbs other.denominator
    let rhs := other.numerator * bigAbs x.denominator
    if thisNeg then
      if lhs < rhs then .greater else if lhs > rhs then .less else .equivalent
    else
      if lhs < rhs then .less else if lhs > rhs then .greater else .equivalent

def less (x other : Fraction) : Bool := spaceship x other = .less

def lessEq (x other : Fraction) : Bool :=
  spaceship x other = .less ∨ spaceship x other = .equivalent

def greater (x other : Fraction) : Bool := spaceship x other = .greater

/-- `abs` of a fraction. -/
def abs (numb : Fraction) : Except FractionFault Fraction := do
  let zero ← construct 0 1
  if less numb zero then neg numb else pure numb

/-! ### The order of the values -/

variable {x y : Fraction}

/-- What `operator<=>` says of two rational numbers. -/
def orderOf (p q : ℚ) : PartialOrdering :=
  if p < q then .less else if q < p then .greater else .equivalent

theorem orderOf_less {p q : ℚ} : orderOf p q = .less ↔ p < q := by
  unfold orderOf
  split
  case isTrue h => simp [h]
  case isFalse h => split <;> simp [h]

theorem orderOf_greater {p q : ℚ} : orderOf p q = .greater ↔ q < p := by
  unfold orderOf
  split
  case isTrue h => simp [h.le]
  case isFalse h => split <;> simp_all

theorem orderOf_equivalent {p q : ℚ} : orderOf p q = .equivalent ↔ p = q := by
  unfold orderOf
  split
  case isTrue h => simp [h.ne]
  case isFalse h =>
    split
    case isTrue h' => simp [h'.ne']
    case isFalse h' => simp [le_antisymm (not_lt.mp h') (not_lt.mp h)]

theorem orderOf_neg (p q : ℚ) : orderOf (-p) (-q) = orderOf q p := by
  unfold orderOf
  simp only [neg_lt_neg_iff]

theorem orderOf_cross {n m a b : ℤ} (ha : 0 < a) (hb : 0 < b) :
    orderOf (n / a) (m / b) =
      if n * b < m * a then .less else if n * b > m * a then .greater else .equivalent := by
  have ha' : (0 : ℚ) < a := by exact_mod_cast ha
  have hb' : (0 : ℚ) < b := by exact_mod_cast hb
  have hlt : (n : ℚ) / a < m / b ↔ n * b < m * a := by
    rw [div_lt_div_iff₀ ha' hb']
    exact_mod_cast Iff.rfl
  have hgt : (m : ℚ) / b < n / a ↔ m * a < n * b := by
    rw [div_lt_div_iff₀ hb' ha']
    exact_mod_cast Iff.rfl
  unfold orderOf
  simp only [hlt, hgt, gt_iff_lt]

theorem Canonical.value_neg_iff (hx : Canonical x) : value x < 0 ↔ x.denominator < 0 := by
  have hn : (0 : ℚ) ≤ x.numerator := by exact_mod_cast hx.numerator_nonneg
  constructor
  · intro h
    by_contra hd
    have hd' : (0 : ℚ) ≤ x.denominator := by exact_mod_cast not_lt.mp hd
    exact absurd h (not_lt.mpr (div_nonneg hn hd'))
  · intro h
    have hd' : (x.denominator : ℚ) < 0 := by exact_mod_cast h
    have hne : x.numerator ≠ 0 := by
      intro h0
      have := hx.zero h0
      omega
    have hpos : (0 : ℚ) < x.numerator := lt_of_le_of_ne hn (by exact_mod_cast hne.symm)
    exact div_neg_of_pos_of_neg hpos hd'

theorem value_eq_neg (x : Fraction) :
    value x = -((x.numerator : ℚ) / (-x.denominator : ℤ)) := by
  unfold value
  push_cast
  rw [div_neg, neg_neg]

theorem spaceship_eq (hx : Canonical x) (hy : Canonical y) :
    spaceship x y = orderOf (value x) (value y) := by
  have hdx := hx.denominator_ne
  have hdy := hy.denominator_ne
  have hsx := hx.value_neg_iff
  have hsy := hy.value_neg_iff
  unfold spaceship
  dsimp only
  rw [bigAbs_eq, bigAbs_eq]
  by_cases hxn : x.denominator < 0
  · by_cases hyn : y.denominator < 0
    · rw [if_neg (not_not.mpr (iff_of_true hxn hyn)), if_pos hxn, abs_of_neg hxn, abs_of_neg hyn,
        value_eq_neg x, value_eq_neg y, orderOf_neg, orderOf_cross (by omega) (by omega)]
      by_cases hlt : x.numerator * -y.denominator < y.numerator * -x.denominator
      · rw [if_pos hlt, if_neg (by omega), if_pos hlt]
      · rw [if_neg hlt, if_neg hlt]
    · have hlt : value x < value y := (hsx.mpr hxn).trans_le (not_lt.mp fun h => hyn (hsy.mp h))
      rw [if_pos fun h => hyn (h.mp hxn), if_pos hxn, orderOf_less.mpr hlt]
  · by_cases hyn : y.denominator < 0
    · have hlt : value y < value x := (hsy.mpr hyn).trans_le (not_lt.mp fun h => hxn (hsx.mp h))
      rw [if_pos fun h => hxn (h.mpr hyn), if_neg hxn, orderOf_greater.mpr hlt]
    · have hxp : 0 < x.denominator := by omega
      have hyp : 0 < y.denominator := by omega
      rw [if_neg (not_not.mpr (iff_of_false hxn hyn)), if_neg hxn, abs_of_pos hxp, abs_of_pos hyp]
      exact (orderOf_cross hxp hyp).symm

theorem equals_iff : equals x y = true ↔ x = y := by
  unfold equals
  rw [decide_eq_true_eq, Fraction.mk.injEq]

/-- The comparisons of canonical fractions are those of their values. -/
theorem fraction_order (x y : Fraction) (hx : Canonical x) (hy : Canonical y) :
    (spaceship x y = .less ↔ value x < value y) ∧
      (spaceship x y = .greater ↔ value y < value x) ∧
      (spaceship x y = .equivalent ↔ value x = value y) ∧
      spaceship x y ≠ .unordered ∧
      (equals x y = true ↔ value x = value y) := by
  rw [spaceship_eq hx hy]
  refine ⟨orderOf_less, orderOf_greater, orderOf_equivalent, ?_, equals_iff.trans (hx.eq_iff hy)⟩
  unfold orderOf
  split
  · decide
  · split <;> decide

theorem fraction_order_half_third : spaceship ⟨1, -2⟩ ⟨1, 3⟩ = .less ∧
    value ⟨1, -2⟩ < value ⟨1, 3⟩ := by
  have hx : Canonical ⟨1, -2⟩ := ⟨by decide, by decide, by decide, by decide⟩
  have hy : Canonical ⟨1, 3⟩ := ⟨by decide, by decide, by decide, by decide⟩
  have hless : spaceship ⟨1, -2⟩ ⟨1, 3⟩ = .less := by decide
  exact ⟨hless, (fraction_order ⟨1, -2⟩ ⟨1, 3⟩ hx hy).1.mp hless⟩

end MaiFaSp.Fraction
