import MaiFaSp.Fraction.Order

/-!
# The canonical fractions are the rational numbers

Every rational number has one canonical fraction. On those fractions the operators and
the comparisons compute with the numbers themselves, so that a loop over fractions is
followed as one over the rational numbers.
-/

namespace MaiFaSp.Fraction

variable {x : Fraction} {p q : ℚ}

/-- The canonical fraction of a rational number. -/
def ofRat (q : ℚ) : Fraction := if q < 0 then ⟨-q.num, -q.den⟩ else ⟨q.num, q.den⟩

theorem value_ofRat (q : ℚ) : value (ofRat q) = q := by
  have hq := Rat.num_div_den q
  unfold ofRat value
  split
  · push_cast
    rw [neg_div_neg_eq]
    exact hq
  · push_cast
    exact hq

theorem canonical_ofRat (q : ℚ) : Canonical (ofRat q) := by
  have hden := q.den_pos
  have hred := q.reduced
  unfold ofRat
  split
  case isTrue h =>
    have hnum := Rat.num_neg.mpr h
    refine ⟨?_, ?_, ?_, ?_⟩
    · show 0 ≤ -q.num
      omega
    · simp
    · simpa using hred
    · intro h0
      simp only [neg_eq_zero] at h0
      omega
  case isFalse h =>
    have hnum := Rat.num_nonneg.mpr (not_lt.mp h)
    refine ⟨hnum, ?_, ?_, ?_⟩
    · simp
    · simpa using hred
    · intro h0
      have hzero : q = 0 := Rat.num_eq_zero.mp h0
      simp [hzero]

theorem Canonical.eq_ofRat (hx : Canonical x) : x = ofRat (value x) :=
  hx.ext (canonical_ofRat _) (value_ofRat _).symm

/-- What is canonical and has the value of `q` is its fraction. -/
theorem eq_ofRat_of_exact {r : Except FractionFault Fraction}
    (h : ∃ y, r = .ok y ∧ Canonical y ∧ value y = q) : r = .ok (ofRat q) := by
  obtain ⟨y, hr, hy, hv⟩ := h
  rw [hr, hy.eq_ofRat, hv]

@[simp] theorem add_ofRat (p q : ℚ) : add (ofRat p) (ofRat q) = .ok (ofRat (p + q)) := by
  have h := add_exact (canonical_ofRat p).denominator_ne (canonical_ofRat q).denominator_ne
  rw [value_ofRat, value_ofRat] at h
  exact eq_ofRat_of_exact h

@[simp] theorem sub_ofRat (p q : ℚ) : sub (ofRat p) (ofRat q) = .ok (ofRat (p - q)) := by
  have h := sub_exact (canonical_ofRat p).denominator_ne (canonical_ofRat q).denominator_ne
  rw [value_ofRat, value_ofRat] at h
  exact eq_ofRat_of_exact h

@[simp] theorem mul_ofRat (p q : ℚ) : mul (ofRat p) (ofRat q) = .ok (ofRat (p * q)) := by
  have h := mul_exact (canonical_ofRat p).denominator_ne (canonical_ofRat q).denominator_ne
  rw [value_ofRat, value_ofRat] at h
  exact eq_ofRat_of_exact h

@[simp] theorem neg_ofRat (q : ℚ) : neg (ofRat q) = .ok (ofRat (-q)) := by
  have h := neg_exact (canonical_ofRat q).denominator_ne
  rw [value_ofRat] at h
  exact eq_ofRat_of_exact h

theorem numerator_ofRat_eq_zero : (ofRat q).numerator = 0 ↔ q = 0 := by
  unfold ofRat
  split <;> simp

@[simp] theorem div_ofRat (p : ℚ) (hq : q ≠ 0) : div (ofRat p) (ofRat q) = .ok (ofRat (p / q)) := by
  have hn : (ofRat q).numerator ≠ 0 := mt numerator_ofRat_eq_zero.mp hq
  have h := div_exact (canonical_ofRat p).denominator_ne hn
  rw [value_ofRat, value_ofRat] at h
  exact eq_ofRat_of_exact h

@[simp] theorem addAssign_ofRat (p q : ℚ) :
    addAssign (ofRat p) (ofRat q) = .ok (ofRat (p + q)) := add_ofRat p q

@[simp] theorem mulAssign_ofRat (p q : ℚ) :
    mulAssign (ofRat p) (ofRat q) = .ok (ofRat (p * q)) := mul_ofRat p q

@[simp] theorem divAssign_ofRat (p : ℚ) (hq : q ≠ 0) :
    divAssign (ofRat p) (ofRat q) = .ok (ofRat (p / q)) := div_ofRat p hq

@[simp] theorem construct_one (n : ℤ) : construct n 1 = .ok (ofRat n) :=
  eq_ofRat_of_exact (optimise_exact one_ne_zero (by simp))

@[simp] theorem spaceship_ofRat (p q : ℚ) : spaceship (ofRat p) (ofRat q) = orderOf p q := by
  rw [spaceship_eq (canonical_ofRat p) (canonical_ofRat q), value_ofRat, value_ofRat]

@[simp] theorem less_ofRat (p q : ℚ) : less (ofRat p) (ofRat q) = decide (p < q) := by
  simp [less, orderOf_less]

@[simp] theorem greater_ofRat (p q : ℚ) : greater (ofRat p) (ofRat q) = decide (q < p) := by
  simp [greater, orderOf_greater]

@[simp] theorem lessEq_ofRat (p q : ℚ) : lessEq (ofRat p) (ofRat q) = decide (p ≤ q) := by
  simp [lessEq, orderOf_less, orderOf_equivalent, le_iff_lt_or_eq]

@[simp] theorem abs_ofRat (q : ℚ) : abs (ofRat q) = .ok (ofRat |q|) := by
  have hzero : construct 0 1 = .ok (ofRat 0) := by
    rw [construct_one, Int.cast_zero]
  unfold abs
  rw [hzero]
  show (if less (ofRat q) (ofRat 0) = true then neg (ofRat q) else .ok (ofRat q)) = _
  by_cases hq : q < 0
  · simp [hq, abs_of_neg hq]
  · simp [hq, abs_of_nonneg (not_lt.mp hq)]

end MaiFaSp.Fraction
