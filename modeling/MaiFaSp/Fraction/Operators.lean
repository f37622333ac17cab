import Mathlib.Algebra.Order.Field.Basic
import Mathlib.Data.Int.GCD
import Mathlib.Tactic

/-!
# `fraction` (`fraction.cpp`, `fraction.h`)

The numerator and the denominator are integers with the operations that `big_int` is to
compute: `/` rounds towards zero, and `%` is the remainder of the magnitudes. The sign of
a fraction is the sign of its denominator.
-/

namespace MaiFaSp

structure Fraction where
  numerator : ℤ
  denominator : ℤ
  deriving Repr, DecidableEq

inductive FractionFault where
  | invalidArgument (what : String)
  | domainError (what : String)
  | runtimeError (what : String)
  | diverged
  deriving Repr, DecidableEq

namespace Fraction

/-! ### `big_int` -/

def bigAbs (numb : ℤ) : ℤ := if numb < 0 then 0 - numb else numb

/-- `big_int`'s `%`. -/
def bigMod (a b : ℤ) : ℤ := ((a.natAbs % b.natAbs : ℕ) : ℤ)

/-- `while (b != 0) { t = b; b = a % b; a = t; }` -/
def gcd (a b : ℤ) : ℤ := if b = 0 then a else gcd b (bigMod a b)
termination_by b.natAbs
decreasing_by
  rw [bigMod, Int.natAbs_natCast]
  exact Nat.mod_lt _ (Int.natAbs_pos.mpr ‹_›)

/-! ### `optimise` -/

/-- `optimise` with a nonzero numerator and denominator. -/
def reduce (x : Fraction) : Fraction :=
  let x := if x.numerator < 0 then ⟨bigAbs x.numerator, 0 - x.denominator⟩ else x
  let divisor := gcd (bigAbs x.numerator) (bigAbs x.denominator)
  ⟨x.numerator.tdiv divisor, x.denominator.tdiv divisor⟩

def optimise (x : Fraction) : Except FractionFault Fraction :=
  if x.denominator = 0 then throw (.invalidArgument "Denominator cannot be zero")
  else if x.numerator = 0 then pure ⟨x.numerator, 1⟩
  else pure (reduce x)

/-- The constructor from a numerator and a denominator. -/
def construct (numerator denominator : ℤ) : Except FractionFault Fraction :=
  optimise ⟨numerator, denominator⟩

/-! ### Operators -/

def neg (x : Fraction) : Except FractionFault Fraction :=
  optimise { x with denominator := 0 - x.denominator }

/-- `operator+=`, with `other` not the fraction itself. -/
def addAssign (x other : Fraction) : Except FractionFault Fraction :=
  optimise ⟨x.numerator * other.denominator + x.denominator * other.numerator,
    x.denominator * other.denominator⟩

def subAssign (x other : Fraction) : Except FractionFault Fraction :=
  optimise ⟨x.numerator * other.denominator - x.denominator * other.numerator,
    x.denominator * other.denominator⟩

def mulAssign (x other : Fraction) : Except FractionFault Fraction :=
  optimise ⟨x.numerator * other.numerator, x.denominator * other.denominator⟩

def divAssign (x other : Fraction) : Except FractionFault Fraction :=
  optimise ⟨x.numerator * other.denominator, x.denominator * other.numerator⟩

/-- `operator+` works on a copy, and so do the other three. -/
def add (x other : Fraction) : Except FractionFault Fraction := do
  let result := x
  addAssign result other

def sub (x other : Fraction) : Except FractionFault Fraction := do
  let result := x
  subAssign result other

def mul (x other : Fraction) : Except FractionFault Fraction := do
  let result := x
  mulAssign result other

def div (x other : Fraction) : Except FractionFault Fraction := do
  let result := x
  divAssign result other

end Fraction

end MaiFaSp

/-!
## `fraction`: exact results in canonical form

`optimise` keeps the value and brings it into the one form in which the numerator is not
negative, the two numbers are coprime and zero is `0/1`. Each operator then only has to
compute some pair with the right quotient.
-/

namespace MaiFaSp.Fraction

variable {x y r : Fraction}

/-- The rational number that a fraction stands for. -/
def value (x : Fraction) : ℚ := x.numerator / x.denominator

structure Canonical (x : Fraction) : Prop where
  numerator_nonneg : 0 ≤ x.numerator
  denominator_ne : x.denominator ≠ 0
  coprime : x.numerator.natAbs.Coprime x.denominator.natAbs
  zero : x.numerator = 0 → x.denominator = 1

/-! ### The Euclidean loop -/

theorem bigAbs_eq (a : ℤ) : bigAbs a = |a| := by
  unfold bigAbs
  split
  case isTrue h => rw [abs_of_neg h, zero_sub]
  case isFalse h => rw [abs_of_nonneg (not_lt.mp h)]

theorem gcd_natCast (a b : ℕ) : gcd a b = (Nat.gcd a b : ℕ) := by
  induction b using Nat.strong_induction_on generalizing a with
  | h b ih =>
    rw [gcd]
    split
    case isTrue hb =>
      rw [Int.natCast_eq_zero.mp hb, Nat.gcd_zero_right]
    case isFalse hb =>
      have hpos : 0 < b := Nat.pos_of_ne_zero fun h => hb (by rw [h]; rfl)
      have hmod : bigMod a b = ((a % b : ℕ) : ℤ) := by
        rw [bigMod, Int.natAbs_natCast, Int.natAbs_natCast]
      rw [hmod, ih (a % b) (Nat.mod_lt a hpos), Nat.gcd_comm, Nat.gcd_comm a b, Nat.gcd_rec b a,
        Nat.gcd_comm]

theorem gcd_abs (a b : ℤ) : gcd (bigAbs a) (bigAbs b) = (Nat.gcd a.natAbs b.natAbs : ℕ) := by
  rw [bigAbs_eq, bigAbs_eq, Int.abs_eq_natAbs, Int.abs_eq_natAbs, gcd_natCast]

/-! ### `optimise` -/

theorem lowest_terms {n d : ℤ} (hn : 0 ≤ n) (hn0 : n ≠ 0) (hd : d ≠ 0) :
    Canonical ⟨n.tdiv (Nat.gcd n.natAbs d.natAbs : ℕ), d.tdiv (Nat.gcd n.natAbs d.natAbs : ℕ)⟩ ∧
      value ⟨n.tdiv (Nat.gcd n.natAbs d.natAbs : ℕ), d.tdiv (Nat.gcd n.natAbs d.natAbs : ℕ)⟩ =
        n / d := by
  have hg : 0 < Nat.gcd n.natAbs d.natAbs := Nat.gcd_pos_of_pos_left _ (Int.natAbs_pos.mpr hn0)
  have hgn : ((Nat.gcd n.natAbs d.natAbs : ℕ) : ℤ) ∣ n :=
    Int.natCast_dvd.mpr (Nat.gcd_dvd_left _ _)
  have hgd : ((Nat.gcd n.natAbs d.natAbs : ℕ) : ℤ) ∣ d :=
    Int.natCast_dvd.mpr (Nat.gcd_dvd_right _ _)
  have hcoprime := Nat.coprime_div_gcd_div_gcd hg
  generalize hgcd : Nat.gcd n.natAbs d.natAbs = g at hg hgn hgd hcoprime ⊢
  have hn' := Int.tdiv_mul_cancel hgn
  have hd' := Int.tdiv_mul_cancel hgd
  have hg0 : (g : ℤ) ≠ 0 := Int.natCast_ne_zero.mpr hg.ne'
  refine ⟨⟨Int.tdiv_nonneg hn (Int.natCast_nonneg g), ?_, ?_, ?_⟩, ?_⟩
  · intro hzero
    dsimp only at hzero
    rw [hzero, zero_mul] at hd'
    exact hd hd'.symm
  · dsimp only
    rw [Int.natAbs_tdiv, Int.natAbs_tdiv, Int.natAbs_natCast]
    exact hcoprime
  · intro hzero
    dsimp only at hzero
    rw [hzero, zero_mul] at hn'
    exact absurd hn'.symm hn0
  · have hgq : (g : ℚ) ≠ 0 := Nat.cast_ne_zero.mpr hg.ne'
    show ((n.tdiv g : ℤ) : ℚ) / (d.tdiv g : ℤ) = n / d
    conv_rhs => rw [← hn', ← hd', Int.cast_mul, Int.cast_mul, Int.cast_natCast]
    exact (mul_div_mul_right _ _ hgq).symm

theorem reduce_spec (hn : x.numerator ≠ 0) (hd : x.denominator ≠ 0) :
    Canonical (reduce x) ∧ value (reduce x) = value x := by
  obtain ⟨n, d⟩ := x
  dsimp only at hn hd
  unfold reduce
  dsimp only
  split
  case isTrue hneg =>
    have hpos : 0 ≤ -n := by omega
    have hlowest := lowest_terms hpos (neg_ne_zero.mpr hn) (neg_ne_zero.mpr hd)
    rw [gcd_abs, bigAbs_eq, abs_of_neg hneg, zero_sub]
    refine ⟨hlowest.1, hlowest.2.trans ?_⟩
    rw [Int.cast_neg, Int.cast_neg]
    exact neg_div_neg_eq _ _
  case isFalse hpos =>
    rw [gcd_abs]
    exact lowest_terms (not_lt.mp hpos) hn hd

theorem optimise_spec (hd : x.denominator ≠ 0) :
    ∃ r, optimise x = .ok r ∧ Canonical r ∧ value r = value x := by
  unfold optimise
  rw [if_neg hd]
  split
  case isTrue hn =>
    refine ⟨_, rfl, ⟨hn.ge, one_ne_zero, ?_, fun _ => rfl⟩, ?_⟩
    · dsimp only
      rw [hn]
      exact Nat.coprime_one_right _
    · unfold value
      rw [hn, Int.cast_zero, zero_div, zero_div]
  case isFalse hn =>
    obtain ⟨hcanonical, hvalue⟩ := reduce_spec hn hd
    exact ⟨_, rfl, hcanonical, hvalue⟩

theorem Canonical.ext (hx : Canonical x) (hy : Canonical y) (h : value x = value y) : x = y := by
  obtain ⟨n, d⟩ := x
  obtain ⟨n', d'⟩ := y
  have hd : (d : ℚ) ≠ 0 := Int.cast_ne_zero.mpr hx.denominator_ne
  have hd' : (d' : ℚ) ≠ 0 := Int.cast_ne_zero.mpr hy.denominator_ne
  have hcross : n * d' = n' * d := by
    have hq : (n : ℚ) / d = n' / d' := h
    rw [div_eq_div_iff hd hd'] at hq
    exact_mod_cast hq
  have habs : n.natAbs * d'.natAbs = n'.natAbs * d.natAbs := by
    rw [← Int.natAbs_mul, ← Int.natAbs_mul, hcross]
  have hleft : n.natAbs ∣ n'.natAbs :=
    hx.coprime.dvd_of_dvd_mul_right (Dvd.intro _ habs)
  have hright : n'.natAbs ∣ n.natAbs :=
    hy.coprime.dvd_of_dvd_mul_right (Dvd.intro _ habs.symm)
  have hn : n = n' := by
    have heq := Nat.dvd_antisymm hleft hright
    have hpos : 0 ≤ n := hx.numerator_nonneg
    have hpos' : 0 ≤ n' := hy.numerator_nonneg
    omega
  subst hn
  by_cases h0 : n = 0
  · rw [Fraction.mk.injEq]
    exact ⟨rfl, (hx.zero h0).trans (hy.zero h0).symm⟩
  · rw [mul_left_cancel₀ h0 hcross]

/-- `operator==`, which compares the fields, compares the values. -/
theorem Canonical.eq_iff (hx : Canonical x) (hy : Canonical y) : x = y ↔ value x = value y :=
  ⟨fun h => h ▸ rfl, hx.ext hy⟩

/-! ### The operators -/

/-- An operator that computes a pair with the right quotient gives the exact result. -/
theorem optimise_exact {n d : ℤ} {q : ℚ} (hd : d ≠ 0) (hq : (n : ℚ) / d = q) :
    ∃ r, optimise ⟨n, d⟩ = .ok r ∧ Canonical r ∧ value r = q := by
  obtain ⟨r, hr, hcanonical, hvalue⟩ := optimise_spec (x := ⟨n, d⟩) hd
  exact ⟨r, hr, hcanonical, hvalue.trans hq⟩

theorem add_exact (hx : x.denominator ≠ 0) (hy : y.denominator ≠ 0) :
    ∃ r, add x y = .ok r ∧ Canonical r ∧ value r = value x + value y := by
  refine optimise_exact (mul_ne_zero hx hy) ?_
  have hx' : (x.denominator : ℚ) ≠ 0 := Int.cast_ne_zero.mpr hx
  have hy' : (y.denominator : ℚ) ≠ 0 := Int.cast_ne_zero.mpr hy
  unfold value
  push_cast
  rw [div_add_div _ _ hx' hy']

theorem sub_exact (hx : x.denominator ≠ 0) (hy : y.denominator ≠ 0) :
    ∃ r, sub x y = .ok r ∧ Canonical r ∧ value r = value x - value y := by
  refine optimise_exact (mul_ne_zero hx hy) ?_
  have hx' : (x.denominator : ℚ) ≠ 0 := Int.cast_ne_zero.mpr hx
  have hy' : (y.denominator : ℚ) ≠ 0 := Int.cast_ne_zero.mpr hy
  unfold value
  push_cast
  rw [div_sub_div _ _ hx' hy']

theorem mul_exact (hx : x.denominator ≠ 0) (hy : y.denominator ≠ 0) :
    ∃ r, mul x y = .ok r ∧ Canonical r ∧ value r = value x * value y := by
  refine optimise_exact (mul_ne_zero hx hy) ?_
  unfold value
  push_cast
  rw [div_mul_div_comm]

theorem neg_exact (hx : x.denominator ≠ 0) :
    ∃ r, neg x = .ok r ∧ Canonical r ∧ value r = -value x := by
  have hneg : 0 - x.denominator ≠ 0 := by omega
  refine optimise_exact hneg ?_
  unfold value
  push_cast
  rw [zero_sub, div_neg]

theorem div_exact (hx : x.denominator ≠ 0) (hy : y.numerator ≠ 0) :
    ∃ r, div x y = .ok r ∧ Canonical r ∧ value r = value x / value y := by
  refine optimise_exact (mul_ne_zero hx hy) ?_
  unfold value
  push_cast
  rw [div_div_div_eq]

theorem div_zero (hy : y.numerator = 0) :
    div x y = .error (.invalidArgument "Denominator cannot be zero") := by
  refine if_pos ?_
  show x.denominator * y.numerator = 0
  rw [hy, mul_zero]

/-- The operators are exact on canonical fractions, and their results canonical. -/
theorem arithmetic_exact (x y : Fraction) (hx : Canonical x) (hy : Canonical y) :
    (∃ r, add x y = .ok r ∧ Canonical r ∧ value r = value x + value y) ∧
    (∃ r, sub x y = .ok r ∧ Canonical r ∧ value r = value x - value y) ∧
    (∃ r, mul x y = .ok r ∧ Canonical r ∧ value r = value x * value y) ∧
    (∃ r, neg x = .ok r ∧ Canonical r ∧ value r = -value x) ∧
    (value y ≠ 0 → ∃ r, div x y = .ok r ∧ Canonical r ∧ value r = value x / value y) := by
  have hd := hx.denominator_ne
  have hd' := hy.denominator_ne
  refine ⟨add_exact hd hd', sub_exact hd hd', mul_exact hd hd', neg_exact hd, fun hne => ?_⟩
  refine div_exact hd fun h0 => hne ?_
  unfold value
  rw [h0, Int.cast_zero, zero_div]

/-- With `-1/2`, whose denominator is negative, and `1/3`. -/
theorem arithmetic_exact_half_third :
    ∃ r, div ⟨1, -2⟩ ⟨1, 3⟩ = .ok r ∧ Canonical r ∧ value r = value ⟨1, -2⟩ / value ⟨1, 3⟩ := by
  have hx : Canonical ⟨1, -2⟩ := ⟨by decide, by decide, by decide, by decide⟩
  have hy : Canonical ⟨1, 3⟩ := ⟨by decide, by decide, by decide, by decide⟩
  refine (arithmetic_exact ⟨1, -2⟩ ⟨1, 3⟩ hx hy).2.2.2.2 ?_
  unfold value
  norm_num

end MaiFaSp.Fraction
