import MaiFaSp.Fraction.Operators

/-!
# `fraction`: the compound operators on objects (`fraction.cpp:23-38, 51-101`)

A compound operator stores into its numerator before it computes the denominator, and
reads the other fraction again in between. So it matters whether the other fraction is
the same object, and what an exception leaves behind. A `big_int` may be multiplied by
itself: the product is complete before its digits are stored.
-/

namespace MaiFaSp.Fraction

/-- The fraction objects by address. -/
abbrev Objects := ℕ → Fraction

/-- What a call leaves, and how it ends. -/
abbrev Ended := Objects × Except FractionFault Unit

def setNumerator (s : Objects) (p : ℕ) (v : ℤ) : Objects :=
  Function.update s p { s p with numerator := v }

def setDenominator (s : Objects) (p : ℕ) (v : ℤ) : Objects :=
  Function.update s p { s p with denominator := v }

/-- `this->optimise()` -/
def optimiseAt (s : Objects) (this : ℕ) : Ended :=
  if (s this).denominator = 0 then (s, .error (.invalidArgument "Denominator cannot be zero"))
  else if (s this).numerator = 0 then (setDenominator s this 1, .ok ())
  else
    let s :=
      if (s this).numerator < 0 then
        let s := setNumerator s this (bigAbs (s this).numerator)
        setDenominator s this (0 - (s this).denominator)
      else s
    let divisor := gcd (bigAbs (s this).numerator) (bigAbs (s this).denominator)
    let s := setNumerator s this ((s this).numerator.tdiv divisor)
    (setDenominator s this ((s this).denominator.tdiv divisor), .ok ())

/-- `operator+=` of the object `this` with the object `other`. -/
def addAssignAt (s : Objects) (this other : ℕ) : Ended :=
  let s := setNumerator s this ((s this).numerator * (s other).denominator +
    (s this).denominator * (s other).numerator)
  let s := setDenominator s this ((s this).denominator * (s other).denominator)
  optimiseAt s this

def subAssignAt (s : Objects) (this other : ℕ) : Ended :=
  let s := setNumerator s this ((s this).numerator * (s other).denominator -
    (s this).denominator * (s other).numerator)
  let s := setDenominator s this ((s this).denominator * (s other).denominator)
  optimiseAt s this

def mulAssignAt (s : Objects) (this other : ℕ) : Ended :=
  let s := setNumerator s this ((s this).numerator * (s other).numerator)
  let s := setDenominator s this ((s this).denominator * (s other).denominator)
  optimiseAt s this

/-- `operator/=`. The numerator of `other` is read after that of `this` was stored. -/
def divAssignAt (s : Objects) (this other : ℕ) : Ended :=
  let s := setNumerator s this ((s this).numerator * (s other).denominator)
  let s := setDenominator s this ((s this).denominator * (s other).numerator)
  optimiseAt s this

/-! ### One object -/

variable {s : Objects} {p q : ℕ} {n d : ℤ}

@[simp] theorem setNumerator_self (s : Objects) (p : ℕ) (v : ℤ) :
    setNumerator s p v p = { s p with numerator := v } := by
  simp [setNumerator]

@[simp] theorem setDenominator_self (s : Objects) (p : ℕ) (v : ℤ) :
    setDenominator s p v p = { s p with denominator := v } := by
  simp [setDenominator]

theorem setNumerator_ne (h : q ≠ p) (v : ℤ) : setNumerator s p v q = s q := by
  simp [setNumerator, h]

theorem set_fields (s : Objects) (p : ℕ) (n d : ℤ) :
    setDenominator (setNumerator s p n) p d = Function.update s p ⟨n, d⟩ := by
  simp [setNumerator, setDenominator]

/-- A computed fraction is stored; an exception leaves the object as it is. -/
def store (s : Objects) (p : ℕ) : Except FractionFault Fraction → Ended
  | .ok r => (Function.update s p r, .ok ())
  | .error e => (s, .error e)

theorem optimiseAt_eq (s : Objects) (p : ℕ) : optimiseAt s p = store s p (optimise (s p)) := by
  unfold optimiseAt optimise
  by_cases hd : (s p).denominator = 0
  · rw [if_pos hd, if_pos hd]
    rfl
  · rw [if_neg hd, if_neg hd]
    by_cases hn : (s p).numerator = 0
    · rw [if_pos hn, if_pos hn]
      rfl
    · rw [if_neg hn, if_neg hn]
      dsimp only
      rw [set_fields]
      show _ = (Function.update s p (reduce (s p)), Except.ok ())
      unfold reduce
      by_cases hneg : (s p).numerator < 0
      · rw [if_pos hneg, if_pos hneg, setNumerator_self, set_fields]
        simp
      · rw [if_neg hneg, if_neg hneg, setNumerator_self]

theorem optimiseAt_fields (s : Objects) (p : ℕ) (n d : ℤ) :
    optimiseAt (setDenominator (setNumerator s p n) p d) p =
      store (Function.update s p ⟨n, d⟩) p (optimise ⟨n, d⟩) := by
  rw [optimiseAt_eq, set_fields, Function.update_self]

theorem store_update_ok (s : Objects) (p : ℕ) (x r : Fraction) :
    store (Function.update s p x) p (.ok r) = (Function.update s p r, .ok ()) := by
  simp [store]

/-! ### The same object on both sides -/

/-- An operator on an object and itself leaves the value of the operator on two copies. -/
def SameAsCopy (assignAt : Objects → ℕ → ℕ → Ended)
    (op : Fraction → Fraction → Except FractionFault Fraction) (s : Objects) (p : ℕ) : Prop :=
  ∃ copy r, op (s p) (s p) = .ok copy ∧ assignAt s p p = (Function.update s p r, .ok ()) ∧
    value r = value copy

theorem sameAsCopy_of_fields {assignAt : Objects → ℕ → ℕ → Ended}
    {op : Fraction → Fraction → Except FractionFault Fraction} {n d : ℤ} (hd : d ≠ 0)
    (hop : op (s p) (s p) = optimise ⟨n, d⟩)
    (hat : assignAt s p p = store (Function.update s p ⟨n, d⟩) p (optimise ⟨n, d⟩)) :
    SameAsCopy assignAt op s p := by
  obtain ⟨r, hr, -, -⟩ := optimise_spec (x := ⟨n, d⟩) hd
  refine ⟨r, r, hop.trans hr, ?_, rfl⟩
  rw [hat, hr, store_update_ok]

theorem addAssignAt_self (s : Objects) (p : ℕ) (hd : (s p).denominator ≠ 0) :
    SameAsCopy addAssignAt add s p := by
  apply sameAsCopy_of_fields (mul_ne_zero hd hd) rfl
  unfold addAssignAt
  simp only [setNumerator_self]
  exact optimiseAt_fields s p _ _

theorem subAssignAt_self (s : Objects) (p : ℕ) (hd : (s p).denominator ≠ 0) :
    SameAsCopy subAssignAt sub s p := by
  apply sameAsCopy_of_fields (mul_ne_zero hd hd) rfl
  unfold subAssignAt
  simp only [setNumerator_self]
  exact optimiseAt_fields s p _ _

theorem mulAssignAt_self (s : Objects) (p : ℕ) (hd : (s p).denominator ≠ 0) :
    SameAsCopy mulAssignAt mul s p := by
  apply sameAsCopy_of_fields (mul_ne_zero hd hd) rfl
  unfold mulAssignAt
  simp only [setNumerator_self]
  exact optimiseAt_fields s p _ _

theorem divAssignAt_self (s : Objects) (p : ℕ) (hn : (s p).numerator ≠ 0)
    (hd : (s p).denominator ≠ 0) :
    ∃ r, divAssignAt s p p = (Function.update s p r, .ok ()) ∧
      value r = 1 / (s p).denominator := by
  have hn' : ((s p).numerator : ℚ) ≠ 0 := Int.cast_ne_zero.mpr hn
  have hd' : ((s p).denominator : ℚ) ≠ 0 := Int.cast_ne_zero.mpr hd
  obtain ⟨r, hr, -, hv⟩ := optimise_exact
    (n := (s p).numerator * (s p).denominator)
    (d := (s p).denominator * ((s p).numerator * (s p).denominator))
    (mul_ne_zero hd (mul_ne_zero hn hd)) rfl
  refine ⟨r, ?_, ?_⟩
  · unfold divAssignAt
    simp only [setNumerator_self]
    rw [optimiseAt_fields, hr, store_update_ok]
  · rw [hv]
    push_cast
    field_simp

theorem divAssignAt_self_iff (s : Objects) (p : ℕ) (hn : (s p).numerator ≠ 0)
    (hd : (s p).denominator ≠ 0) :
    SameAsCopy divAssignAt div s p ↔ (s p).denominator = 1 := by
  obtain ⟨r, hr, hv⟩ := divAssignAt_self s p hn hd
  obtain ⟨copy, hcopy, -, hone⟩ := div_exact hd hn
  have hne : value (s p) ≠ 0 := div_ne_zero (Int.cast_ne_zero.mpr hn) (Int.cast_ne_zero.mpr hd)
  have hd' : ((s p).denominator : ℚ) ≠ 0 := Int.cast_ne_zero.mpr hd
  rw [div_self hne] at hone
  have hiff : value r = value copy ↔ (s p).denominator = 1 := by
    rw [hv, hone, div_eq_one_iff_eq hd']
    constructor
    · intro h
      exact_mod_cast h.symm
    · intro h
      exact_mod_cast h.symm
  rw [← hiff]
  constructor
  · intro h
    obtain ⟨copy', r', hcopy', hr', hvalue⟩ := h
    rw [hcopy] at hcopy'
    rw [hr] at hr'
    cases hcopy'
    have hupdate := congrArg Prod.fst hr'
    have hr'' := congrFun hupdate p
    simp only [Function.update_self] at hr''
    rw [hr'']
    exact hvalue
  · intro h
    exact ⟨copy, r, hcopy, hr, h⟩

/-- Addition, subtraction and multiplication do not mind the alias, and division only where the
denominator is one. -/
theorem self_assign_iff (s : Objects) (p : ℕ) (hx : Canonical (s p)) :
    SameAsCopy addAssignAt add s p ∧ SameAsCopy subAssignAt sub s p ∧
      SameAsCopy mulAssignAt mul s p ∧
      (value (s p) ≠ 0 → (SameAsCopy divAssignAt div s p ↔ (s p).denominator = 1)) := by
  have hd := hx.denominator_ne
  refine ⟨addAssignAt_self s p hd, subAssignAt_self s p hd, mulAssignAt_self s p hd, ?_⟩
  intro hne
  apply divAssignAt_self_iff s p _ hd
  intro hn
  apply hne
  unfold value
  rw [hn, Int.cast_zero, zero_div]

theorem self_assign_three : SameAsCopy divAssignAt div (fun _ => ⟨3, 1⟩) 0 := by
  have hx : Canonical ⟨3, 1⟩ := ⟨by decide, by decide, by decide, by decide⟩
  have hne : value ⟨3, 1⟩ ≠ 0 := by
    unfold value
    norm_num
  exact ((self_assign_iff (fun _ => ⟨3, 1⟩) 0 hx).2.2.2 hne).mpr rfl

/-- With `x = 1/2`, `x /= x` leaves `1/2`. -/
theorem half_divided_by_itself :
    Canonical ⟨1, 2⟩ ∧ ¬ SameAsCopy divAssignAt div (fun _ => ⟨1, 2⟩) 0 := by
  refine ⟨⟨by decide, by decide, by decide, by decide⟩, ?_⟩
  rw [divAssignAt_self_iff (fun _ => ⟨1, 2⟩) 0 (by decide) (by decide)]
  decide

/-! ### Division by zero -/

/-- The division throws and leaves the object with its value, in canonical form. -/
structure FailsAtomically (s : Objects) (p q : ℕ) : Prop where
  throws : ∃ what, (divAssignAt s p q).2 = .error (.invalidArgument what)
  unchanged : value ((divAssignAt s p q).1 p) = value (s p)
  canonical : Canonical ((divAssignAt s p q).1 p)

/-- The exception leaves the denominator zero. -/
theorem divAssignAt_zero (s : Objects) (p q : ℕ) (hy : (s q).numerator = 0) :
    divAssignAt s p q = (Function.update s p ⟨(s p).numerator * (s q).denominator, 0⟩,
      .error (.invalidArgument "Denominator cannot be zero")) := by
  have hzero : (setNumerator s p ((s p).numerator * (s q).denominator) q).numerator = 0 := by
    by_cases hqp : q = p
    · rw [hqp] at hy ⊢
      simp [hy]
    · rw [setNumerator_ne hqp]
      exact hy
  unfold divAssignAt
  dsimp only
  rw [hzero, mul_zero, optimiseAt_fields]
  rfl

/-- The exception is thrown, and never leaves a canonical fraction. -/
theorem div_zero_not_atomic (s : Objects) (p q : ℕ) (hy : (s q).numerator = 0) :
    (divAssignAt s p q).2 = .error (.invalidArgument "Denominator cannot be zero") ∧
      ((divAssignAt s p q).1 p).denominator = 0 ∧ ¬ FailsAtomically s p q := by
  rw [divAssignAt_zero s p q hy]
  refine ⟨rfl, by simp, ?_⟩
  intro h
  have hcanonical := h.canonical
  rw [divAssignAt_zero s p q hy] at hcanonical
  simp only [Function.update_self] at hcanonical
  exact hcanonical.denominator_ne rfl

/-- `1/2` at one address and zero at another. -/
def halfAndZero : Objects := fun p => if p = 0 then ⟨1, 2⟩ else ⟨0, 1⟩

theorem div_zero_not_atomic_half :
    ((divAssignAt halfAndZero 0 1).1 0).denominator = 0 :=
  (div_zero_not_atomic halfAndZero 0 1 rfl).2.1

theorem half_lost : Canonical (halfAndZero 0) ∧ value (halfAndZero 1) = 0 ∧
    ¬ FailsAtomically halfAndZero 0 1 := by
  refine ⟨⟨by decide, by decide, by decide, by decide⟩, ?_, ?_⟩
  · unfold value halfAndZero
    simp
  · intro h
    have hcanonical := h.canonical
    rw [divAssignAt_zero halfAndZero 0 1 rfl] at hcanonical
    exact hcanonical.denominator_ne rfl

end MaiFaSp.Fraction
