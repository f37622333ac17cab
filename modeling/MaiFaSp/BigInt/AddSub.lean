import MaiFaSp.BigInt.Compare
import Mathlib.Tactic.LinearCombination

/-!
# `big_int`: left shift, addition and subtraction (`big_int.cpp:189-216, 284-379`)

`plus_assign` and `minus_assign` call each other when the signs call for the
other operation. The inner call is made with equal signs, so it never calls
back; here the equal-sign bodies are `plusSame` and `minusSame`.
-/

namespace MaiFaSp

/-- `BASE` as the `unsigned long long` the digit loops compute with. -/
def base64 : UInt64 := 4294967296

theorem base64_toNat : base64.toNat = BASE := rfl

/-- `static_cast<unsigned int>(v % BASE)`. -/
def lowDigit (v : UInt64) : UInt32 := (v % base64).toUInt32

@[simp] theorem lowDigit_toNat (v : UInt64) : (lowDigit v).toNat = v.toNat % BASE := by
  simp only [lowDigit, UInt64.toNat_toUInt32, UInt64.toNat_mod, base64_toNat, BASE]
  exact Nat.mod_mod _ _

@[simp] theorem carry_toNat (v : UInt64) : (v / base64).toNat = v.toNat / BASE := by
  simp only [UInt64.toNat_div, base64_toNat]

/-- The digit and the carry taken off a 64-bit word account for all of it. -/
theorem lowDigit_add_carry (v : UInt64) :
    (lowDigit v).toNat + BASE * (v / base64).toNat = v.toNat := by
  rw [lowDigit_toNat, carry_toNat]
  exact Nat.mod_add_div _ _

namespace BigInt

/-- `if (carry > 0) _digits.push_back(static_cast<unsigned int>(carry));` -/
def pushCarry (r : List UInt32 × UInt64) : List UInt32 :=
  if r.2 > 0 then r.1 ++ [r.2.toUInt32] else r.1

theorem pushCarry_length_le (r : List UInt32 × UInt64) :
    (pushCarry r).length ≤ r.1.length + 1 := by
  unfold pushCarry
  split
  · simp
  · omega

theorem mag_pushCarry (r : List UInt32 × UInt64) (h : r.2.toNat < BASE) :
    mag (pushCarry r) = mag r.1 + BASE ^ r.1.length * r.2.toNat := by
  unfold pushCarry
  split
  case isTrue hc =>
    have hm : r.2.toUInt32.toNat = r.2.toNat := by
      rw [UInt64.toNat_toUInt32]
      exact Nat.mod_eq_of_lt h
    rw [mag_append, mag_cons, mag_nil, hm]
    simp
  case isFalse hc =>
    have h0 : r.2.toNat = 0 := by
      have hn := mt UInt64.lt_iff_toNat_lt.mpr hc
      simpa using hn
    rw [h0]
    simp

/-! ### `operator<<=` -/

/-- The carry loop of `operator<<=`, run over the digits from the lowest up. -/
def shlLoop (bitShift : UInt64) : List UInt32 → UInt64 → List UInt32 × UInt64
  | [], carry => ([], carry)
  | d :: ds, carry =>
    let value := (d.toUInt64 <<< bitShift) ||| carry
    let rest := shlLoop bitShift ds (value / base64)
    (lowDigit value :: rest.1, rest.2)

/-- `operator<<=`: the shift is counted in bits. -/
def shlAssign (x : BigInt) (shift : ℕ) : BigInt :=
  if shift = 0 ∨ x.isZero then x
  else
    let intShift := shift / 32
    let bitShift := shift % 32
    let ds := List.replicate intShift 0 ++ x.digits
    optimise ⟨x.sign, if bitShift > 0 then pushCarry (shlLoop (UInt64.ofNat bitShift) ds 0) else ds⟩

@[simp] theorem shlAssign_zero (x : BigInt) : shlAssign x 0 = x := by
  simp [shlAssign]

theorem shlLoop_length (bitShift : UInt64) (ds : List UInt32) (carry : UInt64) :
    (shlLoop bitShift ds carry).1.length = ds.length := by
  induction ds generalizing carry with
  | nil => rfl
  | cons d ds ih => simp only [shlLoop, List.length_cons, ih]

theorem shlAssign_length_le (x : BigInt) (shift : ℕ) :
    (shlAssign x shift).digits.length ≤ x.digits.length + shift / 32 + 1 := by
  unfold shlAssign
  split
  · omega
  · refine (optimise_length_le _).trans ?_
    dsimp only
    split
    · have h := pushCarry_length_le (shlLoop (UInt64.ofNat (shift % 32))
        (List.replicate (shift / 32) 0 ++ x.digits) 0)
      rw [shlLoop_length, List.length_append, List.length_replicate] at h
      omega
    · rw [List.length_append, List.length_replicate]
      omega

theorem shlAssign_nonempty (x : BigInt) (shift : ℕ) (h : x.digits ≠ []) :
    (shlAssign x shift).digits ≠ [] := by
  unfold shlAssign
  split
  · exact h
  · rw [optimise_digits]
    refine popZeros_ne_nil _ _ (List.ne_nil_of_length_pos ?_)
    have hp := List.length_pos_of_ne_nil h
    dsimp only
    split
    · unfold pushCarry
      split
      · simp
      · rw [shlLoop_length, List.length_append]
        omega
    · rw [List.length_append]
      omega

/-! ### Equal signs: the carry loop of `plus_assign` -/

/-- `n` turns of the loop from index `i`; a digit past the end of its vector
adds nothing. -/
def plusLoop (xs ys : List UInt32) (shift : ℕ) : ℕ → ℕ → UInt64 → List UInt32 × UInt64
  | 0, _, carry => ([], carry)
  | n + 1, i, carry =>
    let sum := carry + (xs.getD i 0).toUInt64 +
      (if shift ≤ i then (ys.getD (i - shift) 0).toUInt64 else 0)
    let rest := plusLoop xs ys shift n (i + 1) (sum / base64)
    (lowDigit sum :: rest.1, rest.2)

/-- The branch `_sign == other._sign` of `plus_assign`. -/
def plusSame (x y : BigInt) (shift : ℕ) : BigInt :=
  let maxSize := max x.digits.length (y.digits.length + shift)
  ⟨x.sign, pushCarry (plusLoop x.digits y.digits shift maxSize 0 0)⟩

/-! ### Equal signs: the borrow loop of `minus_assign` -/

/-- `n` turns of the loop from index `i`. A difference lies in
`[-2^32, 2^32)`, so the `long long` never overflows. -/
def minusLoop (xs ys : List UInt32) : ℕ → ℕ → ℤ → List UInt32 × ℤ
  | 0, _, borrow => ([], borrow)
  | n + 1, i, borrow =>
    let difference : ℤ := borrow + (xs.getD i 0).toNat - (ys.getD i 0).toNat
    if difference < 0 then
      let rest := minusLoop xs ys n (i + 1) (-1)
      (UInt32.ofInt (difference + BASE) :: rest.1, rest.2)
    else
      let rest := minusLoop xs ys n (i + 1) 0
      (UInt32.ofInt difference :: rest.1, rest.2)

/-- `optimise(); if (is_zero()) _sign = true;` -/
def settle (x : BigInt) : BigInt :=
  let y := x.optimise
  if y.isZero then { y with sign := true } else y

/-- The body of `minus_assign` after its two early returns. -/
def minusSame (x y : BigInt) (shift : ℕ) : BigInt :=
  let absOther := shlAssign y.abs shift
  let less := spaceship x.abs absOther = .lt
  let resultSign := if less then !x.sign else x.sign
  let xs := if less then absOther.digits else x.abs.digits
  let ys := if less then x.abs.digits else absOther.digits
  settle ⟨resultSign, (minusLoop xs ys (max xs.length ys.length) 0 0).1⟩

/-! ### `plus_assign` and `minus_assign` -/

/-- `plus_assign`. The call `minus_assign(temp, shift)` has equal signs and a
nonzero argument, so it runs the body `minusSame`. -/
def plusAssign (x y : BigInt) (shift : ℕ) : BigInt :=
  if y.isZero then x
  else if x.sign = y.sign then settle (plusSame x y shift)
  else settle (minusSame x { y with sign := x.sign } shift)

/-- `minus_assign`. -/
def minusAssign (x y : BigInt) (shift : ℕ) : BigInt :=
  if y.isZero then x
  else if x.sign ≠ y.sign then plusAssign x { y with sign := x.sign } shift
  else minusSame x y shift

/-! ### The loops compute the sum and the difference -/

theorem getD_pad (ys : List UInt32) (shift i : ℕ) :
    (if shift ≤ i then (ys.getD (i - shift) 0).toUInt64 else 0) =
      ((List.replicate shift 0 ++ ys).getD i 0).toUInt64 := by
  split
  case isTrue h => rw [List.getD_append_right _ _ _ _ (by simpa using h), List.length_replicate]
  case isFalse h =>
    rw [List.getD_append _ _ _ _ (by simpa using h), List.getD_replicate 0 (by omega)]
    rfl

theorem plusSum_toNat (carry : UInt64) (u v : UInt32) (hc : carry.toNat ≤ 1) :
    (carry + u.toUInt64 + v.toUInt64).toNat = carry.toNat + u.toNat + v.toNat := by
  have hu := u.toNat_lt
  have hv := v.toNat_lt
  simp only [UInt64.toNat_add, UInt32.toNat_toUInt64]
  omega

theorem plusLoop_length (xs ys : List UInt32) (shift n i : ℕ) (carry : UInt64) :
    (plusLoop xs ys shift n i carry).1.length = n := by
  induction n generalizing i carry with
  | zero => rfl
  | succ n ih => simp only [plusLoop, List.length_cons, ih]

/-- What the loop has written, the carry and the digits still unread add up to
the two addends at every index. -/
theorem plusLoop_value (xs ys : List UInt32) (shift n i : ℕ) (carry : UInt64)
    (hc : carry.toNat ≤ 1) :
    mag (plusLoop xs ys shift n i carry).1 +
        BASE ^ n * ((plusLoop xs ys shift n i carry).2.toNat + mag (xs.drop (i + n)) +
          mag ((List.replicate shift 0 ++ ys).drop (i + n))) =
      carry.toNat + mag (xs.drop i) + mag ((List.replicate shift 0 ++ ys).drop i) ∧
    (plusLoop xs ys shift n i carry).2.toNat ≤ 1 := by
  induction n generalizing i carry with
  | zero => exact ⟨by simp [plusLoop], hc⟩
  | succ n ih =>
    simp only [plusLoop]
    rw [getD_pad]
    have hsum := plusSum_toNat carry (xs.getD i 0) ((List.replicate shift 0 ++ ys).getD i 0) hc
    generalize carry + (xs.getD i 0).toUInt64 +
      ((List.replicate shift 0 ++ ys).getD i 0).toUInt64 = sum at hsum ⊢
    have hcarry : (sum / base64).toNat ≤ 1 := by
      have hu := (xs.getD i 0).toNat_lt
      have hv := ((List.replicate shift 0 ++ ys).getD i 0).toNat_lt
      rw [carry_toNat, BASE]
      omega
    obtain ⟨hrec, hle⟩ := ih (i + 1) (sum / base64) hcarry
    refine ⟨?_, hle⟩
    have hsplit := lowDigit_add_carry sum
    rw [mag_drop xs i, mag_drop (List.replicate shift 0 ++ ys) i, mag_cons, pow_succ']
    rw [show i + 1 + n = i + (n + 1) by omega] at hrec
    calc
      _ = (lowDigit sum).toNat + BASE * (mag (plusLoop xs ys shift n (i + 1) (sum / base64)).1 +
            BASE ^ n * ((plusLoop xs ys shift n (i + 1) (sum / base64)).2.toNat +
              mag (xs.drop (i + (n + 1))) +
              mag ((List.replicate shift 0 ++ ys).drop (i + (n + 1))))) := by ring
      _ = (lowDigit sum).toNat + BASE * ((sum / base64).toNat + mag (xs.drop (i + 1)) +
            mag ((List.replicate shift 0 ++ ys).drop (i + 1))) := by rw [hrec]
      _ = sum.toNat + BASE * (mag (xs.drop (i + 1)) +
            mag ((List.replicate shift 0 ++ ys).drop (i + 1))) := by rw [← hsplit]; ring
      _ = _ := by rw [hsum]; ring

theorem mag_plusSame (x y : BigInt) (shift : ℕ) :
    mag (plusSame x y shift).digits = mag x.digits + BASE ^ shift * mag y.digits := by
  have hv := plusLoop_value x.digits y.digits shift
    (max x.digits.length (y.digits.length + shift)) 0 0 (by decide)
  obtain ⟨hv, hle⟩ := hv
  have hcarry : (plusLoop x.digits y.digits shift
      (max x.digits.length (y.digits.length + shift)) 0 0).2.toNat < BASE :=
    hle.trans_lt one_lt_BASE
  simp only [plusSame]
  rw [mag_pushCarry _ hcarry, plusLoop_length]
  rw [List.drop_eq_nil_of_le (by omega),
    List.drop_eq_nil_of_le (by rw [List.length_append, List.length_replicate]; omega)] at hv
  simp only [mag_nil, List.drop_zero, mag_append, mag_replicate_zero, List.length_replicate] at hv
  simpa using hv

theorem ofInt_toNat (z : ℤ) (h0 : 0 ≤ z) (h1 : z < BASE) : ((UInt32.ofInt z).toNat : ℤ) = z := by
  have hz : z < 2 ^ 32 := h1
  have hm : z % 2 ^ 32 = z := Int.emod_eq_of_lt h0 hz
  rw [UInt32.ofInt, hm, UInt32.toNat_ofNat', Nat.mod_eq_of_lt (by omega)]
  exact Int.toNat_of_nonneg h0

theorem minusLoop_length (xs ys : List UInt32) (n i : ℕ) (borrow : ℤ) :
    (minusLoop xs ys n i borrow).1.length = n := by
  induction n generalizing i borrow with
  | zero => rfl
  | succ n ih =>
    simp only [minusLoop]
    split <;> simp only [List.length_cons, ih]

/-- The subtraction counterpart of `plusLoop_value`; the borrow is 0 or -1. -/
theorem minusLoop_value (xs ys : List UInt32) (n i : ℕ) (borrow : ℤ)
    (hb : borrow = 0 ∨ borrow = -1) :
    (mag (minusLoop xs ys n i borrow).1 : ℤ) +
        BASE ^ n * ((minusLoop xs ys n i borrow).2 + mag (xs.drop (i + n)) -
          mag (ys.drop (i + n))) =
      borrow + mag (xs.drop i) - mag (ys.drop i) ∧
    ((minusLoop xs ys n i borrow).2 = 0 ∨ (minusLoop xs ys n i borrow).2 = -1) := by
  induction n generalizing i borrow with
  | zero => exact ⟨by simp [minusLoop], hb⟩
  | succ n ih =>
    have hx := digit_lt (xs.getD i 0)
    have hy := digit_lt (ys.getD i 0)
    have hdx := congrArg (Nat.cast (R := ℤ)) (mag_drop xs i)
    have hdy := congrArg (Nat.cast (R := ℤ)) (mag_drop ys i)
    push_cast at hdx hdy
    simp only [minusLoop]
    split
    case isTrue hneg =>
      obtain ⟨hrec, hout⟩ := ih (i + 1) (-1) (Or.inr rfl)
      refine ⟨?_, hout⟩
      rw [show i + 1 + n = i + (n + 1) by omega] at hrec
      have hd := ofInt_toNat (borrow + (xs.getD i 0).toNat - (ys.getD i 0).toNat + BASE)
        (by omega) (by omega)
      rw [mag_cons]
      push_cast
      rw [hd, pow_succ', hdx, hdy]
      linear_combination (BASE : ℤ) * hrec
    case isFalse hneg =>
      obtain ⟨hrec, hout⟩ := ih (i + 1) 0 (Or.inl rfl)
      refine ⟨?_, hout⟩
      rw [show i + 1 + n = i + (n + 1) by omega] at hrec
      have hd := ofInt_toNat (borrow + (xs.getD i 0).toNat - (ys.getD i 0).toNat)
        (by omega) (by omega)
      rw [mag_cons]
      push_cast
      rw [hd, pow_succ', hdx, hdy]
      linear_combination (BASE : ℤ) * hrec

/-- Over all digits of both operands the loop gives the difference, or the
difference plus `BASE ^ n` when the subtrahend is the larger number. -/
theorem mag_minusLoop (xs ys : List UInt32) (n : ℕ) (hx : xs.length ≤ n) (hy : ys.length ≤ n) :
    (mag (minusLoop xs ys n 0 0).1 : ℤ) =
      if mag ys ≤ mag xs then (mag xs : ℤ) - mag ys else (mag xs : ℤ) - mag ys + BASE ^ n := by
  obtain ⟨hv, hout⟩ := minusLoop_value xs ys n 0 0 (Or.inl rfl)
  rw [List.drop_eq_nil_of_le (by omega), List.drop_eq_nil_of_le (by omega)] at hv
  simp only [mag_nil, List.drop_zero, Nat.cast_zero, add_zero, sub_zero, zero_add] at hv
  have hlt : (mag (minusLoop xs ys n 0 0).1 : ℤ) < BASE ^ n := by
    have h := mag_lt (minusLoop xs ys n 0 0).1
    rw [minusLoop_length] at h
    exact_mod_cast h
  have hge : (0 : ℤ) ≤ mag (minusLoop xs ys n 0 0).1 := by positivity
  have hpos : (0 : ℤ) < BASE ^ n := by
    have h := Nat.pow_pos (n := n) BASE_pos
    exact_mod_cast h
  rcases hout with h0 | h1
  · rw [h0, mul_zero, add_zero] at hv
    rw [if_pos (by omega)]
    exact hv
  · rw [h1] at hv
    rw [if_neg (by omega)]
    linarith

end BigInt

end MaiFaSp
