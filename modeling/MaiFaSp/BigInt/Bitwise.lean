import MaiFaSp.BigInt.Modulo
import Mathlib.Data.Nat.Bitwise

/-!
# `big_int`: bitwise operations (`big_int.cpp:144-187`)

Each operator resizes its digits to the shorter or the longer operand, combines them one by
one and drops the leading zero digits. The value is taken bit by bit: bit `k` of a number is
bit `k % 32` of its digit `k / 32`. The sign stays that of the left operand.
-/

namespace MaiFaSp

namespace BigInt

/-- `_digits.resize(size, 0)`. -/
def resize (size : ℕ) (ds : List UInt32) : List UInt32 :=
  ds.take size ++ List.replicate (size - ds.length) 0

/-- `_digits.resize(size, 0)`, a loop over all digits, `optimise()`. -/
def combineAssign (size : ℕ) (turn : ℕ → UInt32 → UInt32) (x : BigInt) : BigInt :=
  optimise ⟨x.sign, (resize size x.digits).mapIdx turn⟩

/-- `operator&=`. -/
def andAssign (x y : BigInt) : BigInt :=
  combineAssign (min x.digits.length y.digits.length) (fun i d => d &&& y.digits.getD i 0) x

/-- `operator|=`. -/
def orAssign (x y : BigInt) : BigInt :=
  combineAssign (max x.digits.length y.digits.length)
    (fun i d => d ||| if i < y.digits.length then y.digits.getD i 0 else 0) x

/-- `operator^=`. -/
def xorAssign (x y : BigInt) : BigInt :=
  combineAssign (max x.digits.length y.digits.length)
    (fun i d => d ^^^ if i < y.digits.length then y.digits.getD i 0 else 0) x

/-! ### Bits of a digit vector -/

theorem mag_testBit (ds : List UInt32) (k : ℕ) :
    (mag ds).testBit k = (ds.getD (k / 32) 0).toNat.testBit (k % 32) := by
  induction ds generalizing k with
  | nil => simp
  | cons d ds ih =>
    have hd : d.toNat < 2 ^ 32 := d.toNat_lt
    rw [mag_cons, Nat.add_comm, BASE, Nat.testBit_two_pow_mul_add _ hd]
    split
    case isTrue hk => rw [Nat.div_eq_of_lt hk, Nat.mod_eq_of_lt hk, List.getD_cons_zero]
    case isFalse hk =>
      have hdiv : k / 32 = (k - 32) / 32 + 1 := by omega
      have hmod : k % 32 = (k - 32) % 32 := by omega
      rw [ih, hdiv, hmod, List.getD_cons_succ]

@[simp] theorem resize_length (size : ℕ) (ds : List UInt32) : (resize size ds).length = size := by
  simp only [resize, List.length_append, List.length_take, List.length_replicate]
  omega

theorem getD_resize {size i : ℕ} (ds : List UInt32) (hi : i < size) :
    (resize size ds).getD i 0 = ds.getD i 0 := by
  unfold resize
  by_cases hd : i < ds.length
  · have htake : i < (ds.take size).length := by
      rw [List.length_take]
      omega
    rw [List.getD_append _ _ _ _ htake, List.getD_eq_getElem _ _ htake,
      List.getD_eq_getElem _ _ hd, List.getElem_take]
  · rw [List.getD_eq_default _ _ (Nat.not_lt.mp hd), List.getD_append_right]
    · rw [List.getD_replicate 0]
      rw [List.length_take]
      omega
    · rw [List.length_take]
      omega

theorem getD_mapIdx_resize {size i : ℕ} (turn : ℕ → UInt32 → UInt32) (ds : List UInt32) :
    ((resize size ds).mapIdx turn).getD i 0 = if i < size then turn i (ds.getD i 0) else 0 := by
  split
  case isTrue hi =>
    rw [List.getD_eq_getElem _ _ (by simpa using hi), List.getElem_mapIdx,
      ← getD_resize ds hi, List.getD_eq_getElem _ _ (by simpa using hi)]
  case isFalse hi => rw [List.getD_eq_default _ _ (by simpa using hi)]

theorem getD_or_zero (ds : List UInt32) (i : ℕ) :
    (if i < ds.length then ds.getD i 0 else 0) = ds.getD i 0 := by
  split
  case isTrue hi => rfl
  case isFalse hi => rw [List.getD_eq_default _ _ (Nat.not_lt.mp hi)]

/-! ### The operators combine the two values -/

/-- The combined value, when each of its digits is the combined digit. -/
theorem mag_combine {size : ℕ} {turn : ℕ → UInt32 → UInt32} {x y : BigInt} {f : Bool → Bool → Bool}
    {op : ℕ → ℕ → ℕ} (hop : ∀ m n k, (op m n).testBit k = f (m.testBit k) (n.testBit k))
    (hdigit : ∀ i k, (if i < size then turn i (x.digits.getD i 0) else 0).toNat.testBit k =
      f ((x.digits.getD i 0).toNat.testBit k) ((y.digits.getD i 0).toNat.testBit k)) :
    mag (combineAssign size turn x).digits = op (mag x.digits) (mag y.digits) := by
  unfold combineAssign
  rw [mag_optimise]
  refine Nat.eq_of_testBit_eq (fun k => ?_)
  rw [hop, mag_testBit, mag_testBit, mag_testBit, getD_mapIdx_resize]
  exact hdigit (k / 32) (k % 32)

theorem mag_andAssign (x y : BigInt) :
    mag (andAssign x y).digits = mag x.digits &&& mag y.digits := by
  refine mag_combine Nat.testBit_and (fun i k => ?_)
  split
  case isTrue hi => rw [UInt32.toNat_and, Nat.testBit_and]
  case isFalse hi =>
    rcases Nat.le_total x.digits.length y.digits.length with h | h
    · rw [List.getD_eq_default x.digits _ (by omega)]
      simp
    · rw [List.getD_eq_default y.digits _ (by omega)]
      simp

theorem mag_orAssign (x y : BigInt) :
    mag (orAssign x y).digits = mag x.digits ||| mag y.digits := by
  refine mag_combine Nat.testBit_or (fun i k => ?_)
  rw [getD_or_zero]
  split
  case isTrue hi => rw [UInt32.toNat_or, Nat.testBit_or]
  case isFalse hi =>
    rw [List.getD_eq_default x.digits _ (by omega), List.getD_eq_default y.digits _ (by omega)]
    simp

theorem mag_xorAssign (x y : BigInt) :
    mag (xorAssign x y).digits = mag x.digits ^^^ mag y.digits := by
  refine mag_combine Nat.testBit_xor (fun i k => ?_)
  rw [getD_or_zero]
  split
  case isTrue hi => rw [UInt32.toNat_xor, Nat.testBit_xor]
  case isFalse hi =>
    rw [List.getD_eq_default x.digits _ (by omega), List.getD_eq_default y.digits _ (by omega)]
    simp

theorem combineAssign_spec {size n : ℕ} {turn : ℕ → UInt32 → UInt32} {x : BigInt}
    (hs : x.sign = true) (hsize : 0 < size) (h : mag (combineAssign size turn x).digits = n) :
    Canonical (combineAssign size turn x) ∧ (combineAssign size turn x).toInt = n := by
  have hsign : (combineAssign size turn x).sign = true := optimise_sign_true _ hs
  refine ⟨canonical_optimise _ (List.ne_nil_of_length_pos ?_), ?_⟩
  · rw [List.length_mapIdx, resize_length]
    exact hsize
  · rw [toInt_of_sign hsign, h]

/-- `a & b`, `a | b` and `a ^ b` of two numbers that are not negative. -/
theorem bitwise_exact (x y : BigInt) (hx : Canonical x) (hy : Canonical y)
    (hx0 : 0 ≤ x.toInt) (hy0 : 0 ≤ y.toInt) :
    (Canonical (andAssign x y) ∧
        (andAssign x y).toInt = (x.toInt.toNat &&& y.toInt.toNat : ℕ)) ∧
      (Canonical (orAssign x y) ∧
        (orAssign x y).toInt = (x.toInt.toNat ||| y.toInt.toNat : ℕ)) ∧
      (Canonical (xorAssign x y) ∧
        (xorAssign x y).toInt = (x.toInt.toNat ^^^ y.toInt.toNat : ℕ)) := by
  have hsx := hx.sign_of_nonneg hx0
  have hsy := hy.sign_of_nonneg hy0
  have hlx := hx.length_pos
  have hly := hy.length_pos
  rw [toInt_of_sign hsx, toInt_of_sign hsy, Int.toNat_natCast, Int.toNat_natCast]
  refine ⟨?_, ?_, ?_⟩
  · exact combineAssign_spec hsx (by omega) (mag_andAssign x y)
  · exact combineAssign_spec hsx (by omega) (mag_orAssign x y)
  · exact combineAssign_spec hsx (by omega) (mag_xorAssign x y)

theorem bitwise_exact_small :
    (Canonical (andAssign ⟨true, [12, 5]⟩ ⟨true, [10]⟩) ∧
        (andAssign ⟨true, [12, 5]⟩ ⟨true, [10]⟩).toInt =
          ((toInt ⟨true, [12, 5]⟩).toNat &&& (toInt ⟨true, [10]⟩).toNat : ℕ)) ∧
      (Canonical (orAssign ⟨true, [12, 5]⟩ ⟨true, [10]⟩) ∧
        (orAssign ⟨true, [12, 5]⟩ ⟨true, [10]⟩).toInt =
          ((toInt ⟨true, [12, 5]⟩).toNat ||| (toInt ⟨true, [10]⟩).toNat : ℕ)) ∧
      (Canonical (xorAssign ⟨true, [12, 5]⟩ ⟨true, [10]⟩) ∧
        (xorAssign ⟨true, [12, 5]⟩ ⟨true, [10]⟩).toInt =
          ((toInt ⟨true, [12, 5]⟩).toNat ^^^ (toInt ⟨true, [10]⟩).toNat : ℕ)) :=
  bitwise_exact ⟨true, [12, 5]⟩ ⟨true, [10]⟩ ⟨by decide, by decide, by decide⟩
    ⟨by decide, by decide, by decide⟩ (by decide) (by decide)

/-! ### Both orders of the operands -/

/-- Both orders leave the same digits, each under the sign of its left operand. -/
structure SignOfLeft (op : BigInt → BigInt → BigInt) (x y : BigInt) : Prop where
  digits : (op x y).digits = (op y x).digits
  sign : (op x y).sign = (x.sign || (op x y).isZero)
  commutes : equals (op x y) (op y x) = true ↔ x.sign = y.sign ∨ (op x y).isZero = true

theorem optimise_sign (x : BigInt) : x.optimise.sign = (x.sign || x.optimise.isZero) := by
  have hzero : x.optimise.isZero = isZero ⟨x.sign, popZeros x.digits.length x.digits⟩ := by
    simp only [isZero, optimise_digits]
  rw [hzero]
  by_cases hz : isZero ⟨x.sign, popZeros x.digits.length x.digits⟩ = true
  · simp [optimise, hz]
  · simp [optimise, hz]

theorem canonical_combineAssign {size : ℕ} (turn : ℕ → UInt32 → UInt32) (x : BigInt)
    (hsize : 0 < size) : Canonical (combineAssign size turn x) := by
  apply canonical_optimise
  apply List.ne_nil_of_length_pos
  simpa using hsize

theorem equals_of_sign_ne {x y : BigInt} (h : x.sign ≠ y.sign) : equals x y = false := by
  unfold equals spaceship
  rw [if_pos h]
  cases x.sign with
  | true => rfl
  | false => rfl

/-- An operator that combines the digits under the sign of its left operand. -/
theorem signOfLeft_of_mag {op : BigInt → BigInt → BigInt} {x y : BigInt}
    (hxy : Canonical (op x y)) (hyx : Canonical (op y x))
    (hsx : (op x y).sign = (x.sign || (op x y).isZero))
    (hsy : (op y x).sign = (y.sign || (op y x).isZero))
    (hmag : mag (op x y).digits = mag (op y x).digits) : SignOfLeft op x y := by
  have hdigits := hxy.digits_eq hyx hmag
  have hzero : (op y x).isZero = (op x y).isZero := by
    simp only [isZero, hdigits]
  rw [hzero] at hsy
  refine ⟨hdigits, hsx, ?_⟩
  constructor
  · intro he
    by_contra hne
    obtain ⟨hs, hz⟩ := not_or.mp hne
    have hsigns : (op x y).sign ≠ (op y x).sign := by
      rw [hsx, hsy, eq_false_of_ne_true hz, Bool.or_false, Bool.or_false]
      exact hs
    rw [equals_of_sign_ne hsigns] at he
    cases he
  · intro h
    have hsigns : (op x y).sign = (op y x).sign := by
      rw [hsx, hsy]
      cases h with
      | inl hs => rw [hs]
      | inr hz => rw [hz, Bool.or_true, Bool.or_true]
    have hint : (op x y).toInt = (op y x).toInt := by
      rw [toInt_eq, toInt_eq, hsigns, hmag]
    exact equals_of_toInt hxy hyx hint

/-- The operators combine the magnitudes, which commutes, and look at one sign only. -/
theorem bitwise_sign_of_left (x y : BigInt) (hx : Canonical x) (hy : Canonical y) :
    SignOfLeft andAssign x y ∧ SignOfLeft orAssign x y ∧ SignOfLeft xorAssign x y := by
  have hlx := hx.length_pos
  have hly := hy.length_pos
  have hmin : 0 < min x.digits.length y.digits.length := by omega
  have hmin' : 0 < min y.digits.length x.digits.length := by omega
  have hmax : 0 < max x.digits.length y.digits.length := by omega
  have hmax' : 0 < max y.digits.length x.digits.length := by omega
  refine ⟨?_, ?_, ?_⟩
  · apply signOfLeft_of_mag (canonical_combineAssign _ _ hmin) (canonical_combineAssign _ _ hmin')
      (optimise_sign _) (optimise_sign _)
    rw [mag_andAssign, mag_andAssign, Nat.land_comm]
  · apply signOfLeft_of_mag (canonical_combineAssign _ _ hmax) (canonical_combineAssign _ _ hmax')
      (optimise_sign _) (optimise_sign _)
    rw [mag_orAssign, mag_orAssign, Nat.lor_comm]
  · apply signOfLeft_of_mag (canonical_combineAssign _ _ hmax) (canonical_combineAssign _ _ hmax')
      (optimise_sign _) (optimise_sign _)
    rw [mag_xorAssign, mag_xorAssign, Nat.xor_comm]

theorem bitwise_sign_of_left_mixed :
    SignOfLeft andAssign ⟨false, [12, 5]⟩ ⟨true, [10]⟩ ∧
      SignOfLeft orAssign ⟨false, [12, 5]⟩ ⟨true, [10]⟩ ∧
      SignOfLeft xorAssign ⟨false, [12, 5]⟩ ⟨true, [10]⟩ :=
  bitwise_sign_of_left ⟨false, [12, 5]⟩ ⟨true, [10]⟩ ⟨by decide, by decide, by decide⟩
    ⟨by decide, by decide, by decide⟩

/-- `-1 & 1` is `-1` and `1 & -1` is `1`, and so with `|`; `-1 ^ 2` is `-3` and `2 ^ -1` is `3`. -/
theorem bitwise_not_commutative :
    Canonical ⟨false, [1]⟩ ∧ Canonical ⟨true, [1]⟩ ∧ Canonical ⟨true, [2]⟩ ∧
      equals (andAssign ⟨false, [1]⟩ ⟨true, [1]⟩) (andAssign ⟨true, [1]⟩ ⟨false, [1]⟩) = false ∧
      equals (orAssign ⟨false, [1]⟩ ⟨true, [1]⟩) (orAssign ⟨true, [1]⟩ ⟨false, [1]⟩) = false ∧
      equals (xorAssign ⟨false, [1]⟩ ⟨true, [2]⟩) (xorAssign ⟨true, [2]⟩ ⟨false, [1]⟩) = false :=
  ⟨⟨by decide, by decide, by decide⟩, ⟨by decide, by decide, by decide⟩,
    ⟨by decide, by decide, by decide⟩, by decide, by decide, by decide⟩

end BigInt

end MaiFaSp
