import MaiFaSp.Lib.Limbs
import Mathlib.Tactic.Linarith

/-!
# `big_int`: digits, value and canonical form (`big_int.h`, `big_int.cpp:9-21`)

A `big_int` is a sign flag and a little-endian vector of 32-bit digits. Its
value is read off with `mag` and `toInt`; `optimise` drops leading zero digits
and gives zero the positive sign, and a canonical number is one that
`optimise` leaves alone.
-/

namespace MaiFaSp

/-- `BASE = 1ULL << 32` (`big_int.h`). -/
def BASE : ℕ := 2 ^ 32

theorem one_lt_BASE : 1 < BASE := by decide

theorem BASE_pos : 0 < BASE := by decide

/-- `class big_int`: `_sign` is true for `+`, `_digits` is little-endian. -/
structure BigInt where
  sign : Bool
  digits : List UInt32
  deriving Repr, DecidableEq

/-! ### Value of a digit vector -/

def mag (ds : List UInt32) : ℕ := Nat.ofDigits BASE (ds.map UInt32.toNat)

@[simp] theorem mag_nil : mag [] = 0 := rfl

@[simp] theorem mag_cons (d : UInt32) (ds : List UInt32) :
    mag (d :: ds) = d.toNat + BASE * mag ds := by
  simp only [mag, List.map_cons, Nat.ofDigits_cons]

theorem mag_append (xs ys : List UInt32) :
    mag (xs ++ ys) = mag xs + BASE ^ xs.length * mag ys := by
  simp only [mag, List.map_append, Nat.ofDigits_append, List.length_map]

theorem mag_replicate_zero (n : ℕ) : mag (List.replicate n 0) = 0 := by
  simp only [mag, List.map_replicate]
  exact Nat.ofDigits_replicate_zero

theorem digit_lt (d : UInt32) : d.toNat < BASE := d.toNat_lt

theorem map_toNat_lt (ds : List UInt32) : ∀ d ∈ ds.map UInt32.toNat, d < BASE := by
  intro d hd
  obtain ⟨w, -, rfl⟩ := List.mem_map.mp hd
  exact digit_lt w

theorem getD_map_toNat (ds : List UInt32) (i : ℕ) :
    (ds.map UInt32.toNat).getD i 0 = (ds.getD i 0).toNat := by
  simp only [List.getD_eq_getElem?_getD, List.getElem?_map]
  cases ds[i]? <;> rfl

theorem mag_lt (ds : List UInt32) : mag ds < BASE ^ ds.length := by
  have h := Nat.ofDigits_lt_base_pow_length one_lt_BASE (map_toNat_lt ds)
  simpa only [mag, List.length_map] using h

theorem mag_drop (ds : List UInt32) (i : ℕ) :
    mag (ds.drop i) = (ds.getD i 0).toNat + BASE * mag (ds.drop (i + 1)) := by
  have h := Limbs.ofDigits_drop (b := BASE) (ds.map UInt32.toNat) i
  rw [getD_map_toNat] at h
  simpa only [mag, List.map_drop] using h

theorem mag_take_add (ds : List UInt32) (k : ℕ) :
    mag (ds.take k) + BASE ^ k * mag (ds.drop k) = mag ds := by
  have h := Limbs.ofDigits_take_add (b := BASE) (ds.map UInt32.toNat) k
  simpa only [mag, List.map_take, List.map_drop] using h

theorem mag_take_succ (ds : List UInt32) (k : ℕ) (hk : k < ds.length) :
    mag (ds.take (k + 1)) = mag (ds.take k) + BASE ^ k * (ds.getD k 0).toNat := by
  have h := Limbs.ofDigits_take_succ (b := BASE) (ds.map UInt32.toNat) k (by simpa using hk)
  rw [getD_map_toNat] at h
  simpa only [mag, List.map_take] using h

theorem mag_take_lt (ds : List UInt32) (k : ℕ) : mag (ds.take k) < BASE ^ k := by
  have h := Limbs.ofDigits_take_lt one_lt_BASE _ (map_toNat_lt ds) k
  simpa only [mag, List.map_take] using h

theorem mag_injective (xs ys : List UInt32) (hl : xs.length = ys.length)
    (h : mag xs = mag ys) : xs = ys := by
  have hm : xs.map UInt32.toNat = ys.map UInt32.toNat :=
    Nat.ofDigits_inj_of_len_eq one_lt_BASE (by simpa using hl) (map_toNat_lt xs)
      (map_toNat_lt ys) h
  exact List.map_injective_iff.mpr (fun _ _ => UInt32.toNat_inj.mp) hm

/-! ### `optimise` -/

namespace BigInt

/-- `is_zero`. -/
def isZero (x : BigInt) : Bool := x.digits.length = 1 ∧ x.digits.getD 0 0 = 0

/-- `while (_digits.size() > 1 && _digits.back() == 0) _digits.pop_back();`
The vector shrinks in every turn, so its length bounds the number of turns. -/
def popZeros : ℕ → List UInt32 → List UInt32
  | 0, ds => ds
  | n + 1, ds =>
    if 1 < ds.length ∧ ds.getLast? = some 0 then popZeros n ds.dropLast else ds

/-- `optimise` (`big_int.cpp:14-21`). -/
def optimise (x : BigInt) : BigInt :=
  let ds := popZeros x.digits.length x.digits
  let y : BigInt := ⟨x.sign, ds⟩
  if y.isZero then ⟨true, ds⟩ else y

/-- The integer a `big_int` stands for. -/
def toInt (x : BigInt) : ℤ := if x.sign then (mag x.digits : ℤ) else -(mag x.digits : ℤ)

/-- No leading zero digit except for zero itself, and zero has the positive sign. -/
structure Canonical (x : BigInt) : Prop where
  nonempty : x.digits ≠ []
  noLeadingZero : 1 < x.digits.length → x.digits.getLast? ≠ some 0
  zeroPositive : x.isZero → x.sign = true

theorem mag_dropLast_of_zero (ds : List UInt32) (h : ds.getLast? = some 0) :
    mag ds.dropLast = mag ds := by
  have hd := List.dropLast_append_getLast? 0 h
  conv_rhs => rw [← hd]
  rw [mag_append]
  simp

theorem mag_popZeros (n : ℕ) (ds : List UInt32) : mag (popZeros n ds) = mag ds := by
  induction n generalizing ds with
  | zero => rfl
  | succ n ih =>
    rw [popZeros]
    split
    case isTrue h => rw [ih, mag_dropLast_of_zero ds h.2]
    case isFalse h => rfl

theorem popZeros_length_le (n : ℕ) (ds : List UInt32) :
    (popZeros n ds).length ≤ ds.length := by
  induction n generalizing ds with
  | zero => exact le_rfl
  | succ n ih =>
    rw [popZeros]
    split
    case isTrue h =>
      have hi := ih ds.dropLast
      rw [List.length_dropLast] at hi
      omega
    case isFalse h => exact le_rfl

theorem popZeros_ne_nil (n : ℕ) (ds : List UInt32) (h : ds ≠ []) : popZeros n ds ≠ [] := by
  induction n generalizing ds with
  | zero => exact h
  | succ n ih =>
    rw [popZeros]
    split
    case isTrue hz =>
      refine ih _ (List.ne_nil_of_length_pos ?_)
      rw [List.length_dropLast]
      omega
    case isFalse hz => exact h

theorem popZeros_last (n : ℕ) (ds : List UInt32) (hn : ds.length ≤ n)
    (h : 1 < (popZeros n ds).length) : (popZeros n ds).getLast? ≠ some 0 := by
  induction n generalizing ds with
  | zero =>
    simp only [popZeros] at h
    omega
  | succ n ih =>
    rw [popZeros] at h ⊢
    split
    case isTrue hz =>
      rw [if_pos hz] at h
      refine ih _ ?_ h
      rw [List.length_dropLast]
      omega
    case isFalse hz =>
      rw [if_neg hz] at h
      exact fun hl => hz ⟨h, hl⟩

theorem optimise_digits (x : BigInt) :
    x.optimise.digits = popZeros x.digits.length x.digits := by
  simp only [optimise]
  split <;> rfl

@[simp] theorem mag_optimise (x : BigInt) : mag x.optimise.digits = mag x.digits := by
  rw [optimise_digits, mag_popZeros]

theorem optimise_length_le (x : BigInt) : x.optimise.digits.length ≤ x.digits.length := by
  rw [optimise_digits]
  exact popZeros_length_le _ _

theorem mag_eq_zero_of_isZero (x : BigInt) (h : x.isZero = true) : mag x.digits = 0 := by
  simp only [isZero, decide_eq_true_eq] at h
  obtain ⟨d, hd⟩ := List.length_eq_one_iff.mp h.1
  rw [hd] at h ⊢
  have h0 : d = 0 := h.2
  simp [h0]

@[simp] theorem toInt_optimise (x : BigInt) : x.optimise.toInt = x.toInt := by
  have hm := mag_optimise x
  by_cases hz : (⟨x.sign, popZeros x.digits.length x.digits⟩ : BigInt).isZero = true
  · have h0 := mag_eq_zero_of_isZero _ hz
    have hx : mag x.digits = 0 := by rw [← hm, optimise_digits]; exact h0
    simp [toInt, hm, hx]
  · have hs : x.optimise.sign = x.sign := by simp [optimise, hz]
    simp only [toInt, hm, hs]

theorem optimise_sign_true (x : BigInt) (h : x.sign = true) : x.optimise.sign = true := by
  simp only [optimise]
  split
  · rfl
  · exact h

theorem canonical_optimise (x : BigInt) (h : x.digits ≠ []) : Canonical x.optimise := by
  refine ⟨?_, ?_, ?_⟩
  · rw [optimise_digits]
    exact popZeros_ne_nil _ _ h
  · intro hl
    rw [optimise_digits] at hl ⊢
    exact popZeros_last _ _ le_rfl hl
  · intro hz
    have hd : x.optimise.digits = popZeros x.digits.length x.digits := optimise_digits x
    have hy : (⟨x.sign, popZeros x.digits.length x.digits⟩ : BigInt).isZero = true := by
      simpa only [isZero, hd] using hz
    simp [optimise, hy]

/-! ### What canonical form gives -/

theorem Canonical.length_pos {x : BigInt} (h : Canonical x) : 0 < x.digits.length :=
  List.length_pos_of_ne_nil h.nonempty

theorem Canonical.pow_le_mag {x : BigInt} (h : Canonical x) (k : ℕ)
    (hk : x.digits.length = k + 2) : BASE ^ (k + 1) ≤ mag x.digits := by
  have hlast := h.noLeadingZero (by omega)
  have ht : (x.digits.map UInt32.toNat).getD (k + 1) 0 ≠ 0 := by
    rw [getD_map_toNat]
    intro h0
    apply hlast
    rw [List.getLast?_eq_getElem?, hk, Nat.add_sub_cancel_right (k + 1) 1]
    rw [List.getD_eq_getElem _ _ (by omega)] at h0
    rw [List.getElem?_eq_getElem (by omega)]
    exact congrArg some (UInt32.toNat_inj.mp h0)
  exact Limbs.pow_le_ofDigits _ (k + 1) (by simpa using hk) ht

theorem Canonical.mag_lt_of_length_lt {x y : BigInt} (hx : Canonical x) (hy : Canonical y)
    (h : x.digits.length < y.digits.length) : mag x.digits < mag y.digits := by
  have hp := hx.length_pos
  obtain ⟨k, hk⟩ : ∃ k, y.digits.length = k + 2 := ⟨y.digits.length - 2, by omega⟩
  have hy' := hy.pow_le_mag k hk
  have hx' := mag_lt x.digits
  have hmono : BASE ^ x.digits.length ≤ BASE ^ (k + 1) :=
    Nat.pow_le_pow_right BASE_pos (by omega)
  omega

theorem Canonical.digits_eq {x y : BigInt} (hx : Canonical x) (hy : Canonical y)
    (h : mag x.digits = mag y.digits) : x.digits = y.digits := by
  rcases Nat.lt_trichotomy x.digits.length y.digits.length with hlt | heq | hgt
  · have := hx.mag_lt_of_length_lt hy hlt
    omega
  · exact mag_injective _ _ heq h
  · have := hy.mag_lt_of_length_lt hx hgt
    omega

theorem Canonical.isZero_iff {x : BigInt} (hx : Canonical x) :
    x.isZero = true ↔ mag x.digits = 0 := by
  refine ⟨mag_eq_zero_of_isZero x, fun h => ?_⟩
  have hz : Canonical (⟨true, [0]⟩ : BigInt) := ⟨by simp, by simp, by simp⟩
  have hd : x.digits = [0] := hx.digits_eq hz (by simpa using h)
  simp [isZero, hd]

theorem Canonical.ext {x y : BigInt} (hx : Canonical x) (hy : Canonical y)
    (h : x.toInt = y.toInt) : x = y := by
  have hm : mag x.digits = mag y.digits := by
    simp only [toInt] at h
    split at h <;> split at h <;> omega
  have hd := hx.digits_eq hy hm
  have hs : x.sign = y.sign := by
    by_cases h0 : mag x.digits = 0
    · rw [hx.zeroPositive (hx.isZero_iff.mpr h0),
        hy.zeroPositive (hy.isZero_iff.mpr (hm ▸ h0))]
    · simp only [toInt] at h
      cases hxs : x.sign <;> cases hys : y.sign <;> simp [hxs, hys] at h ⊢ <;> omega
  cases x
  cases y
  simp_all

theorem toInt_of_sign {x : BigInt} (h : x.sign = true) : x.toInt = mag x.digits := by
  rw [toInt, if_pos h]

theorem natAbs_toInt (x : BigInt) : x.toInt.natAbs = mag x.digits := by
  cases hs : x.sign <;> simp [toInt, hs]

theorem Canonical.sign_of_nonneg {x : BigInt} (hx : Canonical x) (h : 0 ≤ x.toInt) :
    x.sign = true := by
  by_contra hs
  rw [toInt, if_neg hs] at h
  exact hs (hx.zeroPositive (hx.isZero_iff.mpr (by omega)))

/-- The number of digits of a canonical number, from bounds on its value. -/
theorem Canonical.length_le {x : BigInt} (hx : Canonical x) (n : ℕ) (hn : 0 < n)
    (h : mag x.digits < BASE ^ n) : x.digits.length ≤ n := by
  by_contra hlt
  obtain ⟨k, hk⟩ : ∃ k, x.digits.length = k + 2 := ⟨x.digits.length - 2, by omega⟩
  have hp := hx.pow_le_mag k hk
  have hmono : BASE ^ n ≤ BASE ^ (k + 1) := Nat.pow_le_pow_right BASE_pos (by omega)
  omega

end BigInt

end MaiFaSp
