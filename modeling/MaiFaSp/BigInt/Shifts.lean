import MaiFaSp.BigInt.SumExact

/-!
# `big_int`: shifts by bits (`big_int.cpp:189-244`)

Both shifts move whole digits first and then bits, with a carry that goes up in `<<=` and
down in `>>=`. `<<=` is exact. `>>=` counts its digits with an `int` and casts the number of
digits to erase to `unsigned int`, so it is exact only below these sizes.
-/

namespace MaiFaSp.BigInt

/-- The carry loop of `operator>>=`, run over the digits from the highest down. -/
def shrLoop (bitShift : UInt64) : List UInt32 → List UInt32 × UInt64
  | [] => ([], 0)
  | d :: ds =>
    let rest := shrLoop bitShift ds
    let value := (rest.2 <<< 32) ||| d.toUInt64
    ((value >>> bitShift).toUInt32 :: rest.1, value &&& ((1 <<< bitShift) - 1))

/-- The loop reaches the digits below `static_cast<int>(size)`; those above stay. -/
def shrDigits (bitShift : UInt64) (ds : List UInt32) : List UInt32 :=
  (shrLoop bitShift (ds.take (scanLen ds.length))).1 ++ ds.drop (scanLen ds.length)

/-- `operator>>=`. The number of digits to erase is cast to `unsigned int`. -/
def shrAssign (x : BigInt) (shift : ℕ) : BigInt :=
  if shift = 0 ∨ x.isZero then x
  else
    let intShift := shift / 32
    let bitShift := shift % 32
    if intShift ≥ x.digits.length then optimise ⟨x.sign, [0]⟩
    else
      let ds := if intShift > 0 then x.digits.drop (intShift % 2 ^ 32) else x.digits
      optimise ⟨x.sign, if bitShift > 0 then shrDigits (UInt64.ofNat bitShift) ds else ds⟩

/-! ### The carry loop of `<<=` -/

theorem bitShift_toNat {b : ℕ} (hb : b < 32) : (UInt64.ofNat b).toNat = b := by
  rw [UInt64.toNat_ofNat']
  exact Nat.mod_eq_of_lt (by omega)

theorem shlValue_toNat {b : ℕ} (hb : b < 32) (d : UInt32) (carry : UInt64)
    (hc : carry.toNat < 2 ^ b) :
    ((d.toUInt64 <<< UInt64.ofNat b) ||| carry).toNat = d.toNat * 2 ^ b + carry.toNat := by
  have hd : d.toNat < 2 ^ 32 := d.toNat_lt
  have hpow : 2 ^ b ≤ 2 ^ 31 := Nat.pow_le_pow_right (by decide) (by omega)
  have hfit : d.toNat * 2 ^ b < 2 ^ 64 := by
    have hmul := Nat.mul_le_mul hd.le hpow
    omega
  rw [UInt64.toNat_or, UInt64.toNat_shiftLeft, UInt32.toNat_toUInt64, bitShift_toNat hb,
    Nat.mod_eq_of_lt (a := b) (by omega), Nat.shiftLeft_eq, Nat.mod_eq_of_lt hfit,
    ← Nat.shiftLeft_eq, Nat.shiftLeft_add_eq_or_of_lt hc]

theorem mag_shlLoop {b : ℕ} (hb : b < 32) (ds : List UInt32) (carry : UInt64)
    (hc : carry.toNat < 2 ^ b) :
    mag (shlLoop (UInt64.ofNat b) ds carry).1 +
        BASE ^ ds.length * (shlLoop (UInt64.ofNat b) ds carry).2.toNat =
      mag ds * 2 ^ b + carry.toNat ∧
    (shlLoop (UInt64.ofNat b) ds carry).2.toNat < 2 ^ b := by
  induction ds generalizing carry with
  | nil => exact ⟨by simp [shlLoop], hc⟩
  | cons d ds ih =>
    have hvalue := shlValue_toNat hb d carry hc
    have hsplit := lowDigit_add_carry ((d.toUInt64 <<< UInt64.ofNat b) ||| carry)
    unfold shlLoop
    generalize (d.toUInt64 <<< UInt64.ofNat b) ||| carry = value at hvalue hsplit ⊢
    have hnext : (value / base64).toNat < 2 ^ b := by
      have hd := digit_lt d
      rw [carry_toNat, hvalue, Nat.div_lt_iff_lt_mul BASE_pos]
      calc
        d.toNat * 2 ^ b + carry.toNat < (d.toNat + 1) * 2 ^ b := by
          rw [Nat.add_mul, Nat.one_mul]
          omega
        _ ≤ BASE * 2 ^ b := Nat.mul_le_mul_right _ hd
        _ = 2 ^ b * BASE := Nat.mul_comm _ _
    obtain ⟨hmag, hlt⟩ := ih (value / base64) hnext
    refine ⟨?_, hlt⟩
    dsimp only
    rw [mag_cons, mag_cons, List.length_cons, pow_succ']
    linear_combination BASE * hmag + hsplit + hvalue

theorem two_pow_shift (s : ℕ) : 2 ^ s = BASE ^ (s / 32) * 2 ^ (s % 32) := by
  rw [BASE, ← pow_mul, ← pow_add, Nat.div_add_mod]

theorem mag_shlAssign (x : BigInt) (s : ℕ) : mag (shlAssign x s).digits = mag x.digits * 2 ^ s := by
  unfold shlAssign
  split
  case isTrue h =>
    rcases h with rfl | hz
    · simp
    · rw [mag_eq_zero_of_isZero x hz, Nat.zero_mul]
  case isFalse h =>
    have hpad : mag (List.replicate (s / 32) 0 ++ x.digits) = BASE ^ (s / 32) * mag x.digits := by
      rw [mag_append, mag_replicate_zero, List.length_replicate, Nat.zero_add]
    rw [mag_optimise, two_pow_shift s]
    dsimp only
    split
    case isTrue hb =>
      have hlt : s % 32 < 32 := Nat.mod_lt _ (by decide)
      obtain ⟨hmag, hcarry⟩ := mag_shlLoop hlt (List.replicate (s / 32) 0 ++ x.digits) 0
        (Nat.two_pow_pos _)
      have hsmall : 2 ^ (s % 32) ≤ BASE := Nat.pow_le_pow_right (by decide) hlt.le
      rw [mag_pushCarry _ (hcarry.trans_le hsmall), shlLoop_length, hmag, hpad]
      rw [UInt64.toNat_zero]
      ring
    case isFalse hb =>
      have h0 : s % 32 = 0 := by omega
      rw [hpad, h0, pow_zero, Nat.mul_one, Nat.mul_comm]

theorem optimise_nonempty {x : BigInt} (h : x.optimise.digits ≠ []) : x.digits ≠ [] := by
  have hlen := optimise_length_le x
  have hpos := List.length_pos_of_ne_nil h
  exact List.ne_nil_of_length_pos (by omega)

theorem toInt_optimise_of_mag {s : Bool} {ds : List UInt32} {n : ℕ}
    (h : mag (optimise ⟨s, ds⟩).digits = n) : (optimise ⟨s, ds⟩).toInt = signum s * n := by
  rw [mag_optimise] at h
  rw [toInt_optimise, toInt_eq, h]

/-- `x <<= s` is canonical and exact. -/
theorem shlAssign_exact {x : BigInt} (hx : Canonical x) (s : ℕ) :
    Canonical (shlAssign x s) ∧ (shlAssign x s).toInt = x.toInt * 2 ^ s := by
  by_cases h : s = 0 ∨ x.isZero = true
  · have hsame : shlAssign x s = x := if_pos h
    rw [hsame]
    refine ⟨hx, ?_⟩
    rcases h with rfl | hz
    · simp
    · rw [toInt_eq, mag_eq_zero_of_isZero x hz]
      simp
  · obtain ⟨ds, hds⟩ : ∃ ds, shlAssign x s = optimise ⟨x.sign, ds⟩ := ⟨_, if_neg h⟩
    have hmag := mag_shlAssign x s
    have hne := shlAssign_nonempty x s hx.nonempty
    rw [hds] at hmag hne ⊢
    refine ⟨canonical_optimise _ (optimise_nonempty hne), ?_⟩
    rw [toInt_optimise_of_mag hmag, toInt_eq]
    push_cast
    ring

/-! ### The carry loop of `>>=` -/

theorem shrValue_toNat {b : ℕ} (hb : b < 32) (carry : UInt64) (d : UInt32)
    (hc : carry.toNat < 2 ^ b) :
    ((carry <<< 32) ||| d.toUInt64).toNat = carry.toNat * BASE + d.toNat := by
  have hd : d.toNat < 2 ^ 32 := d.toNat_lt
  have hpow : 2 ^ b ≤ 2 ^ 31 := Nat.pow_le_pow_right (by decide) (by omega)
  have hfit : carry.toNat * 2 ^ 32 < 2 ^ 64 := by omega
  rw [UInt64.toNat_or, UInt64.toNat_shiftLeft, UInt32.toNat_toUInt64]
  show ((carry.toNat <<< 32) % 2 ^ 64) ||| d.toNat = carry.toNat * 2 ^ 32 + d.toNat
  rw [Nat.shiftLeft_eq, Nat.mod_eq_of_lt hfit, ← Nat.shiftLeft_eq,
    Nat.shiftLeft_add_eq_or_of_lt hd]

theorem shrDigit_toNat {b : ℕ} (hb : b < 32) (value : UInt64) :
    ((value >>> UInt64.ofNat b).toUInt32).toNat = value.toNat / 2 ^ b % BASE := by
  rw [UInt64.toNat_toUInt32, UInt64.toNat_shiftRight, bitShift_toNat hb,
    Nat.mod_eq_of_lt (a := b) (by omega), Nat.shiftRight_eq_div_pow]
  rfl

theorem shrCarry_toNat {b : ℕ} (hb : b < 32) (value : UInt64) :
    (value &&& ((1 <<< UInt64.ofNat b) - 1)).toNat = value.toNat % 2 ^ b := by
  have hpow : 2 ^ b ≤ 2 ^ 31 := Nat.pow_le_pow_right (by decide) (by omega)
  have hpos := Nat.two_pow_pos b
  have hone : ((1 : UInt64) <<< UInt64.ofNat b).toNat = 2 ^ b := by
    rw [UInt64.toNat_shiftLeft, bitShift_toNat hb, Nat.mod_eq_of_lt (a := b) (by omega),
      Nat.shiftLeft_eq]
    show 1 * 2 ^ b % 2 ^ 64 = 2 ^ b
    omega
  have hle : (1 : UInt64) ≤ 1 <<< UInt64.ofNat b := by
    rw [UInt64.le_iff_toNat_le, hone]
    exact hpos
  rw [UInt64.toNat_and, UInt64.toNat_sub_of_le _ _ hle, hone]
  exact Nat.and_two_pow_sub_one_eq_mod _ _

/-- The loop over all digits divides; the carry out of it is the remainder. -/
theorem mag_shrLoop {b : ℕ} (hb : b < 32) (ds : List UInt32) :
    mag (shrLoop (UInt64.ofNat b) ds).1 = mag ds / 2 ^ b ∧
      (shrLoop (UInt64.ofNat b) ds).2.toNat = mag ds % 2 ^ b := by
  induction ds with
  | nil => simp [shrLoop]
  | cons d ds ih =>
    obtain ⟨hmag, hcarry⟩ := ih
    have hpos := Nat.two_pow_pos b
    have hlt : (shrLoop (UInt64.ofNat b) ds).2.toNat < 2 ^ b := by
      rw [hcarry]
      exact Nat.mod_lt _ hpos
    have hvalue := shrValue_toNat hb (shrLoop (UInt64.ofNat b) ds).2 d hlt
    unfold shrLoop
    dsimp only
    rw [mag_cons, mag_cons, shrDigit_toNat hb, shrCarry_toNat hb, hvalue, hmag]
    have hsplit : d.toNat + BASE * mag ds =
        ((shrLoop (UInt64.ofNat b) ds).2.toNat * BASE + d.toNat) +
          2 ^ b * (BASE * (mag ds / 2 ^ b)) := by
      have hdiv := Nat.mod_add_div (mag ds) (2 ^ b)
      rw [← hcarry] at hdiv
      linear_combination BASE * hdiv.symm
    have hd := digit_lt d
    have hfit : ((shrLoop (UInt64.ofNat b) ds).2.toNat * BASE + d.toNat) / 2 ^ b < BASE := by
      rw [Nat.div_lt_iff_lt_mul hpos]
      calc
        _ < ((shrLoop (UInt64.ofNat b) ds).2.toNat + 1) * BASE := by
          rw [Nat.add_mul, Nat.one_mul]
          omega
        _ ≤ 2 ^ b * BASE := Nat.mul_le_mul_right _ hlt
        _ = BASE * 2 ^ b := Nat.mul_comm _ _
    rw [hsplit, Nat.add_mul_div_left _ _ hpos, Nat.add_mul_mod_self_left, Nat.mod_eq_of_lt hfit]
    exact ⟨rfl, rfl⟩

theorem shrLoop_length (bitShift : UInt64) (ds : List UInt32) :
    (shrLoop bitShift ds).1.length = ds.length := by
  induction ds with
  | nil => rfl
  | cons d ds ih => rw [shrLoop, List.length_cons, List.length_cons, ih]

theorem mag_shrDigits {b : ℕ} (hb : b < 32) (ds : List UInt32) :
    mag (shrDigits (UInt64.ofNat b) ds) =
      mag (ds.take (scanLen ds.length)) / 2 ^ b +
        BASE ^ scanLen ds.length * mag (ds.drop (scanLen ds.length)) := by
  unfold shrDigits
  rw [mag_append, shrLoop_length, (mag_shrLoop hb _).1, List.length_take,
    Nat.min_eq_left (scanLen_le _)]

end MaiFaSp.BigInt
