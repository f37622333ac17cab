import MaiFaSp.BigInt.Modulo
import MaiFaSp.Lib.DecimalText

/-!
# `big_int`: conversion from and to strings (`big_int.cpp:23-100, 253-268`)

The constructor multiplies the digits read so far by the radix and adds the next digit,
one row of carries for each character. `to_string` takes the last decimal digit with `%`
and goes on with the quotient. A string is the list of its characters.
-/

namespace MaiFaSp

inductive ParseFault where
  | invalidArgument (what : String)
  deriving Repr, DecidableEq

namespace BigInt

/-! ### `big_int(const std::string &num, unsigned radix)` -/

/-- The lambda of `is_valid_digit`. -/
def digitOf (c : Char) : ℤ :=
  if '0' ≤ c ∧ c ≤ '9' then c.toNat - '0'.toNat
  else if 'A' ≤ c ∧ c ≤ 'Z' then c.toNat - 'A'.toNat + 10
  else if 'a' ≤ c ∧ c ≤ 'z' then c.toNat - 'a'.toNat + 10
  else -1

def isValidDigit (c : Char) (radix : UInt32) : Bool :=
  0 ≤ digitOf c ∧ (digitOf c).toNat < radix.toNat

def charToValue (c : Char) : Except ParseFault UInt32 :=
  if '0' ≤ c ∧ c ≤ '9' then pure (UInt32.ofNat (c.toNat - '0'.toNat))
  else if 'A' ≤ c ∧ c ≤ 'Z' then pure (UInt32.ofNat (10 + c.toNat - 'A'.toNat))
  else if 'a' ≤ c ∧ c ≤ 'z' then pure (UInt32.ofNat (10 + c.toNat - 'a'.toNat))
  else throw (.invalidArgument ("Invalid character: " ++ String.singleton c))

/-- `while (start < num_view.size() - 1 && num_view[start] == '0') ++start;` -/
def skipZeros : List Char → List Char
  | [] => []
  | c :: cs => if cs ≠ [] ∧ c = '0' then skipZeros cs else c :: cs

/-- The loop over `_digits`: the new digits and the carry out of them. -/
def hornerRow (radix : UInt32) : List UInt32 → UInt32 → List UInt32 × UInt32
  | [], carry => ([], carry)
  | d :: ds, carry =>
    let product := d.toUInt64 * radix.toUInt64 + carry.toUInt64
    let rest := hornerRow radix ds (product >>> 32).toUInt32
    ((product &&& 4294967295).toUInt32 :: rest.1, rest.2)

/-- One character's turn, for a digit that was accepted. -/
def pushDigit (radix : UInt32) (digits : List UInt32) (digit : UInt32) : List UInt32 :=
  let row := hornerRow radix digits digit
  if row.2 > 0 then row.1 ++ [row.2] else row.1

/-- The loop over `num_view`. -/
def readDigits (radix : UInt32) : List Char → List UInt32 → Except ParseFault (List UInt32)
  | [], digits => pure digits
  | c :: cs, digits =>
    if isValidDigit c radix then do
      let digit ← charToValue c
      readDigits radix cs (pushDigit radix digits digit)
    else throw (.invalidArgument ("Invalid character '" ++ String.singleton c ++ "' for radix " ++
      Nat.repr radix.toNat))

def ofString (num : List Char) (radix : UInt32) : Except ParseFault BigInt :=
  if radix < 2 ∨ radix > 36 then throw (.invalidArgument "Radix must be between 2 and 36")
  else match num with
    | [] => pure ⟨true, [0]⟩
    | c :: cs =>
      let view := skipZeros (if c = '-' ∨ c = '+' then cs else c :: cs)
      if view = [] ∨ view = ['0'] then pure ⟨true, [0]⟩
      else do
        let digits ← readDigits radix view []
        pure ⟨c ≠ '-', digits⟩

/-! ### `to_string` -/

/-- `'0' + val._digits[0]` as a `char`. -/
def decimalChar (val : BigInt) : Outcome Char :=
  match val.digits with
  | [] => throw .outOfBounds
  | d :: _ => pure (Char.ofNat (('0'.toNat + d.toNat) % 256))

/-- `while (tmp) { … }`, at most `turns` times; `none` when it has not ended by then. -/
def toStringLoop : ℕ → BigInt → List Char → Outcome (Option (List Char))
  | 0, tmp, res => pure (if tmp.isZero then some res else none)
  | turns + 1, tmp, res =>
    if tmp.isZero then pure (some res)
    else do
      let val ← moduloAssign tmp (ofNum 10)
      let c ← decimalChar val
      let tmp ← divideAssign tmp (ofNum 10)
      toStringLoop turns tmp (res ++ [c])

/-- `to_string`. The number gets smaller in every turn, so its magnitude bounds them. -/
def toString (x : BigInt) : Outcome (Option (List Char)) :=
  if x.isZero then pure (some ['0'])
  else do
    let res ← toStringLoop (mag x.digits + 1) { x with sign := true } []
    pure (res.map fun res => (if x.sign then res else res ++ ['-']).reverse)

/-! ### Rows of carries -/

theorem lowWord_toNat (v : UInt64) : (v &&& 4294967295).toUInt32.toNat = v.toNat % BASE := by
  rw [UInt64.toNat_toUInt32, UInt64.toNat_and]
  show (v.toNat &&& (2 ^ 32 - 1)) % 2 ^ 32 = v.toNat % 2 ^ 32
  rw [Nat.and_two_pow_sub_one_eq_mod, Nat.mod_mod]

theorem highWord_toNat (v : UInt64) : (v >>> 32).toUInt32.toNat = v.toNat / BASE := by
  rw [UInt64.toNat_toUInt32, UInt64.toNat_shiftRight]
  show (v.toNat >>> 32) % 2 ^ 32 = v.toNat / 2 ^ 32
  have hv : v.toNat < 2 ^ 64 := v.toNat_lt
  rw [Nat.shiftRight_eq_div_pow]
  omega

theorem product_toNat (d radix carry : UInt32) :
    (d.toUInt64 * radix.toUInt64 + carry.toUInt64).toNat =
      d.toNat * radix.toNat + carry.toNat := by
  have hd : d.toNat ≤ 2 ^ 32 - 1 := by
    have := d.toNat_lt
    omega
  have hr : radix.toNat ≤ 2 ^ 32 - 1 := by
    have := radix.toNat_lt
    omega
  have hc := carry.toNat_lt
  have hm := Nat.mul_le_mul hd hr
  rw [UInt64.toNat_add, UInt64.toNat_mul, UInt32.toNat_toUInt64, UInt32.toNat_toUInt64,
    UInt32.toNat_toUInt64]
  omega

theorem hornerRow_spec (radix : UInt32) (ds : List UInt32) (carry : UInt32) :
    (hornerRow radix ds carry).1.length = ds.length ∧
      mag (hornerRow radix ds carry).1 + BASE ^ ds.length * (hornerRow radix ds carry).2.toNat =
        mag ds * radix.toNat + carry.toNat := by
  induction ds generalizing carry with
  | nil => simp [hornerRow]
  | cons d ds ih =>
    unfold hornerRow
    have hprod := product_toNat d radix carry
    generalize d.toUInt64 * radix.toUInt64 + carry.toUInt64 = product at hprod
    obtain ⟨hlen, hmag⟩ := ih (product >>> 32).toUInt32
    refine ⟨?_, ?_⟩
    · rw [List.length_cons, List.length_cons, hlen]
    · rw [highWord_toNat] at hmag
      rw [mag_cons, mag_cons, lowWord_toNat, List.length_cons, pow_succ']
      have hdm := Nat.mod_add_div product.toNat BASE
      linear_combination BASE * hmag + hdm + hprod

/-! ### The digits read -/

theorem pow_le_of_getLast {ds : List UInt32} (hne : ds ≠ []) (h : ds.getLast? ≠ some 0) :
    BASE ^ (ds.length - 1) ≤ mag ds := by
  have hlast : (ds.getLast hne).toNat ≠ 0 := by
    intro h0
    apply h
    rw [List.getLast?_eq_some_getLast hne]
    exact congrArg some (UInt32.toNat_inj.mp h0)
  have hsplit := congrArg mag (List.dropLast_append_getLast hne)
  rw [mag_append, mag_cons, mag_nil, List.length_dropLast, Nat.mul_zero, Nat.add_zero] at hsplit
  have hone : BASE ^ (ds.length - 1) * 1 ≤ BASE ^ (ds.length - 1) * (ds.getLast hne).toNat :=
    Nat.mul_le_mul_left _ (Nat.pos_of_ne_zero hlast)
  omega

theorem getLast_of_pow_le {ds : List UInt32} (h : BASE ^ (ds.length - 1) ≤ mag ds) :
    ds.getLast? ≠ some 0 := by
  intro h0
  have hlt := mag_lt ds.dropLast
  rw [mag_dropLast_of_zero ds h0, List.length_dropLast] at hlt
  omega

/-- The digits never end in a zero, whatever the radix. -/
theorem pushDigit_spec {radix : UInt32} (hr : 0 < radix.toNat) {ds : List UInt32}
    (h : ds.getLast? ≠ some 0) (digit : UInt32) :
    mag (pushDigit radix ds digit) = mag ds * radix.toNat + digit.toNat ∧
      (pushDigit radix ds digit).getLast? ≠ some 0 := by
  obtain ⟨hlen, hmag⟩ := hornerRow_spec radix ds digit
  unfold pushDigit
  generalize hornerRow radix ds digit = row at hlen hmag ⊢
  dsimp only
  split
  case isTrue hc =>
    refine ⟨?_, ?_⟩
    · rw [mag_append, mag_cons, mag_nil, hlen, Nat.mul_zero, Nat.add_zero]
      exact hmag
    · rw [List.getLast?_append, List.getLast?_singleton, Option.some_or]
      intro h0
      rw [Option.some.injEq] at h0
      rw [h0] at hc
      exact absurd hc (by decide)
  case isFalse hc =>
    have hzero : row.2.toNat = 0 := by
      have hn := mt UInt32.lt_iff_toNat_lt.mpr hc
      exact Nat.le_zero.mp (Nat.le_of_not_lt hn)
    rw [hzero, Nat.mul_zero, Nat.add_zero] at hmag
    refine ⟨hmag, ?_⟩
    by_cases hds : ds = []
    · rw [hds, List.length_nil, List.length_eq_zero_iff] at hlen
      rw [hlen]
      exact nofun
    · refine getLast_of_pow_le ?_
      rw [hlen, hmag]
      have hpow := pow_le_of_getLast hds h
      have hmul : mag ds * 1 ≤ mag ds * radix.toNat := Nat.mul_le_mul_left _ hr
      omega

open DecimalText in
theorem skipZeros_eq {cs : List Char} (h : cs ≠ []) : skipZeros cs = stripZeros cs := by
  induction cs with
  | nil => exact absurd rfl h
  | cons c cs ih =>
    unfold skipZeros stripZeros
    by_cases hc : c = '0'
    · rw [List.dropWhile_cons_of_pos (by simpa using hc)]
      by_cases hcs : cs = []
      · rw [if_neg (fun hn => hn.1 hcs), hcs, hc]
        rfl
      · rw [if_pos ⟨hcs, hc⟩, ih hcs]
        rfl
    · rw [List.dropWhile_cons_of_neg (by simpa using hc), if_neg (fun hn => hc hn.2)]

end BigInt

end MaiFaSp
