import MaiFaSp.Lib.DecimalText
import Mathlib.Data.Set.Insert
import Mathlib.Tactic

/-!
# The argument of the room (`main.c:26-79`)

`StringToInt` reads the numeral that the program gets as its argument. It compares the number read
so far with `INT_MAX / 10` before it appends a digit, so two numbers above `int` and one below it
pass and are narrowed.
-/

namespace MaiFaSp.SharedRoom

open DecimalText

inductive Fault where
  | indexOverflow
  deriving Repr, DecidableEq

def INT_MAX : ℕ := 2 ^ 31 - 1

def tolower (c : Char) : ℕ := if 'A' ≤ c ∧ c ≤ 'Z' then c.toNat + 32 else c.toNat

def charValue (c : Char) : Option ℕ :=
  if '0' ≤ c ∧ c ≤ '9' then some (c.toNat - '0'.toNat)
  else if ('A' ≤ c ∧ c ≤ 'Z') ∨ ('a' ≤ c ∧ c ≤ 'z') then some (10 + tolower c - 'a'.toNat)
  else none

/-- Where the digits begin. -/
def start (str : List Char) : ℕ := if str.head? = some '-' then 1 else 0

def sign (str : List Char) : ℤ := if str.head? = some '-' then -1 else 1

/-- The loop of `CheckNumber` from an index on, over the characters from there. The index is an
`int`, which `i++` may overflow. -/
def checkLoop (osn : ℕ) : ℕ → List Char → Except Fault Bool
  | _, [] => .ok true
  | i, c :: cs =>
    match charValue c with
    | none => .ok false
    | some res =>
      if osn ≤ res then .ok false
      else if i = INT_MAX then .error .indexOverflow
      else checkLoop osn (i + 1) cs

def checkNumber (number : List Char) (osn : ℕ) : Except Fault Bool :=
  if number.head? = some '-' ∧ number.length = 1 then .ok false
  else checkLoop osn (start number) (number.drop (start number))

/-- The loop of `StringToInt` from an index on; `none` when it returns 1. -/
def readLoop (osn : ℕ) : ℕ → ℕ → List Char → Except Fault (Option ℕ)
  | _, result, [] => .ok (some result)
  | i, result, c :: cs =>
    if '0' ≤ c ∧ c ≤ '9' then
      if INT_MAX / osn < result then .ok none
      else if i = INT_MAX then .error .indexOverflow
      else readLoop osn (i + 1) (result * osn + (c.toNat - '0'.toNat)) cs
    else .ok none

/-- `StringToInt`: the value of `*res`, or `none` when it returns 1. -/
def stringToInt (str : List Char) : Except Fault (Option ℤ) := do
  let osn := 10
  if ← checkNumber str osn then
    match ← readLoop osn (start str) 0 (str.drop (start str)) with
    | none => return none
    | some result => return some (Int.bmod (result * sign str) (2 ^ 32))
  else return none

/-- An optional minus sign and at least one digit, with the number they stand for. -/
def Numeral (str : List Char) (v : ℤ) : Prop :=
  ∃ digits : List Char, Digits digits ∧ digits ≠ [] ∧
    ((str = digits ∧ v = valueOf digits) ∨ (str = '-' :: digits ∧ v = -valueOf digits))

/-- As many digits as there are values of an index, but for the sign. -/
def Overlong (str : List Char) : Prop :=
  2 ^ 31 ≤ str.length ∧ Digits ((str.take (2 ^ 31)).drop (start str))

instance (str : List Char) : Decidable (Overlong str) := inferInstanceAs (Decidable (_ ∧ _))

variable {str cs : List Char} {c : Char} {i n : ℕ} {v : ℤ}

/-! ### The characters -/

theorem charValue_digit (h : c.isDigit = true) : ∃ d, charValue c = some d ∧ d < 10 := by
  have hc := (isDigit_iff c).mp h
  refine ⟨c.toNat - '0'.toNat, by simp only [charValue, between_zero_nine, h, if_true], ?_⟩
  change c.toNat - 48 < 10
  omega

theorem charValue_not_digit (h : ¬ c.isDigit = true) (d : ℕ) (hd : charValue c = some d) :
    10 ≤ d := by
  have hlower : 'a' ≤ c → 97 ≤ c.toNat := id
  have hupper : 'A' ≤ c → 65 ≤ c.toNat := id
  have ha : 'a'.toNat = 97 := rfl
  rw [charValue, if_neg (mt (between_zero_nine c).mp h)] at hd
  unfold tolower at hd
  split_ifs at hd with hletter hcapital
  · have hle := hupper hcapital.1
    simp only [Option.some.injEq] at hd
    omega
  · have hle := hlower (hletter.resolve_left hcapital).1
    simp only [Option.some.injEq] at hd
    omega

theorem digits_cons_iff : Digits (c :: cs) ↔ c.isDigit = true ∧ Digits cs := List.forall_mem_cons

theorem checkLoop_not_digit (h : ¬ c.isDigit = true) : checkLoop 10 i (c :: cs) = .ok false := by
  unfold checkLoop
  cases hd : charValue c with
  | none => rfl
  | some d => exact if_pos (charValue_not_digit h d hd)

/-- The loop ends at the first character that is no digit, unless the index runs out before. -/
theorem checkLoop_eq (cs : List Char) (i n : ℕ) (hn : i + n = INT_MAX) :
    checkLoop 10 i cs =
      if Digits (cs.take (n + 1)) ∧ n + 1 ≤ cs.length then .error .indexOverflow
      else .ok (decide (Digits cs)) := by
  induction cs generalizing i n with
  | nil => simp [checkLoop, Digits]
  | cons c cs ih =>
    by_cases hc : c.isDigit = true
    · obtain ⟨d, hd, hlt⟩ := charValue_digit hc
      have hstep : checkLoop 10 i (c :: cs) =
          if i = INT_MAX then .error .indexOverflow else checkLoop 10 (i + 1) cs := by
        simp only [checkLoop, hd, if_neg (Nat.not_le.mpr hlt)]
      rw [hstep, List.take_succ_cons]
      cases n with
      | zero =>
        have hfirst : Digits (c :: cs.take 0) := digits_cons_iff.mpr ⟨hc, by simp [Digits]⟩
        rw [if_pos (by omega), if_pos ⟨hfirst, by simp⟩]
      | succ n =>
        rw [if_neg (by omega), ih (i + 1) n (by omega)]
        simp only [digits_cons_iff, hc, true_and, List.length_cons, Nat.add_le_add_iff_right]
    · rw [checkLoop_not_digit hc]
      simp [digits_cons_iff, hc]

theorem le_ofDigitChars (cs : List Char) (n : ℕ) : n ≤ Nat.ofDigitChars 10 cs n := by
  rw [Nat.ofDigitChars_eq_ofDigitChars_zero]
  exact (Nat.le_mul_of_pos_left n (Nat.pow_pos (by decide))).trans (Nat.le_add_right _ _)

theorem fits_cons (c : Char) (cs : List Char) {d : ℕ} (hn : n ≤ INT_MAX / 10) (hd : d ≤ 9) :
    (cs = [] ∨ Nat.ofDigitChars 10 cs (10 * n + d) / 10 ≤ INT_MAX / 10) ↔
      c :: cs = [] ∨ Nat.ofDigitChars 10 cs (10 * n + d) / 10 ≤ INT_MAX / 10 := by
  constructor
  · rintro (rfl | hle)
    · rw [Nat.ofDigitChars_nil]
      exact .inr (by omega)
    · exact .inr hle
  · exact fun h => .inr (h.resolve_left (List.cons_ne_nil c cs))

/-- The test before a digit is appended is one of the number without its last digit. -/
theorem readLoop_eq (cs : List Char) (i n : ℕ) (h : Digits cs) (hi : i + cs.length ≤ INT_MAX) :
    readLoop 10 i n cs =
      .ok (if cs = [] ∨ Nat.ofDigitChars 10 cs n / 10 ≤ INT_MAX / 10 then
        some (Nat.ofDigitChars 10 cs n) else none) := by
  induction cs generalizing i n with
  | nil => simp [readLoop]
  | cons c cs ih =>
    obtain ⟨hc, hcs⟩ := digits_cons h
    have hd := (isDigit_iff c).mp hc
    have hzero : '0'.toNat = 48 := rfl
    rw [List.length_cons] at hi
    have hgrows := le_ofDigitChars cs (10 * n + (c.toNat - '0'.toNat))
    rw [readLoop, if_pos ((between_zero_nine c).mpr hc), Nat.ofDigitChars_cons]
    by_cases hlarge : INT_MAX / 10 < n
    · rw [if_pos hlarge, if_neg]
      simp only [List.cons_ne_nil, false_or]
      omega
    · rw [if_neg hlarge, if_neg (by omega), Nat.mul_comm n 10, ih (i + 1) _ hcs (by omega)]
      simp only [fits_cons c cs (Nat.not_lt.mp hlarge) (show c.toNat - '0'.toNat ≤ 9 by omega)]

/-! ### The result -/

theorem start_le (str : List Char) : start str ≤ 1 := by
  unfold start
  split_ifs <;> decide

theorem start_le_length (str : List Char) : start str ≤ str.length := by
  cases str with
  | nil => decide
  | cons c cs => exact (start_le _).trans (by simp)

/-- The indices of the digits, in terms of the whole string. -/
theorem overlong_iff : Overlong str ↔
    Digits ((str.drop (start str)).take (INT_MAX - start str + 1)) ∧
      INT_MAX - start str + 1 ≤ (str.drop (start str)).length := by
  have hs := start_le str
  have hwidth : INT_MAX - start str + 1 = 2 ^ 31 - start str := by
    unfold INT_MAX
    omega
  unfold Overlong
  rw [hwidth, List.drop_take, List.length_drop]
  constructor
  · rintro ⟨hlength, hd⟩
    exact ⟨hd, by omega⟩
  · rintro ⟨hd, hlength⟩
    exact ⟨by omega, hd⟩

theorem checkNumber_eq (hs : ¬ (str.head? = some '-' ∧ str.length = 1)) :
    checkNumber str 10 =
      if Overlong str then .error .indexOverflow
      else .ok (decide (Digits (str.drop (start str)))) := by
  have hstart : start str ≤ INT_MAX := (start_le str).trans (by decide)
  rw [checkNumber, if_neg hs,
    checkLoop_eq _ (start str) (INT_MAX - start str) (Nat.add_sub_cancel' hstart)]
  simp only [overlong_iff]

theorem not_overlong_of_length_one (h : str.length = 1) : ¬ Overlong str := by
  rintro ⟨hlength, -⟩
  omega

theorem stringToInt_overlong (h : Overlong str) :
    stringToInt str = .error .indexOverflow := by
  have hs : ¬ (str.head? = some '-' ∧ str.length = 1) := fun hs => not_overlong_of_length_one hs.2 h
  have hcheck := checkNumber_eq hs
  rw [if_pos h] at hcheck
  unfold stringToInt
  simp only [hcheck]
  rfl

theorem length_lt_of_digits (h : ¬ Overlong str) (hd : Digits (str.drop (start str))) :
    str.length < 2 ^ 31 := by
  by_contra hlong
  refine h ⟨Nat.not_lt.mp hlong, fun c hc => hd c ?_⟩
  rw [List.drop_take] at hc
  exact List.mem_of_mem_take hc

theorem fits_iff (digits : List Char) :
    (digits = [] ∨ Nat.ofDigitChars 10 digits 0 / 10 ≤ INT_MAX / 10) ↔
      valueOf digits ≤ 2 ^ 31 + 1 := by
  have hmax : INT_MAX / 10 = 214748364 := by decide
  rw [hmax]
  constructor
  · rintro (rfl | hle)
    · decide
    · unfold valueOf
      omega
  · intro hle
    unfold valueOf at hle
    exact .inr (by omega)

/-- The number of the digits passes up to `10 * (INT_MAX / 10) + 9`. -/
theorem stringToInt_digits (h : ¬ Overlong str) (hd : Digits (str.drop (start str)))
    (hs : ¬ (str.head? = some '-' ∧ str.length = 1)) :
    stringToInt str =
      .ok (if valueOf (str.drop (start str)) ≤ 2 ^ 31 + 1 then
        some (Int.bmod (valueOf (str.drop (start str)) * sign str) (2 ^ 32)) else none) := by
  have hcheck := checkNumber_eq hs
  rw [if_neg h, decide_eq_true hd] at hcheck
  have hshort := length_lt_of_digits h hd
  have hread := readLoop_eq (str.drop (start str)) (start str) 0 hd (by
    rw [List.length_drop]
    have := start_le_length str
    unfold INT_MAX
    omega)
  unfold stringToInt
  simp only [hcheck, hread, fits_iff]
  by_cases hle : valueOf (str.drop (start str)) ≤ 2 ^ 31 + 1
  · simp only [hle, if_true]
    rfl
  · simp only [hle, if_false]
    rfl

theorem stringToInt_rejects (h : ¬ Overlong str)
    (hbad : (str.head? = some '-' ∧ str.length = 1) ∨ ¬ Digits (str.drop (start str))) :
    stringToInt str = .ok none := by
  have hcheck : checkNumber str 10 = .ok false := by
    by_cases hs : str.head? = some '-' ∧ str.length = 1
    · rw [checkNumber, if_pos hs]
    · rw [checkNumber_eq hs, if_neg h, decide_eq_false (hbad.resolve_left hs)]
  unfold stringToInt
  simp only [hcheck]
  rfl

/-! ### Numerals -/

theorem numeral_iff : Numeral str v ↔
    Digits (str.drop (start str)) ∧ str.drop (start str) ≠ [] ∧
      v = valueOf (str.drop (start str)) * sign str := by
  constructor
  · rintro ⟨digits, hd, hne, ⟨rfl, rfl⟩ | ⟨rfl, rfl⟩⟩
    · obtain ⟨c, cs, rfl⟩ := List.exists_cons_of_ne_nil hne
      have hc : c ≠ '-' := by
        rintro rfl
        exact absurd (digits_cons hd).1 (by decide)
      simpa [start, sign, hc] using hd
    · simp [start, sign, hd, hne]
  · rintro ⟨hd, hne, rfl⟩
    by_cases hminus : str.head? = some '-'
    · obtain ⟨cs, rfl⟩ := List.head?_eq_some_iff.mp hminus
      refine ⟨cs, ?_⟩
      simpa [start, sign] using And.intro hd hne
    · simp only [start, sign, if_neg hminus, List.drop_zero] at hd hne ⊢
      exact ⟨str, hd, hne, .inl ⟨rfl, by simp⟩⟩

/-- What `StringToInt` answers, in terms of the numeral. -/
theorem stringToInt_numeral (h : ¬ Overlong str) (hnum : Numeral str v) :
    stringToInt str = .ok (if -(2 ^ 31 + 1) ≤ v ∧ v ≤ 2 ^ 31 + 1 then
      some (Int.bmod v (2 ^ 32)) else none) := by
  obtain ⟨hd, hne, rfl⟩ := numeral_iff.mp hnum
  have hs : ¬ (str.head? = some '-' ∧ str.length = 1) := by
    rintro ⟨hminus, hone⟩
    rw [start, if_pos hminus] at hne
    exact hne (List.drop_eq_nil_of_le hone.le)
  rw [stringToInt_digits h hd hs]
  have hfits : valueOf (str.drop (start str)) ≤ 2 ^ 31 + 1 ↔
      -(2 ^ 31 + 1) ≤ (valueOf (str.drop (start str)) : ℤ) * sign str ∧
        (valueOf (str.drop (start str)) : ℤ) * sign str ≤ 2 ^ 31 + 1 := by
    unfold sign
    split_ifs <;> omega
  simp only [hfits]

theorem numeral_unique {w : ℤ} (hv : Numeral str v) (hw : Numeral str w) : v = w :=
  (numeral_iff.mp hv).2.2.trans (numeral_iff.mp hw).2.2.symm

/-- Without a number, a character is wrong or a minus sign stands alone. -/
theorem bad_of_not_numeral (hne : str ≠ []) (h : ¬ ∃ v, Numeral str v) :
    (str.head? = some '-' ∧ str.length = 1) ∨ ¬ Digits (str.drop (start str)) := by
  by_cases hd : Digits (str.drop (start str))
  · have hnil : str.drop (start str) = [] := by
      by_contra hbody
      exact h ⟨_, numeral_iff.mpr ⟨hd, hbody, rfl⟩⟩
    have hle := List.drop_eq_nil_iff.mp hnil
    have hpos := List.length_pos_iff.mpr hne
    refine .inl ⟨?_, by have := start_le str; omega⟩
    by_contra hminus
    rw [start, if_neg hminus] at hle
    omega
  · exact .inr hd

theorem bmod_of_int (hlow : -2 ^ 31 ≤ v) (hhigh : v < 2 ^ 31) : Int.bmod v (2 ^ 32) = v :=
  Int.bmod_eq_of_le_mul_two (by omega) (by omega)

/-- `StringToInt` is exact but for the empty string, which it reads as 0, for three numbers outside
`int`, which it narrows, and for strings over which its index overflows. -/
theorem string_to_int_exact_iff (str : List Char) :
    (∃ res, stringToInt str = .ok res ∧
        ∀ v, res = some v ↔ Numeral str v ∧ -2 ^ 31 ≤ v ∧ v < 2 ^ 31) ↔
      str ≠ [] ∧ ¬ Overlong str ∧
        ∀ v, Numeral str v → v ≠ 2 ^ 31 ∧ v ≠ 2 ^ 31 + 1 ∧ v ≠ -(2 ^ 31 + 1) := by
  constructor
  · rintro ⟨res, hres, hexact⟩
    have hlong : ¬ Overlong str := by
      intro hlong
      rw [stringToInt_overlong hlong] at hres
      contradiction
    refine ⟨?_, hlong, fun v hv => ?_⟩
    · rintro rfl
      obtain rfl : some 0 = res := Except.ok.inj hres
      obtain ⟨⟨digits, -, hne, ⟨hnil, -⟩ | ⟨hnil, -⟩⟩, -⟩ := (hexact 0).mp rfl
      · exact hne hnil.symm
      · contradiction
    · rw [stringToInt_numeral hlong hv] at hres
      by_contra hwrapped
      -- the number is narrowed, and only the number itself would be right
      rw [if_pos (by omega)] at hres
      obtain ⟨hnum, hlow, hhigh⟩ := (hexact _).mp (Except.ok.inj hres).symm
      rw [numeral_unique hnum hv] at hlow hhigh
      omega
  · rintro ⟨hne, hlong, hrange⟩
    by_cases hnum : ∃ v, Numeral str v
    · obtain ⟨v, hv⟩ := hnum
      refine ⟨_, stringToInt_numeral hlong hv, fun w => ?_⟩
      obtain ⟨hone, htwo, hthree⟩ := hrange v hv
      by_cases hint : -2 ^ 31 ≤ v ∧ v < 2 ^ 31
      · rw [if_pos (by omega), bmod_of_int hint.1 hint.2, Option.some.injEq]
        constructor
        · rintro rfl
          exact ⟨hv, hint⟩
        · exact fun hw => numeral_unique hv hw.1
      · rw [if_neg (by omega)]
        refine ⟨nofun, fun hw => ?_⟩
        rw [numeral_unique hw.1 hv] at hw
        exact absurd hw.2 hint
    · refine ⟨none, stringToInt_rejects hlong (bad_of_not_numeral hne hnum), fun w => ?_⟩
      exact ⟨nofun, fun hw => absurd ⟨w, hw.1⟩ hnum⟩

/-- `2147483648` is read as the least `int`. -/
theorem string_to_int_wraps :
    ¬ ∃ res, stringToInt "2147483648".toList = .ok res ∧
      ∀ v, res = some v ↔ Numeral "2147483648".toList v ∧ -2 ^ 31 ≤ v ∧ v < 2 ^ 31 := by
  rintro ⟨res, hres, hexact⟩
  have hwrapped : stringToInt "2147483648".toList = .ok (some (-2147483648)) := by decide
  obtain rfl := Except.ok.inj (hwrapped.symm.trans hres)
  obtain ⟨⟨digits, -, -, ⟨-, hv⟩ | ⟨hminus, -⟩⟩, -⟩ := (hexact _).mp rfl
  · omega
  · exact absurd (List.head_eq_of_cons_eq hminus) (by decide)

end MaiFaSp.SharedRoom
