import MaiFaSp.BigInt.DecimalRoundTrip
import MaiFaSp.Lib.Scanning
import Mathlib.Computability.RegularExpressions

/-!
# `fraction`: the words that `operator>>` takes (`fraction.cpp:133-151`)

The regular expression has one way to match a word, so its two groups are found by scanning
from the left.
-/

namespace MaiFaSp.BigFraction

open BigInt DecimalText Scanning

/-! ### The regular expression -/

/-- `[cs]` -/
def oneOf (cs : List Char) : RegularExpression Char := cs.foldr (fun c r => .char c + r) 0

def digitRegex : RegularExpression Char :=
  oneOf ['0', '1', '2', '3', '4', '5', '6', '7', '8', '9']

/-- `[-+]?[0-9]+` -/
def numberRegex : RegularExpression Char :=
  (1 + oneOf ['-', '+']) * (digitRegex * digitRegex.star)

/-- `^([-+]?[0-9]+)(?:/([-+]?[0-9]+))?$` -/
def fractionRegex : RegularExpression Char := numberRegex * (1 + .char '/' * numberRegex)

/-- `[-+]?` at the front. -/
def matchSign : List Char → List Char
  | [] => []
  | c :: _ => if c = '-' ∨ c = '+' then [c] else []

/-- A match of `[-+]?[0-9]+` at the front, and what is behind it. -/
def matchNumber (cs : List Char) : Option (List Char × List Char) :=
  let sign := matchSign cs
  let cs := cs.drop sign.length
  let digits := cs.takeWhile Char.isDigit
  if digits = [] then none else some (sign ++ digits, cs.dropWhile Char.isDigit)

/-- `regex_match`, with the two groups. -/
def matchFraction (input : List Char) : Option (List Char × Option (List Char)) :=
  match matchNumber input with
  | none => none
  | some (first, []) => some (first, none)
  | some (first, c :: cs) =>
    if c = '/' then
      match matchNumber cs with
      | some (second, []) => some (first, some second)
      | _ => none
    else none

/-! ### The words that match -/

structure Numeral where
  sign : Sign
  digits : List Char
  nonempty : digits ≠ []
  decimal : Digits digits

structure Token where
  numerator : Numeral
  denominator : Option Numeral

namespace Numeral

def text (n : Numeral) : List Char := n.sign.text ++ n.digits

def value (n : Numeral) : ℤ :=
  if n.sign = .minus then -(valueOf n.digits : ℤ) else valueOf n.digits

theorem isDigit_head (n : Numeral) : ∃ c cs, n.digits = c :: cs ∧ c.isDigit = true := by
  obtain ⟨c, cs, hcs⟩ := List.exists_cons_of_ne_nil n.nonempty
  exact ⟨c, cs, hcs, n.decimal c (hcs ▸ List.mem_cons_self)⟩

end Numeral

namespace Token

def text (t : Token) : List Char :=
  t.numerator.text ++ (t.denominator.map fun d => '/' :: d.text).getD []

def denominatorValue (t : Token) : ℤ := (t.denominator.map Numeral.value).getD 1

end Token

variable {input cs rest : List Char}

theorem matchSign_text (n : Numeral) (rest : List Char) :
    matchSign (n.text ++ rest) = n.sign.text := by
  obtain ⟨c, cs, hcs, hc⟩ := n.isDigit_head
  obtain ⟨hminus, hplus⟩ := sign_ne_of_digit hc
  unfold Numeral.text
  cases n.sign with
  | absent => simp [Sign.text, hcs, matchSign, hminus, hplus]
  | plus => rfl
  | minus => rfl

theorem matchSign_spec (cs : List Char) :
    ∃ sign : Sign, matchSign cs = sign.text ∧ cs = sign.text ++ cs.drop sign.text.length := by
  cases cs with
  | nil => exact ⟨.absent, rfl, rfl⟩
  | cons c cs =>
    by_cases hminus : c = '-'
    · exact ⟨.minus, by simp [matchSign, hminus, Sign.text], by simp [hminus, Sign.text]⟩
    · by_cases hplus : c = '+'
      · exact ⟨.plus, by simp [matchSign, hplus, Sign.text], by simp [hplus, Sign.text]⟩
      · exact ⟨.absent, by simp [matchSign, hminus, hplus, Sign.text], by simp [Sign.text]⟩

theorem matchNumber_text (n : Numeral) (h : Stops Char.isDigit rest) :
    matchNumber (n.text ++ rest) = some (n.text, rest) := by
  have htake : (n.digits ++ rest).takeWhile Char.isDigit = n.digits :=
    takeWhile_append n.decimal h
  have hdrop : (n.digits ++ rest).dropWhile Char.isDigit = rest := dropWhile_append n.decimal h
  have hsign : (n.text ++ rest).drop n.sign.text.length = n.digits ++ rest := by
    simp [Numeral.text]
  rw [matchNumber, matchSign_text, hsign, htake, hdrop, if_neg n.nonempty]
  rfl

theorem of_matchNumber {first : List Char} (h : matchNumber cs = some (first, rest)) :
    ∃ n : Numeral, first = n.text ∧ cs = first ++ rest := by
  obtain ⟨sign, htext, hcs⟩ := matchSign_spec cs
  rw [matchNumber, htext] at h
  by_cases hne : (cs.drop sign.text.length).takeWhile Char.isDigit = []
  · rw [if_pos hne] at h
    cases h
  · rw [if_neg hne] at h
    cases h
    refine ⟨⟨sign, _, hne, fun c hc => List.mem_takeWhile_imp hc⟩, rfl, ?_⟩
    rw [List.append_assoc, List.takeWhile_append_dropWhile]
    exact hcs

theorem matchFraction_text (t : Token) :
    matchFraction t.text = some (t.numerator.text, t.denominator.map Numeral.text) := by
  unfold matchFraction Token.text
  cases t.denominator with
  | none =>
    have h := matchNumber_text t.numerator (stops_nil _)
    rw [List.append_nil] at h
    simp [h]
  | some d =>
    have hslash : Stops Char.isDigit ('/' :: d.text) := stops_cons (by decide) _
    have hfirst := matchNumber_text t.numerator hslash
    have hsecond := matchNumber_text d (stops_nil _)
    rw [List.append_nil] at hsecond
    simp [hfirst, hsecond]

theorem matchFraction_isSome_iff : (matchFraction input).isSome ↔ ∃ t : Token, t.text = input := by
  constructor
  · intro h
    unfold matchFraction at h
    split at h
    · cases h
    · case h_2 first hfirst =>
      obtain ⟨n, hn, hinput⟩ := of_matchNumber hfirst
      refine ⟨⟨n, none⟩, ?_⟩
      simp [Token.text, hinput, hn]
    · case h_3 first c cs hfirst =>
      obtain ⟨n, hn, hinput⟩ := of_matchNumber hfirst
      split at h
      · case isTrue hslash =>
        split at h
        · case h_1 second hsecond =>
          obtain ⟨d, hd, hcs⟩ := of_matchNumber hsecond
          refine ⟨⟨n, some d⟩, ?_⟩
          simp [Token.text, hinput, hn, hslash, hcs, hd]
        · cases h
      · cases h
  · intro h
    obtain ⟨t, rfl⟩ := h
    rw [matchFraction_text]
    rfl

/-! ### The words are those of the regular expression -/

theorem mem_oneOf {cs w : List Char} : w ∈ (oneOf cs).matches' ↔ ∃ c ∈ cs, w = [c] := by
  induction cs with
  | nil => simp [oneOf]
  | cons c cs ih =>
    have hcons : oneOf (c :: cs) = .char c + oneOf cs := rfl
    rw [hcons, RegularExpression.matches'_add, Language.mem_add, ih,
      RegularExpression.matches'_char, List.exists_mem_cons_iff]
    exact Iff.rfl

theorem mem_digitRegex {w : List Char} :
    w ∈ digitRegex.matches' ↔ ∃ c, c.isDigit = true ∧ w = [c] := by
  rw [digitRegex, mem_oneOf]
  constructor
  · intro h
    obtain ⟨c, hc, hw⟩ := h
    refine ⟨c, ?_, hw⟩
    simp only [List.mem_cons, List.not_mem_nil, or_false] at hc
    obtain rfl | rfl | rfl | rfl | rfl | rfl | rfl | rfl | rfl | rfl := hc <;> decide
  · intro h
    obtain ⟨c, hc, hw⟩ := h
    refine ⟨c, ?_, hw⟩
    have hchar := digitChar_sub c hc
    have hlt : c.toNat - 48 < 10 := by
      have := (isDigit_iff c).mp hc
      omega
    rw [← hchar]
    generalize c.toNat - 48 = k at hlt
    interval_cases k <;> decide

theorem mem_digits {w : List Char} :
    w ∈ (digitRegex * digitRegex.star).matches' ↔ w ≠ [] ∧ Digits w := by
  rw [RegularExpression.matches'_mul, RegularExpression.matches'_star, Language.mem_mul]
  constructor
  · intro h
    obtain ⟨front, hfront, back, hback, rfl⟩ := h
    obtain ⟨c, hc, rfl⟩ := mem_digitRegex.mp hfront
    obtain ⟨words, rfl, hwords⟩ := Language.mem_kstar.mp hback
    refine ⟨by simp, ?_⟩
    intro d hd
    obtain hd | hd := List.mem_append.mp hd
    · rw [List.mem_singleton.mp hd]
      exact hc
    · obtain ⟨word, hword, hd⟩ := List.mem_flatten.mp hd
      obtain ⟨e, he, rfl⟩ := mem_digitRegex.mp (hwords word hword)
      rw [List.mem_singleton.mp hd]
      exact he
  · intro h
    obtain ⟨hne, hdigits⟩ := h
    obtain ⟨c, cs, rfl⟩ := List.exists_cons_of_ne_nil hne
    obtain ⟨hc, hcs⟩ := digits_cons hdigits
    refine ⟨[c], mem_digitRegex.mpr ⟨c, hc, rfl⟩, cs, ?_, rfl⟩
    refine Language.mem_kstar.mpr ⟨cs.map fun d => [d], (List.flatMap_singleton' cs).symm, ?_⟩
    intro word hword
    obtain ⟨d, hd, rfl⟩ := List.mem_map.mp hword
    exact mem_digitRegex.mpr ⟨d, hcs d hd, rfl⟩

theorem mem_sign {w : List Char} :
    w ∈ (1 + oneOf ['-', '+']).matches' ↔ ∃ sign : Sign, w = sign.text := by
  rw [RegularExpression.matches'_add, Language.mem_add, mem_oneOf]
  constructor
  · intro h
    obtain h | ⟨c, hc, rfl⟩ := h
    · exact ⟨.absent, h⟩
    · simp only [List.mem_cons, List.not_mem_nil, or_false] at hc
      obtain rfl | rfl := hc
      · exact ⟨.minus, rfl⟩
      · exact ⟨.plus, rfl⟩
  · intro h
    obtain ⟨sign, rfl⟩ := h
    cases sign with
    | absent => exact Or.inl rfl
    | plus => exact Or.inr ⟨'+', by simp, rfl⟩
    | minus => exact Or.inr ⟨'-', by simp, rfl⟩

theorem mem_numberRegex {w : List Char} :
    w ∈ numberRegex.matches' ↔ ∃ n : Numeral, n.text = w := by
  rw [numberRegex, RegularExpression.matches'_mul, Language.mem_mul]
  constructor
  · intro h
    obtain ⟨front, hfront, ds, hds, rfl⟩ := h
    obtain ⟨sign, rfl⟩ := mem_sign.mp hfront
    obtain ⟨hne, hdigits⟩ := mem_digits.mp hds
    exact ⟨⟨sign, ds, hne, hdigits⟩, rfl⟩
  · intro h
    obtain ⟨n, rfl⟩ := h
    exact ⟨_, mem_sign.mpr ⟨n.sign, rfl⟩, _, mem_digits.mpr ⟨n.nonempty, n.decimal⟩, rfl⟩

theorem mem_fractionRegex {w : List Char} :
    w ∈ fractionRegex.matches' ↔ ∃ t : Token, t.text = w := by
  rw [fractionRegex, RegularExpression.matches'_mul, Language.mem_mul]
  constructor
  · intro h
    obtain ⟨first, hfirst, second, hsecond, rfl⟩ := h
    obtain ⟨n, rfl⟩ := mem_numberRegex.mp hfirst
    obtain hsecond | hsecond := hsecond
    · have hnil : second = [] := hsecond
      exact ⟨⟨n, none⟩, by simp [Token.text, hnil]⟩
    · obtain ⟨slash, hslash, number, hnumber, rfl⟩ := Language.mem_mul.mp hsecond
      obtain ⟨d, rfl⟩ := mem_numberRegex.mp hnumber
      have hchar : slash = ['/'] := hslash
      exact ⟨⟨n, some d⟩, by simp [Token.text, hchar]⟩
  · intro h
    obtain ⟨t, rfl⟩ := h
    refine ⟨_, mem_numberRegex.mpr ⟨t.numerator, rfl⟩, _, ?_, rfl⟩
    cases t.denominator with
    | none => exact Or.inl rfl
    | some d =>
      have hslash : ['/'] ∈ (RegularExpression.char '/').matches' := rfl
      exact Or.inr (Language.append_mem_mul hslash (mem_numberRegex.mpr ⟨d, rfl⟩))

theorem matchFraction_isSome_iff_mem :
    (matchFraction input).isSome ↔ input ∈ fractionRegex.matches' := by
  rw [matchFraction_isSome_iff, mem_fractionRegex]

end MaiFaSp.BigFraction
