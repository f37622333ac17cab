import Mathlib.Data.Nat.Notation
import Mathlib.Tactic

/-!
# Decimal numerals

`Nat.toDigits 10` writes a number and `Nat.ofDigitChars 10` reads one. Reading undoes
writing (`Nat.ofDigitChars_ten_toDigits`); writing undoes reading up to leading zeros.
-/

namespace MaiFaSp.DecimalText

/-- Decimal digits only. -/
def Digits (cs : List Char) : Prop := ∀ c ∈ cs, c.isDigit = true

instance (cs : List Char) : Decidable (Digits cs) :=
  decidable_of_iff (cs.all Char.isDigit = true) List.all_eq_true

/-- The number a string of digits stands for. -/
def valueOf (cs : List Char) : ℕ := Nat.ofDigitChars 10 cs 0

/-- Without leading zeros; `0` for a string of zeros. -/
def stripZeros (cs : List Char) : List Char :=
  match cs.dropWhile (fun c => c = '0') with
  | [] => ['0']
  | c :: rest => c :: rest

theorem digits_cons {c : Char} {cs : List Char} (h : Digits (c :: cs)) :
    c.isDigit = true ∧ Digits cs :=
  ⟨h c List.mem_cons_self, fun d hd => h d (List.mem_cons_of_mem c hd)⟩

theorem isDigit_iff (c : Char) : c.isDigit = true ↔ 48 ≤ c.toNat ∧ c.toNat ≤ 57 := by
  rw [Char.isDigit, Bool.and_eq_true, decide_eq_true_eq, decide_eq_true_eq]
  exact Iff.rfl

theorem between_zero_nine (c : Char) : ('0' ≤ c ∧ c ≤ '9') ↔ c.isDigit = true := by
  rw [isDigit_iff]
  exact Iff.rfl

theorem digitChar_sub (c : Char) (h : c.isDigit = true) : Nat.digitChar (c.toNat - 48) = c := by
  have hc := (isDigit_iff c).mp h
  apply Char.toNat_inj.mp
  rw [Nat.toNat_digitChar_of_lt_ten (by omega)]
  omega

theorem ne_zero_of_ne_char {c : Char} (h : c.isDigit = true) (hc : c ≠ '0') :
    0 < c.toNat - 48 := by
  have hd := (isDigit_iff c).mp h
  have hne : c.toNat ≠ 48 := fun he => hc (Char.toNat_inj.mp he)
  omega

theorem valueOf_lt_pow (cs : List Char) (h : Digits cs) : valueOf cs < 10 ^ cs.length := by
  induction cs with
  | nil => decide
  | cons c cs ih =>
    obtain ⟨hc, hcs⟩ := digits_cons h
    have hd := (isDigit_iff c).mp hc
    have hrest := ih hcs
    unfold valueOf at *
    rw [Nat.ofDigitChars_cons, Nat.ofDigitChars_eq_ofDigitChars_zero, Nat.mul_zero, Nat.zero_add,
      List.length_cons, Nat.pow_succ]
    have hdigit : c.toNat - '0'.toNat ≤ 9 := by
      change c.toNat - 48 ≤ 9
      omega
    calc 10 ^ cs.length * (c.toNat - '0'.toNat) + Nat.ofDigitChars 10 cs 0
        ≤ 10 ^ cs.length * 9 + Nat.ofDigitChars 10 cs 0 :=
          Nat.add_le_add_right (Nat.mul_le_mul_left _ hdigit) _
      _ < 10 ^ cs.length * 10 := by omega

/-! ### Writing what was read -/

/-- Reading on from a positive number writes the digits behind it. -/
theorem toDigits_append_read (cs : List Char) (h : Digits cs) (n : ℕ) (hn : 0 < n) :
    Nat.toDigits 10 n ++ cs = Nat.toDigits 10 (Nat.ofDigitChars 10 cs n) := by
  induction cs generalizing n with
  | nil => rw [List.append_nil, Nat.ofDigitChars_nil]
  | cons c cs ih =>
    obtain ⟨hc, hcs⟩ := digits_cons h
    have hlt : c.toNat - 48 < 10 := by
      have hd := (isDigit_iff c).mp hc
      omega
    have hone : Nat.toDigits 10 n ++ [c] = Nat.toDigits 10 (10 * n + (c.toNat - 48)) := by
      have happ := Nat.toDigits_append_toDigits (b := 10) (by decide) hn hlt
      rwa [Nat.toDigits_of_lt_base hlt, digitChar_sub c hc] at happ
    have hrest := ih hcs (10 * n + (c.toNat - 48)) (by omega)
    rw [Nat.ofDigitChars_cons]
    exact ((List.append_cons _ _ _).trans (congrArg (· ++ cs) hone)).trans hrest

theorem toDigits_valueOf_of_head (c : Char) (cs : List Char) (h : Digits (c :: cs))
    (hc : c ≠ '0') : Nat.toDigits 10 (valueOf (c :: cs)) = c :: cs := by
  obtain ⟨hd, hcs⟩ := digits_cons h
  have hlt : c.toNat - 48 < 10 := by
    have := (isDigit_iff c).mp hd
    omega
  have hread := toDigits_append_read cs hcs (c.toNat - 48) (ne_zero_of_ne_char hd hc)
  rw [Nat.toDigits_of_lt_base hlt, digitChar_sub c hd] at hread
  rw [valueOf, Nat.ofDigitChars_cons, Nat.mul_zero, Nat.zero_add]
  exact hread.symm

theorem valueOf_dropZeros (cs : List Char) :
    valueOf (cs.dropWhile (fun c => c = '0')) = valueOf cs := by
  induction cs with
  | nil => rfl
  | cons c cs ih =>
    by_cases hc : c = '0'
    · subst hc
      rw [List.dropWhile_cons_of_pos (by decide), ih, valueOf, valueOf, Nat.ofDigitChars_cons]
      rfl
    · rw [List.dropWhile_cons_of_neg (by simpa using hc)]

theorem toDigits_valueOf (cs : List Char) (h : Digits cs) :
    Nat.toDigits 10 (valueOf cs) = stripZeros cs := by
  rw [← valueOf_dropZeros]
  unfold stripZeros
  cases hdrop : cs.dropWhile (fun c => c = '0') with
  | nil => rfl
  | cons c rest =>
    refine toDigits_valueOf_of_head c rest (fun d hd => h d ?_) ?_
    · exact (List.dropWhile_sublist _).subset (hdrop ▸ hd)
    · have hhead := List.head?_dropWhile_not (fun c => decide (c = '0')) cs
      rw [hdrop] at hhead
      simpa using hhead

theorem valueOf_toDigits (n : ℕ) : valueOf (Nat.toDigits 10 n) = n :=
  Nat.ofDigitChars_ten_toDigits

theorem digits_toDigits (n : ℕ) : Digits (Nat.toDigits 10 n) := fun _ hc =>
  Nat.isDigit_of_mem_toDigits (by decide) (by decide) hc

end MaiFaSp.DecimalText
