import MaiFaSp.BigInt.Strings

/-!
# `big_int`: the characters of a numeral (`big_int.cpp:23-51, 78-99`)

A character is a digit of a radix for `is_valid_digit` just when `char_to_value` gives it a
value below the radix, so the loop over the characters reads the number they stand for.
-/

namespace MaiFaSp.BigInt

/-! ### Numerals -/

/-- The value of `0-9`, of `a-z` and of `A-Z`. -/
def digitValue (c : Char) : Option ℕ :=
  if c.isDigit then some (c.toNat - 48)
  else if c.isLower then some (c.toNat - 97 + 10)
  else if c.isUpper then some (c.toNat - 65 + 10)
  else none

def BelowRadix (radix : ℕ) (c : Char) : Prop := ∃ v ∈ digitValue c, v < radix

/-- The number that digits stand for, read on from `n`. -/
def readFrom (radix : ℕ) (ds : List Char) (n : ℕ) : ℕ :=
  ds.foldl (fun n c => n * radix + (digitValue c).getD 0) n

/-! ### One character -/

theorem isLower_iff (c : Char) : c.isLower = true ↔ 97 ≤ c.toNat ∧ c.toNat ≤ 122 := by
  have hdef : c.isLower = (decide ('a'.val ≤ c.val) && decide (c.val ≤ 'z'.val)) := rfl
  rw [hdef, Bool.and_eq_true, decide_eq_true_eq, decide_eq_true_eq]
  exact Iff.rfl

theorem isUpper_iff (c : Char) : c.isUpper = true ↔ 65 ≤ c.toNat ∧ c.toNat ≤ 90 := by
  have hdef : c.isUpper = decide ('A'.val ≤ c.val ∧ c.val ≤ 'Z'.val) := rfl
  rw [hdef, decide_eq_true_eq]
  exact Iff.rfl

theorem between_upper (c : Char) : ('A' ≤ c ∧ c ≤ 'Z') ↔ c.isUpper = true := by
  rw [isUpper_iff]
  exact Iff.rfl

theorem between_lower (c : Char) : ('a' ≤ c ∧ c ≤ 'z') ↔ c.isLower = true := by
  rw [isLower_iff]
  exact Iff.rfl

theorem digit_functions (c : Char) :
    (∃ v digit, digitValue c = some v ∧ digitOf c = v ∧ charToValue c = .ok digit ∧
        digit.toNat = v) ∨
      (digitValue c = none ∧ digitOf c = -1) := by
  unfold digitValue digitOf charToValue
  simp only [DecimalText.between_zero_nine, between_upper, between_lower]
  by_cases hd : c.isDigit = true
  · have hc := (DecimalText.isDigit_iff c).mp hd
    simp only [hd, if_true]
    refine .inl ⟨_, _, rfl, ?_, rfl, ?_⟩
    · show (c.toNat : ℤ) - (48 : ℕ) = (c.toNat - 48 : ℕ)
      omega
    · rw [UInt32.toNat_ofNat']
      show (c.toNat - 48) % 2 ^ 32 = c.toNat - 48
      omega
  · by_cases hu : c.isUpper = true
    · have hc := (isUpper_iff c).mp hu
      have hl : ¬ c.isLower = true := by
        rw [isLower_iff]
        omega
      simp only [hd, hu, hl, if_true]
      refine .inl ⟨_, _, rfl, ?_, rfl, ?_⟩
      · show (c.toNat : ℤ) - (65 : ℕ) + 10 = (c.toNat - 65 + 10 : ℕ)
        omega
      · rw [UInt32.toNat_ofNat']
        show (10 + c.toNat - 65) % 2 ^ 32 = c.toNat - 65 + 10
        omega
    · by_cases hl : c.isLower = true
      · have hc := (isLower_iff c).mp hl
        simp only [hd, hu, hl, if_true]
        refine .inl ⟨_, _, rfl, ?_, rfl, ?_⟩
        · show (c.toNat : ℤ) - (97 : ℕ) + 10 = (c.toNat - 97 + 10 : ℕ)
          omega
        · rw [UInt32.toNat_ofNat']
          show (10 + c.toNat - 97) % 2 ^ 32 = c.toNat - 97 + 10
          omega
      · simp only [hd, hu, hl]
        exact .inr ⟨rfl, rfl⟩

theorem isValidDigit_iff (c : Char) (radix : UInt32) :
    isValidDigit c radix = true ↔ BelowRadix radix.toNat c := by
  unfold isValidDigit BelowRadix
  rw [decide_eq_true_eq]
  rcases digit_functions c with ⟨v, -, hv, hof, -, -⟩ | ⟨hnone, hof⟩
  · rw [hv, hof]
    simp
  · rw [hnone, hof]
    simp

theorem charToValue_below {c : Char} {radix : ℕ} (h : BelowRadix radix c) :
    ∃ digit, charToValue c = .ok digit ∧ digit.toNat = (digitValue c).getD 0 := by
  rcases digit_functions c with ⟨v, digit, hv, -, hval, hnat⟩ | ⟨hnone, -⟩
  · refine ⟨digit, hval, ?_⟩
    rw [hv, hnat]
    rfl
  · obtain ⟨v, hv, -⟩ := h
    rw [hnone] at hv
    cases hv

theorem eq_zero_of_digitValue {c : Char} (h : digitValue c = some 0) : c = '0' := by
  unfold digitValue at h
  split at h
  case isTrue hd =>
    have hc := (DecimalText.isDigit_iff c).mp hd
    have h0 : c.toNat - 48 = 0 := Option.some.inj h
    apply Char.toNat_inj.mp
    show c.toNat = 48
    omega
  case isFalse hd =>
    split at h
    case isTrue hl => cases h
    case isFalse hl =>
      split at h
      case isTrue hu => cases h
      case isFalse hu => cases h

/-! ### The loop over the characters -/

/-- Digits below the radix are read; the first other character is the error. -/
theorem readDigits_below {radix : UInt32} (hr : 0 < radix.toNat) {cs : List Char}
    (h : ∀ c ∈ cs, BelowRadix radix.toNat c) {ds : List UInt32} (hds : ds.getLast? ≠ some 0) :
    ∃ out, readDigits radix cs ds = .ok out ∧ mag out = readFrom radix.toNat cs (mag ds) ∧
      out.getLast? ≠ some 0 := by
  induction cs generalizing ds with
  | nil => exact ⟨ds, rfl, rfl, hds⟩
  | cons c cs ih =>
    have hc := h c List.mem_cons_self
    obtain ⟨digit, hdigit, hval⟩ := charToValue_below hc
    obtain ⟨hmag, hlast⟩ := pushDigit_spec hr hds digit
    obtain ⟨out, hout, hm, hl⟩ := ih (fun d hd => h d (List.mem_cons_of_mem c hd)) hlast
    refine ⟨out, ?_, ?_, hl⟩
    · rw [readDigits, if_pos ((isValidDigit_iff c radix).mpr hc), hdigit]
      exact hout
    · rw [hm, hmag, hval]
      rfl

theorem readDigits_invalid {radix : UInt32} {cs : List Char}
    (h : ¬ ∀ c ∈ cs, BelowRadix radix.toNat c) (ds : List UInt32) :
    ∃ what, readDigits radix cs ds = .error (.invalidArgument what) := by
  induction cs generalizing ds with
  | nil => exact absurd (fun c hc => absurd hc List.not_mem_nil) h
  | cons c cs ih =>
    by_cases hc : BelowRadix radix.toNat c
    · obtain ⟨digit, hdigit, -⟩ := charToValue_below hc
      have hrest : ¬ ∀ d ∈ cs, BelowRadix radix.toNat d :=
        fun hall => h (List.forall_mem_cons.mpr ⟨hc, hall⟩)
      obtain ⟨what, hwhat⟩ := ih hrest (pushDigit radix ds digit)
      refine ⟨what, ?_⟩
      rw [readDigits, if_pos ((isValidDigit_iff c radix).mpr hc), hdigit]
      exact hwhat
    · rw [readDigits, if_neg (fun hv => hc ((isValidDigit_iff c radix).mp hv))]
      exact ⟨_, rfl⟩

theorem le_readFrom {radix : ℕ} (hr : 0 < radix) (cs : List Char) (n : ℕ) :
    n ≤ readFrom radix cs n := by
  induction cs generalizing n with
  | nil => exact le_rfl
  | cons c cs ih =>
    have hmul : n ≤ n * radix := Nat.le_mul_of_pos_right n hr
    exact (hmul.trans (Nat.le_add_right _ _)).trans (ih _)

/-! ### Decimal texts -/

theorem digitValue_digit {c : Char} (h : c.isDigit = true) : digitValue c = some (c.toNat - 48) :=
  if_pos h

theorem belowRadix_ten {c : Char} (h : c.isDigit = true) : BelowRadix 10 c := by
  have hc := (DecimalText.isDigit_iff c).mp h
  exact ⟨c.toNat - 48, digitValue_digit h, by omega⟩

theorem readFrom_ten {cs : List Char} (h : DecimalText.Digits cs) (n : ℕ) :
    readFrom 10 cs n = Nat.ofDigitChars 10 cs n := by
  induction cs generalizing n with
  | nil => exact Nat.ofDigitChars_nil.symm
  | cons c cs ih =>
    obtain ⟨hc, hcs⟩ := DecimalText.digits_cons h
    have hturn : n * 10 + (digitValue c).getD 0 = 10 * n + (c.toNat - 48) := by
      rw [digitValue_digit hc, mul_comm]
      rfl
    rw [Nat.ofDigitChars_cons]
    show readFrom 10 cs (n * 10 + (digitValue c).getD 0) = _
    rw [hturn]
    exact ih hcs _

theorem readDigits_decimal {cs : List Char} (h : DecimalText.Digits cs) {ds : List UInt32}
    (hds : ds.getLast? ≠ some 0) :
    ∃ out, readDigits 10 cs ds = .ok out ∧ mag out = Nat.ofDigitChars 10 cs (mag ds) ∧
      out.getLast? ≠ some 0 := by
  have hbelow : ∀ c ∈ cs, BelowRadix (10 : UInt32).toNat c := fun c hc => belowRadix_ten (h c hc)
  obtain ⟨out, hout, hmag, hlast⟩ := readDigits_below (by decide) hbelow hds
  exact ⟨out, hout, hmag.trans (readFrom_ten h (mag ds)), hlast⟩

end MaiFaSp.BigInt
