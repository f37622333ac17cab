import MaiFaSp.BigInt.DecimalRoundTrip

/-!
# `big_int`: numerals of every radix (`big_int.cpp:23-38, 53-100`)

The constructor accepts an optional sign and any number of digits below the radix, in either
case of letters, and rejects everything else.
-/

namespace MaiFaSp.BigInt

/-! ### Numerals -/

def numeralValue (radix : ℕ) (ds : List Char) : ℕ := readFrom radix ds 0

/-- An optional sign followed by digits below the radix. -/
def IsNumeral (radix : ℕ) (num : List Char) (sign : Sign) (ds : List Char) : Prop :=
  num = sign.text ++ ds ∧ ∀ c ∈ ds, BelowRadix radix c

def Sign.apply (sign : Sign) (n : ℕ) : ℤ := if sign = .minus then -(n : ℤ) else n

/-! ### Leading zeros -/

theorem below_zero {radix : ℕ} (hr : 0 < radix) : BelowRadix radix '0' := ⟨0, rfl, hr⟩

/-- Skipping zeros leaves the value and whether all characters are digits. -/
theorem skipZeros_spec {radix : ℕ} (hr : 0 < radix) (cs : List Char) :
    ((∀ c ∈ skipZeros cs, BelowRadix radix c) ↔ ∀ c ∈ cs, BelowRadix radix c) ∧
      numeralValue radix (skipZeros cs) = numeralValue radix cs := by
  induction cs with
  | nil => exact ⟨Iff.rfl, rfl⟩
  | cons c cs ih =>
    unfold skipZeros
    split
    case isTrue h =>
      obtain ⟨hall, hval⟩ := ih
      rw [h.2]
      refine ⟨?_, ?_⟩
      · rw [hall, List.forall_mem_cons]
        exact ⟨fun hcs => ⟨below_zero hr, hcs⟩, fun hcs => hcs.2⟩
      · rw [hval]
        show _ = readFrom radix cs (0 * radix + 0)
        rw [Nat.zero_mul]
        rfl
    case isFalse h => exact ⟨Iff.rfl, rfl⟩

theorem skipZeros_head (cs : List Char) :
    skipZeros cs = [] ∨ skipZeros cs = ['0'] ∨ ∃ c ds, skipZeros cs = c :: ds ∧ c ≠ '0' := by
  induction cs with
  | nil => exact .inl rfl
  | cons c cs ih =>
    unfold skipZeros
    split
    case isTrue h => exact ih
    case isFalse h =>
      by_cases hc : c = '0'
      · have hcs : cs = [] := by
          by_contra hne
          exact h ⟨hne, hc⟩
        rw [hc, hcs]
        exact .inr (.inl rfl)
      · exact .inr (.inr ⟨c, cs, rfl, hc⟩)

/-! ### The constructor -/

/-- What the constructor makes of the characters behind the sign. -/
def readBehind (positive : Bool) (radix : UInt32) (cs : List Char) : Except ParseFault BigInt :=
  if skipZeros cs = [] ∨ skipZeros cs = ['0'] then pure ⟨true, [0]⟩
  else do
    let digits ← readDigits radix (skipZeros cs) []
    pure ⟨positive, digits⟩

theorem readBehind_below (positive : Bool) {radix : UInt32} (hr : 0 < radix.toNat)
    {cs : List Char} (h : ∀ c ∈ cs, BelowRadix radix.toNat c) :
    ∃ x, readBehind positive radix cs = .ok x ∧ Canonical x ∧
      x.toInt = signum positive * numeralValue radix.toNat cs := by
  obtain ⟨hall, hval⟩ := skipZeros_spec hr cs
  have hskip := hall.mpr h
  rw [← hval]
  unfold readBehind
  rcases skipZeros_head cs with hnil | hzero | ⟨c, ds, hcs, hc⟩
  · rw [hnil, if_pos (.inl rfl)]
    refine ⟨_, rfl, ⟨by decide, by decide, by decide⟩, ?_⟩
    show (0 : ℤ) = signum positive * (0 : ℕ)
    simp
  · rw [hzero, if_pos (.inr rfl)]
    refine ⟨_, rfl, ⟨by decide, by decide, by decide⟩, ?_⟩
    show (0 : ℤ) = signum positive * (0 * radix.toNat + 0 : ℕ)
    simp
  · have hne : ¬ (skipZeros cs = [] ∨ skipZeros cs = ['0']) := by
      rw [hcs]
      simp [hc]
    rw [if_neg hne]
    obtain ⟨out, hout, hmag, hlast⟩ := readDigits_below hr hskip
      (show ([] : List UInt32).getLast? ≠ some 0 by simp)
    have hpos : 0 < mag out := by
      obtain ⟨v, hv, -⟩ := hskip c (by rw [hcs]; exact List.mem_cons_self)
      have hvpos : 0 < v := by
        refine Nat.pos_of_ne_zero (fun h0 => hc (eq_zero_of_digitValue ?_))
        rw [hv, h0]
      have hle : v ≤ readFrom radix.toNat ds v := le_readFrom hr ds v
      have hfirst : mag out = readFrom radix.toNat ds v := by
        rw [hmag, hcs]
        show readFrom _ ds (0 * radix.toNat + (digitValue c).getD 0) = _
        rw [hv, Nat.zero_mul, Nat.zero_add]
        rfl
      omega
    refine ⟨⟨positive, out⟩, ?_, ⟨?_, fun _ => hlast, fun hz => ?_⟩, ?_⟩
    · rw [hout]
      rfl
    · intro hnil
      have hnil' : out = [] := hnil
      rw [hnil', mag_nil] at hpos
      exact lt_irrefl 0 hpos
    · exact absurd (mag_eq_zero_of_isZero _ hz) hpos.ne'
    · rw [toInt_eq]
      dsimp only
      rw [hmag]
      rfl

theorem readBehind_invalid {positive : Bool} {radix : UInt32} (hr : 0 < radix.toNat)
    {cs : List Char} (h : ¬ ∀ c ∈ cs, BelowRadix radix.toNat c) :
    ∃ what, readBehind positive radix cs = .error (.invalidArgument what) := by
  have hskip : ¬ ∀ c ∈ skipZeros cs, BelowRadix radix.toNat c :=
    fun hall => h ((skipZeros_spec hr cs).1.mp hall)
  have hne : ¬ (skipZeros cs = [] ∨ skipZeros cs = ['0']) := by
    rintro (hnil | hzero)
    · exact hskip (by rw [hnil]; exact fun c hc => absurd hc List.not_mem_nil)
    · refine hskip (fun c hc => ?_)
      rw [hzero, List.mem_singleton] at hc
      exact hc ▸ below_zero hr
  obtain ⟨what, hwhat⟩ := readDigits_invalid hskip []
  refine ⟨what, ?_⟩
  rw [readBehind, if_neg hne, hwhat]
  rfl

/-- The sign and what lies behind it. -/
def splitSign : List Char → Sign × List Char
  | [] => (.absent, [])
  | c :: cs => if c = '-' then (.minus, cs) else if c = '+' then (.plus, cs) else (.absent, c :: cs)

theorem splitSign_text (num : List Char) : (splitSign num).1.text ++ (splitSign num).2 = num := by
  cases num with
  | nil => rfl
  | cons c cs =>
    rw [splitSign]
    by_cases hminus : c = '-'
    · rw [if_pos hminus, hminus]
      rfl
    · rw [if_neg hminus]
      by_cases hplus : c = '+'
      · rw [if_pos hplus, hplus]
        rfl
      · rw [if_neg hplus]
        rfl

theorem ofString_eq {num : List Char} (hne : num ≠ []) {radix : UInt32}
    (h2 : 2 ≤ radix) (h36 : radix ≤ 36) :
    ofString num radix = readBehind ((splitSign num).1 ≠ .minus) radix (splitSign num).2 := by
  cases num with
  | nil => exact absurd rfl hne
  | cons c cs =>
    have hrange : ¬ (radix < 2 ∨ radix > 36) := by
      rw [not_or]
      exact ⟨UInt32.not_lt.mpr h2, UInt32.not_lt.mpr h36⟩
    unfold ofString splitSign
    rw [if_neg hrange]
    by_cases hminus : c = '-'
    · simp only [hminus, true_or, if_true]
      rfl
    · by_cases hplus : c = '+'
      · simp only [hplus, or_true, if_true]
        rfl
      · simp only [hminus, hplus, or_self, if_false, ne_eq, not_false_eq_true, decide_true]
        rfl

theorem splitSign_of_numeral {radix : ℕ} {num ds : List Char} {sign : Sign}
    (h : IsNumeral radix num sign ds) : splitSign num = (sign, ds) := by
  obtain ⟨rfl, hds⟩ := h
  cases sign with
  | minus => rfl
  | plus => rfl
  | absent =>
    cases ds with
    | nil => rfl
    | cons c cs =>
      obtain ⟨v, hv, -⟩ := hds c List.mem_cons_self
      have hminus : c ≠ '-' := by
        rintro rfl
        cases hv
      have hplus : c ≠ '+' := by
        rintro rfl
        cases hv
      show splitSign (c :: cs) = _
      rw [splitSign, if_neg hminus, if_neg hplus]

/-- The constructor reads exactly the numerals of the radix, as their values. -/
theorem radix_text_read (radix : UInt32) (num : List Char) (h2 : 2 ≤ radix) (h36 : radix ≤ 36)
    (hne : num ≠ []) :
    ((∃ x, ofString num radix = .ok x) ↔ ∃ sign ds, IsNumeral radix.toNat num sign ds) ∧
      (∀ sign ds, IsNumeral radix.toNat num sign ds →
        ∃ x, ofString num radix = .ok x ∧ Canonical x ∧
          x.toInt = sign.apply (numeralValue radix.toNat ds)) ∧
      ((¬ ∃ sign ds, IsNumeral radix.toNat num sign ds) →
        ∃ what, ofString num radix = .error (.invalidArgument what)) := by
  have hr : 0 < radix.toNat := by
    have hle := UInt32.le_iff_toNat_le.mp h2
    exact lt_of_lt_of_le (by decide) hle
  have hread : ∀ sign ds, IsNumeral radix.toNat num sign ds →
      ∃ x, ofString num radix = .ok x ∧ Canonical x ∧
        x.toInt = sign.apply (numeralValue radix.toNat ds) := by
    intro sign ds h
    obtain ⟨x, hx, hc, hv⟩ := readBehind_below (decide (sign ≠ .minus)) hr h.2
    refine ⟨x, ?_, hc, ?_⟩
    · rw [ofString_eq hne h2 h36, splitSign_of_numeral h]
      exact hx
    · rw [hv, Sign.apply, signum]
      cases sign <;> simp
  have hreject : (¬ ∃ sign ds, IsNumeral radix.toNat num sign ds) →
      ∃ what, ofString num radix = .error (.invalidArgument what) := by
    intro h
    rw [ofString_eq hne h2 h36]
    refine readBehind_invalid hr (fun hall => h ?_)
    exact ⟨_, _, (splitSign_text num).symm, hall⟩
  refine ⟨⟨?_, ?_⟩, hread, hreject⟩
  · rintro ⟨x, hx⟩
    by_contra hnone
    obtain ⟨what, hwhat⟩ := hreject hnone
    rw [hwhat] at hx
    cases hx
  · rintro ⟨sign, ds, h⟩
    obtain ⟨x, hx, -, -⟩ := hread sign ds h
    exact ⟨x, hx⟩

theorem radix_text_read_hex :
    (∃ x, ofString ['-', '0', 'f', 'F'] 16 = .ok x ∧ Canonical x ∧ x.toInt = -255) ∧
      ∃ what, ofString ['+', '-', '7'] 8 = .error (.invalidArgument what) := by
  refine ⟨?_, ?_⟩
  · obtain ⟨-, hread, -⟩ :=
      radix_text_read 16 ['-', '0', 'f', 'F'] (by decide) (by decide) (by decide)
    refine hread .minus ['0', 'f', 'F'] ⟨rfl, ?_⟩
    simp only [List.forall_mem_cons, List.not_mem_nil, false_imp_iff, implies_true, and_true]
    exact ⟨⟨0, rfl, by decide⟩, ⟨15, rfl, by decide⟩, ⟨15, rfl, by decide⟩⟩
  · obtain ⟨-, -, hreject⟩ :=
      radix_text_read 8 ['+', '-', '7'] (by decide) (by decide) (by decide)
    refine hreject ?_
    rintro ⟨sign, ds, h⟩
    have hsplit : (Sign.plus, ['-', '7']) = (sign, ds) := splitSign_of_numeral h
    obtain ⟨-, rfl⟩ := Prod.mk.inj hsplit
    obtain ⟨v, hv, -⟩ := h.2 '-' List.mem_cons_self
    cases hv

end MaiFaSp.BigInt
