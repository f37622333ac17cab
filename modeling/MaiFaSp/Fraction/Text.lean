import MaiFaSp.Fraction.Components
import MaiFaSp.Fraction.Tokens

/-!
# `fraction`: text (`fraction.cpp:128-159`)

A fraction is written with the sign of its denominator in front, and read as two numbers that
`optimise` brings into canonical form twice. Both directions are exact as far as the `int`
counters of `big_int` reach.
-/

namespace MaiFaSp.BigFraction

open BigInt DecimalText Scanning

/-! ### `to_string` -/

/-- `stream << x` -/
def written (x : BigInt) : Except BigFractionFault (List Char) := do
  match ← raise (BigInt.toString x) with
  | some text => pure text
  | none => throw .diverged

/-- `to_string` -/
def toString (x : BigFraction) : Except BigFractionFault (List Char) := do
  let sign := if spaceship x.denominator (ofNum 0) = .lt then ['-'] else []
  let numerator ← written x.numerator
  let denominator ← written (abs x.denominator)
  pure (sign ++ numerator ++ '/' :: denominator)

/-! ### `operator>>` -/

/-- `big_int(text, 10)` -/
def parse (text : List Char) : Except BigFractionFault BigInt :=
  match ofString text 10 with
  | .ok x => pure x
  | .error fault => throw (.parse fault)

/-- One, unless the second group matched. -/
def parseDenominator : Option (List Char) → Except BigFractionFault BigInt
  | none => pure (ofNum 1)
  | some text => parse text

/-- `operator>>`: the fraction and what is left of the stream. -/
def read (turns : ℕ) (stream : List Char) : Except BigFractionFault (BigFraction × List Char) :=
  let word := extractWord stream
  match matchFraction word.1 with
  | none => throw (.invalidArgument "Invalid fraction format")
  | some (first, second) => do
    let numerator ← parse first
    let denominator ← parseDenominator second
    let obj ← construct turns numerator denominator
    let obj ← optimise turns obj
    pure (obj, word.2)

/-- With enough turns `y` is read, and the rest is left. -/
def Reads (stream : List Char) (y : BigFraction) (rest : List Char) : Prop :=
  ∃ enough, ∀ turns ≥ enough, read turns stream = .ok (y, rest)

/-- A word in a stream, behind blanks and before the end or a blank. -/
def InStream (word stream rest : List Char) : Prop :=
  ∃ blanks, (∀ c ∈ blanks, isSpace c = true) ∧ Stops (fun c => !isSpace c) rest ∧
    stream = blanks ++ word ++ rest

variable {x y : BigFraction} {stream rest : List Char}

/-! ### Words -/

theorem not_isSpace_of_isDigit {c : Char} (h : c.isDigit = true) : isSpace c = false := by
  have hc := (isDigit_iff c).mp h
  have hne : c ≠ ' ' := by
    intro hspace
    subst hspace
    exact absurd h (by decide)
  have hlow : ¬ c.toNat ≤ 13 := by omega
  simp [isSpace, hne, hlow]

theorem Numeral.not_isSpace (n : Numeral) : ∀ c ∈ n.text, isSpace c = false := by
  intro c hc
  obtain hc | hc := List.mem_append.mp hc
  · cases hs : n.sign with
    | absent =>
      rw [hs] at hc
      cases hc
    | plus =>
      rw [hs] at hc
      rw [List.mem_singleton.mp hc]
      decide
    | minus =>
      rw [hs] at hc
      rw [List.mem_singleton.mp hc]
      decide
  · exact not_isSpace_of_isDigit (n.decimal c hc)

theorem Token.not_isSpace (t : Token) : ∀ c ∈ t.text, isSpace c = false := by
  intro c hc
  obtain hc | hc := List.mem_append.mp hc
  · exact t.numerator.not_isSpace c hc
  · cases hd : t.denominator with
    | none =>
      rw [hd] at hc
      cases hc
    | some d =>
      rw [hd] at hc
      obtain rfl | hc := List.mem_cons.mp hc
      · decide
      · exact d.not_isSpace c hc

theorem Token.text_ne_nil (t : Token) : t.text ≠ [] := by
  simp [Token.text, Numeral.text, t.numerator.nonempty]

theorem parse_text (n : Numeral) :
    ∃ z, parse n.text = .ok z ∧ Canonical z ∧ z.toInt = n.value := by
  obtain ⟨z, hz, hzc, hzs, hzm⟩ := ofString_spec n.sign n.nonempty n.decimal
  refine ⟨z, ?_, hzc, ?_⟩
  · rw [parse, Numeral.text, hz]
    rfl
  · rw [toInt_eq, hzs, hzm, Numeral.value]
    by_cases h0 : valueOf n.digits = 0
    · simp [h0]
    · cases n.sign <;> simp [h0, signum]

theorem parseDenominator_text (t : Token) :
    ∃ z, parseDenominator (t.denominator.map Numeral.text) = .ok z ∧ Canonical z ∧
      z.toInt = t.denominatorValue := by
  unfold Token.denominatorValue
  cases t.denominator with
  | none => exact ⟨ofNum 1, rfl, canonical_ofNum 1, toInt_ofNum_one⟩
  | some d => exact parse_text d

/-- A word of two numbers is read as the fraction that they become. -/
theorem read_token (t : Token) (hstream : InStream t.text stream rest) :
    ∃ p, WellFormed p ∧ p.toFraction = ⟨t.numerator.value, t.denominatorValue⟩ ∧
      ∀ turns, read turns stream =
        (optimise turns p >>= optimise turns) >>= fun obj => pure (obj, rest) := by
  obtain ⟨blanks, hblanks, hrest, rfl⟩ := hstream
  have hword := extractWord_append hblanks t.not_isSpace t.text_ne_nil hrest
  obtain ⟨n, hn, hnc, hnv⟩ := parse_text t.numerator
  obtain ⟨d, hd, hdc, hdv⟩ := parseDenominator_text t
  refine ⟨⟨n, d⟩, ⟨hnc, hdc⟩, ?_, fun turns => ?_⟩
  · rw [toFraction, hnv, hdv]
  · unfold read
    rw [hword]
    dsimp only
    rw [matchFraction_text]
    dsimp only
    rw [hn, ok_bind, hd, ok_bind, construct, bind_assoc]

theorem reads_iff {p : BigFraction} (h : ∀ turns, read turns stream =
    (optimise turns p >>= optimise turns) >>= fun obj => pure (obj, rest)) :
    Reads stream y rest ↔ Becomes p y := by
  have hpair : ∀ r : Except BigFractionFault BigFraction,
      (r >>= fun obj => pure (obj, rest)) = .ok (y, rest) ↔ r = .ok y := by
    intro r
    cases r with
    | error fault => exact iff_of_false nofun nofun
    | ok z =>
      rw [ok_bind, Except.ok.injEq]
      show Except.ok (z, rest) = .ok (y, rest) ↔ z = y
      simp
  unfold Reads Becomes
  simp only [h, hpair]

/-! ### Reading words -/

/-- The canonical fraction of the value is read. -/
def Token.ReadExactly (t : Token) : Prop :=
  ∀ stream rest, InStream t.text stream rest → ∃ y, Reads stream y rest ∧ WellFormed y ∧
    Fraction.Canonical y.toFraction ∧
    Fraction.value y.toFraction = t.numerator.value / t.denominatorValue

/-- The numerator is zero, or the visited parts are in the proportion of the numbers. -/
def Token.Proportional (t : Token) : Prop :=
  t.numerator.value = 0 ∨ seenPart t.numerator.value.natAbs ≠ 0 ∧
    seenPart t.numerator.value.natAbs * t.denominatorValue.natAbs =
      seenPart t.denominatorValue.natAbs * t.numerator.value.natAbs

theorem proportional_iff {t : Token} {p : BigFraction} (hp : WellFormed p)
    (h : p.toFraction = ⟨t.numerator.value, t.denominatorValue⟩) :
    BigFraction.Proportional p ↔ t.Proportional := by
  have hn : p.numerator.toInt = t.numerator.value := congrArg Fraction.numerator h
  have hd : p.denominator.toInt = t.denominatorValue := congrArg Fraction.denominator h
  unfold BigFraction.Proportional Token.Proportional
  rw [visited_eq_seenPart hp.numerator, visited_eq_seenPart hp.denominator, ← natAbs_toInt,
    ← natAbs_toInt, hn, hd, Int.natAbs_eq_zero]

theorem inStream_self (word : List Char) : InStream word word [] :=
  ⟨[], by simp, stops_nil _, by simp⟩

theorem readExactly_iff (t : Token) (hd : t.denominatorValue ≠ 0) :
    t.ReadExactly ↔ t.Proportional := by
  constructor
  · intro h
    obtain ⟨p, hp, hval, hread⟩ := read_token t (inStream_self t.text)
    obtain ⟨y, hy, hyw, -, hyv⟩ := h t.text [] (inStream_self t.text)
    have hdz : ¬ p.denominator.isZero = true := by
      rw [← toInt_eq_zero_iff hp.denominator]
      exact fun h0 => hd ((congrArg Fraction.denominator hval).symm.trans h0)
    rw [← proportional_iff hp hval]
    refine proportional_of_becomes hp hdz ((reads_iff hread).mp hy) hyw ?_
    rw [hyv, hval]
    rfl
  · intro h stream rest hstream
    obtain ⟨p, hp, hval, hread⟩ := read_token t hstream
    have hdz : ¬ p.denominator.isZero = true := by
      rw [← toInt_eq_zero_iff hp.denominator]
      exact fun h0 => hd ((congrArg Fraction.denominator hval).symm.trans h0)
    obtain ⟨y, hy, hyw, -, hyc, hyv⟩ :=
      becomes_of_proportional hp hdz ((proportional_iff hp hval).mpr h)
    refine ⟨y, (reads_iff hread).mpr hy, hyw, hyc, ?_⟩
    rw [hyv, hval]
    rfl

/-! ### Writing and reading back -/

/-- What `to_string` writes is read as the fraction. -/
def ReadBack (x : BigFraction) : Prop :=
  ∃ text, toString x = .ok text ∧ ∀ stream rest, InStream text stream rest → Reads stream x rest

def numeralOf (sign : Sign) (n : ℕ) : Numeral :=
  ⟨sign, Nat.toDigits 10 n, Nat.toDigits_ne_nil, digits_toDigits n⟩

/-- The two numbers that `to_string` writes. -/
def tokenOf (x : BigFraction) : Token :=
  ⟨numeralOf (if x.denominator.sign then .absent else .minus) (visited x.numerator),
    some (numeralOf .absent (visited x.denominator))⟩

theorem numeralOf_text (sign : Sign) (n : ℕ) :
    (numeralOf sign n).text = sign.text ++ Nat.toDigits 10 n := rfl

theorem written_ok {z : BigInt} {text : List Char} (h : BigInt.toString z = .ok (some text)) :
    written z = .ok text := by
  rw [written, h]
  rfl

theorem written_eq {z : BigInt} (hz : Canonical z) (hs : z.sign = true) :
    written z = .ok (Nat.toDigits 10 (visited z)) := by
  apply written_ok
  rw [toString_eq hz, hs, if_pos rfl, List.nil_append]

theorem toString_ok {m n : List Char} (hm : written x.numerator = .ok m)
    (hn : written (abs x.denominator) = .ok n) :
    toString x =
      .ok ((if spaceship x.denominator (ofNum 0) = .lt then ['-'] else []) ++ m ++ '/' :: n) := by
  rw [toString, hm, ok_bind, hn]
  rfl

theorem sign_text (hx : WellFormed x) (hd : x.denominator.toInt ≠ 0) :
    (if spaceship x.denominator (ofNum 0) = .lt then ['-'] else []) =
      (if x.denominator.sign then Sign.absent else .minus).text := by
  cases hs : x.denominator.sign with
  | true =>
    have hpos : ¬ spaceship x.denominator (ofNum 0) = .lt := by
      rw [less_zero_iff hx.denominator, toInt_of_sign hs]
      omega
    rw [if_neg hpos]
    rfl
  | false =>
    have hneg : spaceship x.denominator (ofNum 0) = .lt := by
      rw [less_zero_iff hx.denominator]
      simp only [toInt, hs, Bool.false_eq_true, if_false] at hd ⊢
      omega
    rw [if_pos hneg]
    rfl

theorem toString_text (hx : WellFormed x) (hc : Fraction.Canonical x.toFraction) :
    toString x = .ok (tokenOf x).text := by
  have hnum := written_eq hx.numerator (hx.numerator.sign_of_nonneg hc.numerator_nonneg)
  have hden : written (abs x.denominator) = .ok (Nat.toDigits 10 (visited x.denominator)) := by
    rw [abs_eq hx.denominator, written_eq (canonical_abs hx.denominator) (abs_sign _), visited_abs]
  rw [toString_ok hnum hden, sign_text hx hc.denominator_ne, Token.text, tokenOf, Option.map_some,
    Option.getD_some, numeralOf_text, numeralOf_text, Sign.text, List.nil_append]

theorem value_numeralOf (sign : Sign) (n : ℕ) :
    (numeralOf sign n).value = if sign = .minus then -(n : ℤ) else n := by
  have hvalue := valueOf_toDigits n
  unfold numeralOf Numeral.value
  dsimp only
  rw [hvalue]

theorem value_tokenOf (x : BigFraction) :
    (tokenOf x).numerator.value = signum x.denominator.sign * visited x.numerator := by
  rw [tokenOf, value_numeralOf]
  generalize visited x.numerator = n
  cases x.denominator.sign <;> simp [signum]

theorem denominatorValue_tokenOf (x : BigFraction) :
    (tokenOf x).denominatorValue = visited x.denominator := by
  rw [Token.denominatorValue, tokenOf, Option.map_some, Option.getD_some, value_numeralOf]
  exact if_neg nofun

theorem short_of_tokenOf {p : BigFraction} (hp : WellFormed p)
    (h : p.toFraction = ⟨(tokenOf x).numerator.value, (tokenOf x).denominatorValue⟩) :
    Short p := by
  have hn : p.numerator.toInt = _ := congrArg Fraction.numerator h
  have hd : p.denominator.toInt = _ := congrArg Fraction.denominator h
  dsimp only at hn hd
  rw [value_tokenOf] at hn
  rw [denominatorValue_tokenOf] at hd
  constructor
  · apply length_lt_of_le_visited hp.numerator (b := x.numerator)
    rw [← natAbs_toInt, hn, Int.natAbs_mul, natAbs_signum, one_mul, Int.natAbs_natCast]
  · apply length_lt_of_le_visited hp.denominator (b := x.denominator)
    rw [← natAbs_toInt, hd, Int.natAbs_natCast]

theorem Becomes.denominator_ne (h : Becomes x y) (hx : WellFormed x) :
    ¬ x.denominator.isZero = true := by
  intro hz
  obtain ⟨enough, h⟩ := h
  have hfirst := h enough le_rfl
  rw [optimise, if_pos ((equals_zero_iff hx.denominator).mpr hz)] at hfirst
  cases hfirst

theorem value_sign_denominator (s : Bool) (m n : ℕ) :
    Fraction.value ⟨signum s * m, n⟩ = Fraction.value ⟨m, signum s * n⟩ := by
  unfold Fraction.value
  cases s
  · push_cast [signum]
    simp [neg_div, div_neg]
  · simp [signum]

/-- A canonical fraction is read back just when both numbers have fewer than `2^31` digits. -/
theorem readBack_iff (hx : WellFormed x) (hc : Fraction.Canonical x.toFraction) :
    ReadBack x ↔ Short x := by
  constructor
  · intro h
    obtain ⟨text, htext, hreads⟩ := h
    rw [toString_text hx hc, Except.ok.injEq] at htext
    subst htext
    obtain ⟨p, hp, hval, hread⟩ := read_token (tokenOf x) (inStream_self _)
    have hbecomes := (reads_iff hread).mp (hreads _ [] (inStream_self _))
    obtain ⟨y, hy, -, hys, -, -⟩ := becomes_of_proportional hp (hbecomes.denominator_ne hp)
      (short_of_tokenOf hp hval).proportional
    rw [hbecomes.unique hy]
    exact hys
  · intro hs
    refine ⟨_, toString_text hx hc, fun stream rest hstream => ?_⟩
    obtain ⟨p, hp, hval, hread⟩ := read_token (tokenOf x) hstream
    have hden : p.denominator.toInt = mag x.denominator.digits := by
      have h := congrArg Fraction.denominator hval
      dsimp only at h
      rw [denominatorValue_tokenOf, visited_of_lt hs.denominator] at h
      exact h
    have hdz : ¬ p.denominator.isZero = true := by
      have hne : x.denominator.toInt ≠ 0 := hc.denominator_ne
      rw [← toInt_eq_zero_iff hp.denominator, hden]
      rw [← Int.natAbs_ne_zero, natAbs_toInt] at hne
      exact_mod_cast hne
    obtain ⟨y, hy, hyw, -, hyc, hyv⟩ :=
      becomes_of_proportional hp hdz (short_of_tokenOf hp hval).proportional
    have hnum : x.numerator.toInt = mag x.numerator.digits :=
      toInt_of_sign (hx.numerator.sign_of_nonneg hc.numerator_nonneg)
    have hvalue : Fraction.value y.toFraction = Fraction.value x.toFraction := by
      rw [hyv, hval, value_tokenOf, denominatorValue_tokenOf, visited_of_lt hs.numerator,
        visited_of_lt hs.denominator, toFraction, hnum, toInt_eq x.denominator]
      exact value_sign_denominator _ _ _
    rw [← hyw.ext hx (hyc.ext hc hvalue)]
    exact (reads_iff hread).mpr hy

theorem Token.proportional_of_lt {t : Token}
    (hn : t.numerator.value.natAbs < BASE ^ (2 ^ 31 - 1))
    (hd : t.denominatorValue.natAbs < BASE ^ (2 ^ 31 - 1)) : t.Proportional := by
  unfold Token.Proportional
  rw [seenPart_of_lt hn, seenPart_of_lt hd]
  by_cases h0 : t.numerator.value = 0
  · exact Or.inl h0
  · exact Or.inr ⟨Int.natAbs_ne_zero.mpr h0, Nat.mul_comm _ _⟩

/-- Both ways, for every canonical fraction and every word with a denominator that is not zero. -/
theorem text_round_trip_iff (x : BigFraction) (hx : WellFormed x)
    (hc : Fraction.Canonical x.toFraction) (t : Token) (ht : t.denominatorValue ≠ 0) :
    (ReadBack x ↔ Short x) ∧ (t.ReadExactly ↔ t.Proportional) :=
  ⟨readBack_iff hx hc, readExactly_iff t ht⟩

theorem lt_of_lt_BASE {n : ℕ} (h : n < BASE) : n < BASE ^ (2 ^ 31 - 1) :=
  h.trans_le (Nat.le_self_pow (by decide) BASE)

/-- `-1/2`, and the word `-6/+04`. -/
theorem text_round_trip_half :
    ReadBack ⟨⟨true, [1]⟩, ⟨false, [2]⟩⟩ ∧
      Token.ReadExactly ⟨⟨.minus, ['6'], by decide, by decide⟩,
        some ⟨.plus, ['0', '4'], by decide, by decide⟩⟩ := by
  have hx : WellFormed ⟨⟨true, [1]⟩, ⟨false, [2]⟩⟩ :=
    ⟨⟨by decide, by decide, by decide⟩, ⟨by decide, by decide, by decide⟩⟩
  have hc : Fraction.Canonical (toFraction ⟨⟨true, [1]⟩, ⟨false, [2]⟩⟩) :=
    ⟨by decide, by decide, by decide, by decide⟩
  obtain ⟨hback, hword⟩ := text_round_trip_iff ⟨⟨true, [1]⟩, ⟨false, [2]⟩⟩ hx hc
    ⟨⟨.minus, ['6'], by decide, by decide⟩, some ⟨.plus, ['0', '4'], by decide, by decide⟩⟩
    (by decide)
  exact ⟨hback.mpr ⟨by decide, by decide⟩, hword.mpr
    (Token.proportional_of_lt (lt_of_lt_BASE (by decide)) (lt_of_lt_BASE (by decide)))⟩

/-! ### A number that is not seen -/

theorem read_zero : Reads ['0', '/', '1'] ⟨ofNum 0, ofNum 1⟩ [] := by
  obtain ⟨p, hp, hval, hread⟩ := read_token
    ⟨⟨.absent, ['0'], by decide, by decide⟩, some ⟨.absent, ['1'], by decide, by decide⟩⟩
    (inStream_self ['0', '/', '1'])
  have hn : p.numerator = ofNum 0 := by
    apply hp.numerator.ext (canonical_ofNum 0)
    rw [toInt_ofNum_zero]
    exact congrArg Fraction.numerator hval
  have hd : p.denominator.toInt = 1 := congrArg Fraction.denominator hval
  have hnz : p.numerator.isZero = true := by
    rw [← toInt_eq_zero_iff hp.numerator]
    exact congrArg Fraction.numerator hval
  have hdz : ¬ p.denominator.isZero = true := by
    rw [← toInt_eq_zero_iff hp.denominator, hd]
    decide
  rw [← hn]
  exact (reads_iff hread).mpr (becomes_zero hp hnz hdz)

theorem tokenOf_basePow {n : ℕ} (hn : scanLen (n + 1) = 0) :
    (tokenOf ⟨basePow n, ofNum 1⟩).text = ['0', '/', '1'] := by
  obtain ⟨hs, hm, hlen⟩ := ofNum_spec 1 (by decide)
  rw [Nat.cast_one] at hs hm hlen
  have hone : visited (ofNum 1) = 1 := by
    rw [visited_of_lt (hlen.trans_lt (by decide)), hm]
  rw [Token.text, tokenOf, Option.map_some, Option.getD_some, numeralOf_text, numeralOf_text,
    visited_basePow_unseen n hn, hone, hs]
  rfl

theorem basePow_canonical (n : ℕ) : Fraction.Canonical (toFraction ⟨basePow n, ofNum 1⟩) := by
  have hval : (basePow n).toInt = (BASE : ℤ) ^ n := by
    rw [toInt_of_sign rfl, mag_basePow, Nat.cast_pow]
  have hpos : (0 : ℤ) < (BASE : ℤ) ^ n := pow_pos (Int.natCast_pos.mpr BASE_pos) n
  unfold toFraction
  rw [hval, toInt_ofNum_one]
  exact ⟨hpos.le, one_ne_zero, Nat.coprime_one_right _, fun h => absurd h hpos.ne'⟩

theorem basePow_unseen {n : ℕ} (hn : scanLen (n + 1) = 0) (hlong : 2 ^ 31 ≤ n) :
    WellFormed ⟨basePow n, ofNum 1⟩ ∧ Fraction.Canonical (toFraction ⟨basePow n, ofNum 1⟩) ∧
      toString ⟨basePow n, ofNum 1⟩ = .ok ['0', '/', '1'] ∧
      Reads ['0', '/', '1'] ⟨ofNum 0, ofNum 1⟩ [] ∧ ¬ ReadBack ⟨basePow n, ofNum 1⟩ := by
  have hx : WellFormed ⟨basePow n, ofNum 1⟩ := ⟨canonical_basePow n, canonical_ofNum 1⟩
  have hc := basePow_canonical n
  refine ⟨hx, hc, ?_, read_zero, ?_⟩
  · rw [toString_text hx hc, tokenOf_basePow hn]
  · rw [readBack_iff hx hc]
    intro h
    have hlen := h.numerator
    simp only [basePow, List.length_append, List.length_replicate, List.length_singleton] at hlen
    omega

/-- `BASE ^ (2^31)` over one is written as `0/1`, which is read as zero. -/
theorem written_as_zero :
    WellFormed ⟨basePow (2147483647 + 1), ofNum 1⟩ ∧
      Fraction.Canonical (toFraction ⟨basePow (2147483647 + 1), ofNum 1⟩) ∧
      toString ⟨basePow (2147483647 + 1), ofNum 1⟩ = .ok ['0', '/', '1'] ∧
      Reads ['0', '/', '1'] ⟨ofNum 0, ofNum 1⟩ [] ∧
      ¬ ReadBack ⟨basePow (2147483647 + 1), ofNum 1⟩ :=
  basePow_unseen scanLen_two_pow_31_succ (by norm_num)

end MaiFaSp.BigFraction
