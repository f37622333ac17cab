import MaiFaSp.BigInt.Numerals

/-!
# Decimal strings there and back

`to_string` writes the decimal numeral of the digits that the long division visits, and
the constructor reads a numeral exactly. So a number comes back from its string, and a
numeral from the number read, just when the division visits all digits of the number.
-/

namespace MaiFaSp.BigInt

open DecimalText

/-! ### Reading -/

inductive Sign where
  | absent
  | plus
  | minus
  deriving Repr, DecidableEq

def Sign.text : Sign → List Char
  | absent => []
  | plus => ['+']
  | minus => ['-']

/-- The numeral without a plus sign, leading zeros and the sign of zero. -/
def normalText (sign : Sign) (ds : List Char) : List Char :=
  if sign = .minus ∧ stripZeros ds ≠ ['0'] then '-' :: stripZeros ds else stripZeros ds

theorem sign_ne_of_digit {c : Char} (h : c.isDigit = true) : c ≠ '-' ∧ c ≠ '+' := by
  refine ⟨?_, ?_⟩ <;> rintro rfl <;> exact absurd h (by decide)

theorem stripZeros_eq_zero_iff {ds : List Char} (h : Digits ds) :
    stripZeros ds = ['0'] ↔ valueOf ds = 0 := by
  rw [← toDigits_valueOf ds h]
  constructor
  · intro he
    have hv := congrArg valueOf he
    rw [valueOf_toDigits] at hv
    exact hv
  · intro h0
    rw [h0]
    rfl

theorem digits_stripZeros {ds : List Char} (h : Digits ds) : Digits (stripZeros ds) := by
  rw [← toDigits_valueOf ds h]
  exact digits_toDigits _

theorem valueOf_stripZeros {ds : List Char} (h : Digits ds) :
    valueOf (stripZeros ds) = valueOf ds := by
  rw [← toDigits_valueOf ds h, valueOf_toDigits]

/-- What the constructor makes of the characters behind the sign. -/
def readView (positive : Bool) (view : List Char) : Except ParseFault BigInt :=
  if view = [] ∨ view = ['0'] then pure ⟨true, [0]⟩
  else do
    let digits ← readDigits 10 view []
    pure ⟨positive, digits⟩

theorem ofString_text (sign : Sign) {ds : List Char} (hne : ds ≠ []) (h : Digits ds) :
    ofString (sign.text ++ ds) 10 = readView (sign ≠ .minus) (stripZeros ds) := by
  rw [← skipZeros_eq hne]
  cases sign with
  | absent =>
    cases ds with
    | nil => exact absurd rfl hne
    | cons c cs =>
      obtain ⟨hminus, hplus⟩ := sign_ne_of_digit (digits_cons h).1
      unfold ofString
      rw [if_neg (by decide)]
      simp only [Sign.text, List.nil_append]
      rw [if_neg (not_or.mpr ⟨hminus, hplus⟩), decide_eq_true hminus]
      rfl
  | plus => rfl
  | minus => rfl

theorem readView_spec (positive : Bool) {ds : List Char} (h : Digits ds) :
    ∃ y, readView positive (stripZeros ds) = .ok y ∧ Canonical y ∧
      y.sign = (positive || decide (valueOf ds = 0)) ∧ mag y.digits = valueOf ds := by
  have hne : stripZeros ds ≠ [] := by
    rw [← toDigits_valueOf ds h]
    exact Nat.toDigits_ne_nil
  unfold readView
  by_cases h0 : valueOf ds = 0
  · rw [if_pos (Or.inr ((stripZeros_eq_zero_iff h).mpr h0)), h0]
    refine ⟨_, rfl, ⟨by decide, by decide, by decide⟩, ?_, rfl⟩
    exact (Bool.or_true positive).symm
  · have hzero : stripZeros ds ≠ ['0'] := fun he => h0 ((stripZeros_eq_zero_iff h).mp he)
    rw [if_neg (not_or.mpr ⟨hne, hzero⟩)]
    have hnil : ([] : List UInt32).getLast? ≠ some 0 := by simp
    obtain ⟨out, hout, hmag, hlast⟩ := readDigits_decimal (digits_stripZeros h) hnil
    have hval : mag out = valueOf ds := hmag.trans (valueOf_stripZeros h)
    refine ⟨⟨positive, out⟩, ?_, ⟨?_, fun _ => hlast, fun hz => ?_⟩, ?_, hval⟩
    · rw [hout]
      rfl
    · intro hnil
      have hnil' : out = [] := hnil
      rw [hnil', mag_nil] at hval
      exact h0 hval.symm
    · exact absurd (hval.symm.trans (mag_eq_zero_of_isZero _ hz)) h0
    · rw [decide_eq_false h0, Bool.or_false]

theorem ofString_spec (sign : Sign) {ds : List Char} (hne : ds ≠ []) (h : Digits ds) :
    ∃ y, ofString (sign.text ++ ds) 10 = .ok y ∧ Canonical y ∧
      y.sign = (decide (sign ≠ .minus) || decide (valueOf ds = 0)) ∧
      mag y.digits = valueOf ds := by
  rw [ofString_text sign hne h]
  exact readView_spec _ h

/-! ### Writing -/

theorem visited_eq_iff {x : BigInt} (hx : Canonical x) :
    visited x = mag x.digits ↔ x.digits.length < 2 ^ 31 := by
  refine ⟨fun he => ?_, visited_of_lt⟩
  by_contra hlen
  have hk := scanLen_lt x.digits.length
  have hpos : 1 ≤ mag x.digits := by
    obtain ⟨k, hl⟩ : ∃ k, x.digits.length = k + 2 := ⟨x.digits.length - 2, by omega⟩
    exact (Nat.pow_pos BASE_pos).trans_le (hx.pow_le_mag k hl)
  have hlt := quotient_take_lt hx (scanLen x.digits.length) 1 (by omega) one_pos hpos (by omega)
  rw [Nat.div_one, Nat.div_one] at hlt
  unfold visited at he
  omega

theorem ten_spec : Canonical (ofNum 10) ∧ (ofNum 10).sign = true ∧ mag (ofNum 10).digits = 10 := by
  obtain ⟨hs, hm, -⟩ := ofNum_spec 10 (by decide)
  exact ⟨canonical_ofNum 10, hs, hm⟩

/-- One turn of `to_string`: the last decimal digit and the quotient. -/
theorem turn_values {x : BigInt} (hx : Canonical x) (hs : x.sign = true)
    (hz : ¬ x.isZero = true) :
    ∃ r q, moduloAssign x (ofNum 10) = .ok r ∧ divideAssign x (ofNum 10) = .ok q ∧
      Canonical r ∧ mag r.digits = visited x % 10 ∧
      Canonical q ∧ q.sign = true ∧ mag q.digits = visited x / 10 := by
  obtain ⟨hten, hts, htm⟩ := ten_spec
  have htz : ¬ (ofNum 10).isZero = true := fun h => by
    have h0 := hten.isZero_iff.mp h
    omega
  obtain ⟨r, q, hr, hq, hrc, hrm, hqc, hqs, hqm⟩ :=
    one_digit_turn hx hz hten htz (hten.length_le 1 one_pos (by rw [htm]; decide))
  rw [htm] at hrm hqm
  exact ⟨r, q, hr, hq, hrc, hrm, hqc, hqs (hs.trans hts.symm), hqm⟩

theorem decimalChar_eq {r : BigInt} (hr : Canonical r) {n : ℕ} (h : mag r.digits = n) (hn : n < 10) :
    decimalChar r = .ok (Nat.digitChar n) := by
  have hlen := hr.length_le 1 one_pos (by rw [h]; exact hn.trans (by decide))
  have hpos := hr.length_pos
  obtain ⟨d, hd⟩ := List.length_eq_one_iff.mp (Nat.le_antisymm hlen hpos)
  have hval : d.toNat = n := by
    rw [hd, mag_cons, mag_nil] at h
    exact h
  unfold decimalChar
  rw [hd]
  dsimp only
  rw [hval]
  interval_cases n <;> rfl

/-- The digits that the loop appends for `n`, the last one first. -/
def appended (n : ℕ) : List Char := if n = 0 then [] else (Nat.toDigits 10 n).reverse

theorem cons_appended (n : ℕ) :
    Nat.digitChar (n % 10) :: appended (n / 10) = (Nat.toDigits 10 n).reverse := by
  rw [Nat.toDigits_eq_if (by decide), appended]
  by_cases hn : n < 10
  · rw [if_pos hn, if_pos (Nat.div_eq_of_lt hn), Nat.mod_eq_of_lt hn]
    rfl
  · rw [if_neg hn, if_neg (by omega), List.reverse_append]
    rfl

theorem appended_of_ne {n : ℕ} (h : n ≠ 0) :
    appended n = Nat.digitChar (n % 10) :: appended (n / 10) := by
  rw [cons_appended, appended, if_neg h]

theorem toStringLoop_turn {x : BigInt} (hx : Canonical x) (hs : x.sign = true)
    (hz : ¬ x.isZero = true) (turns : ℕ) (res : List Char) :
    ∃ q, toStringLoop (turns + 1) x res =
        toStringLoop turns q (res ++ [Nat.digitChar (visited x % 10)]) ∧
      Canonical q ∧ q.sign = true ∧ mag q.digits = visited x / 10 := by
  obtain ⟨r, q, hr, hq, hrc, hrm, hqc, hqs, hqm⟩ := turn_values hx hs hz
  refine ⟨q, ?_, hqc, hqs, hqm⟩
  rw [toStringLoop, if_neg hz, hr]
  show (decimalChar r >>= fun c => divideAssign x (ofNum 10) >>= fun tmp =>
    toStringLoop turns tmp (res ++ [c])) = _
  rw [decimalChar_eq hrc hrm (Nat.mod_lt _ (by decide)), hq]
  rfl

theorem toStringLoop_eq {x : BigInt} (hx : Canonical x) (hs : x.sign = true)
    (hlen : x.digits.length < 2 ^ 31) {turns : ℕ} (hturns : mag x.digits ≤ turns)
    (res : List Char) :
    toStringLoop turns x res = .ok (some (res ++ appended (mag x.digits))) := by
  induction turns generalizing x res with
  | zero =>
    have h0 : mag x.digits = 0 := Nat.le_zero.mp hturns
    rw [toStringLoop, if_pos (hx.isZero_iff.mpr h0), h0, appended, if_pos rfl, List.append_nil]
    rfl
  | succ turns ih =>
    by_cases hz : x.isZero = true
    · rw [toStringLoop, if_pos hz, hx.isZero_iff.mp hz, appended, if_pos rfl, List.append_nil]
      rfl
    · have hne : mag x.digits ≠ 0 := fun h => hz (hx.isZero_iff.mpr h)
      obtain ⟨q, hstep, hqc, hqs, hqm⟩ := toStringLoop_turn hx hs hz turns res
      rw [visited_of_lt hlen] at hstep hqm
      have hqlen : q.digits.length ≤ x.digits.length := by
        refine hqc.length_le _ hx.length_pos ?_
        rw [hqm]
        exact (Nat.div_le_self _ _).trans_lt (mag_lt _)
      rw [hstep, ih hqc hqs (hqlen.trans_lt hlen) (by omega), hqm, appended_of_ne hne,
        List.append_assoc]
      rfl

/-- `to_string` writes the numeral of the digits visited, and the sign. -/
theorem toString_eq {x : BigInt} (hx : Canonical x) :
    toString x = .ok (some ((if x.sign then [] else ['-']) ++ Nat.toDigits 10 (visited x))) := by
  unfold toString
  by_cases hz : x.isZero = true
  · have h0 : visited x = 0 := Nat.le_zero.mp ((visited_le x).trans_eq (hx.isZero_iff.mp hz))
    rw [if_pos hz, h0, hx.zeroPositive hz]
    rfl
  · rw [if_neg hz]
    have hxp := canonical_withSign hx hz true
    obtain ⟨q, hstep, hqc, hqs, hqm⟩ :=
      toStringLoop_turn hxp rfl hz (mag x.digits) []
    have hvis : visited { x with sign := true } = visited x := rfl
    rw [hvis] at hstep hqm
    have hqlen : q.digits.length < 2 ^ 31 := by
      refine length_lt_of_visited hqc x.digits.length ?_
      rw [hqm]
      exact (Nat.div_le_self _ _).trans_lt (mag_take_lt x.digits _)
    have hle : mag q.digits ≤ mag x.digits := by
      rw [hqm]
      exact (Nat.div_le_self _ _).trans (visited_le x)
    have hres : toStringLoop (mag x.digits + 1) { x with sign := true } [] =
        .ok (some (Nat.toDigits 10 (visited x)).reverse) := by
      rw [hstep, toStringLoop_eq hqc hqs hqlen hle, hqm, List.nil_append, List.singleton_append,
        cons_appended]
    rw [hres]
    simp only [bind, Except.bind, pure, Except.pure, Option.map_some]
    cases x.sign with
    | true => rw [if_pos rfl, if_pos rfl, List.reverse_reverse, List.nil_append]
    | false =>
      rw [if_neg Bool.false_ne_true, if_neg Bool.false_ne_true, List.reverse_append,
        List.reverse_reverse]
      rfl

/-! ### Round trips -/

theorem toDigits_inj {m n : ℕ} (h : Nat.toDigits 10 m = Nat.toDigits 10 n) : m = n := by
  rw [← valueOf_toDigits m, h, valueOf_toDigits]

theorem not_equals_of_length {x y : BigInt} (h : x.digits.length ≠ y.digits.length) :
    equals x y = false := by
  unfold equals spaceship
  rw [decide_eq_false_iff_not]
  by_cases hs : x.sign = y.sign
  · rw [if_neg (not_not.mpr hs), if_pos h]
    split
    · exact fun he => h (compare_eq_iff_eq.mp he)
    · exact fun he => h (compare_eq_iff_eq.mp he).symm
  · rw [if_pos hs]
    split <;> exact nofun

/-- The number that the string of `x` gives back has the magnitude that was visited. -/
theorem read_toString {x : BigInt} (hx : Canonical x) :
    ∃ s y, toString x = .ok (some s) ∧ ofString s 10 = .ok y ∧ Canonical y ∧
      mag y.digits = visited x ∧ (visited x ≠ 0 → y.sign = x.sign) := by
  have htext : (if x.sign then [] else ['-']) = (if x.sign then Sign.absent else .minus).text := by
    cases x.sign <;> rfl
  obtain ⟨y, hy, hyc, hys, hym⟩ := ofString_spec (if x.sign then .absent else .minus)
    Nat.toDigits_ne_nil (digits_toDigits (visited x))
  rw [valueOf_toDigits] at hys hym
  refine ⟨_, y, toString_eq hx, ?_, hyc, hym, fun h0 => ?_⟩
  · rw [htext]
    exact hy
  · rw [hys, decide_eq_false h0, Bool.or_false]
    cases x.sign <;> rfl

theorem string_round_trip_iff {x : BigInt} (hx : Canonical x) :
    (∃ s y, toString x = .ok (some s) ∧ ofString s 10 = .ok y ∧ equals y x = true) ↔
      x.digits.length < 2 ^ 31 := by
  obtain ⟨s, y, hs, hy, hyc, hym, hsign⟩ := read_toString hx
  constructor
  · rintro ⟨s', y', hs', hy', he⟩
    rw [hs, Except.ok.injEq, Option.some.injEq] at hs'
    rw [← hs', hy, Except.ok.injEq] at hy'
    rw [← hy'] at he
    by_contra hlen
    have hshort : y.digits.length < 2 ^ 31 := by
      refine length_lt_of_visited hyc x.digits.length ?_
      rw [hym]
      exact mag_take_lt x.digits _
    have hne := not_equals_of_length (x := y) (y := x) (by omega)
    rw [he] at hne
    cases hne
  · intro hlen
    rw [visited_of_lt hlen] at hym hsign
    refine ⟨s, y, hs, hy, equals_of_toInt hyc hx ?_⟩
    rw [toInt_eq, toInt_eq, hym]
    by_cases h0 : mag x.digits = 0
    · rw [h0, Nat.cast_zero, mul_zero, mul_zero]
    · rw [hsign h0]

theorem normalText_eq (sign : Sign) {ds : List Char} (h : Digits ds) :
    normalText sign ds =
      (if decide (sign ≠ .minus) || decide (valueOf ds = 0) then [] else ['-']) ++
        Nat.toDigits 10 (valueOf ds) := by
  rw [toDigits_valueOf ds h]
  unfold normalText
  by_cases h0 : valueOf ds = 0
  · have hz := (stripZeros_eq_zero_iff h).mpr h0
    rw [if_neg (fun hn => hn.2 hz), decide_eq_true h0, Bool.or_true, if_pos rfl, List.nil_append]
  · have hz : stripZeros ds ≠ ['0'] := fun he => h0 ((stripZeros_eq_zero_iff h).mp he)
    by_cases hs : sign = .minus
    · rw [if_pos ⟨hs, hz⟩, decide_eq_false h0, decide_eq_false (not_not.mpr hs)]
      rfl
    · rw [if_neg (fun hn => hs hn.1), decide_eq_true hs]
      rfl

theorem numeral_round_trip_iff (sign : Sign) {ds : List Char} (hne : ds ≠ []) (h : Digits ds) :
    (∃ y, ofString (sign.text ++ ds) 10 = .ok y ∧
        toString y = .ok (some (normalText sign ds))) ↔
      valueOf ds < BASE ^ (2 ^ 31 - 1) := by
  obtain ⟨y, hy, hyc, hys, hym⟩ := ofString_spec sign hne h
  have hlen : y.digits.length < 2 ^ 31 ↔ valueOf ds < BASE ^ (2 ^ 31 - 1) := by
    rw [← hym]
    generalize hn : 2 ^ 31 - 1 = n
    constructor
    · intro hlt
      exact (mag_lt _).trans_le (Nat.pow_le_pow_right BASE_pos (by omega))
    · intro hlt
      have := hyc.length_le n (by omega) hlt
      omega
  rw [← hlen, ← visited_eq_iff hyc]
  have htext := toString_eq hyc
  rw [hys] at htext
  constructor
  · rintro ⟨y', hy', ht⟩
    rw [hy, Except.ok.injEq] at hy'
    rw [← hy', htext, normalText_eq sign h, Except.ok.injEq, Option.some.injEq,
      List.append_cancel_left_eq] at ht
    rw [hym]
    exact toDigits_inj ht
  · intro hv
    refine ⟨y, hy, ?_⟩
    rw [htext, hv, hym, normalText_eq sign h]

/-- Both ways, for every canonical number and every numeral. -/
theorem decimal_round_trip_iff (x : BigInt) (hx : Canonical x) (sign : Sign) (ds : List Char)
    (hne : ds ≠ []) (h : Digits ds) :
    ((∃ s y, toString x = .ok (some s) ∧ ofString s 10 = .ok y ∧ equals y x = true) ↔
      x.digits.length < 2 ^ 31) ∧
    ((∃ y, ofString (sign.text ++ ds) 10 = .ok y ∧
        toString y = .ok (some (normalText sign ds))) ↔
      valueOf ds < BASE ^ (2 ^ 31 - 1)) :=
  ⟨string_round_trip_iff hx, numeral_round_trip_iff sign hne h⟩

theorem decimal_round_trip_small :
    (∃ s y, toString ⟨false, [7, 1]⟩ = .ok (some s) ∧ ofString s 10 = .ok y ∧
      equals y ⟨false, [7, 1]⟩ = true) ∧
    ((∃ y, ofString ['-', '0', '4', '2'] 10 = .ok y ∧
        toString y = .ok (some (normalText .minus ['0', '4', '2']))) ↔
      valueOf ['0', '4', '2'] < BASE ^ (2 ^ 31 - 1)) := by
  have hds : Digits ['0', '4', '2'] := by
    intro c hc
    simp only [List.mem_cons, List.not_mem_nil, or_false] at hc
    rcases hc with rfl | rfl | rfl <;> decide
  have hx : Canonical ⟨false, [7, 1]⟩ := ⟨by decide, by decide, by decide⟩
  obtain ⟨hnumber, hnumeral⟩ :=
    decimal_round_trip_iff ⟨false, [7, 1]⟩ hx .minus ['0', '4', '2'] (by decide) hds
  exact ⟨hnumber.mpr (by decide), hnumeral⟩

theorem visited_basePow_unseen (n : ℕ) (hn : scanLen (n + 1) = 0) : visited (basePow n) = 0 := by
  have hlen : (basePow n).digits.length = n + 1 := by simp [basePow]
  rw [visited, hlen, hn, List.take_zero, mag_nil]

theorem toString_basePow_unseen (n : ℕ) (hn : scanLen (n + 1) = 0) :
    toString (basePow n) = .ok (some ['0']) := by
  rw [toString_eq (canonical_basePow n), visited_basePow_unseen n hn]
  rfl

theorem zero_not_equals_basePow (n : ℕ) (hn : n ≠ 0) :
    equals ⟨true, [0]⟩ (basePow n) = false := by
  refine not_equals_of_length ?_
  have hlen : (basePow n).digits.length = n + 1 := by simp [basePow]
  rw [hlen, List.length_singleton]
  omega

/-- `BASE ^ (2^31)`, with `2^31 + 1` digits, is written as `0`. -/
theorem toString_digits_unseen :
    Canonical (basePow (2147483647 + 1)) ∧
      toString (basePow (2147483647 + 1)) = .ok (some ['0']) ∧
      ofString ['0'] 10 = .ok ⟨true, [0]⟩ ∧
      equals ⟨true, [0]⟩ (basePow (2147483647 + 1)) = false :=
  ⟨canonical_basePow _, toString_basePow_unseen _ scanLen_two_pow_31_succ, rfl,
    zero_not_equals_basePow _ (Nat.succ_ne_zero _)⟩

end MaiFaSp.BigInt
