import MaiFaSp.BigInt.SumExact

/-!
# `big_int`: schoolbook and Karatsuba multiplication (`big_int.cpp:413-463, 567-569, 589-638`)

The result vector of the schoolbook loops is a list, and row `i` works on its
suffix from index `i`. An index past the end of that vector is the fault
`outOfBounds`; `mulRows_value` shows that it never happens.
-/

namespace MaiFaSp

/-- How a call can end other than by returning. -/
inductive Fault where
  | outOfBounds
  | wrapAround
  | logicError (what : String)
  deriving Repr, DecidableEq

abbrev Outcome := Except Fault

namespace BigInt

/-- `result[i + j] + carry + (unsigned long long) _digits[i] * other._digits[j]`. -/
def mulProd (d e r : UInt32) (carry : UInt64) : UInt64 :=
  r.toUInt64 + carry + d.toUInt64 * e.toUInt64

/-- The loop over `j`, on the suffix of the result from index `i`. It goes on
past the digits of `other` while there is a carry. -/
def mulRow (d : UInt32) : List UInt32 → List UInt32 → UInt64 → Outcome (List UInt32)
  | e :: es, r :: rs, carry => do
    let prod := mulProd d e r carry
    let rest ← mulRow d es rs (prod / base64)
    pure (lowDigit prod :: rest)
  | _ :: _, [], _ => throw .outOfBounds
  | [], r :: rs, carry =>
    if carry = 0 then pure (r :: rs)
    else do
      let prod := r.toUInt64 + carry
      let rest ← mulRow d [] rs (prod / base64)
      pure (lowDigit prod :: rest)
  | [], [], carry => if carry = 0 then pure [] else throw .outOfBounds

/-- The loop over `i`. -/
def mulRows (es : List UInt32) : List UInt32 → List UInt32 → Outcome (List UInt32)
  | [], rs => pure rs
  | d :: ds, rs => do
    match ← mulRow d es rs 0 with
    | [] => throw .outOfBounds
    | r :: rest => pure (r :: (← mulRows es ds rest))

/-- `_digits.clear(); _digits.push_back(0); optimise();` -/
def zeroed (x : BigInt) : BigInt := optimise ⟨x.sign, [0]⟩

/-- `multiply_assign` with the rule `trivial`. -/
def multiplyTrivial (x y : BigInt) : Outcome BigInt :=
  if y.isZero ∨ x.isZero then pure (zeroed x)
  else do
    let ds ← mulRows y.digits x.digits (List.replicate (x.digits.length + y.digits.length) 0)
    pure (optimise ⟨x.sign = y.sign, ds⟩)

/-! ### The loops compute the product -/

theorem mul_digits_lt (d e : UInt32) : d.toNat * e.toNat ≤ (BASE - 1) * (BASE - 1) := by
  have hd := digit_lt d
  have he := digit_lt e
  exact Nat.mul_le_mul (by omega) (by omega)

theorem mulProd_toNat (d e r : UInt32) (carry : UInt64) (hc : carry.toNat < BASE) :
    (mulProd d e r carry).toNat = r.toNat + carry.toNat + d.toNat * e.toNat := by
  have hm := mul_digits_lt d e
  have hr := digit_lt r
  simp only [BASE] at hm hr hc
  simp only [mulProd, UInt64.toNat_add, UInt64.toNat_mul, UInt32.toNat_toUInt64]
  generalize d.toNat * e.toNat = p at hm ⊢
  norm_num at hm ⊢
  omega

theorem mulProd_carry_lt (d e r : UInt32) (carry : UInt64) (hc : carry.toNat < BASE) :
    (mulProd d e r carry / base64).toNat < BASE := by
  have hm := mul_digits_lt d e
  have hr := digit_lt r
  rw [carry_toNat, mulProd_toNat d e r carry hc]
  rw [Nat.div_lt_iff_lt_mul BASE_pos]
  simp only [BASE] at hm hr hc ⊢
  generalize d.toNat * e.toNat = p at hm ⊢
  norm_num at hm hr hc ⊢
  omega

/-- A row adds `d * es * BASE ^ i` into the result, keeps its length and stays
inside it, as long as the sum fits. -/
theorem mulRow_value (d : UInt32) (es rs : List UInt32) (carry : UInt64)
    (hc : carry.toNat < BASE) (hl : es.length ≤ rs.length)
    (hfit : mag rs + carry.toNat + d.toNat * mag es < BASE ^ rs.length) :
    ∃ out, mulRow d es rs carry = .ok out ∧ out.length = rs.length ∧
      mag out = mag rs + carry.toNat + d.toNat * mag es := by
  induction rs generalizing es carry with
  | nil =>
    cases es with
    | cons e es => simp at hl
    | nil =>
      have h0 : carry.toNat = 0 := by simpa using hfit
      have hz : carry = 0 := UInt64.toNat_inj.mp h0
      exact ⟨[], by simp [mulRow, hz]; rfl, rfl, by simp [h0]⟩
  | cons r rs ih =>
    cases es with
    | nil =>
      by_cases hz : carry = 0
      · exact ⟨r :: rs, by simp [mulRow, hz]; rfl, rfl, by simp [hz]⟩
      · have hr := digit_lt r
        have hsum : (r.toUInt64 + carry).toNat = r.toNat + carry.toNat := by
          simp only [UInt64.toNat_add, UInt32.toNat_toUInt64]
          simp only [BASE] at hr hc
          omega
        have hnext : ((r.toUInt64 + carry) / base64).toNat < BASE := by
          rw [carry_toNat, hsum, Nat.div_lt_iff_lt_mul BASE_pos]
          simp only [BASE] at hr hc ⊢
          omega
        have hsplit := lowDigit_add_carry (r.toUInt64 + carry)
        simp only [mag_cons, mag_nil, mul_zero, add_zero, List.length_cons, pow_succ'] at hfit
        have hfit' : mag rs + ((r.toUInt64 + carry) / base64).toNat < BASE ^ rs.length := by
          apply Nat.lt_of_mul_lt_mul_left (a := BASE)
          rw [Nat.mul_add]
          omega
        obtain ⟨out, ho, hlen, hv⟩ := ih [] _ hnext (by simp) (by simpa using hfit')
        refine ⟨lowDigit (r.toUInt64 + carry) :: out, ?_, by simp [hlen], ?_⟩
        · simp only [mulRow, if_neg hz, ho]
          rfl
        · simp only [mag_nil, mul_zero, add_zero] at hv
          simp only [mag_cons, mag_nil, mul_zero, add_zero, hv, Nat.mul_add]
          omega
    | cons e es =>
      have hsum := mulProd_toNat d e r carry hc
      have hsplit := lowDigit_add_carry (mulProd d e r carry)
      have hsum' : (lowDigit (mulProd d e r carry)).toNat +
          BASE * (mulProd d e r carry / base64).toNat =
            r.toNat + carry.toNat + d.toNat * e.toNat := hsplit.trans hsum
      have heq : mag (r :: rs) + carry.toNat + d.toNat * mag (e :: es) =
          (lowDigit (mulProd d e r carry)).toNat +
            BASE * (mag rs + (mulProd d e r carry / base64).toNat + d.toNat * mag es) := by
        simp only [mag_cons]
        linear_combination -hsum'
      rw [heq, List.length_cons, pow_succ'] at hfit
      have hfit' : mag rs + (mulProd d e r carry / base64).toNat + d.toNat * mag es <
          BASE ^ rs.length := by
        apply Nat.lt_of_mul_lt_mul_left (a := BASE)
        omega
      obtain ⟨out, ho, hlen, hv⟩ := ih es _ (mulProd_carry_lt d e r carry hc)
        (by simpa using hl) hfit'
      refine ⟨lowDigit (mulProd d e r carry) :: out, ?_, by simp [hlen], ?_⟩
      · simp only [mulRow, ho]
        rfl
      · rw [heq, mag_cons, hv]

theorem mulRows_value (es ds rs : List UInt32) (hl : rs.length = ds.length + es.length)
    (hfit : mag rs + mag ds * mag es < BASE ^ rs.length) :
    ∃ out, mulRows es ds rs = .ok out ∧ out.length = rs.length ∧
      mag out = mag rs + mag ds * mag es := by
  induction ds generalizing rs with
  | nil => exact ⟨rs, rfl, rfl, by simp⟩
  | cons d ds ih =>
    have hexp : mag rs + mag (d :: ds) * mag es =
        (mag rs + d.toNat * mag es) + BASE * (mag ds * mag es) := by
      rw [mag_cons]
      ring
    obtain ⟨row, hrow, hlen, hv⟩ := mulRow_value d es rs 0 (by decide)
      (by rw [hl, List.length_cons]; omega) (by simp; omega)
    simp only [UInt64.toNat_zero, add_zero] at hv
    cases row with
    | nil =>
      rw [List.length_nil, hl, List.length_cons] at hlen
      omega
    | cons r rest =>
      rw [hexp, ← hv, mag_cons, Nat.add_assoc, ← Nat.mul_add] at hfit
      rw [← hlen, List.length_cons, pow_succ'] at hfit
      obtain ⟨out, ho, hlo, hvo⟩ := ih rest
        (by rw [List.length_cons] at hlen hl; omega)
        (by apply Nat.lt_of_mul_lt_mul_left (a := BASE); omega)
      refine ⟨r :: out, ?_, by rw [← hlen, List.length_cons, List.length_cons, hlo], ?_⟩
      · simp only [mulRows, hrow]
        show (do pure (r :: (← mulRows es ds rest))) = Except.ok (r :: out)
        rw [ho]
        rfl
      · rw [hexp, ← hv, mag_cons, mag_cons, hvo]
        ring

/-! ### What the rule `trivial` leaves -/

/-- A step of the code that returns, with a canonical result of the value `z`. -/
def Exact (r : Outcome BigInt) (z : ℤ) : Prop := ∃ p, r = .ok p ∧ Canonical p ∧ p.toInt = z

theorem zeroed_eq (x : BigInt) : zeroed x = ⟨true, [0]⟩ := by
  simp [zeroed, optimise, popZeros, isZero]

theorem signum_mul (s t : Bool) : signum (s = t) = signum s * signum t := by
  cases s <;> cases t <;> rfl

/-- The loops return for all operands; the result is not longer than both together. -/
theorem multiplyTrivial_eq_ok (x y : BigInt) :
    ∃ r, multiplyTrivial x y = .ok r ∧
      r.digits.length ≤ x.digits.length + y.digits.length ∧
      (x.sign = y.sign → r.sign = true) ∧
      r.toInt = x.toInt * y.toInt ∧ (x.digits ≠ [] → Canonical r) := by
  unfold multiplyTrivial
  split
  case isTrue hz =>
    have hlen : 1 ≤ x.digits.length + y.digits.length := by
      simp only [isZero, decide_eq_true_eq] at hz
      omega
    have hv : x.toInt * y.toInt = 0 := by
      rw [toInt_eq, toInt_eq]
      rcases hz with h | h
      · rw [mag_eq_zero_of_isZero y h]
        simp
      · rw [mag_eq_zero_of_isZero x h]
        simp
    refine ⟨zeroed x, rfl, ?_, ?_, ?_, fun _ => canonical_optimise _ (by simp)⟩
    · rw [zeroed_eq]
      simpa using hlen
    · intro _
      rw [zeroed_eq]
    · rw [hv, zeroed_eq, toInt_eq]
      simp
  case isFalse hz =>
    have hfit : mag x.digits * mag y.digits < BASE ^ (x.digits.length + y.digits.length) := by
      rw [pow_add]
      exact Nat.mul_lt_mul'' (mag_lt _) (mag_lt _)
    obtain ⟨out, ho, hlen, hv⟩ := mulRows_value y.digits x.digits
      (List.replicate (x.digits.length + y.digits.length) 0) (by simp)
      (by rw [mag_replicate_zero, List.length_replicate, Nat.zero_add]; exact hfit)
    rw [List.length_replicate] at hlen
    rw [mag_replicate_zero, Nat.zero_add] at hv
    refine ⟨optimise ⟨x.sign = y.sign, out⟩, by simp [ho], ?_, ?_, ?_, ?_⟩
    · exact (optimise_length_le _).trans hlen.le
    · intro hs
      exact optimise_sign_true _ (by simpa using hs)
    · rw [toInt_optimise, toInt_eq, toInt_eq x, toInt_eq y, hv, signum_mul]
      push_cast
      ring
    · intro hx
      refine canonical_optimise _ (List.ne_nil_of_length_pos ?_)
      have := List.length_pos_of_ne_nil hx
      dsimp only
      omega

theorem multiplyTrivial_exact (x y : BigInt) (hx : Canonical x) :
    Exact (multiplyTrivial x y) (x.toInt * y.toInt) := by
  obtain ⟨r, hr, -, -, hv, hc⟩ := multiplyTrivial_eq_ok x y
  exact ⟨r, hr, hc hx.nonempty, hv⟩

end BigInt

end MaiFaSp
