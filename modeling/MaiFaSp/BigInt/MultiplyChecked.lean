import MaiFaSp.BigInt.Multiply

/-!
# Schoolbook multiplication stays inside its vector and its words (`big_int.cpp:422-442`)

The loops once more, now with the indices `i` and `j` of the source, a check of each index
`i + j` against the result and a check of each 64-bit sum and product. The checks never
fail, and the checked loops are those of `multiplyTrivial`.
-/

namespace MaiFaSp.BigInt

/-- A value computed as `unsigned long long`; one that does not fit is a fault. -/
def word64 (n : ℕ) : Outcome UInt64 :=
  if n < 2 ^ 64 then pure (UInt64.ofNat n) else throw .wrapAround

/-- `prod` at the indices `i` and `j`. -/
def checkedProd (d : UInt32) (other : List UInt32) (j : ℕ) (r : UInt32) (carry : UInt64) :
    Outcome UInt64 := do
  let prod ← word64 (r.toNat + carry.toNat)
  match other[j]? with
  | some e => do
    let product ← word64 (d.toNat * e.toNat)
    word64 (prod.toNat + product.toNat)
  | none => pure prod

/-- The body of the loop over `j`: the result and the next carry. -/
def checkedTurn (d : UInt32) (other : List UInt32) (i j : ℕ) (result : List UInt32)
    (carry : UInt64) : Outcome (List UInt32 × UInt64) :=
  match result[i + j]? with
  | none => throw .outOfBounds
  | some r => do
    let prod ← checkedProd d other j r carry
    pure (result.set (i + j) (lowDigit prod), prod / base64)

/-- The loop over `j`. A turn past the end of the result is a fault, so its length bounds the
turns. -/
def checkedRow (d : UInt32) (other : List UInt32) (i : ℕ) :
    ℕ → ℕ → List UInt32 → UInt64 → Outcome (List UInt32)
  | 0, _, _, _ => throw .outOfBounds
  | turns + 1, j, result, carry =>
    if j < other.length ∨ carry ≠ 0 then do
      let next ← checkedTurn d other i j result carry
      checkedRow d other i turns (j + 1) next.1 next.2
    else pure result

/-- The loop over `i`. -/
def checkedRows (other : List UInt32) : List UInt32 → ℕ → List UInt32 → Outcome (List UInt32)
  | [], _, result => pure result
  | d :: ds, i, result => do
    let result ← checkedRow d other i (result.length + 1) 0 result 0
    checkedRows other ds (i + 1) result

/-- `multiply_assign` with the rule `trivial`, every index and every 64-bit value checked. -/
def multiplyChecked (x y : BigInt) : Outcome BigInt :=
  if y.isZero ∨ x.isZero then pure (zeroed x)
  else do
    let ds ← checkedRows y.digits x.digits 0 (List.replicate (x.digits.length + y.digits.length) 0)
    pure (optimise ⟨x.sign = y.sign, ds⟩)

/-! ### No check fails -/

theorem word64_of_toNat {v : UInt64} {n : ℕ} (h : v.toNat = n) : word64 n = .ok v := by
  unfold word64
  rw [if_pos (h ▸ v.toNat_lt), ← h, UInt64.ofNat_toNat]
  rfl

theorem checkedProd_digit {d e r : UInt32} {other : List UInt32} {j : ℕ} {carry : UInt64}
    (he : other[j]? = some e) (hc : carry.toNat < BASE) :
    checkedProd d other j r carry = .ok (mulProd d e r carry) := by
  have hr := digit_lt r
  have hm := mul_digits_lt d e
  have hsum : (r.toUInt64 + carry).toNat = r.toNat + carry.toNat := by
    simp only [UInt64.toNat_add, UInt32.toNat_toUInt64]
    simp only [BASE] at hr hc
    omega
  have hmul : (d.toUInt64 * e.toUInt64).toNat = d.toNat * e.toNat := by
    simp only [UInt64.toNat_mul, UInt32.toNat_toUInt64]
    refine Nat.mod_eq_of_lt (hm.trans_lt ?_)
    norm_num [BASE]
  have hall := mulProd_toNat d e r carry hc
  unfold checkedProd
  rw [word64_of_toNat hsum]
  simp only [he]
  show (do let product ← word64 (d.toNat * e.toNat)
           word64 ((r.toUInt64 + carry).toNat + product.toNat)) = _
  rw [word64_of_toNat hmul]
  show word64 ((r.toUInt64 + carry).toNat + (d.toUInt64 * e.toUInt64).toNat) = _
  rw [hsum, hmul]
  exact word64_of_toNat hall

theorem checkedProd_carry {d r : UInt32} {other : List UInt32} {j : ℕ} {carry : UInt64}
    (hj : other.length ≤ j) (hc : carry.toNat < BASE) :
    checkedProd d other j r carry = .ok (r.toUInt64 + carry) := by
  have hr := digit_lt r
  have hsum : (r.toUInt64 + carry).toNat = r.toNat + carry.toNat := by
    simp only [UInt64.toNat_add, UInt32.toNat_toUInt64]
    simp only [BASE] at hr hc
    omega
  unfold checkedProd
  rw [word64_of_toNat hsum, List.getElem?_eq_none hj]
  rfl

theorem carry_sum_lt (r : UInt32) (carry : UInt64) (hc : carry.toNat < BASE) :
    ((r.toUInt64 + carry) / base64).toNat < BASE := by
  have hr := digit_lt r
  simp only [carry_toNat, UInt64.toNat_add, UInt32.toNat_toUInt64]
  simp only [BASE] at hr hc ⊢
  omega

/-- A turn inside the result leaves what the unchecked turn leaves, one place further. -/
theorem checkedTurn_eq {d r : UInt32} {other before after : List UInt32} {i j : ℕ}
    {carry prod : UInt64} (hlen : before.length = i + j)
    (hprod : checkedProd d other j r carry = .ok prod) :
    checkedTurn d other i j (before ++ r :: after) carry =
      .ok ((before ++ [lowDigit prod]) ++ after, prod / base64) := by
  have hget : (before ++ r :: after)[i + j]? = some r := by
    rw [← hlen, List.getElem?_append_right le_rfl, Nat.sub_self]
    rfl
  have hset : (before ++ r :: after).set (i + j) (lowDigit prod) =
      before ++ [lowDigit prod] ++ after := by
    rw [← hlen, List.set_append_right _ _ le_rfl, Nat.sub_self, List.append_assoc]
    rfl
  unfold checkedTurn
  simp only [hget, hprod]
  show Except.ok (_, _) = _
  rw [hset]

/-- The row on the whole vector is `mulRow` on what lies from the index `i + j` on. -/
theorem checkedRow_eq (d : UInt32) (other : List UInt32) (i : ℕ) (before after : List UInt32)
    {turns j : ℕ} {carry : UInt64} (hlen : before.length = i + j) (hturns : after.length < turns)
    (hc : carry.toNat < BASE) :
    checkedRow d other i turns j (before ++ after) carry =
      (mulRow d (other.drop j) after carry).map (before ++ ·) := by
  obtain ⟨n, rfl⟩ : ∃ n, turns = n + 1 := ⟨turns - 1, by omega⟩
  unfold checkedRow
  induction after generalizing before n j carry with
  | nil =>
    by_cases hrun : j < other.length ∨ carry ≠ 0
    · have hend : (before ++ [])[i + j]? = none := by
        rw [List.append_nil, ← hlen]
        exact List.getElem?_eq_none le_rfl
      have hturn : checkedTurn d other i j (before ++ []) carry = .error .outOfBounds := by
        unfold checkedTurn
        rw [hend]
        rfl
      rw [if_pos hrun, hturn]
      cases hdrop : other.drop j with
      | cons e es => rfl
      | nil =>
        rw [List.drop_eq_nil_iff] at hdrop
        have hne : carry ≠ 0 := hrun.resolve_left (by omega)
        rw [mulRow, if_neg hne]
        rfl
    · have hout : other.length ≤ j := by
        by_contra hj
        exact hrun (.inl (by omega))
      have hzero : carry = 0 := by
        by_contra hne
        exact hrun (.inr hne)
      rw [if_neg hrun, List.drop_eq_nil_of_le hout, mulRow, if_pos hzero]
      rfl
  | cons r rs ih =>
    obtain ⟨m, rfl⟩ : ∃ m, n = m + 1 := ⟨n - 1, by rw [List.length_cons] at hturns; omega⟩
    rw [List.length_cons] at hturns
    by_cases hj : j < other.length
    · have he : other[j]? = some other[j] := List.getElem?_eq_getElem hj
      have hprod : checkedProd d other j r carry = .ok (mulProd d other[j] r carry) :=
        checkedProd_digit he hc
      have hnext := mulProd_carry_lt d other[j] r carry hc
      rw [if_pos (.inl hj), checkedTurn_eq hlen hprod, List.drop_eq_getElem_cons hj, mulRow]
      show checkedRow d other i (m + 1) (j + 1) _ _ = _
      rw [checkedRow, ih (before ++ [_]) (by simp [hlen, Nat.add_assoc]) hnext m (by omega)]
      cases mulRow d (other.drop (j + 1)) rs (mulProd d other[j] r carry / base64) with
      | error e => rfl
      | ok out => exact congrArg Except.ok (by simp)
    · rw [List.drop_eq_nil_of_le (by omega)]
      by_cases hz : carry = 0
      · rw [if_neg (fun hrun => hrun.elim hj (fun hne => hne hz)), mulRow, if_pos hz]
        rfl
      · have hprod : checkedProd d other j r carry = .ok (r.toUInt64 + carry) :=
          checkedProd_carry (by omega) hc
        have hnext := carry_sum_lt r carry hc
        rw [if_pos (.inr hz), checkedTurn_eq hlen hprod, mulRow, if_neg hz]
        show checkedRow d other i (m + 1) (j + 1) _ _ = _
        rw [checkedRow, ih (before ++ [_]) (by simp [hlen, Nat.add_assoc]) hnext m (by omega),
          List.drop_eq_nil_of_le (by omega)]
        dsimp only
        cases mulRow d [] rs ((r.toUInt64 + carry) / base64) with
        | error e => rfl
        | ok out => exact congrArg Except.ok (by simp)

theorem checkedRows_eq {other ds after out : List UInt32} (before : List UInt32)
    (h : mulRows other ds after = .ok out) :
    checkedRows other ds before.length (before ++ after) = .ok (before ++ out) := by
  induction ds generalizing before after out with
  | nil =>
    obtain rfl : after = out := Except.ok.inj h
    rfl
  | cons d ds ih =>
    have hrow : checkedRow d other before.length ((before ++ after).length + 1) 0
        (before ++ after) 0 = (mulRow d (other.drop 0) after 0).map (before ++ ·) :=
      checkedRow_eq d other before.length before after rfl
        (by rw [List.length_append]; omega) (by decide)
    rw [List.drop_zero] at hrow
    rw [mulRows] at h
    rw [checkedRows, hrow]
    cases hr : mulRow d other after 0 with
    | error e =>
      rw [hr] at h
      cases h
    | ok row =>
      rw [hr] at h
      cases row with
      | nil => cases h
      | cons r rest =>
        change (do pure (r :: (← mulRows other ds rest))) = Except.ok out at h
        cases hrest : mulRows other ds rest with
        | error e =>
          rw [hrest] at h
          cases h
        | ok tail =>
          rw [hrest] at h
          obtain rfl : r :: tail = out := Except.ok.inj h
          have hnext := ih (before ++ [r]) hrest
          rw [List.length_append, List.length_singleton, List.append_assoc,
            List.append_assoc] at hnext
          exact hnext

/-- The checked loops return, and leave what the unchecked ones leave. -/
theorem multiplyChecked_eq (x y : BigInt) : multiplyChecked x y = multiplyTrivial x y := by
  unfold multiplyChecked multiplyTrivial
  split
  · rfl
  · have hfit : mag x.digits * mag y.digits < BASE ^ (x.digits.length + y.digits.length) := by
      rw [pow_add]
      exact Nat.mul_lt_mul'' (mag_lt _) (mag_lt _)
    obtain ⟨out, ho, -, -⟩ := mulRows_value y.digits x.digits
      (List.replicate (x.digits.length + y.digits.length) 0) (by simp)
      (by rw [mag_replicate_zero, List.length_replicate, Nat.zero_add]; exact hfit)
    have hchecked := checkedRows_eq [] ho
    rw [List.nil_append, List.nil_append, List.length_nil] at hchecked
    rw [hchecked, ho]

/-- The product is exact and canonical, and no check on the way to it fails. -/
theorem multiply_trivial_exact (x y : BigInt) (hx : Canonical x) :
    Exact (multiplyTrivial x y) (x.toInt * y.toInt) ∧ multiplyChecked x y = multiplyTrivial x y :=
  ⟨multiplyTrivial_exact x y hx, multiplyChecked_eq x y⟩

theorem multiply_trivial_exact_small :
    Exact (multiplyTrivial ⟨false, [4294967295, 4294967295]⟩ ⟨true, [4294967295]⟩)
        (toInt ⟨false, [4294967295, 4294967295]⟩ * toInt ⟨true, [4294967295]⟩) ∧
      multiplyChecked ⟨false, [4294967295, 4294967295]⟩ ⟨true, [4294967295]⟩ =
        multiplyTrivial ⟨false, [4294967295, 4294967295]⟩ ⟨true, [4294967295]⟩ :=
  multiply_trivial_exact _ _ ⟨by decide, by decide, by decide⟩

end MaiFaSp.BigInt
