import MaiFaSp.BigInt.AddSub

/-!
# Addition and subtraction are exact when the order of the magnitudes is seen

`plus_assign` with equal signs and `minus_assign` with opposite signs only
carry. The other two cases subtract magnitudes: they order them first with
`operator<=>`, and the result is exact just when that order is the order of the
values. From `2^31` digits on the comparison may skip the deciding digits.
-/

namespace MaiFaSp.BigInt

def signum (s : Bool) : ℤ := if s then 1 else -1

@[simp] theorem signum_not (s : Bool) : signum (!s) = -signum s := by
  cases s <;> rfl

theorem signum_of_ne {s t : Bool} (h : s ≠ t) : signum t = -signum s := by
  cases s <;> cases t <;> simp_all [signum]

theorem signum_ne_zero (s : Bool) : signum s ≠ 0 := by
  cases s <;> decide

theorem toInt_eq (x : BigInt) : x.toInt = signum x.sign * mag x.digits := by
  unfold toInt signum
  split <;> ring

theorem toInt_eq_zero_iff {x : BigInt} (hx : Canonical x) : x.toInt = 0 ↔ x.isZero = true := by
  rw [hx.isZero_iff, toInt_eq]
  simp [signum_ne_zero]

theorem settle_eq (x : BigInt) (h : x.digits ≠ []) : settle x = x.optimise := by
  have hc := canonical_optimise x h
  dsimp only [settle]
  split
  case isTrue hz => rw [← hc.zeroPositive hz]
  case isFalse hz => rfl

theorem canonical_settle (x : BigInt) (h : x.digits ≠ []) : Canonical (settle x) := by
  rw [settle_eq x h]
  exact canonical_optimise x h

@[simp] theorem toInt_settle (x : BigInt) (h : x.digits ≠ []) : (settle x).toInt = x.toInt := by
  rw [settle_eq x h, toInt_optimise]

/-! ### Equal signs added -/

theorem plusSame_ne_nil (x y : BigInt) (shift : ℕ) (hx : x.digits ≠ []) :
    (plusSame x y shift).digits ≠ [] := by
  have hp := List.length_pos_of_ne_nil hx
  refine List.ne_nil_of_length_pos ?_
  simp only [plusSame, pushCarry]
  split
  · rw [List.length_append, plusLoop_length]
    omega
  · rw [plusLoop_length]
    omega

theorem toInt_plusSame (x y : BigInt) (shift : ℕ) (hs : x.sign = y.sign) :
    (plusSame x y shift).toInt = x.toInt + y.toInt * BASE ^ shift := by
  have hm := congrArg (Nat.cast (R := ℤ)) (mag_plusSame x y shift)
  push_cast at hm
  have hsign : (plusSame x y shift).sign = x.sign := rfl
  rw [toInt_eq, toInt_eq x, toInt_eq y, hsign, ← hs, hm]
  ring

/-! ### Magnitudes subtracted -/

theorem minusSame_eq (x y : BigInt) (hx : x.digits ≠ []) :
    minusSame x y 0 =
      if spaceship x.abs y.abs = .lt then
        optimise ⟨!x.sign, (minusLoop y.digits x.digits
          (max y.digits.length x.digits.length) 0 0).1⟩
      else
        optimise ⟨x.sign, (minusLoop x.digits y.digits
          (max x.digits.length y.digits.length) 0 0).1⟩ := by
  have hp := List.length_pos_of_ne_nil hx
  simp only [minusSame, shlAssign_zero, abs_digits]
  split
  · refine settle_eq _ (List.ne_nil_of_length_pos ?_)
    rw [minusLoop_length]
    omega
  · refine settle_eq _ (List.ne_nil_of_length_pos ?_)
    rw [minusLoop_length]
    omega

theorem canonical_minusSame (x y : BigInt) (hx : x.digits ≠ []) :
    Canonical (minusSame x y 0) := by
  have hp := List.length_pos_of_ne_nil hx
  rw [minusSame_eq x y hx]
  split
  · refine canonical_optimise _ (List.ne_nil_of_length_pos ?_)
    rw [minusLoop_length]
    omega
  · refine canonical_optimise _ (List.ne_nil_of_length_pos ?_)
    rw [minusLoop_length]
    omega

theorem toInt_minusSame (x y : BigInt) (hx : x.digits ≠ []) :
    (minusSame x y 0).toInt =
      if spaceship x.abs y.abs = .lt then
        -signum x.sign * (if mag x.digits ≤ mag y.digits
          then (mag y.digits : ℤ) - mag x.digits
          else (mag y.digits : ℤ) - mag x.digits +
            BASE ^ max y.digits.length x.digits.length)
      else
        signum x.sign * (if mag y.digits ≤ mag x.digits
          then (mag x.digits : ℤ) - mag y.digits
          else (mag x.digits : ℤ) - mag y.digits +
            BASE ^ max x.digits.length y.digits.length) := by
  rw [minusSame_eq x y hx]
  split
  · rw [toInt_optimise, toInt_eq, signum_not,
      mag_minusLoop _ _ _ (le_max_left ..) (le_max_right ..)]
  · rw [toInt_optimise, toInt_eq, mag_minusLoop _ _ _ (le_max_left ..) (le_max_right ..)]

theorem orderVisible_iff {x y : BigInt} (hx : Canonical x) (hy : Canonical y) :
    OrderVisible x y ↔ (spaceship x.abs y.abs = .lt ↔ mag x.digits < mag y.digits) := by
  refine ⟨spaceship_abs_lt_iff hx hy, fun h hl => ?_⟩
  rw [spaceship_abs_same_length x y hl, compare_lt_iff_lt] at h
  exact h

theorem spaceship_abs_of_mag_eq {x y : BigInt} (hx : Canonical x) (hy : Canonical y)
    (h : mag x.digits = mag y.digits) : spaceship x.abs y.abs ≠ .lt := by
  have hd := hx.digits_eq hy h
  rw [spaceship_abs_same_length x y (by rw [hd]), hd]
  simp

/-- The magnitudes are subtracted exactly when their order is seen. -/
theorem minusSame_exact_iff {x y : BigInt} (hx : Canonical x) (hy : Canonical y) :
    (minusSame x y 0).toInt = signum x.sign * ((mag x.digits : ℤ) - mag y.digits) ↔
      OrderVisible x y := by
  have hs := signum_ne_zero x.sign
  have hp1 : (BASE : ℤ) ^ max y.digits.length x.digits.length ≠ 0 :=
    pow_ne_zero _ (by norm_num [BASE])
  have hp2 : (BASE : ℤ) ^ max x.digits.length y.digits.length ≠ 0 :=
    pow_ne_zero _ (by norm_num [BASE])
  rw [orderVisible_iff hx hy, toInt_minusSame x y hx.nonempty]
  by_cases hl : spaceship x.abs y.abs = .lt
  · have hne : mag x.digits ≠ mag y.digits := fun h => spaceship_abs_of_mag_eq hx hy h hl
    by_cases hm : mag x.digits < mag y.digits
    · rw [if_pos hl, if_pos hm.le]
      simp only [hl, hm, iff_true]
      ring
    · rw [if_pos hl, if_neg (by omega)]
      refine iff_of_false (fun he => ?_) (fun hc => hm (hc.mp hl))
      apply mul_ne_zero hs hp1
      linear_combination -he
  · by_cases hm : mag x.digits < mag y.digits
    · rw [if_neg hl, if_neg (by omega)]
      refine iff_of_false (fun he => ?_) (fun hc => hl (hc.mpr hm))
      apply mul_ne_zero hs hp2
      linear_combination he
    · rw [if_neg hl, if_pos (by omega)]
      simp only [hl, hm]

/-! ### `+=` and `-=` -/

theorem canonical_withSign {y : BigInt} (hy : Canonical y) (hz : ¬ y.isZero = true) (s : Bool) :
    Canonical { y with sign := s } :=
  ⟨hy.nonempty, hy.noLeadingZero, fun h => absurd h hz⟩

theorem plusAssign_of_sign_eq {x y : BigInt} (shift : ℕ) (hx : Canonical x) (hy : Canonical y)
    (hs : x.sign = y.sign) :
    (plusAssign x y shift).toInt = x.toInt + y.toInt * BASE ^ shift ∧
      Canonical (plusAssign x y shift) := by
  unfold plusAssign
  split
  case isTrue hz =>
    refine ⟨?_, hx⟩
    rw [toInt_eq y, hy.isZero_iff.mp hz]
    simp
  case isFalse hz =>
    have hne := plusSame_ne_nil x y shift hx.nonempty
    exact ⟨(toInt_settle _ hne).trans (toInt_plusSame x y shift hs), canonical_settle _ hne⟩

theorem minusAssign_of_sign_ne {x y : BigInt} (shift : ℕ) (hx : Canonical x) (hy : Canonical y)
    (hs : x.sign ≠ y.sign) :
    (minusAssign x y shift).toInt = x.toInt - y.toInt * BASE ^ shift ∧
      Canonical (minusAssign x y shift) := by
  unfold minusAssign
  split
  case isTrue hz =>
    refine ⟨?_, hx⟩
    rw [toInt_eq y, hy.isZero_iff.mp hz]
    simp
  case isFalse hz =>
    obtain ⟨hv, hc⟩ := plusAssign_of_sign_eq shift hx (canonical_withSign hy hz x.sign) rfl
    refine ⟨?_, hc⟩
    rw [hv, toInt_eq y, toInt_eq ⟨x.sign, y.digits⟩, signum_of_ne hs]
    ring

theorem orderVisible_of_isZero {x y : BigInt} (hy : y.isZero = true) : OrderVisible x y := by
  refine orderVisible_of_lt x y (fun hl => ?_)
  simp only [isZero, decide_eq_true_eq] at hy
  omega

theorem minusAssign_exact_iff {x y : BigInt} (hx : Canonical x) (hy : Canonical y)
    (hs : x.sign = y.sign) :
    (minusAssign x y 0).toInt = x.toInt - y.toInt ↔ OrderVisible x y := by
  unfold minusAssign
  split
  case isTrue hz =>
    have h0 : y.toInt = 0 := by
      rw [toInt_eq, hy.isZero_iff.mp hz]
      simp
    simp [h0, orderVisible_of_isZero hz]
  case isFalse hz =>
    rw [if_neg (not_not.mpr hs), ← minusSame_exact_iff hx hy, toInt_eq x, toInt_eq y, ← hs,
      mul_sub]

theorem plusAssign_exact_iff {x y : BigInt} (hx : Canonical x) (hy : Canonical y)
    (hs : x.sign ≠ y.sign) :
    (plusAssign x y 0).toInt = x.toInt + y.toInt ↔ OrderVisible x y := by
  unfold plusAssign
  split
  case isTrue hz =>
    have h0 : y.toInt = 0 := by
      rw [toInt_eq, hy.isZero_iff.mp hz]
      simp
    simp [h0, orderVisible_of_isZero hz]
  case isFalse hz =>
    have hc := canonical_withSign hy hz x.sign
    have hm := minusSame_exact_iff hx hc
    have hne := (canonical_minusSame x ⟨x.sign, y.digits⟩ hx.nonempty).nonempty
    rw [toInt_settle _ hne, toInt_eq x, toInt_eq y, signum_of_ne hs]
    refine Iff.trans ?_ hm
    rw [neg_mul, ← sub_eq_add_neg, ← mul_sub]

theorem canonical_plusAssign {x y : BigInt} (hx : Canonical x) : Canonical (plusAssign x y 0) := by
  unfold plusAssign
  split
  · exact hx
  · split
    · exact canonical_settle _ (plusSame_ne_nil x y 0 hx.nonempty)
    · exact canonical_settle _ (canonical_minusSame x _ hx.nonempty).nonempty

theorem canonical_minusAssign {x y : BigInt} (hx : Canonical x) :
    Canonical (minusAssign x y 0) := by
  unfold minusAssign
  split
  · exact hx
  · split
    · exact canonical_plusAssign hx
    · exact canonical_minusSame x y hx.nonempty

theorem toInt_plusAssign {x y : BigInt} (hx : Canonical x) (hy : Canonical y)
    (hv : OrderVisible x y) : (plusAssign x y 0).toInt = x.toInt + y.toInt := by
  by_cases hs : x.sign = y.sign
  · have h := (plusAssign_of_sign_eq 0 hx hy hs).1
    rwa [pow_zero, mul_one] at h
  · exact (plusAssign_exact_iff hx hy hs).mpr hv

theorem toInt_minusAssign {x y : BigInt} (hx : Canonical x) (hy : Canonical y)
    (hv : OrderVisible x y) : (minusAssign x y 0).toInt = x.toInt - y.toInt := by
  by_cases hs : x.sign = y.sign
  · exact (minusAssign_exact_iff hx hy hs).mpr hv
  · have h := (minusAssign_of_sign_ne 0 hx hy hs).1
    rwa [pow_zero, mul_one] at h

/-- `a += b` and `a -= b` are both exact and canonical just when the digits
that the comparison of the magnitudes skips do not decide it. -/
theorem plus_minus_exact_iff (x y : BigInt) (hx : Canonical x) (hy : Canonical y) :
    ((plusAssign x y 0).toInt = x.toInt + y.toInt ∧ Canonical (plusAssign x y 0) ∧
      (minusAssign x y 0).toInt = x.toInt - y.toInt ∧ Canonical (minusAssign x y 0)) ↔
    OrderVisible x y := by
  have hcp := canonical_plusAssign (y := y) hx
  have hcm := canonical_minusAssign (y := y) hx
  by_cases hs : x.sign = y.sign
  · obtain ⟨hv, -⟩ := plusAssign_of_sign_eq 0 hx hy hs
    rw [pow_zero, mul_one] at hv
    simp [hv, hcp, hcm, minusAssign_exact_iff hx hy hs]
  · obtain ⟨hv, -⟩ := minusAssign_of_sign_ne 0 hx hy hs
    rw [pow_zero, mul_one] at hv
    simp [hv, hcp, hcm, plusAssign_exact_iff hx hy hs]

theorem plus_minus_exact_small :
    (plusAssign ⟨true, [5]⟩ ⟨false, [0, 7]⟩ 0).toInt =
        toInt ⟨true, [5]⟩ + toInt ⟨false, [0, 7]⟩ ∧
      Canonical (plusAssign ⟨true, [5]⟩ ⟨false, [0, 7]⟩ 0) ∧
      (minusAssign ⟨true, [5]⟩ ⟨false, [0, 7]⟩ 0).toInt =
        toInt ⟨true, [5]⟩ - toInt ⟨false, [0, 7]⟩ ∧
      Canonical (minusAssign ⟨true, [5]⟩ ⟨false, [0, 7]⟩ 0) :=
  (plus_minus_exact_iff ⟨true, [5]⟩ ⟨false, [0, 7]⟩
    ⟨by decide, by decide, by decide⟩ ⟨by decide, by decide, by decide⟩).mpr
    (orderVisible_of_lt _ _ (fun h => absurd h (by decide)))

/-! ### Two numbers whose order is not seen -/

/-- `BASE ^ n`: a one above `n` zero digits. -/
def basePow (n : ℕ) : BigInt := ⟨true, List.replicate n 0 ++ [1]⟩

/-- `BASE ^ (n + 1) + 1`. -/
def basePowSucc (n : ℕ) : BigInt := ⟨true, 1 :: (List.replicate n 0 ++ [1])⟩

theorem mag_basePow (n : ℕ) : mag (basePow n).digits = BASE ^ n := by
  simp [basePow, mag_append, mag_replicate_zero]

theorem mag_basePowSucc (n : ℕ) : mag (basePowSucc n).digits = BASE ^ (n + 1) + 1 := by
  simp only [basePowSucc, mag_cons, mag_append, mag_replicate_zero, List.length_replicate, mag_nil]
  simp [pow_succ']
  ring

theorem canonical_basePow (n : ℕ) : Canonical (basePow n) := by
  refine ⟨by simp [basePow], fun _ => ?_, fun _ => rfl⟩
  simp only [basePow, List.getLast?_append, List.getLast?_singleton]
  simp

theorem canonical_basePowSucc (n : ℕ) : Canonical (basePowSucc n) := by
  refine ⟨by simp [basePowSucc], fun _ => ?_, fun _ => rfl⟩
  simp only [basePowSucc, ← List.cons_append, List.getLast?_append, List.getLast?_singleton]
  simp

theorem not_orderVisible_basePow (n : ℕ) (h : scanLen (n + 2) = 0) :
    ¬ OrderVisible (basePow (n + 1)) (basePowSucc n) := by
  have hl : (basePow (n + 1)).digits.length = n + 2 := by simp [basePow]
  have hr : (basePowSucc n).digits.length = n + 2 := by simp [basePowSucc]
  intro hv
  have hb := hv (hl.trans hr.symm)
  rw [hl, h, mag_basePow, mag_basePowSucc] at hb
  simp at hb

theorem scanLen_two_pow_31_succ : scanLen (2147483647 + 2) = 0 := by
  unfold scanLen castInt
  decide

/-- With `2^31 + 1` digits the comparison loop takes no turn, so `a -= b` with
`a = BASE ^ (2^31)` and `b = a + 1` does not swap and loses the last borrow. -/
theorem minusAssign_order_unseen :
    Canonical (basePow (2147483647 + 1)) ∧ Canonical (basePowSucc 2147483647) ∧
      (minusAssign (basePow (2147483647 + 1)) (basePowSucc 2147483647) 0).toInt ≠
        (basePow (2147483647 + 1)).toInt - (basePowSucc 2147483647).toInt := by
  have hx := canonical_basePow (2147483647 + 1)
  have hy := canonical_basePowSucc 2147483647
  refine ⟨hx, hy, fun he => ?_⟩
  exact not_orderVisible_basePow _ scanLen_two_pow_31_succ
    ((minusAssign_exact_iff hx hy rfl).mp he)

end MaiFaSp.BigInt
