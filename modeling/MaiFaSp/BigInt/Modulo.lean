import MaiFaSp.BigInt.QuotientExact

/-!
# `big_int`: remainder (`big_int.cpp:525-574`)

`modulo_assign` runs the loop of `divide_assign` again and keeps the remainder in
place of the digits of the quotient. Both of its exits set the sign to `+`, so the
remainder is that of the magnitudes, whatever the signs of the operands.
-/

namespace MaiFaSp.BigInt

/-- `k` turns of the loop; the turn is the one of `divide_assign`. -/
def moduloLoop (absOther : BigInt) (ds : List UInt32) : ℕ → BigInt → Outcome BigInt
  | 0, remain => pure remain
  | k + 1, remain => do
    let (remain, _) ← divideStep absOther remain (ds.getD k 0)
    moduloLoop absOther ds k remain

/-- `modulo_assign`; every division rule runs this code. -/
def moduloAssign (x y : BigInt) : Outcome BigInt :=
  if x.isZero then pure x
  else if y.isZero then throw (.logicError "Division by zero")
  else if spaceship x.abs y.abs = .lt then pure { x with sign := true }
  else do
    let remain ← moduloLoop y.abs x.digits (scanLen x.digits.length) (ofNum 0)
    pure (optimise ⟨true, remain.digits⟩)

/-- `operator==`. -/
def equals (x y : BigInt) : Bool := spaceship x y = .eq

/-- `(a / b) * b + (a % b)`. -/
def quotientPlusRemainder (a b : BigInt) : Outcome BigInt := do
  let q ← divideAssign a b
  let p ← mulAssign q b
  let r ← moduloAssign a b
  pure (plusAssign p r 0)

/-- `(a / b) * b - (a % b)`. -/
def quotientMinusRemainder (a b : BigInt) : Outcome BigInt := do
  let q ← divideAssign a b
  let p ← mulAssign q b
  let r ← moduloAssign a b
  pure (minusAssign p r 0)

theorem scanDown_self (s : Bool) (ds : List UInt32) (k : ℕ) : scanDown s ds ds k = .eq := by
  induction k with
  | zero => rfl
  | succ k ih => rw [scanDown, if_neg (not_not.mpr rfl), ih]

theorem equals_of_toInt {x y : BigInt} (hx : Canonical x) (hy : Canonical y)
    (h : x.toInt = y.toInt) : equals x y = true := by
  have he := hx.ext hy h
  subst he
  simp [equals, spaceship, scanDown_self]

/-! ### The remainder -/

theorem moduloLoop_eq {b : BigInt} (hb : Canonical b) (hbs : b.sign = true) (ds : List UInt32)
    (k v : ℕ) (hk : k ≤ ds.length) (hv : v + k < 2 ^ 31) (remain : BigInt)
    (h : Remainder b remain v) :
    ∃ out, moduloLoop b ds k remain = .ok out ∧ Remainder b out (v + k) ∧
      mag out.digits = (mag remain.digits * BASE ^ k + mag (ds.take k)) % mag b.digits := by
  induction k generalizing v remain with
  | zero =>
    refine ⟨remain, rfl, h, ?_⟩
    rw [List.take_zero, mag_nil, pow_zero, mul_one, Nat.add_zero, Nat.mod_eq_of_lt h.below]
  | succ k ih =>
    obtain ⟨next, hstep, hnext, hnm⟩ := divideStep_spec hb hbs h (by omega) (ds.getD k 0)
    obtain ⟨out, ho, hrem, hm⟩ := ih (v + 1) (by omega) (by omega) next hnext
    refine ⟨out, ?_, ?_, ?_⟩
    · simp only [moduloLoop, hstep, bind, Except.bind]
      exact ho
    · rw [show v + (k + 1) = v + 1 + k by omega]
      exact hrem
    · rw [hm, hnm, mag_take_succ ds k hk]
      have hsplit : mag remain.digits * BASE ^ (k + 1) +
          (mag (ds.take k) + BASE ^ k * (ds.getD k 0).toNat) =
          ((ds.getD k 0).toNat + BASE * mag remain.digits) * BASE ^ k + mag (ds.take k) := by
        ring
      rw [hsplit, Nat.add_mod, Nat.mul_mod, Nat.mod_mod, ← Nat.mul_mod, ← Nat.add_mod]

theorem moduloAssign_exact {x y : BigInt} (hx : Canonical x) (hy : Canonical y)
    (hyz : ¬ y.isZero = true) (hlen : x.digits.length < 2 ^ 31) :
    Exact (moduloAssign x y) ((mag x.digits % mag y.digits : ℕ) : ℤ) := by
  have hpos : 0 < mag y.digits := Nat.pos_of_ne_zero (fun h => hyz (hy.isZero_iff.mpr h))
  unfold moduloAssign
  by_cases hxz : x.isZero = true
  · have hm := hx.isZero_iff.mp hxz
    rw [if_pos hxz]
    refine ⟨x, rfl, hx, ?_⟩
    rw [toInt_eq, hm]
    simp
  · rw [if_neg hxz, if_neg hyz]
    have hlt := spaceship_abs_lt_iff hx hy (orderVisible_of_lt x y (fun _ => hlen))
    by_cases hl : spaceship x.abs y.abs = .lt
    · rw [if_pos hl]
      refine ⟨_, rfl, canonical_withSign hx hxz true, ?_⟩
      rw [Nat.mod_eq_of_lt (hlt.mp hl)]
      rfl
    · rw [if_neg hl, scanLen_of_lt _ hlen]
      obtain ⟨-, hm0, -⟩ := ofNum_spec 0 (Nat.zero_le _)
      simp only [Nat.cast_zero] at hm0
      obtain ⟨out, ho, hrem, hm⟩ := moduloLoop_eq (canonical_abs hy) rfl x.digits
        x.digits.length 0 le_rfl (by omega) (ofNum 0) (remainder_start hpos)
      rw [hm0, Nat.zero_mul, Nat.zero_add, List.take_length, abs_digits] at hm
      refine ⟨optimise ⟨true, out.digits⟩, ?_, canonical_optimise _ hrem.canonical.nonempty, ?_⟩
      · rw [ho]
        rfl
      · rw [toInt_optimise, ← hm]
        rfl

theorem moduloAssign_of_loop {x y : BigInt} (hxz : ¬ x.isZero = true) (hyz : ¬ y.isZero = true)
    (hl : spaceship x.abs y.abs ≠ .lt) {out : BigInt}
    (ho : moduloLoop y.abs x.digits (scanLen x.digits.length) (ofNum 0) = .ok out) :
    moduloAssign x y = .ok (optimise ⟨true, out.digits⟩) := by
  rw [moduloAssign, if_neg hxz, if_neg hyz, if_neg hl, ho]
  rfl

theorem moduloAssign_visited {x y : BigInt} (hy : Canonical y)
    (hxz : ¬ x.isZero = true) (hyz : ¬ y.isZero = true) (hl : spaceship x.abs y.abs ≠ .lt) :
    ∃ r, moduloAssign x y = .ok r ∧ Canonical r ∧ mag r.digits = visited x % mag y.digits := by
  have hpos : 0 < mag y.abs.digits := Nat.pos_of_ne_zero (fun h => hyz (hy.isZero_iff.mpr h))
  have hlt := scanLen_lt x.digits.length
  obtain ⟨out, ho, hrem, hm⟩ := moduloLoop_eq (canonical_abs hy) rfl x.digits
    (scanLen x.digits.length) 0 (scanLen_le _) (by omega) (ofNum 0) (remainder_start hpos)
  obtain ⟨-, hm0, -⟩ := ofNum_spec 0 (Nat.zero_le _)
  simp only [Nat.cast_zero] at hm0
  rw [hm0, Nat.zero_mul, Nat.zero_add, abs_digits] at hm
  refine ⟨_, moduloAssign_of_loop hxz hyz hl ho, canonical_optimise _ hrem.canonical.nonempty, ?_⟩
  rw [mag_optimise, hm]
  rfl

theorem one_digit_turn {x y : BigInt} (hx : Canonical x) (hxz : ¬ x.isZero = true)
    (hy : Canonical y) (hyz : ¬ y.isZero = true) (hone : y.digits.length ≤ 1) :
    ∃ r q, moduloAssign x y = .ok r ∧ divideAssign x y = .ok q ∧
      Canonical r ∧ mag r.digits = visited x % mag y.digits ∧
      Canonical q ∧ (x.sign = y.sign → q.sign = true) ∧
      mag q.digits = visited x / mag y.digits := by
  by_cases hl : spaceship x.abs y.abs = .lt
  · have hlen : x.digits.length < 2 ^ 31 := by
      by_contra hlong
      have hne : x.abs.digits.length ≠ y.abs.digits.length := by
        rw [abs_digits, abs_digits]
        omega
      unfold spaceship at hl
      rw [if_neg (by simp), if_pos hne, if_pos (abs_sign x), compare_lt_iff_lt] at hl
      rw [abs_digits, abs_digits] at hl
      omega
    have hlt : mag x.digits < mag y.digits :=
      (spaceship_abs_lt_iff hx hy (orderVisible_of_lt _ _ (fun _ => hlen))).mp hl
    rw [visited_of_lt hlen]
    refine ⟨{ x with sign := true }, zeroed x, ?_, ?_, canonical_withSign hx hxz true, ?_, ?_⟩
    · rw [moduloAssign, if_neg hxz, if_neg hyz, if_pos hl]
      rfl
    · rw [divideAssign, if_neg hxz, if_neg hyz, if_pos hl]
      rfl
    · exact (Nat.mod_eq_of_lt hlt).symm
    · rw [zeroed_eq, Nat.div_eq_of_lt hlt]
      exact ⟨⟨by decide, by decide, by decide⟩, fun _ => rfl, rfl⟩
  · obtain ⟨r, hr, hrc, hrm⟩ := moduloAssign_visited hy hxz hyz hl
    obtain ⟨q, hq, hqc, hqv⟩ := divideAssign_visited hx hy hxz hyz hl
    refine ⟨r, q, hr, hq, hrc, hrm, hqc, ?_, ?_⟩
    · intro hs
      refine hqc.sign_of_nonneg ?_
      rw [hqv, decide_eq_true hs]
      exact mul_nonneg one_pos.le (Int.natCast_nonneg _)
    · rw [← natAbs_toInt, hqv, Int.natAbs_mul, Int.natAbs_natCast]
      cases decide (x.sign = y.sign) <;> exact one_mul _

/-! ### The law that ties the two operations together -/

theorem mulAssign_exact {x y : BigInt} (hx : Canonical x) (hy : y.digits.length ≤ 32) :
    Exact (mulAssign x y) (x.toInt * y.toInt) := by
  have hrule : ¬ decideMult y.digits.length = .karatsuba := by
    unfold decideMult
    rw [if_neg (by omega)]
    decide
  rw [mulAssign, if_neg hrule]
  exact multiplyTrivial_exact x y hx

theorem quotient_remainder_values {a b : BigInt} (ha : Canonical a) (hb : Canonical b)
    (hbz : b.toInt ≠ 0) (hal : a.digits.length < 2 ^ 31) (hbl : b.digits.length ≤ 32) :
    ∃ p r, quotientPlusRemainder a b = .ok (plusAssign p r 0) ∧
      quotientMinusRemainder a b = .ok (minusAssign p r 0) ∧ moduloAssign a b = .ok r ∧
      Canonical p ∧ Canonical r ∧ OrderVisible p r ∧
      p.toInt = signum a.sign * (mag a.digits / mag b.digits * mag b.digits : ℕ) ∧
      r.toInt = (mag a.digits % mag b.digits : ℕ) := by
  have hyz : ¬ b.isZero = true := by
    intro h
    apply hbz
    rw [toInt_eq, mag_eq_zero_of_isZero b h]
    simp
  obtain ⟨q, hq, hqc, hqv⟩ := (divideAssign_exact ha hb hyz).mpr (Or.inr hal)
  obtain ⟨p, hp, hpc, hpv⟩ := mulAssign_exact hqc hbl
  obtain ⟨r, hr, hrc, hrv⟩ := moduloAssign_exact ha hb hyz hal
  have hsign : signum (a.sign = b.sign) * signum b.sign = signum a.sign := by
    cases a.sign <;> cases b.sign <;> rfl
  have hpv' : p.toInt = signum a.sign * (mag a.digits / mag b.digits * mag b.digits : ℕ) := by
    rw [hpv, hqv, toInt_eq a, toInt_eq b, tdiv_signum, ← hsign]
    push_cast
    ring
  have hpm : mag p.digits < BASE ^ a.digits.length := by
    have habs := congrArg Int.natAbs hpv'
    rw [toInt_eq, Int.natAbs_mul, Int.natAbs_mul, Int.natAbs_natCast, Int.natAbs_natCast] at habs
    have h1 (s : Bool) : (signum s).natAbs = 1 := by cases s <;> rfl
    rw [h1, h1, one_mul, one_mul] at habs
    rw [habs]
    exact (Nat.div_mul_le_self _ _).trans_lt (mag_lt _)
  have hpl := hpc.length_le _ ha.length_pos hpm
  refine ⟨p, r, ?_, ?_, hr, hpc, hrc, orderVisible_of_lt p r (fun _ => by omega), hpv', hrv⟩
  · simp only [quotientPlusRemainder, hq, hp, hr, bind, Except.bind]
    rfl
  · simp only [quotientMinusRemainder, hq, hp, hr, bind, Except.bind]
    rfl

theorem abs_toInt (z : BigInt) : |z.toInt| = mag z.digits := by
  rw [toInt_eq]
  cases z.sign <;> simp [signum]

/-- The remainder is added to the product for a dividend that is not negative and
subtracted for one that is not positive. -/
theorem quotient_remainder_law (a b : BigInt) (ha : Canonical a) (hb : Canonical b)
    (hbz : b.toInt ≠ 0) (hal : a.digits.length < 2 ^ 31) (hbl : b.digits.length ≤ 32) :
    ∃ r, moduloAssign a b = .ok r ∧ 0 ≤ r.toInt ∧ |r.toInt| < |b.toInt| ∧
      (0 ≤ a.toInt → ∃ s, quotientPlusRemainder a b = .ok s ∧ equals s a = true) ∧
      (a.toInt ≤ 0 → ∃ s, quotientMinusRemainder a b = .ok s ∧ equals s a = true) := by
  obtain ⟨p, r, hplus, hminus, hr, hpc, hrc, hvis, hpv, hrv⟩ :=
    quotient_remainder_values ha hb hbz hal hbl
  have hadd := toInt_plusAssign hpc hrc hvis
  have hsub := toInt_minusAssign hpc hrc hvis
  have hpos : 0 < mag b.digits := by
    have h := abs_pos.mpr hbz
    rw [abs_toInt] at h
    exact_mod_cast h
  have hdm := Nat.div_add_mod' (mag a.digits) (mag b.digits)
  have hlt := Nat.mod_lt (mag a.digits) hpos
  generalize mag a.digits / mag b.digits = q at hdm hpv
  generalize mag a.digits % mag b.digits = m at hdm hlt hrv
  refine ⟨r, hr, ?_, ?_, ?_, ?_⟩
  · rw [hrv]
    exact Int.natCast_nonneg m
  · rw [abs_toInt b, hrv, Nat.abs_cast]
    exact_mod_cast hlt
  · intro h0
    refine ⟨_, hplus, equals_of_toInt (canonical_plusAssign hpc) ha ?_⟩
    obtain ⟨hs, -⟩ := ha.mag_of_toInt a.toInt.toNat (by omega)
    rw [hadd, hpv, hrv, toInt_eq a, hs, ← hdm]
    simp only [signum, if_true]
    push_cast
    ring
  · intro h0
    refine ⟨_, hminus, equals_of_toInt (canonical_minusAssign hpc) ha ?_⟩
    rw [hsub, hpv, hrv, toInt_eq a, ← hdm]
    cases hs : a.sign with
    | false =>
      simp only [signum, Bool.false_eq_true, if_false]
      push_cast
      ring
    | true =>
      have hm : q * mag b.digits + m = 0 := by
        rw [toInt_eq, hs, ← hdm] at h0
        simp only [signum, if_true] at h0
        omega
      have hm0 : m = 0 := by omega
      rw [hm0]
      simp

theorem quotient_remainder_law_small :
    ∃ r, moduloAssign ⟨false, [7, 1]⟩ ⟨true, [2]⟩ = .ok r ∧ 0 ≤ r.toInt ∧
      |r.toInt| < |toInt ⟨true, [2]⟩| ∧
      (0 ≤ toInt ⟨false, [7, 1]⟩ →
        ∃ s, quotientPlusRemainder ⟨false, [7, 1]⟩ ⟨true, [2]⟩ = .ok s ∧
          equals s ⟨false, [7, 1]⟩ = true) ∧
      (toInt ⟨false, [7, 1]⟩ ≤ 0 →
        ∃ s, quotientMinusRemainder ⟨false, [7, 1]⟩ ⟨true, [2]⟩ = .ok s ∧
          equals s ⟨false, [7, 1]⟩ = true) :=
  quotient_remainder_law ⟨false, [7, 1]⟩ ⟨true, [2]⟩ ⟨by decide, by decide, by decide⟩
    ⟨by decide, by decide, by decide⟩ (by decide) (by decide) (by decide)

/-- `-7 / 2` is `-3` and `-7 % 2` is `1`, which do not give `-7` back. -/
theorem quotientPlusRemainder_negative :
    Canonical ⟨false, [7]⟩ ∧ Canonical ⟨true, [2]⟩ ∧
      ∃ s, quotientPlusRemainder ⟨false, [7]⟩ ⟨true, [2]⟩ = .ok s ∧
        equals s ⟨false, [7]⟩ = false := by
  have ha : Canonical ⟨false, [7]⟩ := ⟨by decide, by decide, by decide⟩
  have hb : Canonical ⟨true, [2]⟩ := ⟨by decide, by decide, by decide⟩
  obtain ⟨p, r, hplus, -, -, hpc, hrc, hvis, hpv, hrv⟩ :=
    quotient_remainder_values ha hb (by decide) (by decide) (by decide)
  have hadd := toInt_plusAssign hpc hrc hvis
  have hc := canonical_plusAssign (y := r) hpc
  have hval : (plusAssign p r 0).toInt = -5 := by
    rw [hadd, hpv, hrv]
    decide
  have hfive : Canonical ⟨false, [5]⟩ := ⟨by decide, by decide, by decide⟩
  have he : plusAssign p r 0 = ⟨false, [5]⟩ := hc.ext hfive (hval.trans (by decide))
  refine ⟨ha, hb, _, hplus, ?_⟩
  rw [he]
  decide

end MaiFaSp.BigInt
