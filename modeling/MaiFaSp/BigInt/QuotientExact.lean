import MaiFaSp.BigInt.Divide

/-!
# When `divide_assign` leaves the truncated quotient

The digits that the loop visits are divided exactly, whatever the operands.
Above `2^31 - 1` digits the loop does not visit all of them, and then the
result is the quotient only where that quotient is zero.
-/

namespace MaiFaSp.BigInt

/-- The remainder after `j` of the `k` turns of the loop. -/
def remainAfter (absOther : BigInt) (ds : List UInt32) (k : ℕ) : ℕ → Outcome BigInt
  | 0 => pure (ofNum 0)
  | j + 1 => do
    let remain ← remainAfter absOther ds k j
    let (next, _) ← divideStep absOther remain (ds.getD (k - (j + 1)) 0)
    pure next

theorem remainder_start {b : BigInt} (hpos : 0 < mag b.digits) : Remainder b (ofNum 0) 0 := by
  obtain ⟨hs, hm, -⟩ := ofNum_spec 0 (Nat.zero_le _)
  simp only [Nat.cast_zero] at hs hm
  refine ⟨canonical_ofNum 0, hs, ?_, ?_⟩
  · rw [hm]
    exact hpos
  · rw [hm]
    simp

theorem remainAfter_spec {b : BigInt} (hb : Canonical b) (hbs : b.sign = true)
    (hpos : 0 < mag b.digits) (ds : List UInt32) (k j : ℕ) (hj : j ≤ k) (hk : k < 2 ^ 31) :
    ∃ remain, remainAfter b ds k j = .ok remain ∧ Remainder b remain j := by
  induction j with
  | zero => exact ⟨ofNum 0, rfl, remainder_start hpos⟩
  | succ j ih =>
    obtain ⟨remain, hr, h⟩ := ih (by omega)
    obtain ⟨next, hstep, hnext, -⟩ := divideStep_spec hb hbs h (by omega)
      (ds.getD (k - (j + 1)) 0)
    refine ⟨next, ?_, hnext⟩
    simp only [remainAfter, hr, hstep, bind, Except.bind]
    rfl

/-! ### The result -/

theorem tdiv_signum (s t : Bool) (m n : ℕ) :
    (signum s * (m : ℤ)).tdiv (signum t * n) = signum (s = t) * ((m / n : ℕ) : ℤ) := by
  cases s <;> cases t <;> simp [signum]

theorem divideAssign_of_loop {x y : BigInt} (hxz : ¬ x.isZero = true) (hyz : ¬ y.isZero = true)
    (hl : spaceship x.abs y.abs ≠ .lt) {out : List UInt32}
    (ho : divideLoop y.abs x.digits (scanLen x.digits.length) (ofNum 0)
      (List.replicate x.digits.length 0) = .ok out) :
    divideAssign x y = .ok (optimise ⟨x.sign = y.sign, out⟩) := by
  rw [divideAssign, if_neg hxz, if_neg hyz, if_neg hl, ho]
  rfl

theorem divideAssign_visited {x y : BigInt} (hx : Canonical x) (hy : Canonical y)
    (hxz : ¬ x.isZero = true) (hyz : ¬ y.isZero = true) (hl : spaceship x.abs y.abs ≠ .lt) :
    ∃ r, divideAssign x y = .ok r ∧ Canonical r ∧
      r.toInt = signum (x.sign = y.sign) *
        ((mag (x.digits.take (scanLen x.digits.length)) / mag y.digits : ℕ) : ℤ) := by
  have hpos : 0 < mag y.abs.digits := Nat.pos_of_ne_zero (fun h => hyz (hy.isZero_iff.mpr h))
  have hlt := scanLen_lt x.digits.length
  obtain ⟨out, ho, hlen, hv⟩ := divideLoop_eq (canonical_abs hy) rfl x.digits
    (scanLen x.digits.length) 0 (scanLen_le _) (by omega) (ofNum 0) (remainder_start hpos)
    (List.replicate x.digits.length 0) (by simp)
    (fun j _ => by
      rw [List.getD_eq_getElem?_getD, List.getElem?_replicate]
      split <;> rfl)
  obtain ⟨-, hm0, -⟩ := ofNum_spec 0 (Nat.zero_le _)
  simp only [Nat.cast_zero] at hm0
  rw [mag_replicate_zero, hm0, Nat.zero_mul, Nat.zero_add, Nat.zero_add, abs_digits] at hv
  refine ⟨optimise ⟨x.sign = y.sign, out⟩, divideAssign_of_loop hxz hyz hl ho,
    canonical_optimise _ ?_, ?_⟩
  · apply List.ne_nil_of_length_pos
    have := hx.length_pos
    dsimp only
    omega
  · rw [toInt_optimise, toInt_eq, hv]

/-- Leaving out nonzero top digits changes a quotient that is not zero. -/
theorem quotient_take_lt {x : BigInt} (hx : Canonical x) (k n : ℕ) (hk : k < x.digits.length)
    (hn : 0 < n) (hle : n ≤ mag x.digits) (hbig : 1 < x.digits.length) :
    mag (x.digits.take k) / n < mag x.digits / n := by
  obtain ⟨l, hl⟩ : ∃ l, x.digits.length = l + 2 := ⟨x.digits.length - 2, by omega⟩
  have htop := hx.pow_le_mag l hl
  have hlow := mag_take_lt x.digits k
  have hsum := mag_take_add x.digits k
  have hmono : BASE ^ k ≤ BASE ^ (l + 1) := Nat.pow_le_pow_right BASE_pos (by omega)
  have hdrop : mag (x.digits.drop k) ≠ 0 := by
    intro h0
    rw [h0, Nat.mul_zero] at hsum
    omega
  have hhigh : BASE ^ k * 1 ≤ BASE ^ k * mag (x.digits.drop k) :=
    Nat.mul_le_mul_left _ (Nat.pos_of_ne_zero hdrop)
  generalize BASE ^ k * mag (x.digits.drop k) = high at hsum hhigh
  by_cases hc : n ≤ high
  · have hstep : mag (x.digits.take k) / n + 1 ≤ mag x.digits / n := by
      rw [← Nat.add_div_right _ hn]
      exact Nat.div_le_div_right (by omega)
    omega
  · rw [Nat.div_eq_of_lt (by omega)]
    exact Nat.div_pos hle hn

theorem exact_iff_of_eq {r : BigInt} {o : Outcome BigInt} (ho : o = .ok r) (hr : Canonical r)
    (z : ℤ) : Exact o z ↔ r.toInt = z := by
  constructor
  · rintro ⟨p, hp, -, hv⟩
    rw [ho] at hp
    cases hp
    exact hv
  · intro hv
    exact ⟨r, ho, hr, hv⟩

/-- `divide_assign` leaves the quotient just when it is zero or every digit is visited. -/
theorem divideAssign_exact {x y : BigInt} (hx : Canonical x) (hy : Canonical y)
    (hyz : ¬ y.isZero = true) :
    Exact (divideAssign x y) (x.toInt.tdiv y.toInt) ↔
      mag x.digits < mag y.digits ∨ x.digits.length < 2 ^ 31 := by
  have hpos : 0 < mag y.digits := Nat.pos_of_ne_zero (fun h => hyz (hy.isZero_iff.mpr h))
  have hq := tdiv_signum x.sign y.sign (mag x.digits) (mag y.digits)
  rw [← toInt_eq, ← toInt_eq] at hq
  rw [hq]
  have hsign := signum_ne_zero (x.sign = y.sign)
  by_cases hxz : x.isZero = true
  · have hm := hx.isZero_iff.mp hxz
    have ho : divideAssign x y = .ok x := by
      simp only [divideAssign, if_pos hxz]
      rfl
    rw [exact_iff_of_eq ho hx, toInt_eq, hm, Nat.zero_div]
    exact iff_of_true (by simp) (Or.inl hpos)
  · by_cases hl : spaceship x.abs y.abs = .lt
    · have ho : divideAssign x y = .ok (zeroed x) := by
        simp only [divideAssign, if_neg hxz, if_neg hyz, if_pos hl]
        rfl
      rw [exact_iff_of_eq ho (canonical_optimise _ (by simp)), zeroed_eq]
      have hz : toInt ⟨true, [0]⟩ = 0 := rfl
      rw [hz, eq_comm, mul_eq_zero, or_iff_right hsign, Nat.cast_eq_zero,
        Nat.div_eq_zero_iff_lt hpos]
      refine ⟨Or.inl, fun h => h.elim id (fun hlen => ?_)⟩
      exact (spaceship_abs_lt_iff hx hy (orderVisible_of_lt x y (fun _ => hlen))).mp hl
    · obtain ⟨r, ho, hc, hv⟩ := divideAssign_visited hx hy hxz hyz hl
      rw [exact_iff_of_eq ho hc, hv]
      rw [mul_right_inj' hsign, Nat.cast_inj]
      constructor
      · intro he
        by_contra hcon
        rw [not_or, not_lt, not_lt] at hcon
        have hk := scanLen_lt x.digits.length
        have hne := quotient_take_lt hx (scanLen x.digits.length) (mag y.digits) (by omega) hpos
          hcon.1 (by omega)
        omega
      · rintro (hlt | hlen)
        · have hle : mag (x.digits.take (scanLen x.digits.length)) ≤ mag x.digits := by
            have := mag_take_add x.digits (scanLen x.digits.length)
            omega
          rw [Nat.div_eq_of_lt hlt, Nat.div_eq_of_lt (hle.trans_lt hlt)]
        · rw [scanLen_of_lt _ hlen, List.take_length]

/-- The quotient, and at every position visited the search for its digit. -/
theorem divide_exact_iff (x y : BigInt) (hx : Canonical x) (hy : Canonical y)
    (hyz : y.toInt ≠ 0) :
    (Exact (divideAssign x y) (x.toInt.tdiv y.toInt) ↔
      |x.toInt| < |y.toInt| ∨ x.digits.length < 2 ^ 31) ∧
    ∀ j < scanLen x.digits.length, ∃ remain,
      remainAfter y.abs x.digits (scanLen x.digits.length) j = .ok remain ∧
      quotientSearch (timesDigit y.abs)
          (bringDown remain (x.digits.getD (scanLen x.digits.length - (j + 1)) 0)) 0 0 BASE =
        .ok (mag (bringDown remain
          (x.digits.getD (scanLen x.digits.length - (j + 1)) 0)).digits / mag y.digits) ∧
      mag (bringDown remain
        (x.digits.getD (scanLen x.digits.length - (j + 1)) 0)).digits / mag y.digits < BASE := by
  have hz : ¬ y.isZero = true := by
    intro h
    apply hyz
    rw [toInt_eq, mag_eq_zero_of_isZero y h]
    simp
  have habs (z : BigInt) : |z.toInt| = mag z.digits := by
    rw [toInt_eq]
    cases z.sign <;> simp [signum]
  constructor
  · rw [divideAssign_exact hx hy hz, habs, habs, Nat.cast_lt]
  · intro j hj
    have hpos : 0 < mag y.abs.digits := Nat.pos_of_ne_zero (fun h => hz (hy.isZero_iff.mpr h))
    have hlt := scanLen_lt x.digits.length
    obtain ⟨remain, hr, h⟩ := remainAfter_spec (canonical_abs hy) rfl hpos x.digits
      (scanLen x.digits.length) j hj.le hlt
    obtain ⟨-, -, hm⟩ := bringDown_spec h.positive
      (x.digits.getD (scanLen x.digits.length - (j + 1)) 0)
    refine ⟨remain, hr, ?_, ?_⟩
    · rw [hm]
      exact quotientSearch_turn (canonical_abs hy) rfl h (by omega) _
    · rw [hm]
      exact quotient_digit_lt h _

theorem divide_exact_small :
    Exact (divideAssign ⟨false, [7, 1]⟩ ⟨true, [2]⟩)
      ((toInt ⟨false, [7, 1]⟩).tdiv (toInt ⟨true, [2]⟩)) :=
  (divide_exact_iff ⟨false, [7, 1]⟩ ⟨true, [2]⟩ ⟨by decide, by decide, by decide⟩
    ⟨by decide, by decide, by decide⟩ (by decide)).1.mpr (Or.inr (by decide))

theorem not_exact_divide_basePow (n : ℕ) (hn : 2 ^ 31 ≤ n + 1) :
    ¬ Exact (divideAssign (basePow n) ⟨true, [1]⟩) ((basePow n).toInt.tdiv (toInt ⟨true, [1]⟩)) := by
  have hy : Canonical ⟨true, [1]⟩ := ⟨by decide, by decide, by decide⟩
  have hlen : (basePow n).digits.length = n + 1 := by simp [basePow]
  have hp := Nat.pow_pos (n := n) BASE_pos
  intro he
  rcases (divideAssign_exact (canonical_basePow n) hy (by decide)).mp he with h | h
  · rw [mag_basePow] at h
    exact absurd h (by simpa using hp.ne')
  · omega

/-- `BASE ^ (2^31)` has `2^31 + 1` digits; divided by one it becomes zero. -/
theorem divideAssign_digits_unseen :
    Canonical (basePow 2147483648) ∧ Canonical ⟨true, [1]⟩ ∧
      ¬ Exact (divideAssign (basePow 2147483648) ⟨true, [1]⟩)
        ((basePow 2147483648).toInt.tdiv (toInt ⟨true, [1]⟩)) :=
  ⟨canonical_basePow _, ⟨by decide, by decide, by decide⟩,
    not_exact_divide_basePow 2147483648 (by norm_num)⟩

end MaiFaSp.BigInt
