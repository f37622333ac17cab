import MaiFaSp.BigInt.ShiftsExact
import Mathlib.Data.Nat.Prime.Basic

/-!
# `plus_assign` and `minus_assign` with a shift (`big_int.cpp:284-379`, `big_int.h:99-105`)

The loop that adds reads the other operand at `i - shift`, so its shift counts digits. The
path that subtracts shifts a copy with `operator<<=`, which counts bits. Hence a shift other
than zero gives the documented result only where nothing is subtracted.
-/

namespace MaiFaSp.BigInt

/-- The bits shifted out of a copy first, then the subtraction without a shift. -/
theorem minusSame_shift {x y : BigInt} (hz : mag y.digits ≠ 0) (s : ℕ) :
    minusSame x y s = minusSame x (shlAssign y.abs s) 0 := by
  have hsign : (shlAssign y.abs s).sign = true := (shlAssign_sign (x := y.abs) hz s).trans rfl
  have habs : (shlAssign y.abs s).abs = shlAssign y.abs s := abs_eq_self hsign
  unfold minusSame
  rw [shlAssign_zero, habs]

/-- A subtraction of magnitudes gives the difference, or misses it by one power of the base. -/
theorem minusSame_off (x y : BigInt) (hx : x.digits ≠ []) :
    ∃ (e : ℤ) (n : ℕ), (e = 0 ∨ e = BASE ^ n ∨ e = -BASE ^ n) ∧
      (minusSame x y 0).toInt = signum x.sign * ((mag x.digits : ℤ) - mag y.digits + e) := by
  rw [toInt_minusSame x y hx]
  split
  · split
    · exact ⟨0, 0, .inl rfl, by ring⟩
    · exact ⟨_, max y.digits.length x.digits.length, .inr (.inr rfl), by ring⟩
  · split
    · exact ⟨0, 0, .inl rfl, by ring⟩
    · exact ⟨_, max x.digits.length y.digits.length, .inr (.inl rfl), by ring⟩

/-- A shift by bits in place of digits changes a number by no power of the base. -/
theorem shift_gap_ne {m s : ℕ} (hs : s ≠ 0) (n : ℕ) :
    (m : ℤ) * BASE ^ s - m * 2 ^ s ≠ BASE ^ n := by
  intro h
  have hone : 1 ≤ 2 ^ (31 * s) := Nat.one_le_two_pow
  have hcast : ((BASE : ℕ) : ℤ) = 2 ^ 32 := by norm_num [BASE]
  have hbase : (BASE : ℤ) ^ s = 2 ^ s * 2 ^ (31 * s) := by
    rw [← pow_add, hcast, ← pow_mul]
    congr 1
    omega
  have hnat : m * 2 ^ s * (2 ^ (31 * s) - 1) = 2 ^ (32 * n) := by
    zify [hone]
    rw [pow_mul (2 : ℤ) 32 n]
    rw [← hcast, ← h, hbase]
    ring
  have hdvd : 2 ^ (31 * s) - 1 ∣ 2 ^ (32 * n) := Dvd.intro_left _ hnat
  obtain ⟨k, -, hk⟩ := (Nat.dvd_prime_pow Nat.prime_two).mp hdvd
  have heven : 2 ^ (31 * s) = 4 * 2 ^ (31 * s - 2) := by
    rw [show (4 : ℕ) = 2 ^ 2 from rfl, ← pow_add]
    congr 1
    omega
  have hpos := Nat.two_pow_pos (31 * s - 2)
  cases k with
  | zero => omega
  | succ k =>
    rw [pow_succ] at hk
    omega

/-- With a shift the subtraction never gives the difference of the digits shifted. -/
theorem minusSame_shift_ne {x y : BigInt} (hx : Canonical x) (hz : mag y.digits ≠ 0) {s : ℕ}
    (hs : s ≠ 0) :
    (minusSame x y s).toInt ≠
      signum x.sign * ((mag x.digits : ℤ) - mag y.digits * BASE ^ s) := by
  obtain ⟨e, n, he, hv⟩ := minusSame_off x (shlAssign y.abs s) hx.nonempty
  rw [minusSame_shift hz s, hv, mag_shlAssign, abs_digits]
  intro h
  have hgap := mul_left_cancel₀ (signum_ne_zero x.sign) h
  push_cast at hgap
  have hlt : (mag y.digits : ℤ) * 2 ^ s < mag y.digits * BASE ^ s := by
    have hpow : 2 ^ s < BASE ^ s := Nat.pow_lt_pow_left (by decide) hs
    exact_mod_cast Nat.mul_lt_mul_of_pos_left hpow (Nat.pos_of_ne_zero hz)
  have hbase : (0 : ℤ) < BASE ^ n := by
    exact_mod_cast Nat.pow_pos (n := n) BASE_pos
  rcases he with rfl | rfl | rfl
  · linarith
  · linarith
  · exact shift_gap_ne (m := mag y.digits) hs n (by linarith)

/-! ### Which shifts are exact -/

theorem two_pow_mul (s : ℕ) : (2 : ℤ) ^ (32 * s) = BASE ^ s := by
  have hcast : ((BASE : ℕ) : ℤ) = 2 ^ 32 := by norm_num [BASE]
  rw [hcast, pow_mul]

theorem minusAssign_shift_iff {x y : BigInt} (hx : Canonical x) (hy : Canonical y) (s : ℕ) :
    (minusAssign x y s).toInt = x.toInt - y.toInt * 2 ^ (32 * s) ↔
      y.toInt = 0 ∨ x.sign ≠ y.sign ∨ s = 0 ∧ OrderVisible x y := by
  rw [two_pow_mul, toInt_eq_zero_iff hy]
  by_cases hsign : x.sign = y.sign
  · rw [or_iff_right (not_not.mpr hsign)]
    by_cases hs : s = 0
    · subst hs
      rw [pow_zero, mul_one, minusAssign_exact_iff hx hy hsign]
      refine ⟨fun h => .inr ⟨rfl, h⟩, fun h => ?_⟩
      exact h.elim orderVisible_of_isZero (fun hv => hv.2)
    · rw [or_iff_left (fun h => hs h.1)]
      by_cases hz : y.isZero = true
      · refine iff_of_true ?_ hz
        rw [minusAssign, if_pos hz, (toInt_eq_zero_iff hy).mpr hz]
        ring
      · refine iff_of_false ?_ hz
        have hne := minusSame_shift_ne hx (fun h0 => hz (hy.isZero_iff.mpr h0)) hs
        rw [minusAssign, if_neg hz, if_neg (not_not.mpr hsign), toInt_eq x, toInt_eq y, ← hsign]
        intro h
        exact hne (h.trans (by ring))
  · exact iff_of_true (minusAssign_of_sign_ne s hx hy hsign).1 (.inr (.inl hsign))

theorem plusAssign_shift_iff {x y : BigInt} (hx : Canonical x) (hy : Canonical y) (s : ℕ) :
    (plusAssign x y s).toInt = x.toInt + y.toInt * 2 ^ (32 * s) ↔
      y.toInt = 0 ∨ x.sign = y.sign ∨ s = 0 ∧ OrderVisible x y := by
  rw [two_pow_mul, toInt_eq_zero_iff hy]
  by_cases hsign : x.sign = y.sign
  · exact iff_of_true (plusAssign_of_sign_eq s hx hy hsign).1 (.inr (.inl hsign))
  · rw [or_iff_right hsign]
    by_cases hs : s = 0
    · subst hs
      rw [pow_zero, mul_one, plusAssign_exact_iff hx hy hsign]
      refine ⟨fun h => .inr ⟨rfl, h⟩, fun h => ?_⟩
      exact h.elim orderVisible_of_isZero (fun hv => hv.2)
    · rw [or_iff_left (fun h => hs h.1)]
      by_cases hz : y.isZero = true
      · refine iff_of_true ?_ hz
        rw [plusAssign, if_pos hz, (toInt_eq_zero_iff hy).mpr hz]
        ring
      · refine iff_of_false ?_ hz
        have hmag : mag y.digits ≠ 0 := fun h0 => hz (hy.isZero_iff.mpr h0)
        have hne := minusSame_shift_ne (y := ⟨x.sign, y.digits⟩) hx hmag hs
        have hdigits : (minusSame x ⟨x.sign, y.digits⟩ s).digits ≠ [] := by
          rw [minusSame_shift (y := ⟨x.sign, y.digits⟩) hmag]
          exact (canonical_minusSame x _ hx.nonempty).nonempty
        rw [plusAssign, if_neg hz, if_neg hsign, toInt_settle _ hdigits, toInt_eq x, toInt_eq y,
          signum_of_ne hsign]
        intro h
        exact hne (h.trans (by ring))

end MaiFaSp.BigInt
