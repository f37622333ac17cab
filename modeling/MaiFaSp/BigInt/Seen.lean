import MaiFaSp.BigInt.Order
import MaiFaSp.Lib.Outcomes

/-!
# `big_int`: remainder and quotient of numbers of any length

`%` and `/` work on the digits that their `int` counter visits. By a number of fewer than
`2^31` digits they take the remainder and the quotient of the visited part.
-/

namespace MaiFaSp.BigInt

variable {x y : BigInt}

/-- What `static_cast<int>` of the number of digits leaves of a magnitude. -/
def seenPart (n : ℕ) : ℕ := n % BASE ^ scanLen (Nat.digits BASE n).length

theorem length_eq_digits (hx : Canonical x) (h0 : mag x.digits ≠ 0) :
    x.digits.length = (Nat.digits BASE (mag x.digits)).length := by
  have hlt := mag_lt x.digits
  have hle : (Nat.digits BASE (mag x.digits)).length ≤ x.digits.length :=
    (Nat.digits_length_le_iff one_lt_BASE _).mpr hlt
  have hge : x.digits.length ≤ (Nat.digits BASE (mag x.digits)).length := by
    by_cases hone : x.digits.length = 1
    · have hne := Nat.digits_ne_nil_iff_ne_zero (b := BASE).mpr h0
      have := List.length_pos_of_ne_nil hne
      omega
    · have hpos := hx.length_pos
      obtain ⟨k, hk⟩ : ∃ k, x.digits.length = k + 2 := ⟨x.digits.length - 2, by omega⟩
      have hpow := hx.pow_le_mag k hk
      have := (Nat.lt_digits_length_iff one_lt_BASE _).mpr hpow
      omega
  exact Nat.le_antisymm hge hle

theorem visited_eq_seenPart (hx : Canonical x) : visited x = seenPart (mag x.digits) := by
  by_cases h0 : mag x.digits = 0
  · have hle := visited_le x
    rw [h0] at hle ⊢
    simpa [seenPart] using hle
  · have hsum := mag_take_add x.digits (scanLen x.digits.length)
    have hlt := mag_take_lt x.digits (scanLen x.digits.length)
    unfold visited seenPart
    rw [← length_eq_digits hx h0]
    conv_rhs => rw [← hsum]
    rw [Nat.add_mul_mod_self_left, Nat.mod_eq_of_lt hlt]

theorem seenPart_of_lt {n : ℕ} (h : n < BASE ^ (2 ^ 31 - 1)) : seenPart n = n := by
  have hlen := (Nat.digits_length_le_iff one_lt_BASE n).mpr h
  have hshort : (Nat.digits BASE n).length < 2 ^ 31 := by omega
  unfold seenPart
  rw [scanLen_of_lt _ hshort]
  exact Nat.mod_eq_of_lt ((Nat.digits_length_le_iff one_lt_BASE n).mp le_rfl)

/-! ### Comparisons -/

theorem length_ofNum_zero : (ofNum 0).digits.length = 1 := by
  obtain ⟨-, hm, -⟩ := ofNum_spec 0 (Nat.zero_le _)
  have hz : (ofNum 0).isZero = true := (canonical_ofNum 0).isZero_iff.mpr hm
  simp only [isZero, decide_eq_true_eq] at hz
  exact hz.1

theorem toInt_ofNum_zero : (ofNum 0).toInt = 0 := toInt_ofNum 0 (by decide)

theorem toInt_ofNum_one : (ofNum 1).toInt = 1 := toInt_ofNum 1 (by decide)

theorem spaceship_zero (hx : Canonical x) : spaceship x (ofNum 0) = compare x.toInt 0 := by
  have hseen : SeenOrder x (ofNum 0) := by
    intro hs hl
    have hlen : x.digits.length < 2 ^ 31 := by
      rw [hl, length_ofNum_zero]
      decide
    exact seenOrder_of_lt hlen hs hl
  rw [(spaceship_exact_iff hx (canonical_ofNum 0)).mpr hseen, toInt_ofNum_zero]

theorem less_zero_iff (hx : Canonical x) : spaceship x (ofNum 0) = .lt ↔ x.toInt < 0 := by
  rw [spaceship_zero hx]
  exact compare_lt_iff_lt

theorem equals_zero_iff (hx : Canonical x) : equals x (ofNum 0) = true ↔ x.isZero = true := by
  rw [equals, decide_eq_true_eq, spaceship_zero hx, ← toInt_eq_zero_iff hx]
  exact compare_eq_iff_eq

/-- `0_bi - y` -/
theorem zero_minus (hy : Canonical y) :
    Canonical (minusAssign (ofNum 0) y 0) ∧ (minusAssign (ofNum 0) y 0).toInt = -y.toInt := by
  have hvisible : OrderVisible (ofNum 0) y := by
    refine orderVisible_of_lt _ _ fun _ => ?_
    rw [length_ofNum_zero]
    decide
  refine ⟨canonical_minusAssign (canonical_ofNum 0), ?_⟩
  rw [toInt_minusAssign (canonical_ofNum 0) hy hvisible, toInt_ofNum_zero, zero_sub]

/-- Of two magnitudes of which the first is the smaller one, the second is not. -/
theorem spaceship_abs_asymm (hx : Canonical x) (hy : Canonical y)
    (h : spaceship x.abs y.abs = .lt) : spaceship y.abs x.abs ≠ .lt := by
  by_cases hl : x.digits.length = y.digits.length
  · rw [spaceship_abs_same_length x y hl, compare_lt_iff_lt] at h
    rw [spaceship_abs_same_length y x hl.symm, ← hl, ne_eq, compare_lt_iff_lt]
    omega
  · rw [spaceship_abs_of_length_ne hx hy hl, compare_lt_iff_lt] at h
    rw [spaceship_abs_of_length_ne hy hx (Ne.symm hl), ne_eq, compare_lt_iff_lt]
    omega

theorem spaceship_short_iff (hx : Canonical x) (hy : Canonical y)
    (hlen : y.digits.length < 2 ^ 31) :
    spaceship x.abs y.abs = .lt ↔ mag x.digits < mag y.digits :=
  spaceship_abs_lt_iff hx hy (orderVisible_of_lt x y fun hl => hl ▸ hlen)

theorem length_le_of_mag_le (hx : Canonical x) (hy : Canonical y)
    (h : mag x.digits ≤ mag y.digits) : x.digits.length ≤ y.digits.length :=
  hx.length_le _ hy.length_pos (h.trans_lt (mag_lt y.digits))

/-- The visited part of any number is below a number of `2^31` digits. -/
theorem visited_lt_of_long (x : BigInt) (hy : Canonical y) (hlong : ¬ y.digits.length < 2 ^ 31) :
    visited x < mag y.digits := by
  have hscan := scanLen_lt x.digits.length
  obtain ⟨k, hk⟩ : ∃ k, y.digits.length = k + 2 := ⟨y.digits.length - 2, by omega⟩
  have hpow := hy.pow_le_mag k hk
  have hmono : BASE ^ scanLen x.digits.length ≤ BASE ^ (k + 1) :=
    Nat.pow_le_pow_right BASE_pos (by omega)
  exact (mag_take_lt x.digits _).trans_le (hmono.trans hpow)

/-! ### Remainder and quotient -/

theorem visited_eq_zero_of_isZero (hx : Canonical x) (h : x.isZero = true) : visited x = 0 := by
  have hle := visited_le x
  rw [hx.isZero_iff.mp h] at hle
  exact Nat.le_zero.mp hle

theorem sign_moduloAssign {r : BigInt} (hx : Canonical x) (h : moduloAssign x y = .ok r) :
    r.sign = true := by
  unfold moduloAssign at h
  split at h
  case isTrue hz =>
    cases h
    exact hx.zeroPositive hz
  case isFalse =>
    split at h
    · cases h
    · split at h
      · cases h
        rfl
      · obtain ⟨remain, -, hr⟩ := bind_eq_ok.mp h
        cases hr
        exact optimise_sign_true _ rfl

theorem moduloAssign_seen (hx : Canonical x) (hy : Canonical y) (hyz : ¬ y.isZero = true) :
    ∃ r, moduloAssign x y = .ok r ∧ Canonical r ∧ r.sign = true ∧
      mag r.digits = if spaceship x.abs y.abs = .lt then mag x.digits
        else visited x % mag y.digits := by
  by_cases hxz : x.isZero = true
  · have hr : moduloAssign x y = .ok x := by
      rw [moduloAssign, if_pos hxz]
      rfl
    refine ⟨x, hr, hx, hx.zeroPositive hxz, ?_⟩
    rw [visited_eq_zero_of_isZero hx hxz, hx.isZero_iff.mp hxz, Nat.zero_mod]
    simp
  · by_cases hl : spaceship x.abs y.abs = .lt
    · have hr : moduloAssign x y = .ok { x with sign := true } := by
        rw [moduloAssign, if_neg hxz, if_neg hyz, if_pos hl]
        rfl
      rw [if_pos hl]
      exact ⟨_, hr, canonical_withSign hx hxz true, rfl, rfl⟩
    · obtain ⟨r, hr, hrc, hrm⟩ := moduloAssign_visited hy hxz hyz hl
      rw [if_neg hl]
      exact ⟨r, hr, hrc, sign_moduloAssign hx hr, hrm⟩

theorem divideAssign_seen (hx : Canonical x) (hy : Canonical y) (hyz : ¬ y.isZero = true) :
    ∃ q, divideAssign x y = .ok q ∧ Canonical q ∧
      q.toInt = signum (x.sign = y.sign) *
        ((if spaceship x.abs y.abs = .lt then 0 else visited x / mag y.digits : ℕ) : ℤ) := by
  by_cases hxz : x.isZero = true
  · have hq : divideAssign x y = .ok x := by
      rw [divideAssign, if_pos hxz]
      rfl
    refine ⟨x, hq, hx, ?_⟩
    rw [visited_eq_zero_of_isZero hx hxz, toInt_eq, hx.isZero_iff.mp hxz, Nat.zero_div]
    simp
  · by_cases hl : spaceship x.abs y.abs = .lt
    · have hq : divideAssign x y = .ok (zeroed x) := by
        rw [divideAssign, if_neg hxz, if_neg hyz, if_pos hl]
        rfl
      refine ⟨zeroed x, hq, ?_, ?_⟩
      · rw [zeroed_eq]
        exact ⟨by decide, by decide, by decide⟩
      · rw [zeroed_eq, if_pos hl]
        simp [toInt]
    · obtain ⟨q, hq, hqc, hqv⟩ := divideAssign_visited hx hy hxz hyz hl
      rw [if_neg hl]
      exact ⟨q, hq, hqc, hqv⟩

/-- By a number of fewer than `2^31` digits, the remainder is that of the visited part. -/
theorem moduloAssign_short (hx : Canonical x) (hy : Canonical y) (hyz : ¬ y.isZero = true)
    (hlen : y.digits.length < 2 ^ 31) :
    ∃ r, moduloAssign x y = .ok r ∧ Canonical r ∧ r.sign = true ∧
      mag r.digits = visited x % mag y.digits := by
  obtain ⟨r, hr, hrc, hrs, hrm⟩ := moduloAssign_seen hx hy hyz
  refine ⟨r, hr, hrc, hrs, ?_⟩
  by_cases hl : spaceship x.abs y.abs = .lt
  · have hlt := (spaceship_short_iff hx hy hlen).mp hl
    have hshort := (length_le_of_mag_le hx hy hlt.le).trans_lt hlen
    rw [hrm, if_pos hl, visited_of_lt hshort, Nat.mod_eq_of_lt hlt]
  · rw [hrm, if_neg hl]

theorem divideAssign_short (hx : Canonical x) (hy : Canonical y) (hyz : ¬ y.isZero = true)
    (hlen : y.digits.length < 2 ^ 31) :
    ∃ q, divideAssign x y = .ok q ∧ Canonical q ∧
      q.toInt = signum (x.sign = y.sign) * ((visited x / mag y.digits : ℕ) : ℤ) := by
  obtain ⟨q, hq, hqc, hqv⟩ := divideAssign_seen hx hy hyz
  refine ⟨q, hq, hqc, ?_⟩
  by_cases hl : spaceship x.abs y.abs = .lt
  · have hlt := (spaceship_short_iff hx hy hlen).mp hl
    have hshort := (length_le_of_mag_le hx hy hlt.le).trans_lt hlen
    rw [hqv, if_pos hl, visited_of_lt hshort, Nat.div_eq_of_lt hlt]
  · rw [hqv, if_neg hl]

end MaiFaSp.BigInt
