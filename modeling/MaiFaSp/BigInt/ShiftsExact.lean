import MaiFaSp.BigInt.Shifts

/-!
# When `>>=` is exact, and shifting there and back

`>>=` erases `static_cast<unsigned int>(shift / 32)` digits, and its carry loop starts at
`static_cast<int>(size) - 1`. It divides as long as neither cast loses anything.
-/

namespace MaiFaSp.BigInt

/-- What the shifts by `s` bits should do to `x`. -/
structure ShiftsExact (x : BigInt) (s : ℕ) : Prop where
  left : Canonical (shlAssign x s) ∧ (shlAssign x s).toInt = x.toInt * 2 ^ s
  right : Canonical (shrAssign x s) ∧
    (shrAssign x s).toInt = x.toInt.sign * (x.toInt.natAbs / 2 ^ s : ℕ)
  back : shrAssign (shlAssign x s) s = x

/-! ### Lengths and signs -/

theorem pow_le_of_canonical {x : BigInt} (hx : Canonical x) (hz : ¬ x.isZero = true) :
    BASE ^ (x.digits.length - 1) ≤ mag x.digits := by
  by_cases h1 : x.digits.length = 1
  · rw [h1, Nat.sub_self, pow_zero]
    exact Nat.pos_of_ne_zero (fun h0 => hz (hx.isZero_iff.mpr h0))
  · have hp := hx.length_pos
    obtain ⟨k, hk⟩ : ∃ k, x.digits.length = k + 2 := ⟨x.digits.length - 2, by omega⟩
    rw [hk]
    exact hx.pow_le_mag k hk

theorem Canonical.length_eq {x : BigInt} (hx : Canonical x) (hz : ¬ x.isZero = true) :
    x.digits.length = (Nat.digits BASE (mag x.digits)).length := by
  refine le_antisymm ?_ ?_
  · by_contra hlt
    have hle : (Nat.digits BASE (mag x.digits)).length ≤ x.digits.length - 1 := by omega
    rw [Nat.digits_length_le_iff one_lt_BASE] at hle
    exact absurd hle (Nat.not_lt.mpr (pow_le_of_canonical hx hz))
  · rw [Nat.digits_length_le_iff one_lt_BASE]
    exact mag_lt x.digits

theorem optimise_sign_of_ne {x : BigInt} (h : mag x.digits ≠ 0) : x.optimise.sign = x.sign := by
  have hz : ¬ (⟨x.sign, popZeros x.digits.length x.digits⟩ : BigInt).isZero = true := by
    intro hz
    have h0 := mag_eq_zero_of_isZero _ hz
    rw [mag_popZeros] at h0
    exact h h0
  simp [optimise, hz]

theorem shlAssign_sign {x : BigInt} (hz : mag x.digits ≠ 0) (s : ℕ) :
    (shlAssign x s).sign = x.sign := by
  by_cases h : s = 0 ∨ x.isZero = true
  · rw [shlAssign, if_pos h]
  · obtain ⟨ds, hds⟩ : ∃ ds, shlAssign x s = optimise ⟨x.sign, ds⟩ := ⟨_, if_neg h⟩
    have hmag := mag_shlAssign x s
    rw [hds, mag_optimise] at hmag
    rw [hds]
    refine optimise_sign_of_ne ?_
    rw [hmag]
    exact Nat.mul_ne_zero hz (Nat.two_pow_pos s).ne'

/-- `sign(x) * floor(|x| / 2 ^ s)` from the sign flag and the magnitude. -/
theorem floor_shift (x : BigInt) (s : ℕ) :
    x.toInt.sign * (x.toInt.natAbs / 2 ^ s : ℕ) = signum x.sign * (mag x.digits / 2 ^ s : ℕ) := by
  by_cases h0 : mag x.digits = 0
  · rw [toInt_eq, h0]
    simp
  · have hpos : 0 < mag x.digits := Nat.pos_of_ne_zero h0
    unfold toInt signum
    split
    · rw [Int.natAbs_natCast, Int.sign_eq_one_of_pos (by omega)]
    · rw [Int.natAbs_neg, Int.natAbs_natCast, Int.sign_neg, Int.sign_eq_one_of_pos (by omega)]

/-! ### The digits left -/

/-- What `>>=` leaves when there are digits left. -/
theorem shrAssign_of_lt {x : BigInt} {s : ℕ} (hs : s ≠ 0) (hz : ¬ x.isZero = true)
    (hq : s / 32 < x.digits.length) :
    shrAssign x s = optimise ⟨x.sign, if 0 < s % 32
      then shrDigits (UInt64.ofNat (s % 32)) (x.digits.drop (s / 32 % 2 ^ 32))
      else x.digits.drop (s / 32 % 2 ^ 32)⟩ := by
  have hdrop : (if s / 32 > 0 then x.digits.drop (s / 32 % 2 ^ 32) else x.digits) =
      x.digits.drop (s / 32 % 2 ^ 32) := by
    split
    case isTrue h => rfl
    case isFalse h =>
      have h0 : s / 32 = 0 := by omega
      rw [h0, Nat.zero_mod, List.drop_zero]
  unfold shrAssign
  rw [if_neg (by simp [hs, hz])]
  dsimp only
  rw [if_neg (by omega), hdrop]

theorem mag_drop_eq (ds : List UInt32) (k : ℕ) : mag (ds.drop k) = mag ds / BASE ^ k := by
  have h := mag_take_add ds k
  rw [← h, Nat.add_mul_div_left _ _ (Nat.pow_pos BASE_pos), Nat.div_eq_of_lt (mag_take_lt ds k),
    Nat.zero_add]

section Left

variable {ds : List UInt32} {b : ℕ}

theorem div_le_shrDigits (hb : b < 32) :
    mag ds / 2 ^ b ≤ mag (shrDigits (UInt64.ofNat b) ds) := by
  rw [mag_shrDigits hb]
  have hsplit := mag_take_add ds (scanLen ds.length)
  generalize mag (ds.take (scanLen ds.length)) = low at hsplit ⊢
  generalize BASE ^ scanLen ds.length * mag (ds.drop (scanLen ds.length)) = high at hsplit ⊢
  have hpos := Nat.two_pow_pos b
  have hle : high ≤ 2 ^ b * high := Nat.le_mul_of_pos_left _ hpos
  rw [← hsplit, ← Nat.add_mul_div_left _ _ hpos]
  exact Nat.div_le_div_right (by omega)

/-- The carry loop divides the number it is given just when it reaches every digit. -/
theorem shrDigits_exact_iff (hb : b < 32) (hpos : 0 < b)
    (htop : BASE ^ (ds.length - 1) ≤ mag ds) :
    mag (shrDigits (UInt64.ofNat b) ds) = mag ds / 2 ^ b ↔ ds.length < 2 ^ 31 := by
  rw [mag_shrDigits hb]
  refine ⟨fun h => ?_, fun h => ?_⟩
  · by_contra hlen
    have hk := scanLen_lt ds.length
    have hsplit := mag_take_add ds (scanLen ds.length)
    have hlow := mag_take_lt ds (scanLen ds.length)
    -- the part above the visited digits is not zero, and halving the whole undercuts it
    have hhigh : 0 < mag (ds.drop (scanLen ds.length)) := by
      rw [mag_drop_eq]
      refine Nat.div_pos ?_ (Nat.pow_pos BASE_pos)
      exact (Nat.pow_le_pow_right BASE_pos (by omega)).trans htop
    generalize mag (ds.take (scanLen ds.length)) = low at hsplit hlow h
    generalize BASE ^ scanLen ds.length = p at hsplit hlow h
    generalize mag (ds.drop (scanLen ds.length)) = high at hsplit hhigh h
    have htwo : 2 ≤ 2 ^ b := Nat.le_self_pow (by omega) 2
    have hhalf : mag ds / 2 ^ b ≤ mag ds / 2 := Nat.div_le_div_left htwo (by decide)
    have hp : p * 1 ≤ p * high := Nat.mul_le_mul_left _ hhigh
    generalize p * high = ph at hsplit hp h
    generalize low / 2 ^ b = kept at h
    omega
  · rw [scanLen_of_lt _ h, List.take_length, List.drop_length]
    simp

end Left

theorem mag_shr_value {x : BigInt} {s : ℕ} (hs : s ≠ 0) (hz : ¬ x.isZero = true)
    (hq : s / 32 < x.digits.length) :
    mag (shrAssign x s).digits = if 0 < s % 32
      then mag (shrDigits (UInt64.ofNat (s % 32)) (x.digits.drop (s / 32 % 2 ^ 32)))
      else mag (x.digits.drop (s / 32 % 2 ^ 32)) := by
  rw [shrAssign_of_lt hs hz hq, mag_optimise]
  split <;> rfl

theorem div_lt_of_erased {x : BigInt} {s e : ℕ} (hx : Canonical x) (he : e < s / 32)
    (hq : s / 32 < x.digits.length) :
    mag x.digits / 2 ^ s < mag (x.digits.drop e) / 2 ^ (s % 32) := by
  have hpos := Nat.two_pow_pos (s % 32)
  have hsmall : 2 ^ (s % 32) < BASE := Nat.pow_lt_pow_right (by decide) (Nat.mod_lt _ (by decide))
  obtain ⟨k, hk⟩ : ∃ k, x.digits.length = k + 2 := ⟨x.digits.length - 2, by omega⟩
  have htop := hx.pow_le_mag k hk
  have hmore : 1 ≤ mag (x.digits.drop e) / 2 ^ (s % 32) := by
    rw [mag_drop_eq, Nat.one_le_div_iff hpos, Nat.le_div_iff_mul_le (Nat.pow_pos BASE_pos)]
    calc
      2 ^ (s % 32) * BASE ^ e ≤ BASE * BASE ^ e := Nat.mul_le_mul_right _ hsmall.le
      _ = BASE ^ (e + 1) := (pow_succ' _ _).symm
      _ ≤ BASE ^ (k + 1) := Nat.pow_le_pow_right BASE_pos (by omega)
      _ ≤ mag x.digits := htop
  have hpow : 2 ^ s = BASE ^ e * 2 ^ (s % 32) * BASE ^ (s / 32 - e) := by
    rw [two_pow_shift s, mul_right_comm, ← pow_add, Nat.add_sub_cancel' he.le]
  rw [hpow, ← Nat.div_div_eq_div_mul, ← Nat.div_div_eq_div_mul, ← mag_drop_eq]
  refine Nat.div_lt_self hmore ?_
  exact Nat.one_lt_pow (by omega) one_lt_BASE

/-- With digits left, `>>=` divides just when its two casts lose nothing. -/
theorem mag_shrAssign_iff {x : BigInt} (hx : Canonical x) {s : ℕ} (hs : s ≠ 0)
    (hz : ¬ x.isZero = true) (hq : s / 32 < x.digits.length) :
    mag (shrAssign x s).digits = mag x.digits / 2 ^ s ↔
      s / 32 < 2 ^ 32 ∧ (s % 32 = 0 ∨ x.digits.length - s / 32 < 2 ^ 31) := by
  have hb : s % 32 < 32 := Nat.mod_lt _ (by decide)
  rw [mag_shr_value hs hz hq]
  by_cases hcast : s / 32 < 2 ^ 32
  · have hmod : s / 32 % 2 ^ 32 = s / 32 := Nat.mod_eq_of_lt hcast
    have hdiv : mag x.digits / 2 ^ s = mag (x.digits.drop (s / 32)) / 2 ^ (s % 32) := by
      rw [two_pow_shift s, ← Nat.div_div_eq_div_mul, ← mag_drop_eq]
    rw [hmod, hdiv]
    split
    case isTrue h =>
      have hlen : (x.digits.drop (s / 32)).length = x.digits.length - s / 32 := List.length_drop
      have htop : BASE ^ ((x.digits.drop (s / 32)).length - 1) ≤ mag (x.digits.drop (s / 32)) := by
        rw [mag_drop_eq, Nat.le_div_iff_mul_le (Nat.pow_pos BASE_pos), hlen, ← pow_add]
        have hexp : x.digits.length - s / 32 - 1 + s / 32 = x.digits.length - 1 := by omega
        rw [hexp]
        exact pow_le_of_canonical hx hz
      rw [shrDigits_exact_iff hb h htop, hlen, and_iff_right hcast, or_iff_right h.ne']
    case isFalse h =>
      have h0 : s % 32 = 0 := by omega
      rw [h0, pow_zero, Nat.div_one]
      exact iff_of_true rfl ⟨hcast, .inl rfl⟩
  · have hlt := Nat.mod_lt (s / 32) (show 0 < 2 ^ 32 by decide)
    have hless := div_lt_of_erased hx (e := s / 32 % 2 ^ 32) (by omega) hq
    refine iff_of_false (fun h => ?_) (fun h => hcast h.1)
    rw [← h] at hless
    split at hless
    case isTrue hbit => exact absurd (div_le_shrDigits hb) (Nat.not_le.mpr hless)
    case isFalse hbit =>
      have h0 : s % 32 = 0 := by omega
      rw [h0, pow_zero, Nat.div_one] at hless
      exact lt_irrefl _ hless

/-! ### Both shifts -/

theorem canonical_shrAssign {x : BigInt} (hx : Canonical x) (s : ℕ) :
    Canonical (shrAssign x s) := by
  by_cases h : s = 0 ∨ x.isZero = true
  · rw [shrAssign, if_pos h]
    exact hx
  · by_cases hq : s / 32 < x.digits.length
    · have hs : s ≠ 0 := fun h0 => h (.inl h0)
      have hz : ¬ x.isZero = true := fun hz => h (.inr hz)
      have hlt : s / 32 % 2 ^ 32 < x.digits.length := (Nat.mod_le _ _).trans_lt hq
      rw [shrAssign_of_lt hs hz hq]
      refine canonical_optimise _ (List.ne_nil_of_length_pos ?_)
      have hdrop : (x.digits.drop (s / 32 % 2 ^ 32)).length = x.digits.length - s / 32 % 2 ^ 32 :=
        List.length_drop
      dsimp only
      split
      · rw [shrDigits, List.length_append, shrLoop_length, ← List.length_append,
          List.take_append_drop]
        omega
      · omega
    · rw [shrAssign, if_neg h]
      dsimp only
      rw [if_pos (Nat.not_lt.mp hq)]
      exact canonical_optimise _ (by simp)

theorem toInt_shrAssign {x : BigInt} (s : ℕ) (h : ¬ (s = 0 ∨ x.isZero = true)) :
    (shrAssign x s).toInt = signum x.sign * mag (shrAssign x s).digits := by
  obtain ⟨ds, hds⟩ : ∃ ds, shrAssign x s = optimise ⟨x.sign, ds⟩ := by
    unfold shrAssign
    rw [if_neg h]
    dsimp only
    split
    · exact ⟨_, rfl⟩
    · exact ⟨_, rfl⟩
  rw [hds]
  exact toInt_optimise_of_mag rfl

/-- The quotient is exact when no digit is left, or when the two casts lose nothing. -/
theorem shrAssign_exact_iff {x : BigInt} (hx : Canonical x) {s : ℕ} (hs : s ≠ 0)
    (hz : ¬ x.isZero = true) :
    (shrAssign x s).toInt = x.toInt.sign * (x.toInt.natAbs / 2 ^ s : ℕ) ↔
      x.digits.length ≤ s / 32 ∨
        s / 32 < 2 ^ 32 ∧ (s % 32 = 0 ∨ x.digits.length - s / 32 < 2 ^ 31) := by
  have hstart : ¬ (s = 0 ∨ x.isZero = true) := fun h => h.elim hs hz
  rw [floor_shift, toInt_shrAssign s hstart, mul_right_inj' (signum_ne_zero _), Nat.cast_inj]
  by_cases hq : s / 32 < x.digits.length
  · rw [mag_shrAssign_iff hx hs hz hq, or_iff_right (Nat.not_le.mpr hq)]
  · refine iff_of_true ?_ (.inl (Nat.not_lt.mp hq))
    have hempty : mag (shrAssign x s).digits = 0 := by
      rw [shrAssign, if_neg hstart]
      dsimp only
      rw [if_pos (Nat.not_lt.mp hq), mag_optimise]
      simp
    rw [hempty, Nat.div_eq_of_lt]
    refine (mag_lt x.digits).trans_le ?_
    rw [two_pow_shift s]
    calc
      BASE ^ x.digits.length ≤ BASE ^ (s / 32) :=
        Nat.pow_le_pow_right BASE_pos (Nat.not_lt.mp hq)
      _ ≤ BASE ^ (s / 32) * 2 ^ (s % 32) := Nat.le_mul_of_pos_right _ (Nat.two_pow_pos _)

theorem length_shlAssign {x : BigInt} (hx : Canonical x) (hz : ¬ x.isZero = true) (s : ℕ) :
    (shlAssign x s).digits.length =
      s / 32 + (Nat.digits BASE (mag x.digits * 2 ^ (s % 32))).length := by
  have hne : mag x.digits ≠ 0 := fun h0 => hz (hx.isZero_iff.mpr h0)
  obtain ⟨hc, -⟩ := shlAssign_exact hx s
  have hpos : 0 < mag x.digits * 2 ^ (s % 32) :=
    Nat.mul_pos (Nat.pos_of_ne_zero hne) (Nat.two_pow_pos _)
  have hmag : mag (shlAssign x s).digits = BASE ^ (s / 32) * (mag x.digits * 2 ^ (s % 32)) := by
    rw [mag_shlAssign, two_pow_shift s]
    ring
  have hyz : ¬ (shlAssign x s).isZero = true := by
    intro h
    rw [hc.isZero_iff, hmag] at h
    exact (Nat.mul_pos (Nat.pow_pos BASE_pos) hpos).ne' h
  rw [hc.length_eq hyz, hmag, Nat.digits_base_pow_mul one_lt_BASE hpos, List.length_append,
    List.length_replicate]

/-- Shifting back gives the number just when the shift down is exact there. -/
theorem shift_back_iff {x : BigInt} (hx : Canonical x) {s : ℕ} (hs : s ≠ 0)
    (hz : ¬ x.isZero = true) :
    shrAssign (shlAssign x s) s = x ↔
      s / 32 < 2 ^ 32 ∧
        (s % 32 = 0 ∨ (Nat.digits BASE (mag x.digits * 2 ^ (s % 32))).length < 2 ^ 31) := by
  have hne : mag x.digits ≠ 0 := fun h0 => hz (hx.isZero_iff.mpr h0)
  obtain ⟨hc, -⟩ := shlAssign_exact hx s
  have hyz : ¬ (shlAssign x s).isZero = true := by
    intro h
    rw [hc.isZero_iff, mag_shlAssign] at h
    exact Nat.mul_ne_zero hne (Nat.two_pow_pos s).ne' h
  have hlen := length_shlAssign hx hz s
  have hdigits : (Nat.digits BASE (mag x.digits * 2 ^ (s % 32))).length ≠ 0 := by
    intro h0
    rw [List.length_eq_zero_iff, Nat.digits_eq_nil_iff_eq_zero] at h0
    exact Nat.mul_ne_zero hne (Nat.two_pow_pos _).ne' h0
  have hdown := shrAssign_exact_iff hc hs hyz
  rw [floor_shift, shlAssign_sign hne s, mag_shlAssign, Nat.mul_div_cancel _ (Nat.two_pow_pos s),
    ← toInt_eq x, or_iff_right (by omega)] at hdown
  have heq : shrAssign (shlAssign x s) s = x ↔ (shrAssign (shlAssign x s) s).toInt = x.toInt :=
    ⟨fun h => congrArg toInt h, fun h => (canonical_shrAssign hc s).ext hx h⟩
  rw [heq, hdown, hlen, Nat.add_sub_cancel_left]

theorem digits_length_mono {x : BigInt} (hx : Canonical x) (hz : ¬ x.isZero = true) (b : ℕ) :
    x.digits.length ≤ (Nat.digits BASE (mag x.digits * 2 ^ b)).length := by
  rw [hx.length_eq hz]
  exact Nat.le_length_digits_le BASE _ _ (Nat.le_mul_of_pos_right _ (Nat.two_pow_pos b))

/-- Both shifts are exact and the second undoes the first just when the number or the shift is
zero, or the number of whole digits fits in `unsigned int` and, unless whole digits are shifted
only, the shifted digits can be counted with an `int`. -/
theorem shifts_exact_iff (x : BigInt) (s : ℕ) (hx : Canonical x) :
    ShiftsExact x s ↔
      x.toInt = 0 ∨ s = 0 ∨
        s / 32 < 2 ^ 32 ∧
          (s % 32 = 0 ∨ (Nat.digits BASE (x.toInt.natAbs * 2 ^ (s % 32))).length < 2 ^ 31) := by
  rw [toInt_eq_zero_iff hx, natAbs_toInt]
  by_cases h : s = 0 ∨ x.isZero = true
  · have hl : shlAssign x s = x := if_pos h
    have hr : shrAssign x s = x := if_pos h
    refine iff_of_true ⟨shlAssign_exact hx s, ⟨canonical_shrAssign hx s, ?_⟩, ?_⟩ ?_
    · rw [hr, floor_shift, toInt_eq]
      rcases h with rfl | hz
      · rw [pow_zero, Nat.div_one]
      · rw [mag_eq_zero_of_isZero x hz, Nat.zero_div]
    · rw [hl, hr]
    · rcases h with hs | hz
      · exact .inr (.inl hs)
      · exact .inl hz
  · have hs : s ≠ 0 := fun h0 => h (.inl h0)
    have hz : ¬ x.isZero = true := fun hz => h (.inr hz)
    have hback := shift_back_iff hx hs hz
    rw [or_iff_right hz, or_iff_right hs, ← hback]
    refine ⟨fun he => he.back, fun hb => ?_⟩
    obtain ⟨hcast, hfits⟩ := hback.mp hb
    refine ⟨shlAssign_exact hx s, ⟨canonical_shrAssign hx s, ?_⟩, hb⟩
    refine (shrAssign_exact_iff hx hs hz).mpr (.inr ⟨hcast, hfits.imp_right (fun hlen => ?_)⟩)
    have hmono := digits_length_mono hx hz (s % 32)
    omega

theorem shifts_exact_small : ShiftsExact ⟨false, [1, 5]⟩ 37 := by
  have hlen : (Nat.digits BASE ((toInt ⟨false, [1, 5]⟩).natAbs * 2 ^ (37 % 32))).length ≤ 2 :=
    (Nat.digits_length_le_iff one_lt_BASE _).mpr (by decide)
  exact (shifts_exact_iff ⟨false, [1, 5]⟩ 37 ⟨by decide, by decide, by decide⟩).mpr
    (.inr (.inr ⟨by decide, .inr (by omega)⟩))

/-! ### A shift by `2^32` whole digits -/

theorem canonical_one : Canonical ⟨true, [1]⟩ := ⟨by decide, by decide, by decide⟩

theorem one_back_ne {s : ℕ} (h : 2 ^ 32 ≤ s / 32) :
    shrAssign (shlAssign ⟨true, [1]⟩ s) s ≠ ⟨true, [1]⟩ := by
  have hs : s ≠ 0 := by
    rintro rfl
    omega
  have hback := shift_back_iff canonical_one hs (by decide)
  intro he
  have hcast := (hback.mp he).1
  omega

/-- `(1 << 2^37) >> 2^37`: the count `2^32` of digits to erase is cast to 0. -/
theorem shift_back_cast :
    Canonical ⟨true, [1]⟩ ∧
      shrAssign (shlAssign ⟨true, [1]⟩ 137438953472) 137438953472 ≠ ⟨true, [1]⟩ :=
  ⟨canonical_one, one_back_ne (by decide)⟩

end MaiFaSp.BigInt
