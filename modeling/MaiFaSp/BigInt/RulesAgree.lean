import MaiFaSp.BigInt.Divide

/-!
# When the two multiplication rules agree (`big_int.cpp:414-463, 567-569`)

Up to 8 digits on one side `multiply_karatsuba` runs the schoolbook loop. Above
that its result has at most as many digits as both operands together less two,
and a product of canonical operands has at least one digit more.
-/

namespace MaiFaSp.BigInt

/-- The product of canonical numbers does not fit in two digits less than theirs. -/
theorem pow_le_mul {x y : BigInt} (hx : Canonical x) (hy : Canonical y) (m n : ℕ)
    (hm : x.digits.length = m + 2) (hn : y.digits.length = n + 2) :
    BASE ^ (m + n + 2) ≤ mag x.digits * mag y.digits := by
  have hp := Nat.mul_le_mul (hx.pow_le_mag m hm) (hy.pow_le_mag n hn)
  rwa [← pow_add, show m + 1 + (n + 1) = m + n + 2 by omega] at hp

theorem not_product_of_short {x y r : BigInt} (hx : Canonical x) (hy : Canonical y)
    (hx2 : 2 ≤ x.digits.length) (hy2 : 2 ≤ y.digits.length)
    (hr : r.digits.length + 2 ≤ x.digits.length + y.digits.length) :
    r.toInt ≠ x.toInt * y.toInt := by
  intro he
  obtain ⟨m, hm⟩ : ∃ m, x.digits.length = m + 2 := ⟨_, (Nat.sub_add_cancel hx2).symm⟩
  obtain ⟨n, hn⟩ : ∃ n, y.digits.length = n + 2 := ⟨_, (Nat.sub_add_cancel hy2).symm⟩
  have hprod := pow_le_mul hx hy m n hm hn
  have hlt := mag_lt r.digits
  have hpow : BASE ^ r.digits.length ≤ BASE ^ (m + n + 2) :=
    Nat.pow_le_pow_right BASE_pos (by omega)
  have hv : mag r.digits = mag x.digits * mag y.digits := by
    rw [← natAbs_toInt, he, Int.natAbs_mul, natAbs_toInt, natAbs_toInt]
  omega

theorem isZero_eq_false {x : BigInt} (h : 2 ≤ x.digits.length) : ¬ x.isZero = true := by
  intro hz
  simp only [isZero, decide_eq_true_eq] at hz
  omega

/-- Below the cutoff both rules run the same loops. -/
theorem multiplyByKaratsuba_of_cutoff {x y : BigInt} (hx : Canonical x)
    (h : x.digits.length ≤ 8 ∨ y.digits.length ≤ 8) :
    Exact (multiplyByKaratsuba x y) (x.toInt * y.toInt) := by
  obtain ⟨r, hr, hc, hv⟩ := multiplyTrivial_exact x y hx
  unfold multiplyByKaratsuba
  split
  case isTrue hz =>
    rw [multiplyTrivial, if_pos hz] at hr
    exact ⟨r, hr, hc, hv⟩
  case isFalse hz =>
    rw [multiplyTrivial, if_neg hz] at hr
    cases hrows : mulRows y.digits x.digits
        (List.replicate (x.digits.length + y.digits.length) 0) with
    | error e =>
      rw [hrows] at hr
      cases hr
    | ok ds =>
      rw [hrows] at hr
      cases hr
      refine ⟨optimise ⟨x.sign = y.sign, (optimise ⟨x.sign = y.sign, ds⟩).digits⟩, ?_, ?_, ?_⟩
      · rw [multiplyKaratsuba, dif_pos h, multiplyTrivial, if_neg hz, hrows]
        rfl
      · exact canonical_optimise _ hc.nonempty
      · rw [← hv, toInt_optimise, toInt_optimise, toInt_eq, toInt_eq, mag_optimise]

theorem multiplyByKaratsuba_above_cutoff {x y : BigInt} (hx : Canonical x) (hy : Canonical y)
    (hx8 : 8 < x.digits.length) (hy8 : 8 < y.digits.length) :
    ¬ Exact (multiplyByKaratsuba x y) (x.toInt * y.toInt) := by
  obtain ⟨r, hr, -, -, hshort⟩ := multiplyKaratsuba_eq_ok _ x y le_rfl
  rintro ⟨p, hp, -, hv⟩
  have hz : ¬ (y.isZero = true ∨ x.isZero = true) := by
    rintro (h | h)
    · exact isZero_eq_false (by omega) h
    · exact isZero_eq_false (by omega) h
  rw [multiplyByKaratsuba, if_neg hz, hr] at hp
  cases hp
  apply not_product_of_short hx hy (by omega) (by omega) _ hv
  have hlen := optimise_length_le ⟨x.sign = y.sign, r.digits⟩
  have hr2 := hshort hx8 hy8
  dsimp only at hlen
  omega

theorem multiplyByKaratsuba_exact_iff {x y : BigInt} (hx : Canonical x) (hy : Canonical y) :
    Exact (multiplyByKaratsuba x y) (x.toInt * y.toInt) ↔
      x.digits.length ≤ 8 ∨ y.digits.length ≤ 8 := by
  constructor
  · intro he
    by_contra hc
    rw [not_or, not_le, not_le] at hc
    exact multiplyByKaratsuba_above_cutoff hx hy hc.1 hc.2 he
  · exact multiplyByKaratsuba_of_cutoff hx

theorem eq_iff_exact {o₁ o₂ : Outcome BigInt} {z : ℤ} (h : Exact o₂ z) :
    o₁ = o₂ ↔ Exact o₁ z := by
  constructor
  · intro he
    rw [he]
    exact h
  · rintro ⟨p, hp, hpc, hpv⟩
    obtain ⟨q, hq, hqc, hqv⟩ := h
    rw [hp, hq, hpc.ext hqc (hpv.trans hqv.symm)]

theorem mulAssign_exact_iff {x y : BigInt} (hx : Canonical x) (hy : Canonical y) :
    Exact (mulAssign x y) (x.toInt * y.toInt) ↔
      x.digits.length ≤ 8 ∨ y.digits.length ≤ 32 := by
  unfold mulAssign decideMult
  by_cases h : y.digits.length > 32
  · rw [if_pos h, if_pos rfl, multiplyByKaratsuba_exact_iff hx hy]
    omega
  · rw [if_neg h, if_neg (by decide)]
    exact iff_of_true (multiplyTrivial_exact x y hx) (Or.inr (by omega))

/-- The rules agree, and `*=` is exact, just below the cutoffs. -/
theorem rules_agree_iff (x y : BigInt) (hx : Canonical x) (hy : Canonical y) :
    (multiplyByKaratsuba x y = multiplyTrivial x y ∧
      Exact (multiplyByKaratsuba x y) (x.toInt * y.toInt) ↔
        x.digits.length ≤ 8 ∨ y.digits.length ≤ 8) ∧
    (Exact (mulAssign x y) (x.toInt * y.toInt) ↔
      x.digits.length ≤ 8 ∨ y.digits.length ≤ 32) := by
  refine ⟨?_, mulAssign_exact_iff hx hy⟩
  rw [eq_iff_exact (multiplyTrivial_exact x y hx), and_self]
  exact multiplyByKaratsuba_exact_iff hx hy

theorem rules_agree_small :
    Exact (mulAssign ⟨false, [3, 1]⟩ ⟨true, [5]⟩)
      (toInt ⟨false, [3, 1]⟩ * toInt ⟨true, [5]⟩) :=
  (rules_agree_iff ⟨false, [3, 1]⟩ ⟨true, [5]⟩ ⟨by decide, by decide, by decide⟩
    ⟨by decide, by decide, by decide⟩).2.mpr (Or.inl (by decide))

/-- `BASE ^ 8` squared by the rule `Karatsuba`, `BASE ^ 32` squared by `*=`. -/
theorem karatsuba_bit_shift :
    (Canonical (basePow 8) ∧
      multiplyByKaratsuba (basePow 8) (basePow 8) ≠ multiplyTrivial (basePow 8) (basePow 8)) ∧
    Canonical (basePow 32) ∧
      ¬ Exact (mulAssign (basePow 32) (basePow 32))
        ((basePow 32).toInt * (basePow 32).toInt) := by
  have h8 := canonical_basePow 8
  have h32 := canonical_basePow 32
  have hl8 : (basePow 8).digits.length = 9 := rfl
  have hl32 : (basePow 32).digits.length = 33 := rfl
  refine ⟨⟨h8, fun he => ?_⟩, h32, fun he => ?_⟩
  · have hx := (multiplyByKaratsuba_exact_iff h8 h8).mp
      ((eq_iff_exact (multiplyTrivial_exact _ _ h8)).mp he)
    omega
  · have hx := (mulAssign_exact_iff h32 h32).mp he
    omega

end MaiFaSp.BigInt
