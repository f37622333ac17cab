import MaiFaSp.BigInt.SchonhageStrassen
import MaiFaSp.BigInt.Seen
import Mathlib.Data.Nat.Digits.Lemmas

/-!
# When the rule `SchonhageStrassen` agrees with the rule `trivial`

A coefficient of the product in the base `base` is found modulo the product of the two moduli
only, and the tables of roots end at `MAXN`. So the product is right just when the digits of
both operands fit one transform and no coefficient reaches the product of the moduli.
-/

namespace MaiFaSp.BigInt

open Ntt Transform

/-! ### The operands in the base `base` -/

theorem transformLength_le_iff (length k e : ℕ) :
    transformLength length k ≤ e ↔ k ≤ e ∧ length ≤ 2 ^ e := by
  induction hn : length - 2 ^ k using Nat.strong_induction_on generalizing k with
  | _ n ih =>
    have hpow : 2 ^ k < 2 ^ (k + 1) := Nat.pow_lt_pow_right (by norm_num) (by omega)
    rw [transformLength]
    split
    case isTrue hlt =>
      rw [ih _ (by omega) (k + 1) rfl]
      constructor
      · rintro ⟨hk, hle⟩
        exact ⟨by omega, hle⟩
      · rintro ⟨hk, hle⟩
        refine ⟨?_, hle⟩
        by_contra hlast
        obtain rfl : k = e := by omega
        omega
    case isFalse hge =>
      constructor
      · intro hk
        have hmono : 2 ^ k ≤ 2 ^ e := Nat.pow_le_pow_right (by norm_num) hk
        exact ⟨hk, by omega⟩
      · rintro ⟨hk, -⟩
        exact hk

theorem le_transformLength (length : ℕ) : length ≤ 2 ^ transformLength length 0 :=
  ((transformLength_le_iff length 0 _).mp le_rfl).2

theorem base_spec : Canonical (ofNum base) ∧ (ofNum base).sign = true ∧
    mag (ofNum base).digits = base ∧ (ofNum base).digits.length ≤ 1 := by
  obtain ⟨hs, hm, -⟩ := ofNum_spec base (by decide)
  exact ⟨canonical_ofNum base, hs, hm,
    (canonical_ofNum base).length_le 1 one_pos (by rw [hm]; decide)⟩

/-- The digits that the loop appends for the magnitude `n`. -/
def digitsOf (n : ℕ) : List ℤ := (Nat.digits base n).map Nat.cast

theorem digitsOf_of_ne {n : ℕ} (h : n ≠ 0) :
    digitsOf n = ((n % base : ℕ) : ℤ) :: digitsOf (n / base) := by
  rw [digitsOf, Nat.digits_def' (by decide) (Nat.pos_of_ne_zero h)]
  rfl

theorem normalizeDigits_turn {x : BigInt} (hx : Canonical x) (hz : ¬ x.isZero = true)
    (turns : ℕ) (digits : List ℤ) :
    ∃ q, normalizeDigits (turns + 1) x digits =
        normalizeDigits turns q (digits ++ [((visited x % base : ℕ) : ℤ)]) ∧
      Canonical q ∧ mag q.digits = visited x / base := by
  obtain ⟨hb, -, hbm, hbl⟩ := base_spec
  have hbz : ¬ (ofNum base).isZero = true := by
    intro h
    have h0 := hb.isZero_iff.mp h
    rw [hbm, base_eq] at h0
    cases h0
  obtain ⟨r, q, hr, hq, hrc, hrm, hqc, -, hqm⟩ := one_digit_turn hx hz hb hbz hbl
  rw [hbm] at hrm hqm
  refine ⟨q, ?_, hqc, hqm⟩
  have hrlt : mag r.digits < BASE ^ 1 := by
    rw [hrm]
    exact (Nat.mod_lt _ (by decide)).trans (by decide)
  obtain ⟨d, hd⟩ := List.length_eq_one_iff.mp
    (Nat.le_antisymm (hrc.length_le 1 one_pos hrlt) hrc.length_pos)
  have hval : d.toNat = visited x % base := by
    rw [← hrm, hd, mag_cons, mag_nil]
    rfl
  rw [normalizeDigits, if_neg (fun h => hz ((equals_zero_iff hx).mp h)), hr, ok_bind, hd]
  show (divideAssign x (ofNum base) >>= fun number =>
    normalizeDigits turns number (digits ++ [(d.toNat : ℤ)])) = _
  rw [hq, ok_bind, hval]

theorem normalizeDigits_eq {x : BigInt} (hx : Canonical x) (hlen : x.digits.length < 2 ^ 31)
    {turns : ℕ} (hturns : mag x.digits ≤ turns) (digits : List ℤ) :
    normalizeDigits turns x digits = .ok (some (digits ++ digitsOf (mag x.digits))) := by
  induction turns generalizing x digits with
  | zero =>
    have h0 : mag x.digits = 0 := Nat.le_zero.mp hturns
    have hz := (equals_zero_iff hx).mpr (hx.isZero_iff.mpr h0)
    rw [normalizeDigits, if_pos hz, h0]
    simp [digitsOf]
    rfl
  | succ turns ih =>
    by_cases hz : x.isZero = true
    · rw [normalizeDigits, if_pos ((equals_zero_iff hx).mpr hz), hx.isZero_iff.mp hz]
      simp [digitsOf]
      rfl
    · have hne : mag x.digits ≠ 0 := fun h => hz (hx.isZero_iff.mpr h)
      obtain ⟨q, hstep, hqc, hqm⟩ := normalizeDigits_turn hx hz turns digits
      rw [visited_of_lt hlen] at hstep hqm
      have hlt : mag x.digits / base < mag x.digits :=
        Nat.div_lt_self (Nat.pos_of_ne_zero hne) (by decide)
      have hqlen : q.digits.length ≤ x.digits.length :=
        hqc.length_le _ hx.length_pos (by rw [hqm]; exact hlt.trans (mag_lt _))
      rw [hstep, ih hqc (by omega) (by omega), hqm, digitsOf_of_ne hne, List.append_assoc]
      rfl

/-- The digits of a number that is not zero, by the digits of it that the division visits. -/
def leading (n : ℕ) : List ℤ := ((n % base : ℕ) : ℤ) :: digitsOf (n / base)

theorem leading_of_ne {n : ℕ} (h : n ≠ 0) : leading n = digitsOf n := (digitsOf_of_ne h).symm

theorem normalizeDigits_start {x : BigInt} (hx : Canonical x) (hz : ¬ x.isZero = true) :
    normalizeDigits (mag x.digits + 1) x [] = .ok (some (leading (visited x))) := by
  obtain ⟨q, hstep, hqc, hqm⟩ := normalizeDigits_turn hx hz (mag x.digits) []
  have hqle : mag q.digits ≤ visited x := by
    rw [hqm]
    exact Nat.div_le_self _ _
  have hqlen : q.digits.length < 2 ^ 31 :=
    length_lt_of_visited hqc x.digits.length (hqle.trans_lt (mag_take_lt x.digits _))
  rw [hstep, normalizeDigits_eq hqc hqlen (hqle.trans (visited_le x)), hqm]
  rfl

theorem digitsOf_digit {n : ℕ} : ∀ x ∈ digitsOf n, 0 ≤ x ∧ x < (base : ℤ) := by
  intro x hx
  obtain ⟨d, hd, rfl⟩ := List.mem_map.mp hx
  have hlt := Nat.digits_lt_base (by decide) hd
  exact ⟨Int.natCast_nonneg _, by exact_mod_cast hlt⟩

theorem leading_digit {n : ℕ} : ∀ x ∈ leading n, 0 ≤ x ∧ x < (base : ℤ) := by
  intro x hx
  cases hx with
  | head =>
    have hlt := Nat.mod_lt n (show 0 < base by decide)
    exact ⟨Int.natCast_nonneg _, by exact_mod_cast hlt⟩
  | tail _ hx => exact digitsOf_digit x hx

theorem evalAt_cast (b : ℕ) (ds : List ℕ) : evalAt b (ds.map Nat.cast) = (Nat.ofDigits b ds : ℕ) := by
  induction ds with
  | nil => rfl
  | cons d ds ih =>
    rw [List.map_cons, evalAt, ih, Nat.ofDigits_cons]
    push_cast
    rfl

theorem evalAt_digitsOf (n : ℕ) : evalAt base (digitsOf n) = n := by
  rw [digitsOf, evalAt_cast, Nat.ofDigits_digits]

theorem evalAt_leading (n : ℕ) : evalAt base (leading n) = n := by
  rw [leading, evalAt, evalAt_digitsOf]
  exact_mod_cast Nat.mod_add_div n base

/-! ### From the coefficients to the result -/

theorem toInt_ofNum_of_lt {x : ℤ} (h0 : 0 ≤ x) (h1 : x < base) :
    (ofNum x).toInt = x ∧ (ofNum x).digits.length ≤ 2 := by
  obtain ⟨n, rfl⟩ := Int.eq_ofNat_of_zero_le h0
  have hn : n < base := by exact_mod_cast h1
  have hb := base_eq
  obtain ⟨-, -, hlen⟩ := ofNum_spec n (by rw [BASE]; omega)
  exact ⟨toInt_ofNum n (by omega), hlen⟩

theorem collect_spec {xs : List ℤ} {result pow : BigInt} (hx : ∀ x ∈ xs, 0 ≤ x ∧ x < base)
    (hr : Canonical result) (hr0 : 0 ≤ result.toInt) (hp : Canonical pow) (hp0 : 0 ≤ pow.toInt) :
    ∃ r, collect xs result pow = .ok r ∧ Canonical r ∧
      r.toInt = result.toInt + pow.toInt * evalAt base xs := by
  induction xs generalizing result pow with
  | nil =>
    refine ⟨result, rfl, hr, ?_⟩
    rw [evalAt, mul_zero, add_zero]
  | cons x xs ih =>
    obtain ⟨hx0, hx1⟩ := hx x List.mem_cons_self
    obtain ⟨hxv, hxl⟩ := toInt_ofNum_of_lt hx0 hx1
    obtain ⟨hb, hbs, hbm, hbl⟩ := base_spec
    have hbv : (ofNum base).toInt = base := by rw [toInt_of_sign hbs, hbm]
    obtain ⟨product, hprod, hpc, hpv⟩ :=
      (mulAssign_exact_iff (canonical_ofNum x) hp).mpr (.inl (by omega))
    obtain ⟨next, hnext, hnc, hnv⟩ := (mulAssign_exact_iff hp hb).mpr (.inr (by omega))
    rw [hxv] at hpv
    rw [hbv] at hnv
    have hsign : result.sign = product.sign := by
      rw [hr.sign_of_nonneg hr0, hpc.sign_of_nonneg (by rw [hpv]; exact mul_nonneg hx0 hp0)]
    obtain ⟨hsv, hsc⟩ := plusAssign_of_sign_eq 0 hr hpc hsign
    rw [pow_zero, mul_one, hpv] at hsv
    have hs0 : 0 ≤ (plusAssign result product 0).toInt := by
      rw [hsv]
      exact add_nonneg hr0 (mul_nonneg hx0 hp0)
    have hn0 : 0 ≤ next.toInt := by
      rw [hnv]
      exact mul_nonneg hp0 (Int.natCast_nonneg _)
    obtain ⟨r, hrun, hrc, hrv⟩ :=
      ih (fun y hy => hx y (List.mem_cons_of_mem _ hy)) hsc hs0 hnc hn0
    refine ⟨r, ?_, hrc, ?_⟩
    · rw [collect, hprod, ok_bind, hnext, ok_bind, hrun]
    · rw [hrv, hsv, hnv, evalAt]
      ring

theorem val_of_le {xs : List ℤ} {i : ℕ} (h : xs.length ≤ i) : val xs i = 0 :=
  List.getD_eq_default _ _ h

theorem val_pad (xs : List ℤ) (n i : ℕ) : val (xs ++ List.replicate n 0) i = val xs i := by
  by_cases hi : i < xs.length
  · exact List.getD_append _ _ _ _ hi
  · rw [val_of_le (Nat.le_of_not_lt hi), val, List.getD_append_right _ _ _ _ (Nat.le_of_not_lt hi),
      List.getD_eq_getElem?_getD, List.getElem?_replicate]
    split <;> rfl

theorem pad_length {xs : List ℤ} {n : ℕ} (h : xs.length ≤ n) :
    (xs ++ List.replicate (n - xs.length) 0).length = n := by
  rw [List.length_append, List.length_replicate]
  omega

/-- The coefficients of the product of two numbers given by their digits. -/
def coefficient (ds es : List ℤ) (j : ℕ) : ℤ := conv (val ds) (val es) j

theorem val_digit {xs : List ℤ} (h : ∀ x ∈ xs, 0 ≤ x ∧ x < (base : ℤ)) (i : ℕ) :
    0 ≤ val xs i ∧ val xs i < base := by
  by_cases hi : i < xs.length
  · rw [val, List.getD_eq_getElem _ _ hi]
    exact h _ (List.getElem_mem hi)
  · rw [val_of_le (Nat.le_of_not_lt hi)]
    exact ⟨le_rfl, by decide⟩

theorem evalAt_eq_sum_of_le (b : ℤ) {xs : List ℤ} {n : ℕ} (h : xs.length ≤ n) :
    evalAt b xs = ∑ i ∈ Finset.range n, val xs i * b ^ i := by
  rw [evalAt_eq_sum]
  refine Finset.sum_subset (Finset.range_mono h) ?_
  intro i _ hi
  rw [Finset.mem_range, not_lt] at hi
  rw [val_of_le hi, zero_mul]

theorem sum_coefficient (b : ℤ) {ds es : List ℤ} {n : ℕ} (h : ds.length + es.length ≤ n) :
    ∑ j ∈ Finset.range n, coefficient ds es j * b ^ j = evalAt b ds * evalAt b es := by
  rw [evalAt_eq_sum_of_le b (show ds.length ≤ n by omega),
    evalAt_eq_sum_of_le b (show es.length ≤ n by omega)]
  exact sum_conv (fun _ => val_of_le) (fun _ => val_of_le) h b

section Digits

variable {pws1 ipws1 pws2 ipws2 : Table} {ds es : List ℤ}

/-- Beyond `MAXN` the transform leaves the table of roots. -/
theorem fft_ok_le {c : Constants} {pws ipws : Table} {inv : Bool} {a ans out : List ℤ}
    {k l cl step : ℕ} (h : fft c pws ipws inv a k l cl step ans = .ok out) : k ≤ 19 := by
  cases k with
  | zero => omega
  | succ k =>
    rw [fft] at h
    obtain ⟨ans1, -, h⟩ := bind_eq_ok.mp h
    obtain ⟨ans2, -, h⟩ := bind_eq_ok.mp h
    obtain ⟨gw, hlook, -⟩ := bind_eq_ok.mp h
    by_contra hk
    have hbig : ¬ 2 ^ (k + 1) ≤ MAXN := by
      rw [not_le]
      exact Nat.pow_lt_pow_right (by norm_num) (by omega)
    rw [Ntt.lookup, if_neg hbig] at hlook
    cases hlook

theorem multiplyDigits_ok_le {r : BigInt}
    (h : multiplyDigits pws1 ipws1 pws2 ipws2 ds es = .ok r) : ds.length + es.length ≤ MAXN := by
  rw [multiplyDigits] at h
  obtain ⟨res1, hres1, -⟩ := bind_eq_ok.mp h
  rw [polyMultiply] at hres1
  obtain ⟨a_fft, hfft, -⟩ := bind_eq_ok.mp hres1
  exact ((transformLength_le_iff _ 0 19).mp (fft_ok_le hfft)).2

/-- Within `MAXN` every coefficient is found modulo `M`, and the result is made up of them. -/
theorem multiplyDigits_spec (h1 : Roots constants1.MOD constants1.W pws1)
    (hi1 : Roots constants1.MOD constants1.IW ipws1)
    (h2 : Roots constants2.MOD constants2.W pws2)
    (hi2 : Roots constants2.MOD constants2.IW ipws2)
    (hd : ∀ x ∈ ds, 0 ≤ x ∧ x < (base : ℤ)) (he : ∀ x ∈ es, 0 ≤ x ∧ x < (base : ℤ))
    (hlen : ds.length + es.length ≤ MAXN) :
    ∃ r, multiplyDigits pws1 ipws1 pws2 ipws2 ds es = .ok r ∧ Canonical r ∧
      r.toInt = ∑ j ∈ Finset.range (2 ^ transformLength (ds.length + es.length) 0),
        coefficient ds es j % M * (base : ℤ) ^ j := by
  have hk : transformLength (ds.length + es.length) 0 ≤ 19 :=
    (transformLength_le_iff _ 0 19).mpr ⟨Nat.zero_le _, hlen⟩
  have hn := le_transformLength (ds.length + es.length)
  unfold multiplyDigits
  dsimp only
  generalize transformLength (ds.length + es.length) 0 = k at hk hn ⊢
  generalize hfirst : ds ++ List.replicate (2 ^ k - ds.length) 0 = first
  generalize hsecond : es ++ List.replicate (2 ^ k - es.length) 0 = second
  have hlen1 : first.length = 2 ^ k := by rw [← hfirst, pad_length (by omega)]
  have hlen2 : second.length = 2 ^ k := by rw [← hsecond, pad_length (by omega)]
  have hval1 : val first = val ds := by
    funext i
    rw [← hfirst, val_pad]
  have hval2 : val second = val es := by
    funext i
    rw [← hsecond, val_pad]
  have hb := base_eq
  have hm1 : constants1.MOD = 998244353 := rfl
  have hm2 : constants2.MOD = 2113929217 := rfl
  have hres (xs : List ℤ) (hx : ∀ x ∈ xs, 0 ≤ x ∧ x < (base : ℤ)) (i : ℕ) :
      Residue constants1.MOD (val xs i) ∧ Residue constants2.MOD (val xs i) := by
    obtain ⟨h0, hlt⟩ := val_digit hx i
    exact ⟨⟨h0, by omega⟩, ⟨h0, by omega⟩⟩
  have hcyclic : ∀ j < 2 ^ k, cyclic (2 ^ k) (val first) (val second) j = coefficient ds es j := by
    intro j hj
    rw [hval1, hval2]
    exact cyclic_eq_conv (fun _ => val_of_le) (fun _ => val_of_le) hn hj
  obtain ⟨res1, hrun1, hl1, hv1⟩ := polyMultiply_spec constants1_checked h1 hi1 hk hlen1 hlen2
    (fun i _ => by rw [hval1]; exact (hres ds hd i).1)
    (fun i _ => by rw [hval2]; exact (hres es he i).1)
  obtain ⟨res2, hrun2, hl2, hv2⟩ := polyMultiply_spec constants2_checked h2 hi2 hk hlen1 hlen2
    (fun i _ => by rw [hval1]; exact (hres ds hd i).2)
    (fun i _ => by rw [hval2]; exact (hres es he i).2)
  obtain ⟨combined, hcomb, hcl, hcv⟩ := combine_spec (coefficient ds es) (hl1.trans hl2.symm)
    (by
      intro i hi
      obtain ⟨hr, hv⟩ := hv1 i (by omega)
      refine ⟨hr, ?_⟩
      rw [hv, hcyclic i (by omega)]
      exact Int.mod_modEq _ _)
    (by
      intro i hi
      obtain ⟨hr, hv⟩ := hv2 i (by omega)
      refine ⟨hr, ?_⟩
      rw [hv, hcyclic i (by omega)]
      exact Int.mod_modEq _ _)
  have hMpos : (0 : ℤ) < M := by decide
  have hrange : ∀ x ∈ combined, 0 ≤ x ∧ x < (M : ℤ) := by
    intro x hx
    obtain ⟨i, hi, rfl⟩ := List.mem_iff_getElem.mp hx
    have hvi := hcv i (by omega)
    rw [val, List.getD_eq_getElem _ _ hi] at hvi
    rw [hvi]
    exact ⟨Int.emod_nonneg _ hMpos.ne', Int.emod_lt_of_pos _ hMpos⟩
  obtain ⟨digits, hnorm, hdigits, hvalue⟩ := normalize_spec hrange
  have hzero : (ofNum 0).toInt = 0 := toInt_ofNum 0 (by norm_num)
  have hone : (ofNum 1).toInt = 1 := toInt_ofNum 1 (by norm_num)
  obtain ⟨r, hcollect, hrc, hrv⟩ := collect_spec hdigits (canonical_ofNum 0) hzero.ge
    (canonical_ofNum 1) (by rw [hone]; exact one_pos.le)
  refine ⟨r, ?_, hrc, ?_⟩
  · rw [hrun1, ok_bind, hrun2, ok_bind, hcomb, ok_bind, hnorm, ok_bind]
    exact hcollect
  · rw [hrv, hzero, hone, zero_add, one_mul, hvalue, evalAt_eq_sum, hcl, hl1]
    refine Finset.sum_congr rfl (fun j hj => ?_)
    rw [hcv j (by rw [hl1]; exact Finset.mem_range.mp hj)]

end Digits

/-! ### Agreement -/

/-- The digits in the base `base` fit one transform and the coefficients of their product stay
below the product of the moduli. -/
def Fits (m n : ℕ) : Prop :=
  (digitsOf m).length + (digitsOf n).length ≤ MAXN ∧
    ∀ j, coefficient (digitsOf m) (digitsOf n) j < M

theorem coefficient_nonneg {ds es : List ℤ} (hd : ∀ x ∈ ds, 0 ≤ x ∧ x < (base : ℤ))
    (he : ∀ x ∈ es, 0 ≤ x ∧ x < (base : ℤ)) (j : ℕ) : 0 ≤ coefficient ds es j := by
  rw [coefficient, conv]
  exact Finset.sum_nonneg (fun _ _ => mul_nonneg (val_digit hd _).1 (val_digit he _).1)

theorem coefficient_of_le {ds es : List ℤ} {n j : ℕ} (h : ds.length + es.length ≤ n)
    (hj : n ≤ j) : coefficient ds es j = 0 := by
  rw [coefficient, conv]
  refine Finset.sum_eq_zero (fun i hi => ?_)
  rw [Finset.mem_range] at hi
  exact mul_eq_zero_of_le (fun _ => val_of_le) (fun _ => val_of_le) h i (j - i) (by omega)

theorem emod_M_le {c : ℤ} (h : 0 ≤ c) : c % M ≤ c := by
  obtain ⟨n, rfl⟩ := Int.eq_ofNat_of_zero_le h
  exact_mod_cast Nat.mod_le n M

theorem sum_residues_eq_iff {c : ℕ → ℤ} {n : ℕ} (hc : ∀ j, 0 ≤ c j) :
    ∑ j ∈ Finset.range n, c j % M * (base : ℤ) ^ j = ∑ j ∈ Finset.range n, c j * (base : ℤ) ^ j ↔
      ∀ j < n, c j < M := by
  have hM : (0 : ℤ) < M := by decide
  have hpow : ∀ j, (0 : ℤ) < (base : ℤ) ^ j := fun j => pow_pos (by decide) j
  rw [Finset.sum_eq_sum_iff_of_le (fun j _ =>
    mul_le_mul_of_nonneg_right (emod_M_le (hc j)) (hpow j).le)]
  constructor
  · intro h j hj
    have he := mul_right_cancel₀ (hpow j).ne' (h j (Finset.mem_range.mpr hj))
    rw [← he]
    exact Int.emod_lt_of_pos _ hM
  · intro h j hj
    rw [Int.emod_eq_of_lt (hc j) (h j (Finset.mem_range.mp hj))]

theorem sum_residues_le {c : ℕ → ℤ} {n : ℕ} (hc : ∀ j, 0 ≤ c j) :
    ∑ j ∈ Finset.range n, c j % M * (base : ℤ) ^ j ≤ ∑ j ∈ Finset.range n, c j * (base : ℤ) ^ j :=
  Finset.sum_le_sum (fun j _ =>
    mul_le_mul_of_nonneg_right (emod_M_le (hc j)) (pow_nonneg (by decide) j))

/-- Any result for the digits of `m` and `n` is at most their product. -/
theorem multiplyDigits_bounds {pws1 ipws1 pws2 ipws2 : Table} {m n : ℕ} {r : BigInt}
    (h1 : Roots constants1.MOD constants1.W pws1) (hi1 : Roots constants1.MOD constants1.IW ipws1)
    (h2 : Roots constants2.MOD constants2.W pws2) (hi2 : Roots constants2.MOD constants2.IW ipws2)
    (h : multiplyDigits pws1 ipws1 pws2 ipws2 (leading m) (leading n) = .ok r) :
    0 ≤ r.toInt ∧ r.toInt ≤ m * n ∧
      (r.toInt = m * n ↔ ∀ j, coefficient (leading m) (leading n) j < M) := by
  obtain ⟨r', hr', -, hval⟩ :=
    multiplyDigits_spec h1 hi1 h2 hi2 leading_digit leading_digit (multiplyDigits_ok_le h)
  obtain rfl : r = r' := Except.ok.inj (h.symm.trans hr')
  have hlen := le_transformLength ((leading m).length + (leading n).length)
  generalize 2 ^ transformLength ((leading m).length + (leading n).length) 0 = l at hlen hval
  have hnonneg := coefficient_nonneg (leading_digit (n := m)) (leading_digit (n := n))
  have hprod := sum_coefficient base hlen
  rw [evalAt_leading, evalAt_leading] at hprod
  rw [hval, ← hprod]
  refine ⟨?_, sum_residues_le hnonneg, ?_⟩
  · exact Finset.sum_nonneg (fun j _ =>
      mul_nonneg (Int.emod_nonneg _ (by decide)) (pow_nonneg (by decide) j))
  · rw [sum_residues_eq_iff hnonneg]
    constructor
    · intro hlt j
      by_cases hj : j < l
      · exact hlt j hj
      · rw [coefficient_of_le hlen (Nat.le_of_not_lt hj)]
        decide
    · intro hlt j _
      exact hlt j

/-- For numbers that are not zero the result is that of the digits visited. -/
theorem multiplySchonhageStrassen_eq {x y : BigInt} (hx : Canonical x) (hy : Canonical y)
    (hxz : ¬ x.isZero = true) (hyz : ¬ y.isZero = true) :
    ∃ pws1 ipws1 pws2 ipws2, Roots constants1.MOD constants1.W pws1 ∧
      Roots constants1.MOD constants1.IW ipws1 ∧ Roots constants2.MOD constants2.W pws2 ∧
      Roots constants2.MOD constants2.IW ipws2 ∧
      multiplySchonhageStrassen x y =
        (do let result ← multiplyDigits pws1 ipws1 pws2 ipws2 (leading (visited x))
              (leading (visited y))
            pure (some result)) := by
  have hc1 := constants1_checked
  have hc2 := constants2_checked
  obtain ⟨pws1, h1, hr1⟩ := init_spec hc1.pos hc1.word hc1.w
  obtain ⟨ipws1, hi1, hri1⟩ := init_spec hc1.pos hc1.word hc1.iw
  obtain ⟨pws2, h2, hr2⟩ := init_spec hc2.pos hc2.word hc2.w
  obtain ⟨ipws2, hi2, hri2⟩ := init_spec hc2.pos hc2.word hc2.iw
  refine ⟨pws1, ipws1, pws2, ipws2, hr1, hri1, hr2, hri2, ?_⟩
  rw [multiplySchonhageStrassen, h1, ok_bind, hi1, ok_bind, h2, ok_bind, hi2, ok_bind,
    normalizeDigits_start hx hxz, ok_bind, normalizeDigits_start hy hyz, ok_bind]

/-- Both results have the sign of the product, so only the magnitudes matter. -/
theorem toInt_signed_iff {x y r t : BigInt} (hr : 0 ≤ r.toInt)
    (ht : t.toInt = x.toInt * y.toInt) :
    (optimise ⟨x.sign = y.sign, r.digits⟩).toInt = t.toInt ↔
      r.toInt = mag x.digits * mag y.digits := by
  have hmag : r.toInt = mag r.digits := by
    rw [← natAbs_toInt, Int.natAbs_of_nonneg hr]
  have hprod : t.toInt = signum (x.sign = y.sign) * (mag x.digits * mag y.digits) := by
    rw [ht, toInt_eq x, toInt_eq y, signum_mul]
    ring
  rw [toInt_optimise, toInt_eq, hprod, hmag]
  exact mul_right_inj' (signum_ne_zero _)

/-- The digits visited are all digits when they make up the magnitude. -/
theorem visited_of_product {x y : BigInt} (h : mag x.digits * mag y.digits ≤ visited x * visited y)
    (hyz : mag y.digits ≠ 0) : visited x = mag x.digits := by
  refine Nat.le_antisymm (visited_le x) ?_
  refine Nat.le_of_mul_le_mul_right (h.trans (Nat.mul_le_mul_left _ (visited_le y))) ?_
  exact Nat.pos_of_ne_zero hyz

theorem visited_of_digitsOf {x : BigInt} (hx : Canonical x)
    (h : (digitsOf (mag x.digits)).length ≤ MAXN) : visited x = mag x.digits := by
  have hlt := Nat.lt_base_pow_length_digits (m := mag x.digits) (show 1 < base by decide)
  rw [digitsOf, List.length_map] at h
  have hle : (Nat.digits base (mag x.digits)).length ≤ 2 ^ 30 :=
    h.trans (Nat.pow_le_pow_right (by norm_num) (by norm_num))
  generalize (Nat.digits base (mag x.digits)).length = l at hlt hle
  have hBASE : base ^ l ≤ BASE ^ (l + 1) :=
    (Nat.pow_le_pow_left (by decide) l).trans (Nat.pow_le_pow_right BASE_pos (Nat.le_succ l))
  have hlen := hx.length_le (l + 1) (Nat.succ_pos l) (hlt.trans_le hBASE)
  exact visited_of_lt (by omega)

/-- The two rules leave the same value. -/
def Agree (x y : BigInt) : Prop :=
  ∃ r t, multiplyBySchonhageStrassen x y = .ok (some r) ∧ multiplyTrivial x y = .ok t ∧
    r.toInt = t.toInt

theorem agree_iff_fits {x y : BigInt} (hx : Canonical x) (hy : Canonical y)
    (hxz : ¬ x.isZero = true) (hyz : ¬ y.isZero = true) :
    Agree x y ↔ Fits (mag x.digits) (mag y.digits) := by
  have hz : ¬ (y.isZero = true ∨ x.isZero = true) := not_or.mpr ⟨hyz, hxz⟩
  have hx0 : mag x.digits ≠ 0 := fun h => hxz (hx.isZero_iff.mpr h)
  have hy0 : mag y.digits ≠ 0 := fun h => hyz (hy.isZero_iff.mpr h)
  obtain ⟨t, ht, -, htv⟩ := multiplyTrivial_exact x y hx
  obtain ⟨pws1, ipws1, pws2, ipws2, h1, hi1, h2, hi2, hrun⟩ :=
    multiplySchonhageStrassen_eq hx hy hxz hyz
  have hresult : ∀ r0, multiplyDigits pws1 ipws1 pws2 ipws2 (leading (visited x))
      (leading (visited y)) = .ok r0 →
      multiplyBySchonhageStrassen x y = .ok (some (optimise ⟨x.sign = y.sign, r0.digits⟩)) := by
    intro r0 hr0
    rw [multiplyBySchonhageStrassen, if_neg hz, hrun, hr0]
    rfl
  constructor
  · rintro ⟨r, t', hr, ht', hv⟩
    obtain rfl : t = t' := Except.ok.inj (ht.symm.trans ht')
    have hdigits : ∃ r0, multiplyDigits pws1 ipws1 pws2 ipws2 (leading (visited x))
        (leading (visited y)) = .ok r0 := by
      rw [multiplyBySchonhageStrassen, if_neg hz, hrun] at hr
      obtain ⟨o, ho, -⟩ := bind_eq_ok.mp hr
      obtain ⟨r0, hr0, -⟩ := bind_eq_ok.mp ho
      exact ⟨r0, hr0⟩
    obtain ⟨r0, hr0⟩ := hdigits
    obtain ⟨hr00, hle, hiff⟩ := multiplyDigits_bounds h1 hi1 h2 hi2 hr0
    rw [hresult r0 hr0, Except.ok.injEq, Option.some.injEq] at hr
    rw [← hr, toInt_signed_iff hr00 htv] at hv
    have hall : mag x.digits * mag y.digits ≤ visited x * visited y := by
      rw [hv] at hle
      exact_mod_cast hle
    have hvx := visited_of_product hall hy0
    have hvy := visited_of_product (x := y) (y := x) (by rwa [mul_comm, mul_comm (visited y)]) hx0
    have hlen := multiplyDigits_ok_le hr0
    rw [hvx, hvy] at hiff hlen
    rw [leading_of_ne hx0, leading_of_ne hy0] at hiff hlen
    exact ⟨hlen, hiff.mp hv⟩
  · rintro ⟨hlen, hlt⟩
    have hvx := visited_of_digitsOf hx (by omega)
    have hvy := visited_of_digitsOf hy (by omega)
    rw [← leading_of_ne hx0, ← leading_of_ne hy0, ← hvx, ← hvy] at hlen hlt
    obtain ⟨r0, hr0, -, -⟩ := multiplyDigits_spec h1 hi1 h2 hi2 leading_digit leading_digit hlen
    obtain ⟨hr00, -, hiff⟩ := multiplyDigits_bounds h1 hi1 h2 hi2 hr0
    refine ⟨_, t, hresult r0 hr0, ht, ?_⟩
    rw [toInt_signed_iff hr00 htv, hiff.mpr hlt, hvx, hvy]

/-- The rule `SchonhageStrassen` runs without a fault and leaves the value of the rule
`trivial` just for a zero operand and for operands that fit. -/
theorem schonhage_strassen_agrees_iff (x y : BigInt) (hx : Canonical x) (hy : Canonical y) :
    Agree x y ↔ x.isZero = true ∨ y.isZero = true ∨ Fits (mag x.digits) (mag y.digits) := by
  by_cases hz : y.isZero = true ∨ x.isZero = true
  · refine iff_of_true ⟨zeroed x, zeroed x, ?_, ?_, rfl⟩ (hz.symm.imp_right .inl)
    · rw [multiplyBySchonhageStrassen, if_pos hz]
      rfl
    · rw [multiplyTrivial, if_pos hz]
      rfl
  · obtain ⟨hyz, hxz⟩ := not_or.mp hz
    rw [agree_iff_fits hx hy hxz hyz, or_iff_right hxz, or_iff_right hyz]

theorem schonhage_strassen_agrees_small : Agree ⟨false, [7, 1]⟩ ⟨true, [5]⟩ := by
  refine (schonhage_strassen_agrees_iff _ _ ⟨by decide, by decide, by decide⟩
    ⟨by decide, by decide, by decide⟩).mpr (.inr (.inr ?_))
  have hm : digitsOf (mag [7, 1]) = [301989895, 4] := by
    rw [show mag [7, 1] = 4294967303 from rfl]
    norm_num [digitsOf, base]
  have hn : digitsOf (mag [5]) = [5] := by
    rw [show mag [5] = 5 from rfl]
    norm_num [digitsOf, base]
  rw [Fits, hm, hn]
  refine ⟨by decide, ?_⟩
  intro j
  by_cases hj : j < 3
  · interval_cases j <;> decide
  · rw [coefficient_of_le (n := 3) le_rfl (Nat.le_of_not_lt hj)]
    decide

/-- `base ^ 3 - 1`, three digits in the base `base` and in the base `BASE`. -/
def threeDigits : BigInt := ⟨true, [4294967295, 4294967295, 53925087]⟩

/-- The middle coefficient of the square of `base ^ 3 - 1` is above `M`. -/
theorem schonhage_strassen_coefficient :
    Canonical threeDigits ∧ ¬ Agree threeDigits threeDigits := by
  have hc : Canonical threeDigits := ⟨by decide, by decide, by decide⟩
  have hz : ¬ threeDigits.isZero = true := by decide
  refine ⟨hc, ?_⟩
  rw [agree_iff_fits hc hc hz hz]
  have hd : digitsOf (mag threeDigits.digits) = [998244351, 998244351, 998244351] := by
    rw [show mag threeDigits.digits = 994742297488266057333342207 from rfl]
    norm_num [digitsOf, base]
  rw [Fits, hd]
  rintro ⟨-, hlt⟩
  exact absurd (hlt 2) (by decide)

end MaiFaSp.BigInt
