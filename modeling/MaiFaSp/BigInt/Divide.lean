import MaiFaSp.BigInt.Karatsuba

/-!
# `big_int`: division (`big_int.cpp:465-514, 579-587`, `big_int.h:179-189`)

Long division from the top digit down. At each position the quotient digit is
found by a binary search over `[0, BASE]` that multiplies the divisor by the
middle value and compares. The position counter is an `int`, so above
`2^31 - 1` digits only the low `scanLen` digits of the dividend are visited.
-/

namespace MaiFaSp.BigInt

/-! ### Conversions and `operator*` -/

/-- `while (number > 0) { _digits.push_back(number % BASE); number /= BASE; }` -/
def pushDigits (n : ℕ) : List UInt32 :=
  if n = 0 then [] else UInt32.ofNat (n % BASE) :: pushDigits (n / BASE)
termination_by n
decreasing_by exact Nat.div_lt_self (by omega) one_lt_BASE

/-- `big_int(Num d)` for an integer whose negation does not overflow. -/
def ofNum (d : ℤ) : BigInt := optimise ⟨0 ≤ d, pushDigits (d.natAbs % 2 ^ 64) ++ [0]⟩

inductive MultiplicationRule where
  | trivial
  | karatsuba
  | schonhageStrassen
  deriving Repr, DecidableEq

/-- `decide_mult`. -/
def decideMult (rhs : ℕ) : MultiplicationRule := if rhs > 32 then .karatsuba else .trivial

/-- `multiply_assign` with the rule `Karatsuba`. -/
def multiplyByKaratsuba (x y : BigInt) : Outcome BigInt :=
  if y.isZero ∨ x.isZero then pure (zeroed x)
  else do
    let result ← multiplyKaratsuba x y
    pure (optimise ⟨x.sign = y.sign, result.digits⟩)

/-- `operator*=` and `operator*`: `decide_mult` chooses between two rules only. -/
def mulAssign (x y : BigInt) : Outcome BigInt :=
  if decideMult y.digits.length = .karatsuba then multiplyByKaratsuba x y
  else multiplyTrivial x y

/-! ### `divide_assign` -/

/-- `abs_other * big_int(mid)`. -/
def timesDigit (absOther : BigInt) (mid : ℕ) : Outcome BigInt := mulAssign absOther (ofNum mid)

/-- The binary search for one digit, given the products of the divisor.
`right = mid - 1` at `mid = 0` would wrap. -/
def quotientSearch (product : ℕ → Outcome BigInt) (remain : BigInt) (left q right : ℕ) :
    Outcome ℕ :=
  if left ≤ right then
    let mid := left + (right - left) / 2
    match product mid with
    | .error e => .error e
    | .ok temp =>
      if spaceship remain temp ≠ .lt then quotientSearch product remain (mid + 1) mid right
      else if mid = 0 then throw .wrapAround
      else quotientSearch product remain left q (mid - 1)
  else pure q
termination_by right + 1 - left

/-- `remain._digits.insert(remain._digits.begin(), d); remain.optimise();` -/
def bringDown (remain : BigInt) (d : UInt32) : BigInt :=
  optimise ⟨remain.sign, d :: remain.digits⟩

/-- One turn of the loop: the new remainder and the quotient digit. -/
def divideStep (absOther remain : BigInt) (d : UInt32) : Outcome (BigInt × UInt32) := do
  let remain := bringDown remain d
  let q ← quotientSearch (timesDigit absOther) remain 0 0 BASE
  if q > 0 then do
    let temp ← timesDigit absOther q
    pure (minusAssign remain temp 0, UInt32.ofNat q)
  else pure (remain, UInt32.ofNat q)

/-- `k` turns of the loop, from digit `k - 1` down to 0. -/
def divideLoop (absOther : BigInt) (ds : List UInt32) :
    ℕ → BigInt → List UInt32 → Outcome (List UInt32)
  | 0, _, quotient => pure quotient
  | k + 1, remain, quotient => do
    let (remain, q) ← divideStep absOther remain (ds.getD k 0)
    divideLoop absOther ds k remain (quotient.set k q)

/-- `divide_assign`; every division rule runs this code. -/
def divideAssign (x y : BigInt) : Outcome BigInt :=
  if x.isZero then pure x
  else if y.isZero then throw (.logicError "Division by zero")
  else if spaceship x.abs y.abs = .lt then pure (zeroed x)
  else do
    let quotient ← divideLoop y.abs x.digits (scanLen x.digits.length) (ofNum 0)
      (List.replicate x.digits.length 0)
    pure (optimise ⟨x.sign = y.sign, quotient⟩)

/-! ### The numbers the search works with -/

theorem mag_pushDigits (n : ℕ) : mag (pushDigits n) = n := by
  induction n using Nat.strong_induction_on with
  | _ n ih =>
    rw [pushDigits]
    split
    case isTrue h => simp [h]
    case isFalse h =>
      have hrec := ih (n / BASE) (Nat.div_lt_self (Nat.pos_of_ne_zero h) one_lt_BASE)
      have hd : (UInt32.ofNat (n % BASE)).toNat = n % BASE := by
        rw [UInt32.toNat_ofNat']
        exact Nat.mod_eq_of_lt (Nat.mod_lt _ BASE_pos)
      rw [mag_cons, hrec, hd]
      exact Nat.mod_add_div _ _

theorem canonical_ofNum (d : ℤ) : Canonical (ofNum d) := canonical_optimise _ (by simp)

theorem toInt_ofNum (n : ℕ) (h : n < 2 ^ 64) : (ofNum n).toInt = n := by
  rw [ofNum, toInt_optimise, toInt_eq, mag_append, mag_pushDigits, Int.natAbs_natCast,
    Nat.mod_eq_of_lt h]
  simp [signum]

theorem Canonical.mag_of_toInt {x : BigInt} (hx : Canonical x) (n : ℕ) (h : x.toInt = n) :
    x.sign = true ∧ mag x.digits = n := by
  cases hs : x.sign with
  | true =>
    simp only [toInt, hs, if_true] at h
    exact ⟨rfl, by exact_mod_cast h⟩
  | false =>
    simp only [toInt, hs, Bool.false_eq_true, if_false] at h
    have h0 : mag x.digits = 0 := by omega
    have hp := hx.zeroPositive (hx.isZero_iff.mpr h0)
    rw [hs] at hp
    cases hp

theorem ofNum_spec (n : ℕ) (h : n ≤ BASE) :
    (ofNum n).sign = true ∧ mag (ofNum n).digits = n ∧ (ofNum n).digits.length ≤ 2 := by
  have h64 : n < 2 ^ 64 := h.trans_lt (by decide)
  obtain ⟨hs, hm⟩ := (canonical_ofNum n).mag_of_toInt n (toInt_ofNum n h64)
  refine ⟨hs, hm, (canonical_ofNum n).length_le 2 (by decide) ?_⟩
  rw [hm]
  exact h.trans_lt (by decide)

/-- The products of the search have a factor of at most two digits, so they
use the rule `trivial` and are exact. -/
theorem timesDigit_eq (b : BigInt) (hb : Canonical b) (hs : b.sign = true) (n : ℕ)
    (h : n ≤ BASE) :
    ∃ temp, timesDigit b n = .ok temp ∧ Canonical temp ∧ temp.sign = true ∧
      mag temp.digits = mag b.digits * n := by
  obtain ⟨-, -, hl⟩ := ofNum_spec n h
  obtain ⟨temp, ht, hc, hv⟩ := multiplyTrivial_exact b (ofNum n) hb
  have hr : ¬ decideMult (ofNum n).digits.length = .karatsuba := by
    unfold decideMult
    rw [if_neg (by omega)]
    decide
  rw [toInt_ofNum n (h.trans_lt (by decide))] at hv
  have hbv : b.toInt = mag b.digits := by simp [toInt, hs]
  obtain ⟨hts, htm⟩ := hc.mag_of_toInt (mag b.digits * n) (by rw [hv, hbv]; push_cast; rfl)
  exact ⟨temp, by rw [timesDigit, mulAssign, if_neg hr, ht], hc, hts, htm⟩

theorem spaceship_ne_lt_iff {x y : BigInt} (hx : Canonical x) (hy : Canonical y)
    (hxs : x.sign = true) (hys : y.sign = true) (hlen : x.digits.length < 2 ^ 31) :
    spaceship x y ≠ .lt ↔ mag y.digits ≤ mag x.digits := by
  have h := spaceship_abs_lt_iff hx hy (orderVisible_of_lt x y (fun _ => hlen))
  rw [abs_eq_self hxs, abs_eq_self hys] at h
  rw [ne_eq, h, not_lt]

/-! ### The search finds the digit -/

/-- `left - 1` is never above the digit and `right` never below it. -/
theorem quotientSearch_eq {remain b : BigInt} (hr : Canonical remain) (hb : Canonical b)
    (hrs : remain.sign = true) (hbs : b.sign = true) (hpos : 0 < mag b.digits)
    (hlen : remain.digits.length < 2 ^ 31) (left q right : ℕ)
    (hleft : left ≤ mag remain.digits / mag b.digits + 1)
    (hright : mag remain.digits / mag b.digits ≤ right) (hBASE : right ≤ BASE)
    (hq : left = 0 ∨ q + 1 = left) :
    quotientSearch (timesDigit b) remain left q right = .ok (mag remain.digits / mag b.digits) := by
  generalize hQ : mag remain.digits / mag b.digits = Q at hleft hright ⊢
  induction hn : right + 1 - left using Nat.strong_induction_on generalizing left q right with
  | _ n ih =>
    rw [quotientSearch]
    split
    case isTrue hle =>
      generalize hmid : left + (right - left) / 2 = mid
      obtain ⟨temp, ht, htc, hts, htm⟩ := timesDigit_eq b hb hbs mid (by omega)
      have hcmp := spaceship_ne_lt_iff hr htc hrs hts hlen
      rw [htm, mul_comm, ← Nat.le_div_iff_mul_le hpos, hQ] at hcmp
      simp only [ht]
      by_cases hge : mid ≤ Q
      · rw [if_pos (hcmp.mpr hge)]
        exact ih _ (by omega) (mid + 1) mid right hBASE (Or.inr rfl) (by omega) hright rfl
      · rw [if_neg (fun h => hge (hcmp.mp h)), if_neg (by omega)]
        exact ih _ (by omega) left q (mid - 1) (by omega) hq hleft (by omega) rfl
    case isFalse hle =>
      have hqe : q = Q := by omega
      rw [hqe]
      rfl

/-! ### One turn and the whole loop -/

theorem bringDown_spec {remain : BigInt} (hs : remain.sign = true) (d : UInt32) :
    Canonical (bringDown remain d) ∧ (bringDown remain d).sign = true ∧
      mag (bringDown remain d).digits = d.toNat + BASE * mag remain.digits := by
  refine ⟨canonical_optimise _ (by simp), optimise_sign_true _ hs, ?_⟩
  rw [bringDown, mag_optimise, mag_cons]

/-- Before each turn the remainder is below the divisor and has no more digits
than have been visited. -/
structure Remainder (b remain : BigInt) (visited : ℕ) : Prop where
  canonical : Canonical remain
  positive : remain.sign = true
  below : mag remain.digits < mag b.digits
  short : mag remain.digits < BASE ^ visited

theorem quotient_digit_lt {b remain : BigInt} {v : ℕ} (h : Remainder b remain v) (d : UInt32) :
    (d.toNat + BASE * mag remain.digits) / mag b.digits < BASE := by
  have hpos := Nat.zero_lt_of_lt h.below
  have hd := digit_lt d
  rw [Nat.div_lt_iff_lt_mul hpos]
  have hm : BASE * (mag remain.digits + 1) ≤ BASE * mag b.digits :=
    Nat.mul_le_mul_left BASE h.below
  rw [Nat.mul_add] at hm
  omega

theorem quotientSearch_turn {b remain : BigInt} {v : ℕ} (hb : Canonical b) (hbs : b.sign = true)
    (h : Remainder b remain v) (hv : v + 1 < 2 ^ 31) (d : UInt32) :
    quotientSearch (timesDigit b) (bringDown remain d) 0 0 BASE =
      .ok ((d.toNat + BASE * mag remain.digits) / mag b.digits) := by
  obtain ⟨hc, hs, hm⟩ := bringDown_spec h.positive d
  have hlt := quotient_digit_lt h d
  have hlen : (bringDown remain d).digits.length ≤ v + 1 := by
    refine hc.length_le (v + 1) (by omega) ?_
    rw [hm, pow_succ']
    have hd := digit_lt d
    have hk : BASE * (mag remain.digits + 1) ≤ BASE * BASE ^ v :=
      Nat.mul_le_mul_left BASE h.short
    rw [Nat.mul_add] at hk
    omega
  have hsearch := quotientSearch_eq hc hb hs hbs (Nat.zero_lt_of_lt h.below) (by omega) 0 0 BASE
    (Nat.zero_le _) (by rw [hm]; exact hlt.le) le_rfl (Or.inl rfl)
  rwa [hm] at hsearch

theorem divideStep_spec {b remain : BigInt} {v : ℕ} (hb : Canonical b) (hbs : b.sign = true)
    (h : Remainder b remain v) (hv : v + 1 < 2 ^ 31) (d : UInt32) :
    ∃ next, divideStep b remain d =
        .ok (next, UInt32.ofNat ((d.toNat + BASE * mag remain.digits) / mag b.digits)) ∧
      Remainder b next (v + 1) ∧
      mag next.digits = (d.toNat + BASE * mag remain.digits) % mag b.digits := by
  obtain ⟨hc, hs, hm⟩ := bringDown_spec h.positive d
  have hsearch := quotientSearch_turn hb hbs h hv d
  have hlt := quotient_digit_lt h d
  have hshort : d.toNat + BASE * mag remain.digits < BASE ^ (v + 1) := by
    have hd := digit_lt d
    have hk : BASE * (mag remain.digits + 1) ≤ BASE * BASE ^ v :=
      Nat.mul_le_mul_left BASE h.short
    rw [Nat.mul_add] at hk
    rw [pow_succ']
    omega
  generalize hD : d.toNat + BASE * mag remain.digits = D at hm hsearch hlt hshort ⊢
  have hmod := Nat.mod_lt D (Nat.zero_lt_of_lt h.below)
  have hle := Nat.mod_le D (mag b.digits)
  have hdm := Nat.div_add_mod D (mag b.digits)
  generalize D / mag b.digits = q at hsearch hlt hdm ⊢
  by_cases hq : q > 0
  · obtain ⟨temp, ht, htc, hts, htm⟩ := timesDigit_eq b hb hbs q hlt.le
    have hlen : (bringDown remain d).digits.length ≤ v + 1 :=
      hc.length_le (v + 1) (by omega) (by rw [hm]; exact hshort)
    have hvis : OrderVisible (bringDown remain d) temp :=
      orderVisible_of_lt _ _ (fun _ => by omega)
    have hval := (minusAssign_exact_iff hc htc (hs.trans hts.symm)).mpr hvis
    have hcan := canonical_minusAssign (y := temp) hc
    obtain ⟨hns, hnm⟩ := hcan.mag_of_toInt (D % mag b.digits) (by
      rw [hval, toInt_eq, toInt_eq, hs, hts, hm, htm]
      simp only [signum, if_true, one_mul]
      omega)
    refine ⟨minusAssign (bringDown remain d) temp 0, ?_, ⟨hcan, hns, ?_, ?_⟩, hnm⟩
    · simp only [divideStep, hsearch, bind, Except.bind, if_pos hq, ht]
      rfl
    · rw [hnm]
      exact hmod
    · rw [hnm]
      omega
  · have h0 : q = 0 := by omega
    rw [h0, Nat.mul_zero, Nat.zero_add] at hdm
    refine ⟨bringDown remain d, ?_, ⟨hc, hs, ?_, ?_⟩, ?_⟩
    · simp only [divideStep, hsearch, bind, Except.bind, if_neg hq]
      rfl
    · rw [hm, ← hdm]
      exact hmod
    · rw [hm]
      exact hshort
    · rw [hm, hdm]

theorem mag_set (ds : List UInt32) (i : ℕ) (d : UInt32) (hi : i < ds.length)
    (h0 : ds.getD i 0 = 0) : mag (ds.set i d) = mag ds + BASE ^ i * d.toNat := by
  induction ds generalizing i with
  | nil => simp at hi
  | cons e ds ih =>
    cases i with
    | zero =>
      have he : e = 0 := h0
      simp [he]
      omega
    | succ i =>
      have hr := ih i (by simpa using hi) (by simpa using h0)
      rw [List.set_cons_succ, mag_cons, mag_cons, hr, pow_succ']
      ring

/-- The remaining turns add the quotient of the digits still to visit. -/
theorem divideLoop_eq {b : BigInt} (hb : Canonical b) (hbs : b.sign = true) (ds : List UInt32)
    (k v : ℕ) (hk : k ≤ ds.length) (hv : v + k < 2 ^ 31) (remain : BigInt)
    (h : Remainder b remain v) (quotient : List UInt32) (hlen : quotient.length = ds.length)
    (hz : ∀ j < k, quotient.getD j 0 = 0) :
    ∃ out, divideLoop b ds k remain quotient = .ok out ∧ out.length = ds.length ∧
      mag out = mag quotient +
        (mag remain.digits * BASE ^ k + mag (ds.take k)) / mag b.digits := by
  induction k generalizing v remain quotient with
  | zero =>
    refine ⟨quotient, rfl, hlen, ?_⟩
    rw [List.take_zero, mag_nil, pow_zero, mul_one, Nat.add_zero, Nat.div_eq_of_lt h.below,
      Nat.add_zero]
  | succ k ih =>
    obtain ⟨next, hstep, hnext, hnm⟩ := divideStep_spec hb hbs h (by omega) (ds.getD k 0)
    have hqlt := quotient_digit_lt h (ds.getD k 0)
    have hsplit := mag_take_succ ds k hk
    generalize hD : (ds.getD k 0).toNat + BASE * mag remain.digits = D at hstep hnm hqlt
    have hdm := Nat.div_add_mod D (mag b.digits)
    have hq : (UInt32.ofNat (D / mag b.digits)).toNat = D / mag b.digits := by
      rw [UInt32.toNat_ofNat']
      exact Nat.mod_eq_of_lt hqlt
    obtain ⟨out, ho, hol, hom⟩ := ih (v + 1) (by omega) (by omega) next hnext
      (quotient.set k (UInt32.ofNat (D / mag b.digits))) (by rw [List.length_set, hlen])
      (fun j hj => by
        have hzj := hz j (by omega)
        rw [List.getD_eq_getElem?_getD] at hzj ⊢
        rwa [List.getElem?_set_ne (by omega)])
    refine ⟨out, ?_, hol, ?_⟩
    · simp only [divideLoop, hstep, bind, Except.bind]
      exact ho
    · have hpos := Nat.zero_lt_of_lt h.below
      rw [hom, mag_set _ _ _ (by omega) (hz k (by omega)), hq, hnm, Nat.add_assoc]
      congr 1
      have hexp : mag remain.digits * BASE ^ (k + 1) + mag (ds.take (k + 1)) =
          (D % mag b.digits * BASE ^ k + mag (ds.take k)) +
            mag b.digits * (BASE ^ k * (D / mag b.digits)) := by
        rw [hsplit]
        calc
          _ = BASE ^ k * D + mag (ds.take k) := by rw [← hD]; ring
          _ = BASE ^ k * (mag b.digits * (D / mag b.digits) + D % mag b.digits) +
                mag (ds.take k) := by rw [hdm]
          _ = _ := by ring
      rw [hexp, Nat.add_mul_div_left _ _ hpos]
      omega

end MaiFaSp.BigInt
