import MaiFaSp.BigInt.Modulo
import MaiFaSp.BigInt.NttExact
import MaiFaSp.BigInt.RulesAgree

/-!
# `big_int`: Schonhage-Strassen multiplication (`big_int.cpp:456-462, 640-645, 723-794`)

The operands are written in the base `base`, their digits are convolved modulo two primes,
the two residues of a coefficient are put together by the Chinese remainder theorem, and the
coefficients are carried and added up. `init` makes the same tables in every call, so that
they are `static` does not show.
-/

namespace MaiFaSp

namespace Ntt

/-- `constexpr ll base`. -/
def base : ℕ := 998244353 - 1

/-- A value computed as `__int128_t`. -/
def int128 (z : ℤ) : Outcome ℤ :=
  if -2 ^ 127 ≤ z ∧ z < 2 ^ 127 then pure z else throw .wrapAround

/-- `constexpr ll M = MOD1 * MOD2`. -/
def M : ℕ := constants1.MOD * constants2.MOD

/-- `mod2^{-1} mod mod1`. -/
def y1 : ℤ := 210156705

/-- `mod1^{-1} mod mod2`. -/
def y2 : ℤ := 1668891489

def crt (a1 a2 : ℤ) : Outcome ℤ := do
  let product1 ← int128 (a1 * constants2.MOD)
  let scaled1 ← int128 (product1.tmod M * y1)
  let term1 ← ll (scaled1.tmod M)
  let product2 ← int128 (a2 * constants1.MOD)
  let scaled2 ← int128 (product2.tmod M * y2)
  let term2 ← ll (scaled2.tmod M)
  let sum ← ll (term1 + term2)
  pure (sum.tmod M)

/-- `combined[i] = crt(res1[i], res2[i])`. -/
def combine : List ℤ → List ℤ → Outcome (List ℤ)
  | x :: xs, y :: ys => do
    let z ← crt x y
    let rest ← combine xs ys
    pure (z :: rest)
  | _, _ => pure []

/-- The loop of `normalize` over the coefficients: the digits and the last carry. -/
def carryLoop : ℤ → List ℤ → Outcome (List ℤ × ℤ)
  | carry, [] => pure ([], carry)
  | carry, x :: xs => do
    let x ← ll (x + carry)
    let rest ← carryLoop (x.tdiv base) xs
    pure (x.tmod base :: rest.1, rest.2)

/-- `while (carry)`. -/
def pushCarries (carry : ℤ) : List ℤ :=
  if carry = 0 then [] else carry.tmod base :: pushCarries (carry.tdiv base)
termination_by carry.natAbs
decreasing_by
  rw [Int.natAbs_tdiv]
  exact Nat.div_lt_self (by omega) (by decide)

def normalize (product : List ℤ) : Outcome (List ℤ) := do
  let row ← carryLoop 0 product
  pure (row.1 ++ pushCarries row.2)

/-- `while (n < length) n <<= 1`, from `n = 2 ^ k` on: the exponent of the last `n`. -/
def transformLength (length k : ℕ) : ℕ :=
  if 2 ^ k < length then transformLength length (k + 1) else k
termination_by length - 2 ^ k
decreasing_by
  have hpow : 2 ^ k < 2 ^ (k + 1) := Nat.pow_lt_pow_right (by norm_num) (by omega)
  omega

/-! ### The Chinese remainder theorem -/

theorem M_eq : M = 2110217903511961601 := by decide

theorem int128_eq {z : ℤ} (hlo : -2 ^ 127 ≤ z) (hhi : z < 2 ^ 127) : int128 z = .ok z :=
  if_pos ⟨hlo, hhi⟩

theorem moduli_coprime : (constants1.MOD : ℤ).natAbs.Coprime (constants2.MOD : ℤ).natAbs := by
  decide +kernel

/-- A number is determined modulo `M` by its two residues. -/
theorem modEq_of_residues {x y : ℤ} (h1 : x ≡ y [ZMOD constants1.MOD])
    (h2 : x ≡ y [ZMOD constants2.MOD]) : x ≡ y [ZMOD M] := by
  have h := (Int.modEq_and_modEq_iff_modEq_mul moduli_coprime).mp ⟨h1, h2⟩
  rwa [M, Nat.cast_mul]

theorem weights_modEq (a1 a2 : ℤ) :
    a1 * constants2.MOD * y1 + a2 * constants1.MOD * y2 ≡ a1 [ZMOD constants1.MOD] ∧
      a1 * constants2.MOD * y1 + a2 * constants1.MOD * y2 ≡ a2 [ZMOD constants2.MOD] := by
  have h1 : (constants2.MOD : ℤ) * y1 ≡ 1 [ZMOD constants1.MOD] := by decide
  have h2 : (constants1.MOD : ℤ) * y2 ≡ 1 [ZMOD constants2.MOD] := by decide
  have z1 : (constants1.MOD : ℤ) ≡ 0 [ZMOD constants1.MOD] := by decide
  have z2 : (constants2.MOD : ℤ) ≡ 0 [ZMOD constants2.MOD] := by decide
  constructor
  · calc
      a1 * constants2.MOD * y1 + a2 * constants1.MOD * y2
          = a1 * (constants2.MOD * y1) + a2 * y2 * constants1.MOD := by ring
      _ ≡ a1 * 1 + a2 * y2 * 0 [ZMOD constants1.MOD] :=
        (h1.mul_left a1).add (z1.mul_left (a2 * y2))
      _ = a1 := by ring
  · calc
      a1 * constants2.MOD * y1 + a2 * constants1.MOD * y2
          = a1 * y1 * constants2.MOD + a2 * (constants1.MOD * y2) := by ring
      _ ≡ a1 * y1 * 0 + a2 * 1 [ZMOD constants2.MOD] :=
        (z2.mul_left (a1 * y1)).add (h2.mul_left a2)
      _ = a2 := by ring

/-- One term of `crt`: no product leaves `__int128_t`. -/
theorem term_spec {a y : ℤ} {m : ℕ} (ha : 0 ≤ a) (ha' : a < 2 ^ 31) (hm : m < 2 ^ 31)
    (hy : 0 ≤ y) (hy' : y < 2 ^ 31) :
    int128 (a * m) = .ok (a * m) ∧ int128 ((a * m).tmod M * y) = .ok ((a * m).tmod M * y) ∧
      0 ≤ ((a * m).tmod M * y).tmod M ∧ ((a * m).tmod M * y).tmod M < M ∧
      ((a * m).tmod M * y).tmod M ≡ a * m * y [ZMOD M] := by
  have hM := M_eq
  have hm0 : (0 : ℤ) ≤ m := Int.natCast_nonneg m
  have hm1 : (m : ℤ) < 2 ^ 31 := by exact_mod_cast hm
  have h0 : 0 ≤ a * m := mul_nonneg ha hm0
  have h1 : a * m < 2 ^ 31 * 2 ^ 31 := mul_lt_mul'' ha' hm1 ha hm0
  have hr := Int.tmod_eq_emod_of_nonneg (a := a * m) (b := M) h0
  have hr0 : 0 ≤ (a * m).tmod M := Int.tmod_nonneg _ h0
  have hr1 : (a * m).tmod M < M := Int.tmod_lt_of_pos _ (by omega)
  have hp0 : 0 ≤ (a * m).tmod M * y := mul_nonneg hr0 hy
  have hp1 : (a * m).tmod M * y < M * 2 ^ 31 := mul_lt_mul'' hr1 hy' hr0 hy
  refine ⟨int128_eq (by omega) (by omega), int128_eq (by omega) (by omega),
    Int.tmod_nonneg _ hp0, Int.tmod_lt_of_pos _ (by omega), ?_⟩
  rw [Int.tmod_eq_emod_of_nonneg hp0, hr]
  exact (Int.mod_modEq _ _).trans ((Int.mod_modEq _ _).mul_right y)

theorem crt_spec {a1 a2 z : ℤ} (h1 : Residue constants1.MOD a1) (h2 : Residue constants2.MOD a2)
    (hz1 : a1 ≡ z [ZMOD constants1.MOD]) (hz2 : a2 ≡ z [ZMOD constants2.MOD]) :
    crt a1 a2 = .ok (z % M) := by
  have hM := M_eq
  have hm1 : constants1.MOD = 998244353 := rfl
  have hm2 : constants2.MOD = 2113929217 := rfl
  obtain ⟨h10, h11⟩ := h1
  obtain ⟨h20, h21⟩ := h2
  obtain ⟨hp1, hs1, ht10, ht11, ht1⟩ := term_spec (a := a1) (y := y1) (m := constants2.MOD) h10
    (by omega) (by decide) (by decide) (by decide)
  obtain ⟨hp2, hs2, ht20, ht21, ht2⟩ := term_spec (a := a2) (y := y2) (m := constants1.MOD) h20
    (by omega) (by decide) (by decide) (by decide)
  simp only [crt, hp1, ok_bind, hs1, hp2, hs2,
    ll_eq (show -2 ^ 63 ≤ ((a1 * constants2.MOD).tmod M * y1).tmod M by omega) (by omega),
    ll_eq (show -2 ^ 63 ≤ ((a2 * constants1.MOD).tmod M * y2).tmod M by omega) (by omega)]
  generalize ((a1 * constants2.MOD).tmod M * y1).tmod M = term1 at ht10 ht11 ht1 ⊢
  generalize ((a2 * constants1.MOD).tmod M * y2).tmod M = term2 at ht20 ht21 ht2 ⊢
  have hsum : 0 ≤ term1 + term2 := by omega
  rw [ll_eq (by omega) (by omega), ok_bind, Int.tmod_eq_emod_of_nonneg hsum]
  obtain ⟨hw1, hw2⟩ := weights_modEq a1 a2
  have hall := ht1.add ht2
  have hz : term1 + term2 ≡ z [ZMOD M] :=
    hall.trans (modEq_of_residues (hw1.trans hz1) (hw2.trans hz2))
  exact congrArg Except.ok hz

/-- `crt` solves the two congruences within `M`; every value on the way is in the range of its type,
`M` included. -/
theorem crt_exact {a1 a2 : ℤ} (h1 : Residue constants1.MOD a1) (h2 : Residue constants2.MOD a2) :
    ll (constants1.MOD * constants2.MOD) = .ok (M : ℤ) ∧
      ∃ z, crt a1 a2 = .ok z ∧ Residue M z ∧
        z ≡ a1 [ZMOD constants1.MOD] ∧ z ≡ a2 [ZMOD constants2.MOD] := by
  have hM := M_eq
  obtain ⟨hw1, hw2⟩ := weights_modEq a1 a2
  generalize a1 * constants2.MOD * y1 + a2 * constants1.MOD * y2 = w at hw1 hw2
  have hdvd1 : (constants1.MOD : ℤ) ∣ M := Int.natCast_dvd_natCast.mpr (Nat.dvd_mul_right ..)
  have hdvd2 : (constants2.MOD : ℤ) ∣ M := Int.natCast_dvd_natCast.mpr (Nat.dvd_mul_left ..)
  have hmod : w % M ≡ w [ZMOD M] := Int.mod_modEq w M
  refine ⟨?_, w % M, crt_spec h1 h2 hw1.symm hw2.symm, ?_, ?_, ?_⟩
  · rw [M, Nat.cast_mul]
    exact ll_eq (by decide) (by decide)
  · exact ⟨Int.emod_nonneg w (by omega), Int.emod_lt_of_pos w (by omega)⟩
  · exact (hmod.of_dvd hdvd1).trans hw1
  · exact (hmod.of_dvd hdvd2).trans hw2

/-- The largest residues. -/
theorem crt_exact_largest :
    ll (constants1.MOD * constants2.MOD) = .ok (M : ℤ) ∧
      ∃ z, crt 998244352 2113929216 = .ok z ∧ Residue M z ∧
        z ≡ 998244352 [ZMOD constants1.MOD] ∧ z ≡ 2113929216 [ZMOD constants2.MOD] :=
  crt_exact (by decide) (by decide)

theorem combine_spec {xs ys : List ℤ} (f : ℕ → ℤ) (hlen : xs.length = ys.length)
    (hx : ∀ i < xs.length, Residue constants1.MOD (val xs i) ∧
      val xs i ≡ f i [ZMOD constants1.MOD])
    (hy : ∀ i < ys.length, Residue constants2.MOD (val ys i) ∧
      val ys i ≡ f i [ZMOD constants2.MOD]) :
    ∃ zs, combine xs ys = .ok zs ∧ zs.length = xs.length ∧
      ∀ i < xs.length, val zs i = f i % M := by
  induction xs generalizing ys f with
  | nil =>
    refine ⟨[], ?_, rfl, ?_⟩
    · cases ys <;> rfl
    · intro i hi
      cases hi
  | cons x xs ih =>
    cases ys with
    | nil => cases hlen
    | cons y ys =>
      obtain ⟨hxr, hxm⟩ := hx 0 (Nat.succ_pos _)
      obtain ⟨hyr, hym⟩ := hy 0 (Nat.succ_pos _)
      have hcrt : crt x y = .ok (f 0 % M) := crt_spec hxr hyr hxm hym
      obtain ⟨zs, hrun, hzlen, hz⟩ := ih (fun i => f (i + 1)) (Nat.succ.inj hlen)
        (fun i hi => hx (i + 1) (Nat.succ_lt_succ hi)) (fun i hi => hy (i + 1) (Nat.succ_lt_succ hi))
      refine ⟨f 0 % M :: zs, ?_, ?_, ?_⟩
      · rw [combine, hcrt, ok_bind, hrun]
        rfl
      · rw [List.length_cons, List.length_cons, hzlen]
      · intro i hi
        cases i with
        | zero => rfl
        | succ i => exact hz i (Nat.lt_of_succ_lt_succ hi)

/-! ### Carries -/

/-- The number with the given digits in the base `b`, the lowest digit first. -/
def evalAt (b : ℤ) : List ℤ → ℤ
  | [] => 0
  | x :: xs => x + b * evalAt b xs

theorem evalAt_append (b : ℤ) (xs ys : List ℤ) :
    evalAt b (xs ++ ys) = evalAt b xs + b ^ xs.length * evalAt b ys := by
  induction xs with
  | nil => simp [evalAt]
  | cons x xs ih =>
    rw [List.cons_append, evalAt, evalAt, ih, List.length_cons, pow_succ]
    ring

theorem evalAt_eq_sum (b : ℤ) (xs : List ℤ) :
    evalAt b xs = ∑ i ∈ Finset.range xs.length, val xs i * b ^ i := by
  induction xs with
  | nil => rfl
  | cons x xs ih =>
    rw [List.length_cons, Finset.sum_range_succ', evalAt, ih, Finset.mul_sum, add_comm]
    congr 1
    · refine Finset.sum_congr rfl (fun i _ => ?_)
      rw [pow_succ]
      show b * (val xs i * b ^ i) = val xs i * (b ^ i * b)
      ring
    · rw [pow_zero, mul_one]
      rfl

theorem base_eq : base = 998244352 := rfl

theorem carry_parts {x : ℤ} (h : 0 ≤ x) :
    x.tdiv base = x / 998244352 ∧ x.tmod base = x % 998244352 :=
  ⟨Int.tdiv_eq_ediv_of_nonneg h, Int.tmod_eq_emod_of_nonneg h⟩

theorem carryLoop_spec {xs : List ℤ} {carry : ℤ} (hx : ∀ x ∈ xs, 0 ≤ x ∧ x < M) (h0 : 0 ≤ carry)
    (h1 : carry < 2 ^ 32) :
    ∃ row, carryLoop carry xs = .ok row ∧ row.1.length = xs.length ∧
      (∀ y ∈ row.1, 0 ≤ y ∧ y < base) ∧ 0 ≤ row.2 ∧ row.2 < 2 ^ 32 ∧
      evalAt base row.1 + base ^ xs.length * row.2 = carry + evalAt base xs := by
  induction xs generalizing carry with
  | nil =>
    refine ⟨([], carry), rfl, rfl, ?_, h0, h1, ?_⟩
    · intro y hy
      cases hy
    · simp [evalAt]
  | cons x xs ih =>
    have hM := M_eq
    have hb := base_eq
    obtain ⟨hx0, hx1⟩ := hx x List.mem_cons_self
    obtain ⟨hq, hr⟩ := carry_parts (show 0 ≤ x + carry by omega)
    have hnext0 : 0 ≤ (x + carry).tdiv base := by omega
    have hnext1 : (x + carry).tdiv base < 2 ^ 32 := by omega
    obtain ⟨row, hrun, hlen, hdigits, hc0, hc1, hval⟩ :=
      ih (fun y hy => hx y (List.mem_cons_of_mem _ hy)) hnext0 hnext1
    refine ⟨((x + carry).tmod base :: row.1, row.2), ?_, ?_, ?_, hc0, hc1, ?_⟩
    · rw [carryLoop, ll_eq (by omega) (by omega), ok_bind, hrun]
      rfl
    · rw [List.length_cons, List.length_cons, hlen]
    · intro y hy
      cases hy with
      | head => omega
      | tail _ hy => exact hdigits y hy
    · have hsplit := Int.tmod_add_mul_tdiv (x + carry) base
      rw [evalAt, evalAt, List.length_cons, pow_succ]
      linear_combination hsplit + (base : ℤ) * hval

theorem pushCarries_spec {carry : ℤ} (h0 : 0 ≤ carry) :
    (∀ y ∈ pushCarries carry, 0 ≤ y ∧ y < base) ∧ evalAt base (pushCarries carry) = carry := by
  induction hn : carry.natAbs using Nat.strong_induction_on generalizing carry with
  | _ n ih =>
    rw [pushCarries]
    split
    case isTrue hz =>
      refine ⟨?_, hz.symm⟩
      intro y hy
      cases hy
    case isFalse hz =>
      have hb := base_eq
      obtain ⟨hq, hr⟩ := carry_parts h0
      have hnext : 0 ≤ carry.tdiv base := by omega
      obtain ⟨hdigits, hval⟩ := ih _ (by omega) hnext rfl
      constructor
      · intro y hy
        cases hy with
        | head => omega
        | tail _ hy => exact hdigits y hy
      · rw [evalAt, hval]
        exact Int.tmod_add_mul_tdiv carry base

/-- `normalize` leaves digits below the base, with the value it was given. -/
theorem normalize_spec {xs : List ℤ} (hx : ∀ x ∈ xs, 0 ≤ x ∧ x < M) :
    ∃ ys, normalize xs = .ok ys ∧ (∀ y ∈ ys, 0 ≤ y ∧ y < base) ∧
      evalAt base ys = evalAt base xs := by
  obtain ⟨row, hrun, hlen, hdigits, hc0, -, hval⟩ := carryLoop_spec hx le_rfl (by norm_num)
  obtain ⟨hcarry, hcval⟩ := pushCarries_spec hc0
  refine ⟨row.1 ++ pushCarries row.2, ?_, ?_, ?_⟩
  · rw [normalize, hrun]
    rfl
  · intro y hy
    rw [List.mem_append] at hy
    obtain hy | hy := hy
    · exact hdigits y hy
    · exact hcarry y hy
  · rw [evalAt_append, hcval, hlen, hval, zero_add]

end Ntt

namespace BigInt

open Ntt

/-- `while (number != 0)`, at most `turns` times; `none` when it has not ended by then. -/
def normalizeDigits : ℕ → BigInt → List ℤ → Outcome (Option (List ℤ))
  | 0, number, digits => pure (if equals number (ofNum 0) then some digits else none)
  | turns + 1, number, digits =>
    if equals number (ofNum 0) then pure (some digits)
    else do
      let div_res ← moduloAssign number (ofNum base)
      match div_res.digits with
      | [] => throw .outOfBounds
      | d :: _ => do
        let number ← divideAssign number (ofNum base)
        normalizeDigits turns number (digits ++ [(d.toNat : ℤ)])

/-- The last loop: `result += tmp * pow; pow *= base`. -/
def collect : List ℤ → BigInt → BigInt → Outcome BigInt
  | [], result, _ => pure result
  | x :: xs, result, pow => do
    let product ← mulAssign (ofNum x) pow
    let next ← mulAssign pow (ofNum base)
    collect xs (plusAssign result product 0) next

/-- From the digits of both operands on. -/
def multiplyDigits (pws1 ipws1 pws2 ipws2 : Table) (ds es : List ℤ) : Outcome BigInt := do
  let k := transformLength (ds.length + es.length) 0
  let first := ds ++ List.replicate (2 ^ k - ds.length) 0
  let second := es ++ List.replicate (2 ^ k - es.length) 0
  let res1 ← polyMultiply constants1 pws1 ipws1 first second k
  let res2 ← polyMultiply constants2 pws2 ipws2 first second k
  let combined ← combine res1 res2
  let combined ← normalize combined
  collect combined (ofNum 0) (ofNum 1)

/-- `multiply_schonhage_strassen`. A number gets smaller in every turn of its loop, so its
magnitude bounds them. -/
def multiplySchonhageStrassen (first second : BigInt) : Outcome (Option BigInt) := do
  let pws1 ← init constants1.MOD constants1.W
  let ipws1 ← init constants1.MOD constants1.IW
  let pws2 ← init constants2.MOD constants2.W
  let ipws2 ← init constants2.MOD constants2.IW
  let ds ← normalizeDigits (mag first.digits + 1) first []
  let es ← normalizeDigits (mag second.digits + 1) second []
  match ds, es with
  | some ds, some es => do
    let result ← multiplyDigits pws1 ipws1 pws2 ipws2 ds es
    pure (some result)
  | _, _ => pure none

/-- `multiply_assign` with the rule `SchonhageStrassen`. -/
def multiplyBySchonhageStrassen (x y : BigInt) : Outcome (Option BigInt) :=
  if y.isZero ∨ x.isZero then pure (some (zeroed x))
  else do
    let result ← multiplySchonhageStrassen x y
    pure (result.map fun result => optimise ⟨x.sign = y.sign, result.digits⟩)

end BigInt

end MaiFaSp
