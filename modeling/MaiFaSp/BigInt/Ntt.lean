import MaiFaSp.BigInt.Multiply
import MaiFaSp.Lib.Outcomes
import MaiFaSp.Lib.Transform
import Mathlib.Data.ZMod.Basic

/-!
# `big_int`: the number-theoretic transform (`big_int.cpp:640-721`)

Every product, sum and difference of two `long long` is checked, and so is every index. The
lengths are powers of two, so a length `n` is given by its exponent `k`.
-/

namespace MaiFaSp.Ntt

open Transform

def MAXN : ℕ := 2 ^ 19

/-- A modulus with its constants. -/
structure Constants where
  MOD : ℕ
  W : ℤ
  IW : ℤ
  INV2 : ℤ
  deriving Repr, DecidableEq

/-- `MOD1`, `W1`, `IW1` and `INV21`. -/
def constants1 : Constants := ⟨998244353, 805775211, 46809892, 499122177⟩

/-- `MOD2`, `W2`, `IW2` and `INV22`. -/
def constants2 : Constants := ⟨2113929217, 1838344356, 130030948, 1056964609⟩

/-- A value computed as `long long`. -/
def ll (z : ℤ) : Outcome ℤ := if -2 ^ 63 ≤ z ∧ z < 2 ^ 63 then pure z else throw .wrapAround

/-- `(x * y) % MOD`. -/
def mulMod (MOD : ℕ) (x y : ℤ) : Outcome ℤ := do
  let product ← ll (x * y)
  pure (product.tmod MOD)

def get (xs : List ℤ) (i : ℕ) : Outcome ℤ :=
  match xs[i]? with
  | some x => pure x
  | none => throw .outOfBounds

def put (xs : List ℤ) (i : ℕ) (x : ℤ) : Outcome (List ℤ) :=
  if i < xs.length then pure (xs.set i x) else throw .outOfBounds

/-! ### The tables of roots -/

/-- `static ll pws[MAXN + 1]`. -/
abbrev Table := ℕ → ℤ

def lookup (pws : Table) (n : ℕ) : Outcome ℤ :=
  if n ≤ MAXN then pure (pws n) else throw .outOfBounds

/-- `for (int i = MAXN / 2; i >= 1; i /= 2)`, for one of the tables. -/
def initLoop (MOD : ℕ) (i : ℕ) (pws : Table) : Outcome Table :=
  if 1 ≤ i then do
    let x ← lookup pws (i * 2)
    let square ← mulMod MOD x x
    initLoop MOD (i / 2) (Function.update pws i square)
  else pure pws
termination_by i
decreasing_by omega

/-- `init`, for one of the tables. -/
def init (MOD : ℕ) (W : ℤ) : Outcome Table :=
  initLoop MOD (MAXN / 2) (Function.update (fun _ => 0) MAXN W)

/-! ### `fft` and `poly_multiply` -/

/-- `if (ans[i + n / 2] < 0) ans[i + n / 2] += MOD`. -/
def raised (MOD : ℕ) (x : ℤ) : Outcome ℤ := if x < 0 then ll (x + MOD) else pure x

/-- The multiplication by `INV2` of the inverse transform. -/
def halved (c : Constants) (inv : Bool) (x : ℤ) : Outcome ℤ :=
  if inv then mulMod c.MOD x c.INV2 else pure x

/-- One turn of the loop over `i`, up to the next `cw`. -/
def butterfly (c : Constants) (inv : Bool) (half i : ℕ) (cw : ℤ) (ans : List ℤ) :
    Outcome (List ℤ) := do
  let u ← get ans i
  let w ← get ans (i + half)
  let v ← mulMod c.MOD cw w
  let sum ← ll (u + v)
  let difference ← ll (u - v)
  let upper ← raised c.MOD (difference.tmod c.MOD)
  let lower ← halved c inv (sum.tmod c.MOD)
  let upper ← halved c inv upper
  let ans ← put ans i lower
  put ans (i + half) upper

/-- The loop over `i`, from `i` on for a number of turns. -/
def butterflies (c : Constants) (inv : Bool) (gw : ℤ) (half : ℕ) :
    ℕ → ℕ → ℤ → List ℤ → Outcome (List ℤ)
  | 0, _, _, ans => pure ans
  | turns + 1, i, cw, ans => do
    let ans ← butterfly c inv half i cw ans
    let cw ← mulMod c.MOD cw gw
    butterflies c inv gw half turns (i + 1) cw ans

/-- `fft` of the length `n = 2 ^ k`. -/
def fft (c : Constants) (pws ipws : Table) (inv : Bool) (a : List ℤ) :
    (k l cl step : ℕ) → List ℤ → Outcome (List ℤ)
  | 0, l, cl, _, ans => do
    let x ← get a cl
    put ans l x
  | k + 1, l, cl, step, ans => do
    let half := 2 ^ k
    let ans ← fft c pws ipws inv a k l cl (step * 2) ans
    let ans ← fft c pws ipws inv a k (l + half) (cl + step) (step * 2) ans
    let gw ← lookup (if inv then ipws else pws) (2 ^ (k + 1))
    butterflies c inv gw half half l 1 ans

/-- `product_fft[i] = (a_fft[i] * b_fft[i]) % MOD`. -/
def pointwise (MOD : ℕ) : List ℤ → List ℤ → Outcome (List ℤ)
  | x :: xs, y :: ys => do
    let p ← mulMod MOD x y
    let rest ← pointwise MOD xs ys
    pure (p :: rest)
  | _, _ => pure []

def polyMultiply (c : Constants) (pws ipws : Table) (a b : List ℤ) (k : ℕ) :
    Outcome (List ℤ) := do
  let zeros := List.replicate (2 ^ k) 0
  let a_fft ← fft c pws ipws false a k 0 0 1 zeros
  let b_fft ← fft c pws ipws false b k 0 0 1 zeros
  let product_fft ← pointwise c.MOD a_fft b_fft
  fft c pws ipws true product_fft k 0 0 1 zeros

/-! ### Residues -/

/-- A residue in the range that every step keeps. -/
def Residue (M : ℕ) (x : ℤ) : Prop := 0 ≤ x ∧ x < M

instance (M : ℕ) (x : ℤ) : Decidable (Residue M x) := inferInstanceAs (Decidable (_ ∧ _))

/-- The place `i` of a vector. -/
def val (xs : List ℤ) (i : ℕ) : ℤ := xs.getD i 0

section Residues

variable {M : ℕ} {x y : ℤ}

theorem ll_eq {z : ℤ} (hlo : -2 ^ 63 ≤ z) (hhi : z < 2 ^ 63) : ll z = .ok z := if_pos ⟨hlo, hhi⟩

theorem Residue.mul_lt (hM : M ≤ 2 ^ 31) (hx : Residue M x) (hy : Residue M y) :
    0 ≤ x * y ∧ x * y < 2 ^ 62 := by
  have hM' : (M : ℤ) ≤ 2 ^ 31 := by exact_mod_cast hM
  obtain ⟨hx0, hx1⟩ := hx
  obtain ⟨hy0, hy1⟩ := hy
  refine ⟨mul_nonneg hx0 hy0, ?_⟩
  calc
    x * y ≤ (2 ^ 31 - 1) * (2 ^ 31 - 1) := mul_le_mul (by omega) (by omega) hy0 (by norm_num)
    _ < 2 ^ 62 := by norm_num

theorem residue_tmod (hM : 0 < M) (hx : 0 ≤ x) : Residue M (x.tmod M) := by
  rw [Int.tmod_eq_emod_of_nonneg hx]
  have hM' : (0 : ℤ) < M := by exact_mod_cast hM
  exact ⟨Int.emod_nonneg _ hM'.ne', Int.emod_lt_of_pos _ hM'⟩

theorem cast_tmod (x : ℤ) : ((x.tmod M : ℤ) : ZMod M) = x := by
  have h := congrArg (Int.cast (R := ZMod M)) (Int.tmod_add_mul_tdiv x M)
  push_cast at h
  rwa [ZMod.natCast_self, zero_mul, add_zero] at h

/-- A product of residues is computed without overflow and is a residue. -/
theorem mulMod_spec (hM : 0 < M) (hM' : M ≤ 2 ^ 31) (hx : Residue M x) (hy : Residue M y) :
    ∃ p, mulMod M x y = .ok p ∧ Residue M p ∧ (p : ZMod M) = x * y := by
  obtain ⟨h0, h1⟩ := hx.mul_lt hM' hy
  refine ⟨(x * y).tmod M, ?_, residue_tmod hM h0, ?_⟩
  · rw [mulMod, ll_eq (by omega) (by omega)]
    rfl
  · rw [cast_tmod]
    push_cast
    rfl

end Residues

theorem get_eq {xs : List ℤ} {i : ℕ} (h : i < xs.length) : get xs i = .ok (val xs i) := by
  rw [get, val, List.getElem?_eq_getElem h, List.getD_eq_getElem _ _ h]
  rfl

theorem put_eq {xs : List ℤ} {i : ℕ} (h : i < xs.length) (x : ℤ) :
    put xs i x = .ok (xs.set i x) := if_pos h

theorem val_set {xs : List ℤ} {i : ℕ} (h : i < xs.length) (x : ℤ) (j : ℕ) :
    val (xs.set i x) j = if i = j then x else val xs j := by
  rw [val, val, List.getD_eq_getElem?_getD, List.getD_eq_getElem?_getD]
  by_cases hij : i = j
  · subst hij
    rw [List.getElem?_set_self h, if_pos rfl]
    rfl
  · rw [List.getElem?_set_ne hij, if_neg hij]

end MaiFaSp.Ntt
