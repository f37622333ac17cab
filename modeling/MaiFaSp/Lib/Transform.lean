import Mathlib.Algebra.BigOperators.Intervals
import Mathlib.Algebra.Ring.GeomSum
import Mathlib.Tactic

/-!
# Discrete Fourier transforms of length a power of two

The transform at the powers of an element `w` of a commutative ring, whose power `n / 2` is
minus one: how it is put together from the transforms of the even and of the odd places, that
the transform at the inverse of `w` undoes it up to the length, and that it turns a cyclic
convolution into a product.
-/

namespace MaiFaSp.Transform

open Finset

variable {R : Type*} [CommRing R] {w v : R} {a b : ℕ → R} {k m n i j : ℕ}

def dft (w : R) (n : ℕ) (a : ℕ → R) (j : ℕ) : R := ∑ i ∈ range n, a i * w ^ (i * j)

def cyclic (n : ℕ) (a b : ℕ → R) (k : ℕ) : R := ∑ i ∈ range n, a i * b ((k + (n - i)) % n)

theorem dft_congr (h : ∀ i < n, a i = b i) : dft w n a j = dft w n b j :=
  sum_congr rfl (fun i hi => by rw [h i (mem_range.mp hi)])

/-! ### The two halves -/

theorem sum_range_two_mul (f : ℕ → R) (m : ℕ) :
    ∑ i ∈ range (2 * m), f i = ∑ i ∈ range m, f (2 * i) + ∑ i ∈ range m, f (2 * i + 1) := by
  induction m with
  | zero => simp
  | succ m ih =>
    rw [Nat.mul_succ, sum_range_succ, sum_range_succ, ih, sum_range_succ, sum_range_succ]
    ring

theorem dft_even_odd (w : R) (m : ℕ) (a : ℕ → R) (j : ℕ) :
    dft w (2 * m) a j =
      dft (w ^ 2) m (fun i => a (2 * i)) j + w ^ j * dft (w ^ 2) m (fun i => a (2 * i + 1)) j := by
  unfold dft
  rw [sum_range_two_mul, mul_sum]
  congr 1
  · refine sum_congr rfl (fun i _ => ?_)
    rw [← pow_mul, Nat.mul_assoc]
  · refine sum_congr rfl (fun i _ => ?_)
    rw [← pow_mul, ← Nat.mul_assoc, Nat.add_mul, pow_add, Nat.one_mul]
    ring

theorem dft_add_half (hw : w ^ m = -1) (a : ℕ → R) (j : ℕ) :
    dft w (2 * m) a (j + m) =
      dft (w ^ 2) m (fun i => a (2 * i)) j - w ^ j * dft (w ^ 2) m (fun i => a (2 * i + 1)) j := by
  have hperiod : ∀ f : ℕ → R, dft (w ^ 2) m f (j + m) = dft (w ^ 2) m f j := by
    intro f
    refine sum_congr rfl (fun i _ => ?_)
    have hone : (w ^ 2) ^ (i * m) = 1 := by
      rw [← pow_mul, mul_comm i m, ← mul_assoc, mul_comm 2 m, mul_assoc, pow_mul, hw, pow_mul]
      simp
    rw [Nat.mul_add, pow_add, hone, mul_one]
  rw [dft_even_odd, hperiod, hperiod, pow_add, hw]
  ring

/-! ### Sums of powers -/

theorem sum_pow_two_pow (x : R) (k : ℕ) :
    ∑ j ∈ range (2 ^ k), x ^ j = ∏ i ∈ range k, (1 + x ^ 2 ^ i) := by
  induction k with
  | zero => simp
  | succ k ih =>
    rw [prod_range_succ, ← ih, pow_succ, mul_two, sum_range_add, mul_add, mul_one, sum_mul]
    congr 1
    refine sum_congr rfl (fun j _ => ?_)
    rw [pow_add, mul_comm]

/-- The powers of a power of `w` that is not one add up to zero. -/
theorem sum_pow_eq_zero (hw : w ^ 2 ^ k = -1) {d : ℕ} (h0 : d ≠ 0) (hd : d < 2 ^ (k + 1)) :
    ∑ j ∈ range (2 ^ (k + 1)), (w ^ d) ^ j = 0 := by
  obtain ⟨e, m, hm, rfl⟩ := Nat.exists_eq_two_pow_mul_odd h0
  have he : e ≤ k := by
    have hle : 2 ^ e ≤ 2 ^ e * m := Nat.le_mul_of_pos_right _ hm.pos
    have hlt : 2 ^ e < 2 ^ (k + 1) := lt_of_le_of_lt hle hd
    exact Nat.lt_succ_iff.mp ((Nat.pow_lt_pow_iff_right (by decide)).mp hlt)
  rw [sum_pow_two_pow]
  refine prod_eq_zero (i := k - e) (mem_range.mpr (by omega)) ?_
  have hexp : 2 ^ e * m * 2 ^ (k - e) = 2 ^ k * m := by
    rw [mul_right_comm, ← pow_add, Nat.add_sub_cancel' he]
  rw [← pow_mul, hexp, pow_mul, hw, hm.neg_one_pow]
  ring

/-- Sums over the powers of `w` and its inverse single out one place. -/
theorem sum_pow_mul_pow (hw : w ^ 2 ^ k = -1) (hv : v ^ 2 ^ k = -1) (hwv : w * v = 1)
    (hi : i < 2 ^ (k + 1)) (hj : j < 2 ^ (k + 1)) :
    ∑ l ∈ range (2 ^ (k + 1)), w ^ (i * l) * v ^ (l * j) = if i = j then (2 : R) ^ (k + 1) else 0 := by
  split
  case isTrue h =>
    subst h
    have hone : ∀ l ∈ range (2 ^ (k + 1)), w ^ (i * l) * v ^ (l * i) = (1 : R) := by
      intro l _
      rw [mul_comm i l, ← mul_pow, hwv, one_pow]
    rw [sum_congr rfl hone]
    simp
  case isFalse h =>
    rcases Nat.lt_or_gt_of_ne h with hlt | hgt
    · rw [← sum_pow_eq_zero hv (d := j - i) (by omega) (by omega)]
      refine sum_congr rfl (fun l _ => ?_)
      have hsplit : l * j = i * l + (j - i) * l := by
        rw [← Nat.add_mul, Nat.add_sub_cancel' hlt.le, mul_comm]
      rw [hsplit, pow_add, ← mul_assoc, ← mul_pow, hwv, one_pow, one_mul, pow_mul]
    · rw [← sum_pow_eq_zero hw (d := i - j) (by omega) (by omega)]
      refine sum_congr rfl (fun l _ => ?_)
      have hsplit : i * l = l * j + (i - j) * l := by
        rw [mul_comm l j, ← Nat.add_mul, Nat.add_sub_cancel' hgt.le]
      rw [hsplit, pow_add, mul_right_comm, ← mul_pow, hwv, one_pow, one_mul, pow_mul]

/-! ### Inversion and convolution -/

/-- The transform at the inverse undoes the transform, up to the length. -/
theorem dft_dft (hw : w ^ 2 ^ k = -1) (hv : v ^ 2 ^ k = -1) (hwv : w * v = 1) (a : ℕ → R)
    (hj : j < 2 ^ (k + 1)) :
    dft v (2 ^ (k + 1)) (dft w (2 ^ (k + 1)) a) j = 2 ^ (k + 1) * a j := by
  unfold dft
  have hswap : ∑ l ∈ range (2 ^ (k + 1)), (∑ i ∈ range (2 ^ (k + 1)), a i * w ^ (i * l)) *
        v ^ (l * j) =
      ∑ i ∈ range (2 ^ (k + 1)), a i *
        ∑ l ∈ range (2 ^ (k + 1)), w ^ (i * l) * v ^ (l * j) := by
    simp only [sum_mul, mul_sum, mul_assoc]
    exact sum_comm
  rw [hswap, sum_eq_single_of_mem j (mem_range.mpr hj), sum_pow_mul_pow hw hv hwv hj hj,
    if_pos rfl, mul_comm]
  intro i hi hne
  rw [sum_pow_mul_pow hw hv hwv (mem_range.mp hi) hj, if_neg hne, mul_zero]

/-- A sum over all places does not change when they are turned round. -/
theorem sum_turned (hw : w ^ n = 1) (b : ℕ → R) (j : ℕ) (hi : i < n) :
    ∑ k ∈ range n, b ((k + (n - i)) % n) * w ^ (k * j) =
      ∑ l ∈ range n, b l * w ^ ((l + i) * j) := by
  have hn : 0 < n := by omega
  have hback : ∀ l < n, ((l + i) % n + (n - i)) % n = l := by
    intro l hl
    rw [Nat.mod_add_mod, Nat.add_assoc, Nat.add_sub_cancel' hi.le, Nat.add_mod_right,
      Nat.mod_eq_of_lt hl]
  have hforth : ∀ k < n, ((k + (n - i)) % n + i) % n = k := by
    intro k hk
    rw [Nat.mod_add_mod, Nat.add_assoc, Nat.sub_add_cancel hi.le, Nat.add_mod_right,
      Nat.mod_eq_of_lt hk]
  refine sum_nbij' (fun k => (k + (n - i)) % n) (fun l => (l + i) % n) ?_ ?_ ?_ ?_ ?_
  · exact fun k _ => mem_range.mpr (Nat.mod_lt _ hn)
  · exact fun l _ => mem_range.mpr (Nat.mod_lt _ hn)
  · exact fun k hk => hforth k (mem_range.mp hk)
  · exact fun l hl => hback l (mem_range.mp hl)
  · intro k hk
    have hpow : w ^ k = w ^ ((k + (n - i)) % n + i) := by
      rw [pow_eq_pow_mod ((k + (n - i)) % n + i) hw, hforth k (mem_range.mp hk)]
    rw [pow_mul, pow_mul, hpow]

/-- A cyclic convolution is transformed into the product of the transforms. -/
theorem dft_cyclic (hw : w ^ n = 1) (a b : ℕ → R) (j : ℕ) :
    dft w n (cyclic n a b) j = dft w n a j * dft w n b j := by
  unfold dft cyclic
  calc
    ∑ k ∈ range n, (∑ i ∈ range n, a i * b ((k + (n - i)) % n)) * w ^ (k * j) =
        ∑ i ∈ range n, a i * ∑ k ∈ range n, b ((k + (n - i)) % n) * w ^ (k * j) := by
      simp only [sum_mul, mul_sum, mul_assoc]
      exact sum_comm
    _ = ∑ i ∈ range n, a i * w ^ (i * j) * ∑ l ∈ range n, b l * w ^ (l * j) := by
      refine sum_congr rfl (fun i hi => ?_)
      rw [sum_turned hw b j (mem_range.mp hi), mul_assoc, mul_sum (s := range n) (a := w ^ (i * j))]
      congr 1
      refine sum_congr rfl (fun l _ => ?_)
      rw [Nat.add_mul, pow_add]
      ring
    _ = (∑ i ∈ range n, a i * w ^ (i * j)) * ∑ l ∈ range n, b l * w ^ (l * j) := by
      rw [sum_mul]

/-- The product of two transforms, transformed back, is the cyclic convolution. -/
theorem dft_product (hw : w ^ 2 ^ k = -1) (hv : v ^ 2 ^ k = -1) (hwv : w * v = 1) (a b : ℕ → R)
    (hj : j < 2 ^ (k + 1)) :
    dft v (2 ^ (k + 1)) (fun i => dft w (2 ^ (k + 1)) a i * dft w (2 ^ (k + 1)) b i) j =
      2 ^ (k + 1) * cyclic (2 ^ (k + 1)) a b j := by
  have hone : w ^ 2 ^ (k + 1) = 1 := by
    rw [pow_succ, pow_mul, hw]
    simp
  have hprod : (fun i => dft w (2 ^ (k + 1)) a i * dft w (2 ^ (k + 1)) b i) =
      dft w (2 ^ (k + 1)) (cyclic (2 ^ (k + 1)) a b) :=
    funext (fun i => (dft_cyclic hone a b i).symm)
  rw [hprod, dft_dft hw hv hwv _ hj]

/-! ### Convolution that does not wrap around -/

def conv (a b : ℕ → R) (j : ℕ) : R := ∑ i ∈ range (j + 1), a i * b (j - i)

section Finite

variable {p : ℕ} (ha : ∀ i, m ≤ i → a i = 0) (hb : ∀ i, p ≤ i → b i = 0) (hn : m + p ≤ n)
include ha hb hn

theorem mul_eq_zero_of_le (i k : ℕ) (hik : n ≤ i + k) : a i * b k = 0 := by
  by_cases hi : m ≤ i
  · rw [ha i hi, zero_mul]
  · rw [hb k (by omega), mul_zero]

theorem cyclic_eq_conv (hj : j < n) : cyclic n a b j = conv a b j := by
  unfold cyclic conv
  symm
  refine (sum_congr rfl ?_).trans (sum_subset (range_mono hj) ?_)
  · intro i hi
    rw [mem_range] at hi
    rw [show j + (n - i) = j - i + n by omega, Nat.add_mod_right, Nat.mod_eq_of_lt (by omega)]
  · intro i hi hij
    rw [mem_range] at hi hij
    rw [Nat.mod_eq_of_lt (by omega)]
    exact mul_eq_zero_of_le ha hb hn i _ (by omega)

theorem sum_conv (x : R) :
    ∑ j ∈ range n, conv a b j * x ^ j =
      (∑ i ∈ range n, a i * x ^ i) * ∑ k ∈ range n, b k * x ^ k := by
  calc
    _ = ∑ j ∈ range n, ∑ i ∈ range (j + 1), a i * b (j - i) * x ^ (i + (j - i)) := by
      refine sum_congr rfl (fun j _ => ?_)
      rw [conv, sum_mul]
      refine sum_congr rfl (fun i hi => ?_)
      rw [mem_range] at hi
      rw [show i + (j - i) = j by omega]
    _ = ∑ i ∈ range n, ∑ k ∈ range (n - i), a i * b k * x ^ (i + k) :=
      sum_range_diag_flip n (fun i k => a i * b k * x ^ (i + k))
    _ = ∑ i ∈ range n, ∑ k ∈ range n, a i * b k * x ^ (i + k) := by
      refine sum_congr rfl (fun i _ => sum_subset (range_mono (Nat.sub_le n i)) ?_)
      intro k _ hk
      rw [mem_range] at hk
      rw [mul_eq_zero_of_le ha hb hn i k (by omega), zero_mul]
    _ = _ := by
      rw [sum_mul_sum]
      refine sum_congr rfl (fun i _ => sum_congr rfl (fun k _ => ?_))
      rw [pow_add]
      ring

end Finite

end MaiFaSp.Transform
