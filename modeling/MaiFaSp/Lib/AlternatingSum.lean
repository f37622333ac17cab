import Mathlib.Analysis.SpecialFunctions.Trigonometric.Series

/-!
# Series with alternating terms

The terms change sign, and each is the one before times a ratio that never grows. So
their sizes may rise first, but fall from the first ratio below one on; what is left
out from there is at most the first term left out.
-/

namespace MaiFaSp.AlternatingSum

open Finset

variable {t r : ℕ → ℝ} {S ε : ℝ} {K : ℕ}

/-- The ratio of the terms is negative, and falls in size. -/
structure Alternates (t r : ℕ → ℝ) : Prop where
  next : ∀ i, t (i + 1) = -(r i * t i)
  nonneg : ∀ i, 0 ≤ r i
  falls : ∀ i, r (i + 1) ≤ r i

theorem Alternates.abs_next (ht : Alternates t r) (i : ℕ) : |t (i + 1)| = r i * |t i| := by
  rw [ht.next, abs_neg, abs_mul, abs_of_nonneg (ht.nonneg i)]

theorem Alternates.antitone (ht : Alternates t r) : Antitone r :=
  antitone_nat_of_succ_le ht.falls

/-- From `K` on the terms are those sizes with alternating signs. -/
theorem Alternates.signs (ht : Alternates t r) (K i : ℕ) :
    t (K + i) = SignType.sign (t K) * ((-1) ^ i * |t (K + i)|) := by
  induction i with
  | zero => simp
  | succ i ih =>
    rw [← Nat.add_assoc, ht.abs_next, ht.next]
    calc -(r (K + i) * t (K + i))
        = -(r (K + i) * (SignType.sign (t K) * ((-1) ^ i * |t (K + i)|))) := by rw [← ih]
      _ = _ := by ring

/-- The rest is at most its first term, once the ratios are at most one. -/
theorem Alternates.rest_le (ht : Alternates t r) (hsum : HasSum t S) (hr : r K ≤ 1) :
    |S - ∑ i ∈ range K, t i| ≤ |t K| := by
  have hfalls : Antitone fun i => |t (K + i)| := by
    apply antitone_nat_of_succ_le
    intro i
    have hone : r (K + i) ≤ 1 := (ht.antitone (Nat.le_add_right K i)).trans hr
    rw [← Nat.add_assoc, ht.abs_next]
    exact mul_le_of_le_one_left (abs_nonneg _) hone
  have hshift : Summable fun i => |t (K + i)| := by
    have htail := (summable_nat_add_iff K).mpr hsum.summable
    simpa only [Nat.add_comm] using htail.abs
  have hrest : S - ∑ i ∈ range K, t i = tsum fun i => t (K + i) := by
    have hsplit := hsum.summable.sum_add_tsum_nat_add K
    rw [hsum.tsum_eq] at hsplit
    rw [← hsplit, add_sub_cancel_left]
    simp only [Nat.add_comm]
  have hsigns : (tsum fun i => t (K + i)) =
      SignType.sign (t K) * tsum fun i => (-1) ^ i * |t (K + i)| := by
    rw [← tsum_mul_left]
    exact tsum_congr (ht.signs K)
  have hbound := alternating_series_error_bound _ hfalls hshift 0
  simp only [range_zero, sum_empty, sub_zero, Nat.add_zero] at hbound
  rw [hrest, hsigns, abs_mul]
  refine (mul_le_of_le_one_left (abs_nonneg _) ?_).trans hbound
  rcases lt_trichotomy (t K) 0 with h | h | h <;> simp [h]

/-- Stopping at the first small term is right, although the terms may rise before. -/
theorem Alternates.stop (ht : Alternates t r) (hsum : HasSum t S) (hbig : ε < |t K|)
    (hsmall : |t (K + 1)| ≤ ε) : |S - ∑ i ∈ range (K + 1), t i| ≤ ε := by
  have hpos : 0 < |t K| := (abs_nonneg _).trans_lt (hsmall.trans_lt hbig)
  have hratio : r K < 1 := by
    by_contra hge
    have hrise : |t K| ≤ r K * |t K| := le_mul_of_one_le_left hpos.le (not_lt.mp hge)
    rw [← ht.abs_next] at hrise
    linarith
  have hone : r (K + 1) ≤ 1 := (ht.falls K).trans hratio.le
  exact (ht.rest_le hsum hone).trans hsmall

end MaiFaSp.AlternatingSum
