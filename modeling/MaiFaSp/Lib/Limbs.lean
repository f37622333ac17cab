import Mathlib.Data.List.GetD
import Mathlib.Data.Nat.Digits.Lemmas
import Mathlib.Tactic.Ring

/-!
# Little-endian digit lists

General facts about `Nat.ofDigits b`, the value of a digit list in base `b`
(least significant digit first): how the value splits at an index, how many
digits a value needs, and how two lists of one length compare digit by digit
from the top. Nothing here depends on a digit width or on a program.
-/

namespace MaiFaSp.Limbs

variable {b : ℕ}

/-- Reading one digit off a suffix; past the end every digit reads as zero. -/
theorem ofDigits_drop (ds : List ℕ) (i : ℕ) :
    Nat.ofDigits b (ds.drop i) = ds.getD i 0 + b * Nat.ofDigits b (ds.drop (i + 1)) := by
  by_cases hi : i < ds.length
  · rw [List.drop_eq_getElem_cons hi, Nat.ofDigits_cons, List.getD_eq_getElem _ _ hi]
  · have h1 : ds.drop i = [] := List.drop_eq_nil_of_le (by omega)
    have h2 : ds.drop (i + 1) = [] := List.drop_eq_nil_of_le (by omega)
    rw [h1, h2, List.getD_eq_default _ _ (by omega)]
    simp

theorem ofDigits_take_add (ds : List ℕ) (k : ℕ) :
    Nat.ofDigits b (ds.take k) + b ^ k * Nat.ofDigits b (ds.drop k) = Nat.ofDigits b ds := by
  by_cases hk : k ≤ ds.length
  · conv_rhs => rw [← List.take_append_drop k ds]
    rw [Nat.ofDigits_append, List.length_take, Nat.min_eq_left hk]
  · rw [List.take_of_length_le (by omega), List.drop_eq_nil_of_le (by omega)]
    simp

theorem ofDigits_take_succ (ds : List ℕ) (k : ℕ) (hk : k < ds.length) :
    Nat.ofDigits b (ds.take (k + 1)) = Nat.ofDigits b (ds.take k) + b ^ k * ds.getD k 0 := by
  rw [List.take_succ_eq_append_getElem hk, Nat.ofDigits_append, List.length_take,
    Nat.min_eq_left (by omega), Nat.ofDigits_singleton, List.getD_eq_getElem _ _ hk]

theorem ofDigits_take_lt (hb : 1 < b) (ds : List ℕ) (hd : ∀ d ∈ ds, d < b) (k : ℕ) :
    Nat.ofDigits b (ds.take k) < b ^ k := by
  have h := Nat.ofDigits_lt_base_pow_length hb (l := ds.take k)
    (fun d hm => hd d (List.mem_of_mem_take hm))
  refine h.trans_le (Nat.pow_le_pow_right (by omega) ?_)
  simp only [List.length_take]
  omega

/-- A nonzero top digit forces the value up to the top power. -/
theorem pow_le_ofDigits (ds : List ℕ) (k : ℕ) (hk : ds.length = k + 1) (ht : ds.getD k 0 ≠ 0) :
    b ^ k ≤ Nat.ofDigits b ds := by
  have h := ofDigits_take_succ (b := b) ds k (by omega)
  rw [List.take_of_length_le (by omega)] at h
  rw [h]
  have hm : b ^ k * 1 ≤ b ^ k * ds.getD k 0 := Nat.mul_le_mul_left _ (by omega)
  omega

/-- Two numbers split at the same power compare by their high parts first. -/
theorem compare_split {p x y u v : ℕ} (hx : x < p) (hy : y < p) :
    compare (x + p * u) (y + p * v) = if u = v then compare x y else compare u v := by
  split
  case isTrue h =>
    subst h
    rcases Nat.lt_trichotomy x y with hlt | heq | hgt
    · rw [compare_lt_iff_lt.mpr hlt, compare_lt_iff_lt]
      omega
    · subst heq
      simp
    · rw [compare_gt_iff_gt.mpr hgt, compare_gt_iff_gt]
      omega
  case isFalse h =>
    rcases Nat.lt_or_gt_of_ne h with hlt | hgt
    · rw [compare_lt_iff_lt.mpr hlt, compare_lt_iff_lt]
      have hm : p * (u + 1) ≤ p * v := Nat.mul_le_mul_left p hlt
      rw [Nat.mul_add] at hm
      omega
    · rw [compare_gt_iff_gt.mpr hgt, compare_gt_iff_gt]
      have hm : p * (v + 1) ≤ p * u := Nat.mul_le_mul_left p hgt
      rw [Nat.mul_add] at hm
      omega

end MaiFaSp.Limbs
