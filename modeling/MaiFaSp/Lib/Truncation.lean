import Mathlib.Analysis.Normed.Group.Tannery
import Mathlib.Analysis.SpecificLimits.Normed

/-!
# Sums up to the first small term

A loop runs as long as a measure of the next term is above a bound. When the terms are summed and the
measure falls, what is left out is the sum of all terms of small measure.
-/

namespace MaiFaSp.Truncation

open Filter Finset
open scoped Topology

/-! ### The loop -/

section Loop

variable {α ρ φ : Type*} [LinearOrder α] {a : ℕ → α} {ε : α} {f g : ℕ → Except φ ρ} {result : ℕ → ρ} {fault : φ}
  {r r' : ρ} {K i turns : ℕ}

/-- `K` is the first number of a small measure. -/
structure FirstSmall (a : ℕ → α) (ε : α) (K : ℕ) : Prop where
  small : a K ≤ ε
  big : ∀ j < K, ε < a j

/-- From `i` on to the first small measure, in so many turns. -/
def untilSmall (a : ℕ → α) (ε : α) (result : ℕ → ρ) (fault : φ) : ℕ → ℕ → Except φ ρ
  | 0, _ => .error fault
  | turns + 1, i => if ε < a i then untilSmall a ε result fault turns (i + 1) else .ok (result i)

/-- A bounded loop has the result `r` from some number of turns on, and none with fewer. -/
def Returns (fault : φ) (f : ℕ → Except φ ρ) (r : ρ) : Prop :=
  ∃ enough, (∀ turns ≥ enough, f turns = .ok r) ∧ ∀ turns < enough, f turns = .error fault

theorem exists_firstSmall (h : ∃ K, a K ≤ ε) : ∃ K, FirstSmall a ε K := by
  classical
  exact ⟨Nat.find h, Nat.find_spec h, fun j hj => not_le.mp (Nat.find_min h hj)⟩

theorem FirstSmall.unique {K' : ℕ} (hK : FirstSmall a ε K) (hK' : FirstSmall a ε K') : K = K' := by
  rcases lt_trichotomy K K' with h | h | h
  · exact absurd hK.small (not_le.mpr (hK'.big K h))
  · exact h
  · exact absurd hK'.small (not_le.mpr (hK.big K' h))

theorem FirstSmall.cast {a : ℕ → ℚ} {ε : ℚ} (hK : FirstSmall a ε K) :
    FirstSmall (fun j => (a j : ℝ)) (ε : ℝ) K where
  small := by exact_mod_cast hK.small
  big j hj := by exact_mod_cast hK.big j hj

theorem untilSmall_eq (hK : FirstSmall a ε K) (hi : i ≤ K) :
    untilSmall a ε result fault turns i = if K < i + turns then .ok (result K) else .error fault := by
  induction turns generalizing i with
  | zero => exact (if_neg (not_lt.mpr hi)).symm
  | succ turns ih =>
    rw [untilSmall]
    by_cases heq : i = K
    · subst heq
      rw [if_neg (not_lt.mpr hK.small), if_pos (by omega)]
    · have hlt : i < K := by omega
      have hcount : i + 1 + turns = i + (turns + 1) := by omega
      rw [if_pos (hK.big i hlt), ih hlt, hcount]

theorem untilSmall_returns (hK : FirstSmall a ε K) :
    Returns fault (fun turns => untilSmall a ε result fault turns 0) (result K) := by
  refine ⟨K + 1, ?_, ?_⟩
  · intro turns hturns
    exact (untilSmall_eq hK (Nat.zero_le K)).trans (if_pos (by omega))
  · intro turns hturns
    exact (untilSmall_eq hK (Nat.zero_le K)).trans (if_neg (by omega))

theorem untilSmall_diverges (h : ∀ j, ε < a j) : untilSmall a ε result fault turns i = .error fault := by
  induction turns generalizing i with
  | zero => rfl
  | succ turns ih => rw [untilSmall, if_pos (h i), ih]

/-- What is done with the result takes no turn. -/
theorem Returns.bind {next : ρ → Except φ ρ} (hg : Returns fault g r) (hnext : next r = .ok r') :
    Returns fault (fun turns => g turns >>= next) r' := by
  obtain ⟨enough, hok, herror⟩ := hg
  refine ⟨enough, ?_, ?_⟩
  · intro turns hturns
    show g turns >>= next = _
    rw [hok turns hturns]
    exact hnext
  · intro turns hturns
    show g turns >>= next = _
    rw [herror turns hturns]
    rfl

/-- A second bounded loop that goes on with the result, with the same number of turns. -/
theorem Returns.andThen {next : ρ → ℕ → Except φ ρ} (hg : Returns fault g r)
    (hnext : Returns fault (next r) r') : Returns fault (fun turns => g turns >>= fun a => next a turns) r' := by
  obtain ⟨enough, hok, herror⟩ := hg
  obtain ⟨enough', hok', herror'⟩ := hnext
  refine ⟨max enough enough', ?_, ?_⟩
  · intro turns hturns
    show g turns >>= (fun a => next a turns) = _
    rw [hok turns (by omega)]
    exact hok' turns (by omega)
  · intro turns hturns
    show g turns >>= (fun a => next a turns) = _
    by_cases hfirst : turns < enough
    · rw [herror turns hfirst]
      rfl
    · rw [hok turns (by omega)]
      exact herror' turns (by omega)

/-- A call that takes one turn, and then works on the result. -/
theorem Returns.call {next : ρ → Except φ ρ} (hg : Returns fault g r) (hzero : f 0 = .error fault)
    (hturn : ∀ turns, f (turns + 1) = g turns >>= next) (hnext : next r = .ok r') : Returns fault f r' := by
  obtain ⟨enough, hok, herror⟩ := hg.bind hnext
  refine ⟨enough + 1, ?_, ?_⟩
  · intro turns hturns
    obtain ⟨turns, rfl⟩ : ∃ k, turns = k + 1 := ⟨turns - 1, by omega⟩
    exact (hturn turns).trans (hok turns (by omega))
  · intro turns hturns
    cases turns with
    | zero => exact hzero
    | succ turns => exact (hturn turns).trans (herror turns (by omega))

theorem diverges_call {next : ρ → Except φ ρ} (hg : ∀ turns, g turns = .error fault) (hzero : f 0 = .error fault)
    (hturn : ∀ turns, f (turns + 1) = g turns >>= next) (turns : ℕ) : f turns = .error fault := by
  cases turns with
  | zero => exact hzero
  | succ turns =>
    rw [hturn, hg turns]
    rfl

theorem Returns.unique (h : Returns fault f r) (h' : Returns fault f r') : r = r' := by
  obtain ⟨enough, hok, -⟩ := h
  obtain ⟨enough', hok', -⟩ := h'
  have heq := (hok (max enough enough') (le_max_left ..)).symm.trans (hok' _ (le_max_right ..))
  exact Except.ok.inj heq

theorem not_returns (h : ∀ turns, f turns = .error fault) : ¬ Returns fault f r := by
  rintro ⟨enough, hok, -⟩
  have heq := (hok enough le_rfl).symm.trans (h enough)
  cases heq

end Loop

/-! ### What is left out -/

variable {a t : ℕ → ℝ} {S ε σ : ℝ} {K : ℕ}

/-- The sum of the terms of small measure. -/
noncomputable def leftOut (a t : ℕ → ℝ) (ε : ℝ) : ℝ := tsum fun n => if a n ≤ ε then t n else 0

theorem exists_small (ha : Filter.Tendsto a Filter.atTop (nhds 0)) (hε : 0 < ε) : ∃ K, FirstSmall a ε K := by
  obtain ⟨K, hK⟩ := (ha.eventually_lt_const hε).exists
  exact exists_firstSmall ⟨K, hK.le⟩

theorem FirstSmall.le_iff (hK : FirstSmall a ε K) (ha : Antitone a) (n : ℕ) : a n ≤ ε ↔ K ≤ n := by
  constructor
  · intro hn
    by_contra hlt
    exact absurd hn (not_le.mpr (hK.big n (not_le.mp hlt)))
  · intro hn
    exact (ha hn).trans hK.small

/-- What the sum up to the first small term leaves out. -/
theorem FirstSmall.sum_add_leftOut (hK : FirstSmall a ε K) (ha : Antitone a) (hsum : HasSum t S) :
    ∑ n ∈ range K, t n + leftOut a t ε = S := by
  have hlate (n : ℕ) : (if a (n + K) ≤ ε then t (n + K) else 0) = t (n + K) :=
    if_pos ((hK.le_iff ha _).mpr (Nat.le_add_left K n))
  have hearly : ∑ n ∈ range K, (if a n ≤ ε then t n else 0) = 0 :=
    sum_eq_zero fun n hn => if_neg (not_le.mpr (hK.big n (mem_range.mp hn)))
  have hsummable : Summable fun n => if a n ≤ ε then t n else 0 := by
    have htail := (summable_nat_add_iff K).mpr hsum.summable
    exact (summable_nat_add_iff K).mp (htail.congr fun n => (hlate n).symm)
  have hrest := hsummable.sum_add_tsum_nat_add K
  have hall := hsum.summable.sum_add_tsum_nat_add K
  rw [hearly, zero_add] at hrest
  simp only [hlate] at hrest
  rw [hsum.tsum_eq, hrest] at hall
  exact hall

theorem FirstSmall.error (hK : FirstSmall a ε K) (ha : Antitone a) (hsum : HasSum t S) :
    S - ∑ n ∈ range K, t n = leftOut a t ε :=
  sub_eq_of_eq_add' (hK.sum_add_leftOut ha hsum).symm

/-- Terms of one sign leave out the sum of their sizes. -/
theorem abs_leftOut (hσ : |σ| = 1) (ht : ∀ n, t n = σ * |t n|) :
    |leftOut a t ε| = leftOut a (fun n => |t n|) ε := by
  have hterm (n : ℕ) : (if a n ≤ ε then t n else 0) = σ * if a n ≤ ε then |t n| else 0 := by
    split
    · exact ht n
    · exact (mul_zero σ).symm
  have hnonneg : 0 ≤ leftOut a (fun n => |t n|) ε := by
    refine tsum_nonneg fun n => ?_
    split
    · exact abs_nonneg _
    · exact le_rfl
  have hfactor : leftOut a t ε = σ * leftOut a (fun n => |t n|) ε := by
    unfold leftOut
    rw [← tsum_mul_left]
    exact tsum_congr hterm
  rw [hfactor, abs_mul, hσ, one_mul, abs_of_nonneg hnonneg]

/-- With the bound on the measure the sum of what is left out vanishes. -/
theorem leftOut_tendsto (hzero : ∀ n, a n ≤ 0 → t n = 0) (ht : Summable fun n => |t n|) :
    Tendsto (leftOut a t) (𝓝[>] 0) (𝓝 0) := by
  have hterm (n : ℕ) : Tendsto (fun ε => if a n ≤ ε then t n else 0) (𝓝[>] 0) (𝓝 0) := by
    by_cases hn : a n ≤ 0
    · simp only [hzero n hn, ite_self]
      exact tendsto_const_nhds
    · refine tendsto_const_nhds.congr' ?_
      have hlate : ∀ᶠ ε in 𝓝[>] (0 : ℝ), ε < a n := nhdsWithin_le_nhds (Iio_mem_nhds (not_le.mp hn))
      exact hlate.mono fun ε hε => (if_neg (not_le.mpr hε)).symm
  have hbound : ∀ᶠ ε in 𝓝[>] (0 : ℝ), ∀ n, ‖if a n ≤ ε then t n else 0‖ ≤ |t n| := by
    refine .of_forall fun ε n => ?_
    split
    · exact le_rfl
    · exact norm_zero.trans_le (abs_nonneg _)
  have hlim := tendsto_tsum_of_dominated_convergence ht hterm hbound
  rwa [tsum_zero] at hlim

/-- Alternating terms that fall leave out at most the first of them. -/
theorem alternating_error {f : ℕ → ℝ} (hf : Antitone f) (hsummable : Summable f)
    (hsum : HasSum (fun n => (-1) ^ n * f n) S) (K : ℕ) :
    |S - ∑ n ∈ range K, (-1) ^ n * f n| ≤ f K := by
  rw [← hsum.tsum_eq]
  exact alternating_series_error_bound f hf hsummable K

end MaiFaSp.Truncation
