import MaiFaSp.Allocator.BuddiesInvariant
import MaiFaSp.Lib.FirstLeast

/-!
# `allocator_buddies_system`: which block a request gets (`allocator_buddies_system.cpp:241-282`)

`get_block_worst_fit` does not compare sizes. It ends with the last of the free blocks that are
large enough.
-/

namespace MaiFaSp.Buddies

open Memory Tiling BuddyTree

variable {m : Memory} {size stop n it : ℕ} {bs : List ℕ} {s : Buddies}

/-! ### The blocks that the loops visit -/

theorem blocksFrom_ascending (h : blocksFrom m stop n it = .ok bs) :
    (∀ x ∈ bs, it ≤ x) ∧ bs.Pairwise (· < ·) := by
  induction n generalizing it bs with
  | zero =>
    rw [blocksFrom] at h
    split at h
    · cases h
      exact ⟨fun x hx => absurd hx List.not_mem_nil, List.Pairwise.nil⟩
    · cases h
  | succ n ih =>
    rw [blocksFrom] at h
    split at h
    · cases h
      exact ⟨fun x hx => absurd hx List.not_mem_nil, List.Pairwise.nil⟩
    · cases hrest : blocksFrom m stop n (it + blockSize m it) with
      | error e =>
        rw [hrest] at h
        cases h
      | ok rest =>
        rw [hrest] at h
        cases h
        obtain ⟨hle, hpair⟩ := ih hrest
        have hpos : 0 < blockSize m it := Nat.two_pow_pos _
        refine ⟨fun x hx => ?_, List.Pairwise.cons (fun x hx => ?_) hpair⟩
        · rcases List.mem_cons.mp hx with rfl | hx
          · exact le_rfl
          · exact (Nat.le_add_right it _).trans (hle x hx)
        · have hx' := hle x hx
          omega

theorem blocks_ascending (h : s.blocks = .ok bs) : bs.Pairwise (· < ·) := (blocksFrom_ascending h).2

theorem blocks_ne_zero (h : s.blocks = .ok bs) : ∀ x ∈ bs, x ≠ 0 := by
  intro x hx
  have hle := (blocksFrom_ascending h).1 x hx
  unfold allocatorMetadataSize at hle
  omega

/-! ### The loops -/

/-- `result` is one of the blocks that are free and large enough, as good as any other of them, or
null if there is none. -/
def Chooses (m : Memory) (size : ℕ) (bs : List ℕ) (better : ℕ → ℕ → Prop) (result : ℕ) : Prop :=
  (result = 0 ↔ ∀ x ∈ bs, ¬ suits m size x) ∧
    (result ≠ 0 → result ∈ bs ∧ suits m size result ∧ ∀ x ∈ bs, suits m size x → better result x)

/-- The three searches in the pool of the blocks `bs`. -/
structure FitPolicy (m : Memory) (size : ℕ) (bs : List ℕ) : Prop where
  first : Chooses m size bs (fun x y => x ≤ y) (getBlockFirstFit m size bs)
  best : Chooses m size bs (fun x y => blockSize m x ≤ blockSize m y) (getBlockBestFit m size bs)
  worst : Chooses m size bs (fun x y => blockSize m y ≤ blockSize m x) (getBlockWorstFit m size bs)

theorem chooses_none {better : ℕ → ℕ → Prop} (h : bs.filter (suits m size) = []) :
    Chooses m size bs better 0 :=
  ⟨iff_of_true rfl (List.filter_eq_nil_iff.mp h), fun hne => absurd rfl hne⟩

theorem chooses_some {better : ℕ → ℕ → Prop} {x : ℕ} (hne : ∀ y ∈ bs, y ≠ 0)
    (hx : x ∈ bs.filter (suits m size)) (hbest : ∀ y ∈ bs.filter (suits m size), better x y) :
    Chooses m size bs better x := by
  obtain ⟨hmem, hfit⟩ := List.mem_filter.mp hx
  refine ⟨iff_of_false (hne x hmem) fun hall => hall x hmem hfit, fun _ => ⟨hmem, hfit, ?_⟩⟩
  exact fun y hy hys => hbest y (List.mem_filter.mpr ⟨hy, hys⟩)

theorem firstFit_chooses (hne : ∀ x ∈ bs, x ≠ 0) (hasc : bs.Pairwise (· < ·)) :
    Chooses m size bs (fun x y => x ≤ y) (getBlockFirstFit m size bs) := by
  have hfilter := hasc.filter (suits m size)
  rw [getBlockFirstFit, ← List.head?_filter]
  cases hs : bs.filter (suits m size) with
  | nil => exact chooses_none hs
  | cons x xs =>
    have hx : x ∈ bs.filter (suits m size) := by
      rw [hs]
      exact List.mem_cons_self
    refine chooses_some hne hx fun y hy => ?_
    rw [hs] at hy hfilter
    rcases List.mem_cons.mp hy with rfl | hy
    · exact le_rfl
    · exact ((List.pairwise_cons.mp hfilter).1 y hy).le

theorem bestFit_chooses (hne : ∀ x ∈ bs, x ≠ 0) :
    Chooses m size bs (fun x y => blockSize m x ≤ blockSize m y) (getBlockBestFit m size bs) := by
  have hkept : bs.filter (suits m size) = [] ∧ getBlockBestFit m size bs = 0 ∨
      FirstLeast (blockSize m) (bs.filter (suits m size)) (getBlockBestFit m size bs) :=
    foldl_firstLeast (fun _ _ _ _ => rfl) hne
  rcases hkept with ⟨hnil, heq⟩ | hleast
  · rw [heq]
    exact chooses_none hnil
  · exact chooses_some hne hleast.mem fun y hy => hleast.rank_le hy

/-- The loop of the worst fit takes every block that suits, so it ends with the last one. -/
theorem getBlockWorstFit_eq (m : Memory) (size : ℕ) (bs : List ℕ) :
    getBlockWorstFit m size bs = (bs.filter (suits m size)).getLast?.getD 0 := by
  unfold getBlockWorstFit
  induction bs using List.reverseRecOn with
  | nil => rfl
  | append_singleton bs x ih =>
    rw [List.foldl_append, List.foldl_cons, List.foldl_nil, List.filter_append]
    by_cases hfit : suits m size x = true
    · rw [if_pos hfit, List.filter_cons_of_pos hfit, List.filter_nil, List.getLast?_concat]
      rfl
    · rw [if_neg hfit, List.filter_cons_of_neg hfit, List.filter_nil, List.append_nil]
      exact ih

/-- Among the blocks that are free and large enough none is larger than the one with the highest
address. -/
def HighestIsLargest (m : Memory) (size : ℕ) (bs : List ℕ) : Prop :=
  ∀ x ∈ bs, suits m size x → (∀ y ∈ bs, suits m size y → y ≤ x) →
    ∀ y ∈ bs, suits m size y → blockSize m y ≤ blockSize m x

theorem highestIsLargest_iff {xs : List ℕ} {x : ℕ} (hasc : bs.Pairwise (· < ·))
    (hs : bs.filter (suits m size) = xs ++ [x]) :
    HighestIsLargest m size bs ↔ ∀ y ∈ bs, suits m size y → blockSize m y ≤ blockSize m x := by
  obtain ⟨hmem, hfit⟩ := List.mem_filter.mp
    (hs ▸ List.mem_append_right xs (List.mem_singleton_self x) : x ∈ bs.filter (suits m size))
  have hlast (y : ℕ) (hy : y ∈ bs) (hys : suits m size y) : y ≤ x := by
    have hpair := hasc.filter (suits m size)
    have hm : y ∈ bs.filter (suits m size) := List.mem_filter.mpr ⟨hy, hys⟩
    rw [hs] at hm hpair
    rcases List.mem_append.mp hm with hm | hm
    · exact ((List.pairwise_append.mp hpair).2.2 y hm x (List.mem_singleton_self x)).le
    · exact (List.mem_singleton.mp hm).le
  constructor
  · exact fun h => h x hmem hfit hlast
  · intro h z hz hzs hhigh y hy hys
    rw [(hlast z hz hzs).antisymm (hhigh x hmem hfit)]
    exact h y hy hys

theorem worstFit_chooses_iff (hne : ∀ x ∈ bs, x ≠ 0) (hasc : bs.Pairwise (· < ·)) :
    Chooses m size bs (fun x y => blockSize m y ≤ blockSize m x) (getBlockWorstFit m size bs) ↔
      HighestIsLargest m size bs := by
  rw [getBlockWorstFit_eq]
  rcases List.eq_nil_or_concat' (bs.filter (suits m size)) with hs | ⟨xs, x, hs⟩
  · rw [hs]
    refine iff_of_true (chooses_none hs) fun x hx hxs => ?_
    exact absurd hxs (List.filter_eq_nil_iff.mp hs x hx)
  · have hx : x ∈ bs.filter (suits m size) := by
      rw [hs]
      exact List.mem_append_right xs (List.mem_singleton_self x)
    rw [highestIsLargest_iff hasc hs, hs, List.getLast?_concat, Option.getD_some]
    constructor
    · exact fun h => (h.2 (hne x (List.mem_of_mem_filter hx))).2.2
    · exact fun h => chooses_some hne hx fun y hy =>
        h y (List.mem_of_mem_filter hy) (List.mem_filter.mp hy).2

/-! ### Reachable states -/

theorem reachable_blocks {trusted : ℕ} {mode : FitMode} {m : Memory} {fresh : Buddies}
    (hk : nearestGreaterKOf2 n ≤ 30) (ht : 0 < trusted)
    (hregion : trusted + 64 + 2 ^ nearestGreaterKOf2 n ≤ 2 ^ 64)
    (hc : construct trusted n mode m = .ok fresh) {c : Client Buddies}
    (hr : ops.Reachable NoWrap fresh c) : ∃ bs, c.state.blocks = .ok bs := by
  have hmin : ¬ nearestGreaterKOf2 n < minK := by
    intro hlt
    rw [construct, if_pos hlt] at hc
    cases hc
  rw [minK_eq] at hmin
  obtain ⟨k, hnear⟩ : ∃ k, nearestGreaterKOf2 n = k + 4 := ⟨nearestGreaterKOf2 n - 4, by omega⟩
  rw [hnear] at hk hregion
  obtain ⟨s, hok, hkept⟩ := construct_kept hnear mode m (by omega : k ≤ 26) ht hregion
  rw [hok] at hc
  cases hc
  obtain ⟨-, t, hpool, -⟩ := keeps.reachable hkept hr
  exact ⟨_, hpool.blocks⟩

end MaiFaSp.Buddies
