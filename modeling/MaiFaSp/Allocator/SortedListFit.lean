import MaiFaSp.Allocator.FitMode
import MaiFaSp.Allocator.SortedListRequests

/-!
# `allocator_sorted_list`: which block a request gets (`allocator_sorted_list.cpp:3-27, 129-205`)

The loop of `do_allocate_sm` is followed along the list of free blocks, in any state. The recorded
size of a block leaves out its header, but the fit test asks for room for another one.
-/

namespace MaiFaSp.SortedList

open Memory Tiling Block

variable {m : Memory} {mode : FitMode} {size n it prev : ℕ} {c : Choice} {s s' : SortedList}
  {blocks : List ℕ} {p : ℕ}

/-! ### The loop along the free list -/

/-- The free block passes the fit test. -/
abbrev Fits (m : Memory) (size x : ℕ) : Prop := sizeAdd size blockMetadataSize ≤ getSize m x

/-- The loop of `do_allocate_sm` over the blocks that it visits. -/
def fitList (m : Memory) (mode : FitMode) (size : ℕ) : List ℕ → ℕ → Choice → Choice
  | [], _, c => c
  | it :: blocks, prev, c =>
    if Fits m size it ∧ c.replacedBy mode (getSize m it) then
      if mode = .firstFit then ⟨prev, it, getSize m it⟩
      else fitList m mode size blocks it ⟨prev, it, getSize m it⟩
    else fitList m mode size blocks it c

theorem freeBlocksFrom_cons (hit : it ≠ 0) (h : freeBlocksFrom m (n + 1) it = .ok blocks) :
    ∃ rest, blocks = it :: rest ∧ freeBlocksFrom m n (getNextPtr m it) = .ok rest := by
  rw [freeBlocksFrom, if_neg hit] at h
  cases hrest : freeBlocksFrom m n (getNextPtr m it) with
  | error e =>
    rw [hrest] at h
    cases h
  | ok rest =>
    rw [hrest] at h
    cases h
    exact ⟨rest, rfl, rfl⟩

theorem fitLoop_eq_fitList (h : freeBlocksFrom m n it = .ok blocks) (prev : ℕ) (c : Choice) :
    fitLoop m mode size n it prev c = .ok (fitList m mode size blocks prev c) := by
  induction n generalizing it blocks prev c with
  | zero =>
    rw [freeBlocksFrom] at h
    split at h
    case isTrue hit =>
      cases h
      exact if_pos hit
    case isFalse => cases h
  | succ n ih =>
    by_cases hit : it = 0
    · rw [freeBlocksFrom, if_pos hit] at h
      cases h
      rw [fitLoop, if_pos hit]
      rfl
    · obtain ⟨rest, rfl, hrest⟩ := freeBlocksFrom_cons hit h
      rw [fitLoop, if_neg hit, fitList]
      dsimp only [ge_iff_le]
      by_cases hfit : Fits m size it ∧ c.replacedBy mode (getSize m it)
      · rw [if_pos hfit, if_pos hfit]
        by_cases hmode : mode = .firstFit
        · rw [if_pos hmode, if_pos hmode]
          rfl
        · rw [if_neg hmode, if_neg hmode]
          exact ih hrest ..
      · rw [if_neg hfit, if_neg hfit]
        exact ih hrest ..

theorem freeBlocksFrom_ne_zero (h : freeBlocksFrom m n it = .ok blocks) : ∀ x ∈ blocks, x ≠ 0 := by
  induction n generalizing it blocks with
  | zero =>
    rw [freeBlocksFrom] at h
    split at h
    · cases h
      exact fun x hx => absurd hx List.not_mem_nil
    · cases h
  | succ n ih =>
    by_cases hit : it = 0
    · rw [freeBlocksFrom, if_pos hit] at h
      cases h
      exact fun x hx => absurd hx List.not_mem_nil
    · obtain ⟨rest, rfl, hrest⟩ := freeBlocksFrom_cons hit h
      intro x hx
      rcases List.mem_cons.mp hx with rfl | hx
      · exact hit
      · exact ih hrest x hx

/-- A later block replaces the choice if its size is better. -/
theorem replacedBy_iff (hc : c.result ≠ 0) (hsize : c.bestSize = getSize m c.result)
    (hmode : mode ≠ .firstFit) {x : ℕ} : c.replacedBy mode (getSize m x) = true ↔
      mode.rank (getSize m) x < mode.rank (getSize m) c.result := by
  cases mode with
  | firstFit => exact absurd rfl hmode
  | theBestFit =>
    unfold Choice.replacedBy FitMode.rank
    rw [hsize]
    generalize getSize m x = new, getSize m c.result = old
    simp [hc]
  | theWorstFit =>
    unfold Choice.replacedBy FitMode.rank
    rw [hsize]
    generalize getSize m x = new, getSize m c.result = old
    simp [hc]

/-- The blocks that pass the fit test. -/
def fitting (m : Memory) (size : ℕ) (blocks : List ℕ) : List ℕ := blocks.filter fun x => Fits m size x

theorem mem_fitting {x : ℕ} : x ∈ fitting m size blocks ↔ x ∈ blocks ∧ Fits m size x := by
  unfold fitting
  rw [List.mem_filter, decide_eq_true_iff]

theorem fitting_cons_of_pos (h : Fits m size it) :
    fitting m size (it :: blocks) = it :: fitting m size blocks :=
  List.filter_cons_of_pos (decide_eq_true h)

theorem fitting_cons_of_neg (h : ¬ Fits m size it) : fitting m size (it :: blocks) = fitting m size blocks :=
  List.filter_cons_of_neg (by simpa using h)

/-- Best and worst fit keep the best block so far. -/
theorem fitList_keepLeast (hmode : mode ≠ .firstFit) (hne : ∀ x ∈ blocks, x ≠ 0) (hc : c.result ≠ 0)
    (hsize : c.bestSize = getSize m c.result) : (fitList m mode size blocks prev c).result =
      keepLeast (mode.rank (getSize m)) c.result (fitting m size blocks) := by
  induction blocks generalizing prev c with
  | nil => rfl
  | cons it blocks ih =>
    have hrest : ∀ x ∈ blocks, x ≠ 0 := fun x hx => hne x (List.mem_cons_of_mem it hx)
    have hreplaced := replacedBy_iff hc hsize hmode (x := it)
    rw [fitList, if_neg hmode]
    by_cases hfit : Fits m size it
    · rw [fitting_cons_of_pos hfit, keepLeast]
      by_cases hlt : mode.rank (getSize m) it < mode.rank (getSize m) c.result
      · rw [if_pos ⟨hfit, hreplaced.mpr hlt⟩, if_pos hlt]
        exact ih hrest (hne it List.mem_cons_self) rfl
      · rw [if_neg fun h => hlt (hreplaced.mp h.2), if_neg hlt]
        exact ih hrest hc hsize
    · rw [fitting_cons_of_neg hfit, if_neg fun h => hfit h.1]
      exact ih hrest hc hsize

/-- The loop ends with the first of the best blocks that pass the fit test. -/
theorem fitList_result (hne : ∀ x ∈ blocks, x ≠ 0) (hc : c.result = 0) :
    ((∀ x ∈ blocks, ¬ Fits m size x) ∧ fitList m mode size blocks prev c = c) ∨
      FirstLeast (mode.rank (getSize m)) (fitting m size blocks)
        (fitList m mode size blocks prev c).result := by
  induction blocks generalizing prev with
  | nil => exact Or.inl ⟨fun x hx => absurd hx List.not_mem_nil, rfl⟩
  | cons it blocks ih =>
    have hrest : ∀ x ∈ blocks, x ≠ 0 := fun x hx => hne x (List.mem_cons_of_mem it hx)
    rw [fitList]
    by_cases hfit : Fits m size it
    · rw [if_pos ⟨hfit, replacedBy_none hc mode _⟩, fitting_cons_of_pos hfit]
      refine Or.inr ?_
      split
      case isTrue hmode =>
        subst hmode
        exact ⟨[], _, rfl, fun y hy => absurd hy List.not_mem_nil, fun y _ => le_rfl⟩
      case isFalse hmode =>
        have hsize : (⟨prev, it, getSize m it⟩ : Choice).bestSize = getSize m it := rfl
        rw [fitList_keepLeast hmode hrest (hne it List.mem_cons_self) hsize]
        exact firstLeast_keepLeast _ _
    · rw [if_neg fun h => hfit h.1, fitting_cons_of_neg hfit]
      rcases @ih it hrest with ⟨hnone, heq⟩ | hsome
      · refine Or.inl ⟨fun x hx => ?_, heq⟩
        rcases List.mem_cons.mp hx with rfl | hx
        · exact hfit
        · exact hnone x hx
      · exact Or.inr hsome

theorem fitLoop_result (size : ℕ) (h : s.freeBlocks = .ok blocks) :
    ∃ c, fitLoop s.memory s.fitMode size (turns s) s.firstFree 0 noChoice = .ok c ∧
      (((∀ x ∈ blocks, ¬ Fits s.memory size x) ∧ c = noChoice) ∨ c.result ≠ 0 ∧
        FirstLeast (s.fitMode.rank (getSize s.memory)) (fitting s.memory size blocks) c.result) := by
  have hne := freeBlocksFrom_ne_zero h
  refine ⟨_, fitLoop_eq_fitList h 0 noChoice, ?_⟩
  rcases fitList_result hne (show noChoice.result = 0 from rfl) with hnone | hsome
  · exact Or.inl hnone
  · exact Or.inr ⟨hne _ (mem_fitting.mp hsome.mem).1, hsome⟩

/-- Whether a request is refused, in every state whose free list has an end. -/
theorem allocate_badAlloc_iff (h : s.freeBlocks = .ok blocks) :
    s.allocate size = .error .badAlloc ↔ ∀ x ∈ blocks, ¬ Fits s.memory size x := by
  obtain ⟨c, hloop, ⟨hnone, rfl⟩ | ⟨hc, hsome⟩⟩ := fitLoop_result size h
  · exact iff_of_true (allocate_refuses hloop) hnone
  · obtain ⟨hmem, hfit⟩ := mem_fitting.mp hsome.mem
    exact iff_of_false (allocate_not_refused hloop hc) fun hnone => hnone _ hmem hfit

theorem allocate_granted (h : s.allocate size = .ok (p, s')) :
    ∃ c, fitLoop s.memory s.fitMode size (turns s) s.firstFree 0 noChoice = .ok c ∧
      c.result ≠ 0 ∧ p = c.result + 16 := by
  unfold allocate at h
  cases hloop : fitLoop s.memory s.fitMode size (turns s) s.firstFree 0 noChoice with
  | error e =>
    rw [hloop] at h
    cases h
  | ok c =>
    rw [hloop] at h
    simp only [bind, Except.bind] at h
    split at h
    case isTrue => cases h
    case isFalse hc =>
      split at h
      · cases h
      · cases h
        exact ⟨c, rfl, hc, rfl⟩

/-! ### Completeness -/

/-- A request is refused only if no free block has a recorded size of at least `size`. -/
def Complete (s : SortedList) (size : ℕ) : Prop :=
  s.allocate size = .error .badAlloc →
    ∀ blocks, s.freeBlocks = .ok blocks → ∀ x ∈ blocks, getSize s.memory x < size

/-- In any state: a free block has room for a second header, or none is large enough even
without it. -/
theorem sorted_list_complete_iff (s : SortedList) (size : ℕ) :
    Complete s size ↔ ∀ blocks, s.freeBlocks = .ok blocks →
      (∃ x ∈ blocks, sizeAdd size blockMetadataSize ≤ getSize s.memory x) ∨
        ∀ x ∈ blocks, getSize s.memory x < size := by
  constructor
  · intro h blocks hblocks
    by_cases hsome : ∃ x ∈ blocks, Fits s.memory size x
    · exact Or.inl hsome
    · refine Or.inr (h ((allocate_badAlloc_iff hblocks).mpr fun x hx hfit => ?_) blocks hblocks)
      exact hsome ⟨x, hx, hfit⟩
  · intro h hbad blocks hblocks
    rcases h blocks hblocks with ⟨x, hx, hfit⟩ | hsmall
    · exact absurd hfit ((allocate_badAlloc_iff hblocks).mp hbad x hx)
    · exact hsmall

section Fresh

variable (trusted n : ℕ) (logger : Bool) (mode : FitMode) (m : Memory)

/-- A fresh allocator has one free block, of the size that it was constructed for. -/
theorem fresh_freeBlocks (ht : 0 < trusted) (hregion : trusted + n + 92 ≤ 2 ^ 64) :
    (construct trusted n logger mode m).freeBlocks = .ok [trusted + 76] ∧
      getSize (construct trusted n logger mode m).memory (trusted + 76) = n := by
  have hpool := construct_pool trusted n logger mode m ht hregion
  exact ⟨hpool.freeBlocks, hpool.linked.1⟩

/-- An allocator that was constructed for `n` bytes refuses a request of `n` bytes. -/
theorem fresh_not_complete (ht : 0 < trusted) (hregion : trusted + n + 92 ≤ 2 ^ 64) :
    ¬ Complete (construct trusted n logger mode m) n := by
  obtain ⟨hblocks, hsize⟩ := fresh_freeBlocks trusted n logger mode m ht hregion
  intro h
  have hadd : sizeAdd n blockMetadataSize = n + 16 := sizeAdd_of_lt (by unfold blockMetadataSize; omega)
  rcases (sorted_list_complete_iff _ n).mp h _ hblocks with ⟨x, hx, hfit⟩ | hsmall
  · rw [List.mem_singleton.mp hx, hsize, hadd] at hfit
    omega
  · have hlt := hsmall _ (List.mem_singleton_self _)
    rw [hsize] at hlt
    exact lt_irrefl n hlt

end Fresh

theorem sorted_list_fresh_refuses_64 : ¬ Complete (construct 4096 64 false .firstFit fun _ => 0) 64 :=
  fresh_not_complete 4096 64 false .firstFit (fun _ => 0) (by decide) (by decide)

/-! ### The fit policy -/

theorem freeAddresses_append (a : ℕ) (xs ys : List Block) :
    freeAddresses a (xs ++ ys) = freeAddresses a xs ++ freeAddresses (a + span len xs) ys := by
  unfold freeAddresses
  rw [placed_append, List.filter_append, List.map_append]

theorem freeAddresses_cons_free {a : ℕ} {b : Block} {bs : List Block} (hf : b.free = true) :
    freeAddresses a (b :: bs) = a :: freeAddresses (a + b.len) bs := by
  simp [freeAddresses, hf]

theorem freeAddresses_cons_held {a : ℕ} {b : Block} {bs : List Block} (hf : b.free = false) :
    freeAddresses a (b :: bs) = freeAddresses (a + b.len) bs := by
  simp [freeAddresses, hf]

/-- What is left of a free block from which `size` bytes were granted. -/
theorem freeAddresses_carve {a : ℕ} {b : Block} (h : size ≤ b.size) :
    freeAddresses a (carve b size h) =
      if size + 17 ≤ b.size then [a + blockMetadataSize + size] else [] := by
  unfold carve
  by_cases hrest : b.size - size ≥ 17
  · rw [if_pos hrest, if_pos (by omega)]
    rw [freeAddresses_cons_held (free_held ..), freeAddresses_cons_free (free_vacant _), len_held,
      ← Nat.add_assoc]
    rfl
  · rw [if_neg hrest, if_neg (by omega), freeAddresses_cons_held (free_held ..)]
    rfl

/-- Among the free blocks of recorded size at least `size + 16` the request gets the one that the
fit mode prefers. In the free list what is left of that block takes its place. Without such a block
the request is refused. -/
def FollowsPolicy (s : SortedList) (size : ℕ) : Prop :=
  ∃ blocks, s.freeBlocks = .ok blocks ∧
    ((∀ x ∈ blocks, getSize s.memory x < size + 16) ∧ s.allocate size = .error .badAlloc ∨
      ∃ l x r s', blocks = l ++ x :: r ∧ size + 16 ≤ getSize s.memory x ∧
        (∀ y ∈ blocks, size + 16 ≤ getSize s.memory y → s.fitMode.Prefers (getSize s.memory) x y) ∧
        s.allocate size = .ok (x + 16, s') ∧
        s'.freeBlocks =
          .ok (l ++ (if size + 17 ≤ getSize s.memory x then [x + 16 + size] else []) ++ r))

theorem Pool.followsPolicy {bs : List Block} (h : Pool s bs) (hsize : NoWrap size) :
    FollowsPolicy s size := by
  have hadd : sizeAdd size blockMetadataSize = size + 16 := sizeAdd_of_lt hsize
  refine ⟨_, h.freeBlocks, ?_⟩
  rcases allocate_spec h hsize with hbad | ⟨pre, b, post, s', hfit, rfl, hf, hok, htrusted, -, hpool⟩
  · refine Or.inl ⟨fun x hx => ?_, hbad⟩
    rw [← hadd]
    exact not_le.mp ((allocate_badAlloc_iff h.freeBlocks).mp hbad x hx)
  · have hsizes : getSize s.memory (base s + span len pre) = b.size :=
      ((linked_append ..).mp h.linked).2.1
    have hcut := (freeAddresses_append (base s) pre (b :: post)).trans
      (congrArg (freeAddresses (base s) pre ++ ·) (freeAddresses_cons_free hf))
    refine Or.inr ⟨_, _, _, s', hcut, hsizes ▸ hfit, fun y hy hysize => ?_, hok, ?_⟩
    · obtain ⟨c, hloop, -, hp⟩ := allocate_granted hok
      obtain ⟨c', hloop', hresult⟩ := fitLoop_result size h.freeBlocks
      obtain rfl : c = c' := Except.ok.inj (hloop.symm.trans hloop')
      have hx : base s + span len pre = c.result := Nat.add_right_cancel hp
      rcases hresult with ⟨-, rfl⟩ | ⟨-, hleast⟩
      · have hpos : 0 < base s := Nat.add_pos_left h.nonnull _
        rw [show noChoice.result = 0 from rfl] at hx
        omega
      · rw [hx]
        refine FitMode.prefers_of_firstLeast hleast ((freeAddresses_ascending _ _).filter _) ?_
        exact mem_fitting.mpr ⟨hy, hadd.le.trans hysize⟩
    · have hbase : base s' = base s := by rw [base_eq, base_eq, htrusted]
      rw [hpool.freeBlocks, hbase, freeAddresses_append, freeAddresses_append, freeAddresses_carve,
        carve_span hfit, hsizes, List.append_assoc]
      rfl

end MaiFaSp.SortedList
