import MaiFaSp.Allocator.RedBlackTreeColors

/-!
# `allocator_red_black_tree`: which free block a request gets (`allocator_red_black_tree.cpp:236-305`)

Each search follows one path down a tree that is ordered by the sizes of its nodes, whatever its
shape and its colours. The loops end, since the way down is no longer than the list of nodes.
-/

namespace MaiFaSp.RedBlackAllocator

open LinkedTree BinTree

variable {σ : Type} [HeaderMemory σ] {s : RedBlackAllocator σ} {t l r : BinTree Color} {d : Color}
  {size n b best x p : ℕ}

/-- The nodes are in order by size. -/
def SizeOrdered (s : RedBlackAllocator σ) (t : BinTree Color) : Prop :=
  t.nodes.Pairwise fun x y => getSize s x ≤ getSize s y

theorem sizeOrdered_node : SizeOrdered s (node l x d r) ↔
    SizeOrdered s l ∧ SizeOrdered s r ∧ (∀ y ∈ l.nodes, getSize s y ≤ getSize s x) ∧
      (∀ y ∈ r.nodes, getSize s x ≤ getSize s y) ∧
      ∀ y ∈ l.nodes, ∀ z ∈ r.nodes, getSize s y ≤ getSize s z := by
  unfold SizeOrdered
  rw [nodes_node, List.pairwise_append, List.pairwise_cons]
  constructor
  · rintro ⟨hl, ⟨hx, hr⟩, hlr⟩
    exact ⟨hl, hr, fun y hy => hlr y hy x List.mem_cons_self, hx,
      fun y hy z hz => hlr y hy z (List.mem_cons_of_mem x hz)⟩
  · rintro ⟨hl, hr, hlx, hx, hlr⟩
    refine ⟨hl, ⟨hx, hr⟩, fun y hy z hz => ?_⟩
    rcases List.mem_cons.mp hz with rfl | hz
    · exact hlx y hy
    · exact hlr y hy z hz

theorem mem_nodes_node {y : ℕ} : y ∈ (node l x d r).nodes ↔ y ∈ l.nodes ∨ y = x ∨ y ∈ r.nodes := by
  rw [nodes_node, List.mem_append, List.mem_cons]

/-- The cell of the node at the top, and what is below it. -/
theorem holds_top (h : Holds (heap s) p (node l x d r)) :
    x ≠ 0 ∧ (heap s).left x = l.root ∧ (heap s).right x = r.root ∧ Holds (heap s) x l ∧
      Holds (heap s) x r := by
  obtain ⟨hx, hcell, hl, hr⟩ := h
  refine ⟨hx, ?_, ?_, hl, hr⟩
  · rw [Heap.left, hcell]
  · rw [Heap.right, hcell]

/-! ### The way down -/

theorem firstFit_spec (size : ℕ) (ht : Holds (heap s) p t) (hs : SizeOrdered s t)
    (hn : t.nodes.length ≤ n) : ∃ b, firstFit s size n t.root = .ok b ∧
      ((b = 0 ∧ ∀ y ∈ t.nodes, getSize s y < size) ∨
        b ≠ 0 ∧ b ∈ t.nodes ∧ size ≤ getSize s b) := by
  induction t generalizing n p with
  | nil => cases n <;> exact ⟨0, rfl, Or.inl ⟨rfl, fun y hy => absurd hy List.not_mem_nil⟩⟩
  | node l x d r _ ihr =>
    obtain ⟨hx, -, hright, -, hr⟩ := holds_top ht
    obtain ⟨-, hsr, hlx, -, -⟩ := sizeOrdered_node.mp hs
    rw [nodes_node, List.length_append, List.length_cons] at hn
    obtain ⟨k, rfl⟩ : ∃ k, n = k + 1 := ⟨n - 1, by omega⟩
    rw [root_node, firstFit, if_neg hx]
    by_cases hfit : getSize s x ≥ size
    · rw [if_pos hfit]
      exact ⟨x, rfl, Or.inr ⟨hx, mem_nodes_node.mpr (Or.inr (Or.inl rfl)), hfit⟩⟩
    · rw [if_neg hfit, hright]
      obtain ⟨b, hok, hb⟩ := ihr hr hsr (by omega : r.nodes.length ≤ k)
      refine ⟨b, hok, hb.imp (fun hnone => ⟨hnone.1, fun y hy => ?_⟩) fun hsome =>
        ⟨hsome.1, mem_nodes_node.mpr (Or.inr (Or.inr hsome.2.1)), hsome.2.2⟩⟩
      rcases mem_nodes_node.mp hy with hy | rfl | hy
      · exact (hlx y hy).trans_lt (not_le.mp hfit)
      · exact not_le.mp hfit
      · exact hnone.2 y hy

/-- Going left keeps the node as the candidate, and every other node that is passed by is either too
small or not smaller. -/
theorem bestFit_spec (size best : ℕ) (ht : Holds (heap s) p t) (hs : SizeOrdered s t)
    (hn : t.nodes.length ≤ n) : ∃ b, bestFit s size n best t.root = .ok b ∧
      ((b = best ∧ ∀ y ∈ t.nodes, getSize s y < size) ∨
        b ≠ 0 ∧ b ∈ t.nodes ∧ size ≤ getSize s b ∧
          ∀ y ∈ t.nodes, size ≤ getSize s y → getSize s b ≤ getSize s y) := by
  induction t generalizing n p best with
  | nil => cases n <;> exact ⟨best, rfl, Or.inl ⟨rfl, fun y hy => absurd hy List.not_mem_nil⟩⟩
  | node l x d r ihl ihr =>
    obtain ⟨hx, hleft, hright, hl, hr⟩ := holds_top ht
    obtain ⟨hsl, hsr, hlx, hxr, hlr⟩ := sizeOrdered_node.mp hs
    rw [nodes_node, List.length_append, List.length_cons] at hn
    obtain ⟨k, rfl⟩ : ∃ k, n = k + 1 := ⟨n - 1, by omega⟩
    rw [root_node, bestFit, if_neg hx]
    dsimp only
    rcases lt_trichotomy (getSize s x) size with hlt | heq | hgt
    · rw [if_neg (by omega : ¬ getSize s x ≥ size), if_pos hlt, hright]
      obtain ⟨b, hok, hb⟩ := ihr best hr hsr (by omega : r.nodes.length ≤ k)
      refine ⟨b, hok, ?_⟩
      rcases hb with ⟨rfl, hnone⟩ | ⟨hb0, hm, hsize, hmin⟩
      · refine Or.inl ⟨rfl, fun y hy => ?_⟩
        rcases mem_nodes_node.mp hy with hy | rfl | hy
        · exact (hlx y hy).trans_lt hlt
        · exact hlt
        · exact hnone y hy
      · refine Or.inr ⟨hb0, mem_nodes_node.mpr (Or.inr (Or.inr hm)), hsize, fun y hy hys => ?_⟩
        rcases mem_nodes_node.mp hy with hy | rfl | hy
        · exact absurd (hys.trans (hlx y hy)) (not_le.mpr hlt)
        · exact absurd hys (not_le.mpr hlt)
        · exact hmin y hy hys
    · rw [if_pos heq.ge, if_neg (by omega), if_neg (by omega)]
      refine ⟨x, rfl, Or.inr ⟨hx, mem_nodes_node.mpr (Or.inr (Or.inl rfl)), heq.ge, ?_⟩⟩
      exact fun y _ hys => heq.le.trans hys
    · rw [if_pos hgt.le, if_neg (by omega), if_pos hgt, hleft]
      obtain ⟨b, hok, hb⟩ := ihl x hl hsl (by omega : l.nodes.length ≤ k)
      refine ⟨b, hok, Or.inr ?_⟩
      rcases hb with ⟨rfl, hnone⟩ | ⟨hb0, hm, hsize, hmin⟩
      · refine ⟨hx, mem_nodes_node.mpr (Or.inr (Or.inl rfl)), hgt.le, fun y hy hys => ?_⟩
        rcases mem_nodes_node.mp hy with hy | rfl | hy
        · exact absurd hys (not_le.mpr (hnone y hy))
        · exact le_rfl
        · exact hxr y hy
      · refine ⟨hb0, mem_nodes_node.mpr (Or.inl hm), hsize, fun y hy hys => ?_⟩
        rcases mem_nodes_node.mp hy with hy | rfl | hy
        · exact hmin y hy hys
        · exact hlx b hm
        · exact hlr b hm y hy

theorem worstFit_spec (size worst : ℕ) (ht : Holds (heap s) p t) (hs : SizeOrdered s t)
    (hn : t.nodes.length ≤ n) : ∃ b, worstFit s size n worst t.root = .ok b ∧
      ((b = worst ∧ ∀ y ∈ t.nodes, getSize s y < size) ∨
        b ≠ 0 ∧ b ∈ t.nodes ∧ size ≤ getSize s b ∧ ∀ y ∈ t.nodes, getSize s y ≤ getSize s b) := by
  induction t generalizing n p worst with
  | nil => cases n <;> exact ⟨worst, rfl, Or.inl ⟨rfl, fun y hy => absurd hy List.not_mem_nil⟩⟩
  | node l x d r _ ihr =>
    obtain ⟨hx, -, hright, -, hr⟩ := holds_top ht
    obtain ⟨-, hsr, hlx, hxr, hlr⟩ := sizeOrdered_node.mp hs
    rw [nodes_node, List.length_append, List.length_cons] at hn
    obtain ⟨k, rfl⟩ : ∃ k, n = k + 1 := ⟨n - 1, by omega⟩
    rw [root_node, worstFit, if_neg hx, hright]
    dsimp only
    obtain ⟨b, hok, hb⟩ := ihr (if getSize s x ≥ size then x else worst) hr hsr
      (by omega : r.nodes.length ≤ k)
    refine ⟨b, hok, ?_⟩
    rcases hb with ⟨rfl, hnone⟩ | ⟨hb0, hm, hsize, hmax⟩
    · by_cases hfit : getSize s x ≥ size
      · rw [if_pos hfit]
        refine Or.inr ⟨hx, mem_nodes_node.mpr (Or.inr (Or.inl rfl)), hfit, fun y hy => ?_⟩
        rcases mem_nodes_node.mp hy with hy | rfl | hy
        · exact hlx y hy
        · exact le_rfl
        · exact absurd (hfit.trans (hxr y hy)) (not_le.mpr (hnone y hy))
      · rw [if_neg hfit]
        refine Or.inl ⟨rfl, fun y hy => ?_⟩
        rcases mem_nodes_node.mp hy with hy | rfl | hy
        · exact (hlx y hy).trans_lt (not_le.mp hfit)
        · exact not_le.mp hfit
        · exact hnone y hy
    · refine Or.inr ⟨hb0, mem_nodes_node.mpr (Or.inr (Or.inr hm)), hsize, fun y hy => ?_⟩
      rcases mem_nodes_node.mp hy with hy | rfl | hy
      · exact hlr y hy b hm
      · exact hxr b hm
      · exact hmax y hy

/-! ### The searches -/

/-- `result` is one of the blocks `xs` that are large enough, as good as any other of them, or null
if there is none. -/
def Chooses (s : RedBlackAllocator σ) (size : ℕ) (xs : List ℕ) (better : ℕ → ℕ → Prop)
    (result : Except AllocFault ℕ) : Prop :=
  ∃ b, result = .ok b ∧ (b = 0 ↔ ∀ x ∈ xs, getSize s x < size) ∧
    (b ≠ 0 → b ∈ xs ∧ size ≤ getSize s b ∧ ∀ x ∈ xs, size ≤ getSize s x → better b x)

/-- The three searches, in at most `n` turns. -/
structure FitPolicy (s : RedBlackAllocator σ) (size n : ℕ) (xs : List ℕ) : Prop where
  first : Chooses s size xs (fun _ _ => True) (firstFit s size n s.root)
  best : Chooses s size xs (fun x y => getSize s x ≤ getSize s y) (bestFit s size n 0 s.root)
  worst : Chooses s size xs (fun x y => getSize s y ≤ getSize s x) (worstFit s size n 0 s.root)

theorem chooses_of_cases {better : ℕ → ℕ → Prop} {xs : List ℕ} {result : Except AllocFault ℕ}
    (hok : result = .ok b) (hb : (b = 0 ∧ ∀ x ∈ xs, getSize s x < size) ∨
      b ≠ 0 ∧ b ∈ xs ∧ size ≤ getSize s b ∧ ∀ x ∈ xs, size ≤ getSize s x → better b x) :
    Chooses s size xs better result := by
  refine ⟨b, hok, ?_⟩
  rcases hb with ⟨h0, hnone⟩ | ⟨h0, hm, hsize, hbest⟩
  · exact ⟨iff_of_true h0 hnone, fun hne => absurd h0 hne⟩
  · exact ⟨iff_of_false h0 fun hnone => absurd hsize (not_le.mpr (hnone b hm)), fun _ =>
      ⟨hm, hsize, hbest⟩⟩

/-- In every tree in which the free blocks are in order by size. -/
theorem red_black_fit_policy (s : RedBlackAllocator σ) (t : BinTree Color) (ht : IsTree (heap s) t)
    (hs : SizeOrdered s t) (size n : ℕ) (hn : t.nodes.length ≤ n) :
    FitPolicy s size n t.nodes := by
  have hroot : s.root = t.root := ht.root
  obtain ⟨b₁, hok₁, hb₁⟩ := firstFit_spec size ht.holds hs hn
  obtain ⟨b₂, hok₂, hb₂⟩ := bestFit_spec size 0 ht.holds hs hn
  obtain ⟨b₃, hok₃, hb₃⟩ := worstFit_spec size 0 ht.holds hs hn
  rw [← hroot] at hok₁ hok₂ hok₃
  refine ⟨chooses_of_cases hok₁ (hb₁.imp_right fun h => ⟨h.1, h.2.1, h.2.2, fun _ _ _ => trivial⟩),
    chooses_of_cases hok₂ hb₂, chooses_of_cases hok₃ (hb₃.imp_right fun h => ?_)⟩
  exact ⟨h.1, h.2.1, h.2.2.1, fun x hx _ => h.2.2.2 x hx⟩

theorem red_black_fit_policy_four : FitPolicy fourFree 120 4 [4176, 4342, 4558, 4824] :=
  red_black_fit_policy fourFree fourTree fourTree_isTree
    (show [4176, 4342, 4558, 4824].Pairwise _ by decide) 120 4 (by decide)

end MaiFaSp.RedBlackAllocator
