import MaiFaSp.Allocator.RedBlackTreeFit

/-!
# `allocator_red_black_tree`: what an insertion does to the tree (`allocator_red_black_tree.cpp:322-435`)

A tree of free blocks, wherever they lie in the pool, takes in one more. The way down goes to the
right at a block of the same size, and a rotation keeps the nodes in order.
-/

namespace MaiFaSp.RedBlackAllocator

open LinkedTree BinTree RedBlack

section

variable {σ : Type} {g z : ℕ} {Within : σ → σ → ℕ → ℕ → Prop} {s : RedBlackAllocator σ} {xs : List ℕ}
  {t : BinTree Color}

/-- The blocks lie in the pool, and no two headers of free blocks at them overlap. -/
structure InPool (g : ℕ) (s : RedBlackAllocator σ) (xs : List ℕ) : Prop where
  apart : xs.Pairwise (Apart g)
  inside : ∀ x ∈ xs, base s ≤ x ∧ x < allocatorEnd s
  addressed : allocatorEnd s ≤ 2 ^ 64

theorem InPool.nodup (hg : 0 < g) (h : InPool g s xs) : xs.Nodup := by
  refine h.apart.imp ?_
  rintro x y hxy rfl
  unfold Apart at hxy
  omega

/-- There are no more blocks than addresses in the pool. -/
theorem InPool.length_le (hg : 0 < g) (h : InPool g s xs) : xs.length ≤ s.size := by
  have hsub : xs.toFinset ⊆ Finset.Ico (base s) (allocatorEnd s) := by
    intro x hx
    exact Finset.mem_Ico.mpr (h.inside x (List.mem_toFinset.mp hx))
  have hcard := Finset.card_le_card hsub
  rw [List.toFinset_card_of_nodup (h.nodup hg), Nat.card_Ico] at hcard
  unfold allocatorEnd at hcard
  omega

theorem InPool.spaced (hg : 0 < g) (h : InPool g s xs) : Spaced g s xs where
  apart := h.apart
  lt x hx := (h.inside x hx).2.trans_le h.addressed
  few := h.length_le hg

theorem InPool.ne_zero (h : InPool g s xs) (hz : z ∈ xs) : z ≠ 0 := by
  have hlow := (h.inside z hz).1
  unfold base allocatorMetadataSize at hlow
  omega

variable [HeaderMemory σ]

theorem Rewritten.getSize_eq {s' : RedBlackAllocator σ} (h : Rewritten g Within s s' xs) {x : ℕ}
    (hx : x ∈ xs) : getSize s' x = getSize s x :=
  getSize_congr h.trusted h.size (h.forward x hx)

/-- `rb_tree_insert` ends. The tree has one more node, its links are consistent, its nodes are in
order by size, and it is red-black. A block that is apart from the nodes is none of them. -/
theorem rb_tree_insert_keeps (hL : LawfulHeaders σ g Within) (ht : IsTree (heap s) t)
    (hrb : RedBlack t) (hord : SizeOrdered s t) (hpool : InPool g s (z :: t.nodes)) :
    ∃ s' t' pre post, rbTreeInsert s z = .ok s' ∧ IsTree (heap s') t' ∧ RedBlack t' ∧
      SizeOrdered s' t' ∧ t.nodes = pre ++ post ∧ t'.nodes = pre ++ z :: post ∧
      ∀ x ∈ z :: t.nodes, getSize s' x = getSize s x := by
  have hg : 0 < g := lt_of_lt_of_le (by decide) hL.room
  have hs := hpool.spaced hg
  have hz := hpool.ne_zero List.mem_cons_self
  obtain ⟨s', t', hok, ht', hrb'⟩ := rbTreeInsert_tree hL ht hrb hs hz hord
  obtain ⟨pre, post, hold, hi, hsorted, hrewritten, -⟩ :=
    rbTreeInsert_spec hL ⟨t, ht, rfl⟩ hs hz hord hok
  obtain ⟨t₁, ht₁, hnew⟩ := hi
  obtain rfl := ht'.unique ht₁
  have hsize (x : ℕ) (hx : x ∈ z :: t.nodes) := hrewritten.getSize_eq hx
  refine ⟨s', t', pre, post, hok, ht', hrb', ?_, hold, hnew, hsize⟩
  unfold SizeOrdered
  rw [hnew]
  refine hsorted.imp_of_mem fun {x y} hx hy hxy => ?_
  have hmem {w : ℕ} (hw : w ∈ pre ++ z :: post) : w ∈ z :: t.nodes := by
    rw [hold]
    exact List.perm_middle.mem_iff.mp hw
  rw [hsize x (hmem hx), hsize y (hmem hy)]
  exact hxy

end

/-- The pool of `fourFree` while its second block of 150 bytes is given back. -/
def threeFree : RedBlackAllocator Records :=
  ⟨4096, .theBestFit, 2000, 4558, fun x =>
    if x = 4176 then ⟨false, 0, 4301, ⟨0, 0, 4558, .red⟩⟩
    else if x = 4342 then ⟨false, 4301, 4517, ⟨0, 0, 4096, .black⟩⟩
    else if x = 4558 then ⟨false, 4517, 4783, ⟨4176, 4824, 0, .black⟩⟩
    else if x = 4824 then ⟨false, 4783, 0, ⟨0, 0, 4558, .red⟩⟩
    else fourFree.memory x⟩

def threeTree : BinTree Color := node (node nil 4176 .red nil) 4558 .black (node nil 4824 .red nil)

theorem threeTree_isTree : IsTree (heap threeFree) threeTree where
  root := rfl
  holds := ⟨by decide, rfl, ⟨by decide, rfl, trivial, trivial⟩, by decide, rfl, trivial, trivial⟩
  nodup := by decide

theorem rb_tree_insert_keeps_three :
    ∃ s' t' pre post, rbTreeInsert threeFree 4342 = .ok s' ∧ IsTree (heap s') t' ∧ RedBlack t' ∧
      SizeOrdered s' t' ∧ threeTree.nodes = pre ++ post ∧ t'.nodes = pre ++ 4342 :: post ∧
      ∀ x ∈ 4342 :: threeTree.nodes, getSize s' x = getSize threeFree x := by
  have hrb : RedBlack threeTree := ⟨1, .black (.red .nil .nil) (.red .nil .nil)⟩
  have hord : SizeOrdered threeFree threeTree := by
    unfold SizeOrdered
    decide
  have hpool : InPool blockMetadataSize threeFree (4342 :: threeTree.nodes) := {
    apart := by
      unfold Apart
      decide
    inside := by decide
    addressed := by decide }
  exact rb_tree_insert_keeps Records.lawful threeTree_isTree hrb hord hpool

end MaiFaSp.RedBlackAllocator
