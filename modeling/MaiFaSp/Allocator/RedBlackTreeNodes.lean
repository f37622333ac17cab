import MaiFaSp.Allocator.RedBlackTreeMemories
import MaiFaSp.RedBlack.InOrder
import MaiFaSp.RedBlack.Insert
import MaiFaSp.RedBlack.Remove

/-!
# The tree of `allocator_red_black_tree`

What `rb_tree_insert` and `rb_tree_remove` do to the nodes of the tree, and that their
headers come back to the memory as they were on the records.
-/

namespace MaiFaSp.RedBlackAllocator

open LinkedTree BinTree RedBlack

/-! ### The rotations -/

section

variable {h : Heap Color} {c : Ctx Color} {A B C : BinTree Color} {s : Side} {n r : ℕ} {dn dr : Color}

theorem set_set_cell (h : Heap Color) (k : Ref) (v y : ℕ) :
    ((h.set k v).set k v).cell y = (h.set k v).cell y := by
  cases k with
  | root => rfl
  | child s x =>
    simp only [Heap.set, Heap.cell_setChild]
    split
    · rw [Cell.setChild_setChild]
    · rfl

theorem relink_cell (h : Heap Color) (n v y : ℕ) :
    (if h.parent n ≠ 0 then
      (if n = h.left (h.parent n) then h.setChild .left (h.parent n) v
        else h.setChild .right (h.parent n) v)
      else h).cell y = (h.set (h.linkTo n) v).cell y := by
  unfold Heap.linkTo
  by_cases hp : h.parent n = 0
  · rw [if_neg (not_not.mpr hp), if_pos hp]
    rfl
  · rw [if_pos hp, if_neg hp]
    split <;> rfl

theorem relink_root (h : Heap Color) (n v : ℕ) :
    (if h.parent n ≠ 0 then
      (if n = h.left (h.parent n) then h.setChild .left (h.parent n) v
        else h.setChild .right (h.parent n) v)
      else h).root = h.root := by
  split
  · split <;> rfl
  · rfl

theorem smallRotation_rotated (ht : IsTree h (c.plug (join s A n dn (join s B r dr C)))) :
    Rotated h (smallRotation s h c.link) s c.link c.parent n r B.root := by
  obtain ⟨hnd, -, hsep⟩ := ht.separate
  obtain ⟨hn, hcn, -, hR⟩ := holds_join.mp ht.focus.2
  obtain ⟨hr, hcr, -, -⟩ := holds_join.mp hR
  obtain ⟨-, hnR, -, hRnd, -⟩ := nodup_join.mp hnd
  obtain ⟨hrB, -, -, -, -⟩ := nodup_join.mp hRnd
  simp only [mem_nodes_join, not_or] at hnR hsep
  rw [root_join] at hcn
  have hroot : (join s A n dn (join s B r dr C)).root = n := root_join ..
  have hget : h.get c.link = n := ht.get_link.trans hroot
  have hchild : h.child s.other n = r := by rw [Heap.child, hcn, Cell.child_other_joined]
  have hnear : h.child s r = B.root := by rw [Heap.child, hcr, Cell.child_joined]
  have hparent : h.parent n = c.parent := by rw [Heap.parent, hcn, Cell.parent_joined]
  have hlink : h.linkTo n = c.link := by
    have hl := ht.linkTo_eq (by rw [hroot]; exact hn)
    rwa [hroot] at hl
  have hnr : n ≠ r := hnR.1
  have hrn : r ≠ n := hnr.symm
  have hBn : B.root ≠ 0 → B.root ≠ n := fun h0 he => hnR.2.1 (he ▸ root_mem h0)
  have hBr : B.root ≠ 0 → B.root ≠ r := fun h0 he => hrB (he ▸ root_mem h0)
  have hrelink (y : ℕ) := relink_cell h n r y
  have hrelinkRoot := relink_root h n r
  rw [hlink] at hrelink
  unfold smallRotation
  dsimp only
  rw [hget, hchild, hnear, if_neg (by simp [hn, hr])]
  generalize (if h.parent n ≠ 0 then
      (if n = h.left (h.parent n) then h.setChild .left (h.parent n) r
        else h.setChild .right (h.parent n) r)
      else h) = k at hrelink hrelinkRoot
  have hout (y : ℕ) (hy : y ∉ c.nodes) : k.cell y = h.cell y := by
    rw [hrelink, set_cell_of_notMem hy]
  have hkp : k.parent n = c.parent := by
    rw [Heap.parent, hout n (hsep n (by simp)), ← hparent, Heap.parent]
  rw [hkp]
  -- the cells before the variable is written
  generalize hm : (if B.root ≠ 0 then
      ((((k.setParent r c.parent).setChild s r n).setParent n r).setChild s.other n B.root).setParent
        B.root n
      else (((k.setParent r c.parent).setChild s r n).setParent n r).setChild s.other n B.root) = m
  have hmroot : m.root = h.root := by
    rw [← hm]
    split <;> exact hrelinkRoot
  have hmcell (y : ℕ) : m.cell y =
      if y = r then ((k.cell y).setParent c.parent).setChild s n
      else if y = n then ((k.cell y).setParent r).setChild s.other B.root
      else if B.root ≠ 0 ∧ y = B.root then (k.cell y).setParent n else k.cell y := by
    rw [← hm]
    by_cases hyr : y = r
    · subst hyr
      split
      case isTrue h0 => simp [Heap.cell_setParent, Heap.cell_setChild, hrn, (hBr h0).symm]
      case isFalse h0 => simp [Heap.cell_setParent, Heap.cell_setChild, hrn]
    · by_cases hyn : y = n
      · subst hyn
        split
        case isTrue h0 => simp [Heap.cell_setParent, Heap.cell_setChild, hnr, (hBn h0).symm]
        case isFalse h0 => simp [Heap.cell_setParent, Heap.cell_setChild, hnr]
      · split
        case isTrue h0 => simp [Heap.cell_setParent, Heap.cell_setChild, hyr, hyn, h0]
        case isFalse h0 => simp [Heap.cell_setParent, Heap.cell_setChild, hyr, hyn, h0]
  refine ⟨set_root_congr hmroot, ?_, ?_, ?_, ?_⟩
  · have hrc := hsep r (by simp)
    rw [set_cell_of_notMem hrc, hmcell, if_pos rfl, hout r hrc]
    cases s <;> rfl
  · have hnc := hsep n (by simp)
    rw [set_cell_of_notMem hnc, hmcell, if_neg hnr, if_pos rfl, hout n hnc]
    cases s <;> rfl
  · intro h0
    have hBc := hsep B.root (by simp [root_mem h0])
    rw [set_cell_of_notMem hBc, hmcell, if_neg (hBr h0), if_neg (hBn h0), if_pos ⟨h0, rfl⟩,
      hout _ hBc]
  · intro y _ hyn hyr hyB
    have hy : m.cell y = (h.set c.link r).cell y := by
      rw [hmcell, if_neg hyr, if_neg hyn, if_neg (fun he => hyB he.2), hrelink]
    rw [set_cell_congr hy, set_set_cell]

theorem smallRotation_lawful : LawfulRotation smallRotation where
  rotated := smallRotation_rotated
  stuck := by
    intro h c s A n dn ht
    have hget := ht.get_link
    rw [root_join] at hget
    unfold smallRotation
    rw [hget]
    exact if_pos (Or.inr ht.reads.other)

end

/-! ### The headers of the nodes -/

open HeaderMemory (get)

variable {σ : Type} [HeaderMemory σ] {g : ℕ} {Within : σ → σ → ℕ → ℕ → Prop}

theorem writeNodes_scattered (hL : LawfulHeaders σ g Within) (m : σ) (h : Heap Color) (xs : List ℕ) :
    Scattered g Within xs m (writeNodes m h xs) := by
  induction xs generalizing m with
  | nil => exact .refl m
  | cons x xs ih =>
    have hx := hL.within_setNode m x (h.cell x)
    exact (Scattered.one (List.mem_cons_self ..) hx (le_refl _)).trans
      ((ih _).mono fun y hy => List.mem_cons_of_mem _ hy)

theorem writeNodes_get (hL : LawfulHeaders σ g Within) {m : σ} {h : Heap Color} {xs : List ℕ} {y : ℕ}
    (hy : ∀ x ∈ xs, Apart g x y) : get (writeNodes m h xs) y = get m y :=
  (writeNodes_scattered hL m h xs).get_eq hL hy

theorem writeNodes_node (hL : LawfulHeaders σ g Within) {m : σ} {h : Heap Color} {xs : List ℕ} {x : ℕ}
    (hxs : xs.Pairwise (Apart g)) (hx : x ∈ xs) (hc : Addresses (h.cell x)) :
    get (writeNodes m h xs) x = { get m x with node := h.cell x } := by
  induction xs generalizing m with
  | nil => cases hx
  | cons w xs ih =>
    obtain ⟨hw, hxs⟩ := List.pairwise_cons.mp hxs
    rcases List.mem_cons.mp hx with rfl | hx
    · refine (writeNodes_get hL fun y hy => (hw y hy).symm).trans ?_
      exact hL.get_setNode m x hc
    · refine (ih hxs hx).trans ?_
      rw [hL.get_eq (hL.within_setNode m w _) (hw x hx)]

theorem writeNodes_parent (hL : LawfulHeaders σ g Within) {m : σ} {h : Heap Color} {xs : List ℕ} {x : ℕ}
    (hxs : xs.Pairwise (Apart g)) (hx : x ∈ xs) (hp : h.parent x < 2 ^ 64) :
    (get (writeNodes m h xs) x).node.parent = h.parent x := by
  induction xs generalizing m with
  | nil => cases hx
  | cons w xs ih =>
    obtain ⟨hw, hxs⟩ := List.pairwise_cons.mp hxs
    rcases List.mem_cons.mp hx with rfl | hx
    · have hkeep := writeNodes_get (m := HeaderMemory.setNode m x (h.cell x)) (h := h) hL
        fun y hy => (hw y hy).symm
      refine (congrArg (fun h => h.node.parent) hkeep).trans ?_
      exact hL.parent_setNode m x hp
    · exact ih hxs hx

theorem writeNodes_links (hL : LawfulHeaders σ g Within) {m : σ} {h : Heap Color} {xs : List ℕ} {x : ℕ}
    (hxs : xs.Pairwise (Apart g)) (hx : x ∈ xs) :
    (get (writeNodes m h xs) x).occupied = (get m x).occupied ∧
      (get (writeNodes m h xs) x).back = (get m x).back ∧
      (get (writeNodes m h xs) x).forward = (get m x).forward := by
  induction xs generalizing m with
  | nil => cases hx
  | cons w xs ih =>
    obtain ⟨hw, hxs⟩ := List.pairwise_cons.mp hxs
    rcases List.mem_cons.mp hx with rfl | hx
    · have hkeep := writeNodes_get (m := HeaderMemory.setNode m x (h.cell x)) (h := h) hL
        fun y hy => (hw y hy).symm
      have hfields := hL.setNode_links m x (h.cell x)
      rw [← hkeep] at hfields
      exact hfields
    · have hkeep := hL.get_eq (hL.within_setNode m w (h.cell w)) (hw x hx)
      have hfields := ih (m := HeaderMemory.setNode m w (h.cell w)) hxs hx
      rw [hkeep] at hfields
      exact hfields

/-- Between the two states only the tree was written, whose nodes were among `xs`. -/
structure Rewritten (g : ℕ) (Within : σ → σ → ℕ → ℕ → Prop) (s s' : RedBlackAllocator σ)
    (xs : List ℕ) : Prop where
  trusted : s'.trusted = s.trusted
  fitMode : s'.fitMode = s.fitMode
  size : s'.size = s.size
  occupied : ∀ x ∈ xs, occupied s' x = occupied s x
  back : ∀ x ∈ xs, back s' x = back s x
  forward : ∀ x ∈ xs, forward s' x = forward s x
  scattered : Scattered g Within xs s.memory s'.memory

theorem putNodes_rewritten (hL : LawfulHeaders σ g Within) (s : RedBlackAllocator σ) (h : Heap Color)
    {xs : List ℕ} (hxs : xs.Pairwise (Apart g)) : Rewritten g Within s (putNodes s h xs) xs where
  trusted := rfl
  fitMode := rfl
  size := rfl
  occupied _ hx := (writeNodes_links hL hxs hx).1
  back _ hx := (writeNodes_links hL hxs hx).2.1
  forward _ hx := (writeNodes_links hL hxs hx).2.2
  scattered := writeNodes_scattered hL s.memory h xs

theorem addresses_of_inOrder {h : Heap Color} {xs : List ℕ} (hi : InOrder h xs)
    (hxs : ∀ x ∈ xs, x < 2 ^ 64) {x : ℕ} (hx : x ∈ xs) : Addresses (h.cell x) := by
  have hlt {y : ℕ} (hy : y = 0 ∨ y ∈ xs) : y < 2 ^ 64 := by
    rcases hy with rfl | hy
    · exact Nat.two_pow_pos 64
    · exact hxs y hy
  exact ⟨hlt (hi.child_mem hx .left), hlt (hi.child_mem hx .right), hlt (hi.parent_mem hx)⟩

theorem putNodes_isTree (hL : LawfulHeaders σ g Within) (s : RedBlackAllocator σ) {h : Heap Color}
    {t : BinTree Color} {xs : List ℕ} (ht : IsTree h t) (hxs : xs.Pairwise (Apart g))
    (hsub : ∀ x ∈ t.nodes, x ∈ xs) (hlt : ∀ x ∈ xs, x < 2 ^ 64) : IsTree (heap (putNodes s h xs)) t := by
  have hi : InOrder h t.nodes := ⟨t, ht, rfl⟩
  refine ⟨ht.root, ht.holds.congr ?_, ht.nodup⟩
  intro y hy
  have hnode := writeNodes_node (m := s.memory) hL hxs (hsub y hy)
    (addresses_of_inOrder hi (fun x hx => hlt x (hsub x hx)) hy)
  exact congrArg Header.node hnode

theorem putNodes_inOrder (hL : LawfulHeaders σ g Within) (s : RedBlackAllocator σ) {h : Heap Color}
    {ys xs : List ℕ} (hi : InOrder h ys) (hxs : xs.Pairwise (Apart g)) (hsub : ∀ x ∈ ys, x ∈ xs)
    (hlt : ∀ x ∈ xs, x < 2 ^ 64) : InOrder (heap (putNodes s h xs)) ys := by
  obtain ⟨t, ht, rfl⟩ := hi
  exact ⟨t, putNodes_isTree hL s ht hxs hsub hlt, rfl⟩

theorem nodesBelow_eq {h : Heap Color} {p n : ℕ} {t : BinTree Color} (ht : Holds h p t)
    (hn : t.nodes.length ≤ n) : nodesBelow h n t.root = t.nodes := by
  induction t generalizing p n with
  | nil => cases n <;> rfl
  | node l x d r ihl ihr =>
    obtain ⟨hx, hcell, hl, hr⟩ := ht
    rw [nodes_node, List.length_append, List.length_cons] at hn
    obtain ⟨n, rfl⟩ : ∃ m, n = m + 1 := ⟨n - 1, by omega⟩
    rw [root_node, nodesBelow, if_neg hx, Heap.left, Heap.right, hcell, ihl hl (by omega),
      ihr hr (by omega), nodes_node]

theorem nodes_eq {s : RedBlackAllocator σ} {xs : List ℕ} (hi : InOrder (heap s) xs)
    (hn : xs.length ≤ turns s) : nodes s = xs := by
  obtain ⟨t, ht, rfl⟩ := hi
  have hroot : s.root = t.root := ht.root
  unfold nodes
  rw [hroot]
  exact nodesBelow_eq ht.holds hn

/-! ### Colours -/

/-- The tree has the red-black properties. -/
def Colored (s : RedBlackAllocator σ) : Prop := ∃ t, IsTree (heap s) t ∧ RedBlack t

/-- `rb_tree_remove` takes `z` out of the tree for a node that is red or has a child, or takes out
the only node. -/
def Leaves (s : RedBlackAllocator σ) (z : ℕ) : Prop := ∃ t, IsTree (heap s) t ∧ Removable t z

theorem Colored.congr {s s' : RedBlackAllocator σ} {xs : List ℕ} (h : Colored s)
    (hi : InOrder (heap s) xs) (hroot : s'.root = s.root)
    (hcell : ∀ y ∈ xs, (heap s').cell y = (heap s).cell y) : Colored s' := by
  obtain ⟨t, ht, hrb⟩ := h
  obtain ⟨t₁, ht₁, rfl⟩ := hi
  obtain rfl := ht.unique ht₁
  exact ⟨t, ⟨hroot.trans ht.root, ht.holds.congr hcell, ht.nodup⟩, hrb⟩

/-! ### Removal and insertion -/

theorem liftLink_ok {α : Type} {x : Except LinkFault α} {a : α} (h : liftLink x = .ok a) :
    x = .ok a := by
  cases x with
  | ok b =>
    cases h
    rfl
  | error e => cases e <;> cases h

/-- The nodes stand where a tree of free blocks can have them. -/
structure Spaced (g : ℕ) (s : RedBlackAllocator σ) (xs : List ℕ) : Prop where
  apart : xs.Pairwise (Apart g)
  lt : ∀ x ∈ xs, x < 2 ^ 64
  few : xs.length ≤ s.size

theorem rbTreeRemove_eq {s s' : RedBlackAllocator σ} {z : ℕ} (hok : rbTreeRemove s z = .ok s') :
    ∃ h x, removeNode smallRotation (turns s) (heap s) z = .ok (h, x) ∧ s' = putNodes s h (nodes s) := by
  obtain ⟨⟨h, x⟩, hremove, hok⟩ := bind_eq_ok.mp hok
  cases hok
  exact ⟨h, x, liftLink_ok hremove, rfl⟩

/-- What `rb_tree_remove` makes of a red-black tree. -/
theorem rbTreeRemove_tree (hL : LawfulHeaders σ g Within) {s : RedBlackAllocator σ}
    {t : BinTree Color} {z : ℕ} (ht : IsTree (heap s) t) (hrb : RedBlack t)
    (hs : Spaced g s t.nodes) (hz : z ∈ t.nodes) :
    ∃ s' t', rbTreeRemove s z = .ok s' ∧ IsTree (heap s') t' ∧ t'.nodes = t.nodes.erase z ∧
      (RedBlack t' ↔ Removable t z) := by
  have hfew := hs.few
  have hturns : t.nodes.length ≤ turns s := by
    unfold turns
    omega
  obtain ⟨h, x, t', hremove, ht', hnodes, hiff⟩ :=
    removeNode_spec ht hrb hz hturns
  refine ⟨putNodes s h t.nodes, t', ?_, ?_, hnodes, hiff⟩
  · rw [rbTreeRemove, hremove, nodes_eq ⟨t, ht, rfl⟩ hturns]
    rfl
  · refine putNodes_isTree hL s ht' hs.apart (fun y hy => ?_) hs.lt
    rw [hnodes] at hy
    exact List.mem_of_mem_erase hy

theorem rbTreeRemove_spec (hL : LawfulHeaders σ g Within) {s s' : RedBlackAllocator σ} {xs : List ℕ}
    {z : ℕ} (hi : InOrder (heap s) xs) (hs : Spaced g s xs) (hz : z ∈ xs)
    (hok : rbTreeRemove s z = .ok s') : InOrder (heap s') (xs.erase z) ∧ Rewritten g Within s s' xs ∧
      parent s' z = parent s z ∧ (Colored s → Leaves s z → Colored s') := by
  have hfew := hs.few
  have hturns : xs.length ≤ turns s := by
    unfold turns
    omega
  have hcolors : Colored s → Leaves s z → Colored s' := by
    rintro ⟨t, ht, hrb⟩ ⟨t₁, ht₁, hremovable⟩
    obtain ⟨t₂, ht₂, rfl⟩ := hi
    obtain rfl := ht.unique ht₁
    obtain rfl := ht.unique ht₂
    obtain ⟨s₁, t', hok', ht', -, hiff⟩ := rbTreeRemove_tree hL ht hrb hs hz
    obtain rfl : s' = s₁ := Except.ok.inj (hok.symm.trans hok')
    exact ⟨t', ht', hiff.mpr hremovable⟩
  obtain ⟨h, x, hremove, rfl⟩ := rbTreeRemove_eq hok
  rw [nodes_eq hi hturns] at hcolors ⊢
  obtain ⟨hi', hparent⟩ := removeNode_inOrder smallRotation_lawful hi hz hturns hremove
  have hz64 : h.parent z < 2 ^ 64 := by
    rw [hparent]
    exact (addresses_of_inOrder hi hs.lt hz).parent
  exact ⟨putNodes_inOrder hL s hi' hs.apart (fun y hy => List.mem_of_mem_erase hy) hs.lt,
    putNodes_rewritten hL s h hs.apart, (writeNodes_parent hL hs.apart hz hz64).trans hparent,
    hcolors⟩

/-- The free block `z` is linked in behind the blocks that are not larger. -/
theorem linkBlock_spec {s : RedBlackAllocator σ} {t : BinTree Color} {z : ℕ}
    (ht : IsTree (heap s) t) (hz : z ≠ 0) (hfresh : z ∉ t.nodes) (hn : t.nodes.length ≤ s.size)
    (hsorted : t.nodes.Pairwise fun x y => getSize s x ≤ getSize s y) :
    ∃ (c : Ctx Color) (h : Heap Color), t = c.plug nil ∧ linkBlock s z = .ok h ∧ IsTree h (c.plug (node nil z .red nil)) ∧
      (∀ y ∈ c.before, getSize s y ≤ getSize s z) ∧ ∀ y ∈ c.after, getSize s z < getSize s y := by
  have ht₁ : IsTree ((heap s).modify z fun c => ⟨0, 0, c.parent, .red⟩) t := by
    refine ⟨ht.root, ht.holds.congr ?_, ht.nodup⟩
    intro y hy
    rw [Heap.cell_modify, if_neg]
    rintro rfl
    exact hfresh hy
  have hz₁ : ((heap s).modify z fun c => ⟨0, 0, c.parent, .red⟩).cell z =
      ⟨0, 0, ((heap s).cell z).parent, .red⟩ := by rw [Heap.cell_modify, if_pos rfl]
  have hrest₁ (y : ℕ) (hy : y ≠ z) : ((heap s).modify z fun c => ⟨0, 0, c.parent, .red⟩).cell y =
      (heap s).cell y := by rw [Heap.cell_modify, if_neg hy]
  unfold linkBlock
  dsimp only
  generalize ((heap s).modify z fun c => ⟨0, 0, c.parent, .red⟩) = h₁ at ht₁ hz₁ hrest₁
  obtain ⟨c, hc, hfollows, hsearch⟩ := searchParent_spec (n := turns s + 1)
    (fun node => decide (getSize s z < getSize s node)) ht₁ (by unfold turns; omega)
  subst hc
  have hmono : (c.plug (nil : BinTree Color)).nodes.Pairwise fun x y =>
      decide (getSize s z < getSize s x) = true → decide (getSize s z < getSize s y) = true := by
    refine hsorted.imp ?_
    intro x y hxy hx
    have hx' := of_decide_eq_true hx
    exact decide_eq_true (by omega)
  obtain ⟨hbefore, hafter⟩ := hfollows.splits nil hmono
  have hlink : ∃ h, (if c.parent = 0 then pure { h₁.setParent z c.parent with root := z }
      else if getSize s z < getSize s c.parent then pure ((h₁.setParent z c.parent).setChild .left c.parent z)
      else pure ((h₁.setParent z c.parent).setChild .right c.parent z) : Except LinkFault (Heap Color)) =
        .ok h ∧ h = (h₁.setParent z c.parent).set c.link z := by
    cases c with
    | top => exact ⟨_, rfl, rfl⟩
    | frame s₁ x d sib up =>
      have hx : x ≠ 0 := ht₁.focus.1.1
      rw [if_neg (show ¬ (Ctx.frame s₁ x d sib up).parent = 0 from hx)]
      cases s₁ with
      | left =>
        rw [if_pos (show getSize s z < getSize s (Ctx.frame .left x d sib up).parent from
          of_decide_eq_true (hfollows.1.mpr rfl))]
        exact ⟨_, rfl, rfl⟩
      | right =>
        rw [if_neg fun hlt : getSize s z < getSize s (Ctx.frame .right x d sib up).parent =>
          absurd (hfollows.1.mp (decide_eq_true hlt)) (by decide)]
        exact ⟨_, rfl, rfl⟩
  obtain ⟨h, hok, rfl⟩ := hlink
  have hzc : z ∉ c.nodes := fun hm => hfresh (Ctx.mem_nodes_plug.mpr (Or.inr hm))
  refine ⟨c, (h₁.setParent z c.parent).set c.link z, rfl, ?_, link_isTree ht₁ hz hfresh ?_ ?_ ?_, ?_, ?_⟩
  · rw [hsearch]
    exact hok
  · exact set_root_congr rfl
  · rw [set_cell_of_notMem hzc, Heap.cell_setParent, if_pos rfl, hz₁]
    rfl
  · intro y hy
    apply set_cell_congr
    rw [Heap.cell_setParent, if_neg hy]
  · intro y hy
    have hle := of_decide_eq_false (hbefore y hy)
    omega
  · exact fun y hy => of_decide_eq_true (hafter y hy)

theorem rbTreeInsert_eq {s s' : RedBlackAllocator σ} {z : ℕ} (hok : rbTreeInsert s z = .ok s') :
    ∃ h h', linkBlock s z = .ok h ∧ insertFix smallRotation (turns s) h z = .ok h' ∧
      s' = putNodes s h' (z :: nodes s) := by
  obtain ⟨h, hlink, hok⟩ := bind_eq_ok.mp hok
  obtain ⟨h', hfix, hok⟩ := bind_eq_ok.mp hok
  cases hok
  exact ⟨h, h', liftLink_ok hlink, liftLink_ok hfix, rfl⟩

omit [HeaderMemory σ] in
theorem Spaced.fresh {s : RedBlackAllocator σ} {xs : List ℕ} {z : ℕ} (hg : 0 < g)
    (hs : Spaced g s (z :: xs)) : z ∉ xs := by
  intro hm
  have hz := (List.pairwise_cons.mp hs.apart).1 z hm
  unfold Apart at hz
  omega

/-- A red-black tree takes in a free block, and the loops end. -/
theorem rbTreeInsert_tree (hL : LawfulHeaders σ g Within) {s : RedBlackAllocator σ}
    {t : BinTree Color} {z : ℕ} (ht : IsTree (heap s) t) (hrb : RedBlack t)
    (hs : Spaced g s (z :: t.nodes)) (hz : z ≠ 0)
    (hsorted : t.nodes.Pairwise fun x y => getSize s x ≤ getSize s y) :
    ∃ s' t', rbTreeInsert s z = .ok s' ∧ IsTree (heap s') t' ∧ RedBlack t' := by
  have hg : 0 < g := lt_of_lt_of_le (by decide) hL.room
  have hfew := hs.few
  rw [List.length_cons] at hfew
  obtain ⟨c, h, rfl, hlink, ht₁, -, -⟩ := linkBlock_spec ht hz (hs.fresh hg) (by omega) hsorted
  obtain ⟨c₀, n, hnil, hplace⟩ := redBlack_plug.mp hrb
  cases hnil
  have hlen : c.nodes.length < turns s := by
    have hperm := (c.perm_plug (nil : BinTree Color)).length_eq
    rw [nodes_nil, List.nil_append] at hperm
    unfold turns
    omega
  obtain ⟨h', t', hfix, ht', hrb'⟩ :=
    insertFix_spec smallRotation_lawful ht₁ (.red .nil .nil) hplace hlen
  rw [root_node] at hfix
  have hi₁ : InOrder h (c.plug (node nil z .red nil)).nodes := ⟨_, ht₁, rfl⟩
  obtain ⟨t₂, ht₂, hnodes⟩ := insertFix_inOrder smallRotation_lawful hi₁ (by simp [Ctx.mem_nodes_plug]) hfix
  obtain rfl := ht'.unique ht₂
  have hsub (y : ℕ) (hy : y ∈ t'.nodes) : y ∈ z :: (c.plug (nil : BinTree Color)).nodes := by
    rw [hnodes, Ctx.nodes_plug] at hy
    rw [Ctx.nodes_plug]
    exact List.perm_middle.mem_iff.mp (by simpa using hy)
  refine ⟨putNodes s h' (z :: (c.plug (nil : BinTree Color)).nodes), t', ?_,
    putNodes_isTree hL s ht' hs.apart hsub hs.lt, hrb'⟩
  rw [rbTreeInsert, hlink, nodes_eq ⟨_, ht, rfl⟩ (by unfold turns; omega)]
  show liftLink (insertFix smallRotation (turns s) h z) >>= _ = _
  rw [hfix]
  rfl

theorem rbTreeInsert_spec (hL : LawfulHeaders σ g Within) {s s' : RedBlackAllocator σ} {xs : List ℕ}
    {z : ℕ} (hi : InOrder (heap s) xs) (hs : Spaced g s (z :: xs)) (hz : z ≠ 0)
    (hsorted : xs.Pairwise fun x y => getSize s x ≤ getSize s y) (hok : rbTreeInsert s z = .ok s') :
    ∃ pre post, xs = pre ++ post ∧ InOrder (heap s') (pre ++ z :: post) ∧
      (pre ++ z :: post).Pairwise (fun x y => getSize s x ≤ getSize s y) ∧
      Rewritten g Within s s' (z :: xs) ∧ (Colored s → Colored s') := by
  have hg : 0 < g := lt_of_lt_of_le (by decide) hL.room
  have hfew := hs.few
  rw [List.length_cons] at hfew
  have hcolors : Colored s → Colored s' := by
    rintro ⟨t, ht, hrb⟩
    obtain ⟨t₁, ht₁, rfl⟩ := hi
    obtain rfl := ht.unique ht₁
    obtain ⟨s₁, t', hok', ht', hrb'⟩ := rbTreeInsert_tree hL ht hrb hs hz hsorted
    obtain rfl : s' = s₁ := Except.ok.inj (hok.symm.trans hok')
    exact ⟨t', ht', hrb'⟩
  obtain ⟨t, ht, rfl⟩ := hi
  obtain ⟨h, h', hlink, hfix, rfl⟩ := rbTreeInsert_eq hok
  obtain ⟨c, h₁, rfl, hlink₁, ht₁, hbefore, hafter⟩ :=
    linkBlock_spec ht hz (hs.fresh hg) (by omega) hsorted
  rw [hlink] at hlink₁
  cases hlink₁
  have hold : (c.plug (nil : BinTree Color)).nodes = c.before ++ c.after := by
    rw [Ctx.nodes_plug]
    simp
  have hnew : (c.plug (node nil z .red nil)).nodes = c.before ++ z :: c.after := by
    rw [Ctx.nodes_plug]
    simp
  have hi₁ : InOrder h (c.before ++ z :: c.after) := ⟨_, ht₁, hnew⟩
  have hi₂ := insertFix_inOrder smallRotation_lawful hi₁ (by simp) hfix
  rw [nodes_eq ⟨_, ht, rfl⟩ (by unfold turns; omega)] at hcolors ⊢
  rw [hold] at hs hsorted hcolors ⊢
  have hsub (y : ℕ) (hy : y ∈ c.before ++ z :: c.after) : y ∈ z :: (c.before ++ c.after) :=
    List.perm_middle.mem_iff.mp hy
  refine ⟨c.before, c.after, rfl, putNodes_inOrder hL s hi₂ hs.apart hsub hs.lt, ?_,
    putNodes_rewritten hL s h' hs.apart, hcolors⟩
  obtain ⟨hpre, hpost, hcross⟩ := List.pairwise_append.mp hsorted
  refine List.pairwise_append.mpr ⟨hpre, List.pairwise_cons.mpr ⟨?_, hpost⟩, ?_⟩
  · exact fun y hy => (hafter y hy).le
  · intro x hx y hy
    rcases List.mem_cons.mp hy with rfl | hy
    · exact hbefore x hx
    · exact hcross x hx y hy

end MaiFaSp.RedBlackAllocator
