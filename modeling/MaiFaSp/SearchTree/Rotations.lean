import MaiFaSp.Lib.TreeSurgery
import MaiFaSp.SearchTree.Container

/-!
# The rotations of the search trees (`binary_search_tree.h`)

A small rotation at a node rotates the tree there and gives the node that came up;
the root pointer is up to its caller, so the trees here stand in a heap wherever its
root pointer points.
-/

namespace MaiFaSp.SearchTree

open LinkedTree BinTree

variable {τ : Type} {h h' : Heap τ} {c : Ctx τ} {t A B C : BinTree τ} {s : Side} {n r v : ℕ}
  {dn dr : τ}

theorem heap_eq_of_cells (hroot : h'.root = h.root)
    (hcell : ∀ y, h'.cell y = h.cell y) : h' = h := by
  cases h
  cases h'
  cases hroot
  exact congrArg _ (funext hcell)

theorem cell_setParentOf (h : Heap τ) (x v y : ℕ) :
    (setParentOf h x v).cell y = if x ≠ 0 ∧ y = x then (h.cell y).setParent v else h.cell y := by
  unfold setParentOf
  by_cases hx : x = 0
  · rw [if_neg (not_not.mpr hx), if_neg fun he => he.1 hx]
  · rw [if_pos hx, Heap.cell_setParent]
    by_cases hy : y = x
    · rw [if_pos hy, if_pos ⟨hx, hy⟩]
    · rw [if_neg hy, if_neg fun he => hy he.2]

@[simp] theorem root_setParentOf (h : Heap τ) (x v : ℕ) : (setParentOf h x v).root = h.root := by
  unfold setParentOf
  split <;> rfl

/-- The tree is in the heap, wherever the root pointer points. -/
structure Stands (h : Heap τ) (t : BinTree τ) : Prop where
  holds : Holds h 0 t
  nodup : t.nodes.Nodup

theorem Stands.isTree (hs : Stands h t) : IsTree { h with root := t.root } t :=
  ⟨rfl, hs.holds.congr fun _ _ => rfl, hs.nodup⟩

theorem stands_of_isTree (ht : IsTree h t) : Stands h t := ⟨ht.holds, ht.nodup⟩

theorem Stands.congr (hs : Stands h t) (hcell : ∀ y ∈ t.nodes, h'.cell y = h.cell y) : Stands h' t :=
  ⟨hs.holds.congr hcell, hs.nodup⟩

theorem Stands.below (hs : Stands h (c.plug t)) : Holds h c.parent t :=
  hs.isTree.focus.2.congr fun _ _ => rfl

theorem Stands.reads (hs : Stands h (c.plug (join s A n dn B))) :
    Reads h s n A.root B.root c.parent dn := by
  have hr := hs.isTree.reads
  exact ⟨hr.ne_zero, hr.child, hr.other, hr.parent, hr.data⟩

theorem relinkParent_cell (hs : Stands h (c.plug t)) (ht : t.root ≠ 0) (y : ℕ) :
    (relinkParent h t.root v).cell y = (h.set c.link v).cell y := by
  have hparent : h.parent t.root = c.parent := hs.isTree.parent_focus ht
  have hlink : h.linkTo t.root = c.link := hs.isTree.linkTo_eq ht
  rw [← hlink]
  unfold relinkParent Heap.linkTo
  rw [hparent]
  by_cases hc : c.parent = 0
  · rw [if_neg (not_not.mpr hc), if_pos hc]
    rfl
  · rw [if_pos hc, if_neg hc]
    split <;> rfl

@[simp] theorem root_relinkParent (h : Heap τ) (a v : ℕ) : (relinkParent h a v).root = h.root := by
  unfold relinkParent
  split
  · split <;> rfl
  · rfl

theorem rotation_root (h : Heap τ) (s : Side) (a : ℕ) : (rotation s h a).1.root = h.root := by
  cases s
  · show (leftRotation h a).1.root = _
    unfold leftRotation
    split
    · rfl
    · split
      · rfl
      · simp
  · show (rightRotation h a).1.root = _
    unfold rightRotation
    split
    · rfl
    · split
      · rfl
      · simp

/-- Without a child to come up nothing is done. -/
theorem rotation_stuck (hc : h.child s.other n = 0) : rotation s h n = (h, n) := by
  by_cases hn : n = 0
  · cases s with
    | left => exact if_pos hn
    | right => exact if_pos hn
  · cases s with
    | left =>
      have hright : h.right n = 0 := hc
      exact (if_neg hn).trans (if_pos hright)
    | right =>
      have hleft : h.left n = 0 := hc
      exact (if_neg hn).trans (if_pos hleft)

theorem holds_parent {p : ℕ} (ht : Holds h p t) (hne : t.root ≠ 0) : (h.cell t.root).parent = p := by
  cases t with
  | nil => exact absurd rfl hne
  | node l x d r => rw [root_node, ht.2.1]

theorem setParent_kept {x : Cell τ} {P : Prop} [Decidable P] {w : ℕ} (hw : P → x.parent = w) :
    (if P then x.setParent w else x) = x := by
  split
  case isTrue hp =>
    rw [← hw hp]
    rfl
  case isFalse => rfl

/-- The cells after a rotation to the left, from those after the parent points to `r`. -/
theorem leftRotation_cell {a b e p : ℕ} (hn : n ≠ 0) (hr : r ≠ 0) (hcn : h.cell n = ⟨a, r, p, dn⟩)
    (hcr : h.cell r = ⟨b, e, n, dr⟩) (hkn : (relinkParent h n r).cell n = ⟨a, r, p, dn⟩)
    (hkr : (relinkParent h n r).cell r = ⟨b, e, n, dr⟩) (hnr : n ≠ r) (han : a ≠ n) (har : a ≠ r)
    (hbn : b ≠ n) (hbr : b ≠ r) (hen : e ≠ n) (her : e ≠ r)
    (hpa : a ≠ 0 → ((relinkParent h n r).cell a).parent = n)
    (hpe : e ≠ 0 → ((relinkParent h n r).cell e).parent = r) (y : ℕ) :
    (leftRotation h n).1.cell y =
      if y = r then ⟨n, e, p, dr⟩ else if y = n then ⟨a, b, r, dn⟩
      else if b ≠ 0 ∧ y = b then ((relinkParent h n r).cell y).setParent n
      else (relinkParent h n r).cell y := by
  have hleft : h.left n = a := by rw [Heap.left, hcn]
  have hright : h.right n = r := by rw [Heap.right, hcn]
  have hleftr : h.left r = b := by rw [Heap.left, hcr]
  have hrightr : h.right r = e := by rw [Heap.right, hcr]
  unfold leftRotation
  rw [if_neg hn, hright, if_neg hr, hleft]
  dsimp only
  rw [hleftr, hrightr]
  generalize relinkParent h n r = k at hkn hkr hpa hpe
  simp only [cell_setParentOf, Heap.cell_setChild, Heap.cell_setParent, Heap.parent]
  by_cases hyr : y = r
  · subst hyr
    simp [*, hnr.symm, har.symm, hbr.symm, her.symm, Cell.setChild, Cell.setParent]
  · by_cases hyn : y = n
    · subst hyn
      simp [*, han.symm, hbn.symm, hen.symm, Cell.setChild, Cell.setParent]
    · have hkeepe := setParent_kept (x := k.cell y) (P := e ≠ 0 ∧ y = e) (w := r)
        fun he => by rw [he.2]; exact hpe he.1
      have hkeepa := setParent_kept (x := k.cell y) (P := a ≠ 0 ∧ y = a) (w := n)
        fun he => by rw [he.2]; exact hpa he.1
      rw [if_neg hyr, if_neg hyn, if_neg hyr, if_neg hyr, if_neg hyn, if_neg hyr, if_neg hyn, if_neg hyn,
        hkeepe, hkeepa]

theorem rightRotation_cell {a b e p : ℕ} (hn : n ≠ 0) (hr : r ≠ 0) (hcn : h.cell n = ⟨r, a, p, dn⟩)
    (hcr : h.cell r = ⟨e, b, n, dr⟩) (hkn : (relinkParent h n r).cell n = ⟨r, a, p, dn⟩)
    (hkr : (relinkParent h n r).cell r = ⟨e, b, n, dr⟩) (hnr : n ≠ r) (han : a ≠ n) (har : a ≠ r)
    (hbn : b ≠ n) (hbr : b ≠ r) (hen : e ≠ n) (her : e ≠ r)
    (hpa : a ≠ 0 → ((relinkParent h n r).cell a).parent = n)
    (hpe : e ≠ 0 → ((relinkParent h n r).cell e).parent = r) (y : ℕ) :
    (rightRotation h n).1.cell y =
      if y = r then ⟨e, n, p, dr⟩ else if y = n then ⟨b, a, r, dn⟩
      else if b ≠ 0 ∧ y = b then ((relinkParent h n r).cell y).setParent n
      else (relinkParent h n r).cell y := by
  have hleft : h.left n = r := by rw [Heap.left, hcn]
  have hright : h.right n = a := by rw [Heap.right, hcn]
  have hleftr : h.left r = e := by rw [Heap.left, hcr]
  have hrightr : h.right r = b := by rw [Heap.right, hcr]
  unfold rightRotation
  rw [if_neg hn, hleft, if_neg hr, hright]
  dsimp only
  rw [hleftr, hrightr]
  generalize relinkParent h n r = k at hkn hkr hpa hpe
  simp only [cell_setParentOf, Heap.cell_setChild, Heap.cell_setParent, Heap.parent]
  by_cases hyr : y = r
  · subst hyr
    simp [*, hnr.symm, har.symm, hbr.symm, her.symm, Cell.setChild, Cell.setParent]
  · by_cases hyn : y = n
    · subst hyn
      simp [*, han.symm, hbn.symm, hen.symm, Cell.setChild, Cell.setParent]
    · have hkeepe := setParent_kept (x := k.cell y) (P := e ≠ 0 ∧ y = e) (w := r)
        fun he => by rw [he.2]; exact hpe he.1
      have hkeepa := setParent_kept (P := a ≠ 0 ∧ y = a) (w := n)
        (x := if b ≠ 0 ∧ y = b then (k.cell y).setParent n else k.cell y)
        fun he => by
          split
          · rfl
          · rw [he.2]
            exact hpa he.1
      rw [if_neg hyr, if_neg hyn, if_neg hyn, if_neg hyn, if_neg hyr, if_neg hyn, if_neg hyr, if_neg hyr,
        hkeepe, hkeepa]

theorem rotation_rotated (hs : Stands h (c.plug (join s A n dn (join s B r dr C)))) :
    (rotation s h n).2 = r ∧ Rotated h ((rotation s h n).1.set c.link r) s c.link c.parent n r B.root ∧
      ∀ y, ((rotation s h n).1.set c.link r).cell y = (rotation s h n).1.cell y := by
  have ht := hs.isTree
  obtain ⟨hnd, -, hsep⟩ := ht.separate
  obtain ⟨hn, hcn, hA, hR⟩ := holds_join.mp hs.below
  obtain ⟨hr, hcr, hB, hC⟩ := holds_join.mp hR
  obtain ⟨hnA, hnR, -, hRnd, hAR⟩ := nodup_join.mp hnd
  obtain ⟨hrB, hrC, -, -, hBC⟩ := nodup_join.mp hRnd
  simp only [mem_nodes_join, not_or] at hnR hAR hsep
  rw [root_join] at hcn
  have hrootne {u : BinTree τ} {w : ℕ} (hw0 : w ≠ 0) (hw : w ∉ u.nodes) : u.root ≠ w := by
    rintro rfl
    exact hw (root_mem hw0)
  have hAn := hrootne hn hnA
  have hBn := hrootne hn hnR.2.1
  have hCn := hrootne hn hnR.2.2
  have hAr := hrootne hr fun hm => (hAR r hm).1 rfl
  have hBr := hrootne hr hrB
  have hCr := hrootne hr hrC
  have hrelink (y : ℕ) : (relinkParent h n r).cell y = (h.set c.link r).cell y := by
    have hy := relinkParent_cell (v := r) hs (by rw [root_join]; exact hn) y
    rwa [root_join] at hy
  have hinside {y : ℕ} (hy : y = n ∨ y ∈ A.nodes ∨ y = r ∨ y ∈ B.nodes ∨ y ∈ C.nodes) :
      (relinkParent h n r).cell y = h.cell y := by
    rw [hrelink, set_cell_of_notMem (hsep y hy)]
  have hpA (h0 : A.root ≠ 0) : ((relinkParent h n r).cell A.root).parent = n := by
    rw [hinside (by simp [root_mem h0])]
    exact holds_parent hA h0
  have hpC (h0 : C.root ≠ 0) : ((relinkParent h n r).cell C.root).parent = r := by
    rw [hinside (by simp [root_mem h0])]
    exact holds_parent hC h0
  have hcells : (rotation s h n).2 = r ∧ ∀ y, (rotation s h n).1.cell y =
      if y = r then .joined s n C.root c.parent dr else if y = n then .joined s A.root B.root r dn
      else if B.root ≠ 0 ∧ y = B.root then ((relinkParent h n r).cell y).setParent n
      else (relinkParent h n r).cell y := by
    have hkn := (hinside (Or.inl rfl)).trans hcn
    have hkr := (hinside (by simp)).trans hcr
    cases s with
    | left =>
      refine ⟨?_, leftRotation_cell hn hr hcn hcr hkn hkr hnR.1 hAn hAr hBn hBr hCn hCr hpA hpC⟩
      show (leftRotation h n).2 = r
      unfold leftRotation
      rw [if_neg hn, Heap.right, hcn, if_neg (show ¬ (Cell.joined .left A.root r c.parent dn).right = 0 from hr)]
      rfl
    | right =>
      refine ⟨?_, rightRotation_cell hn hr hcn hcr hkn hkr hnR.1 hAn hAr hBn hBr hCn hCr hpA hpC⟩
      show (rightRotation h n).2 = r
      unfold rightRotation
      rw [if_neg hn, Heap.left, hcn, if_neg (show ¬ (Cell.joined .right A.root r c.parent dn).left = 0 from hr)]
      rfl
  obtain ⟨hsnd, hcell⟩ := hcells
  have hset (y : ℕ) : ((rotation s h n).1.set c.link r).cell y = (rotation s h n).1.cell y := by
    cases c with
    | top => rfl
    | frame side q dq sib up =>
      have hout := hsep
      simp only [Ctx.nodes, List.mem_cons, not_or] at hout
      have hqn : q ≠ n := fun he => (hout n (Or.inl rfl)).1 he.symm
      have hqr : q ≠ r := fun he => (hout r (by simp)).1 he.symm
      have hqB : ¬ (B.root ≠ 0 ∧ q = B.root) :=
        fun he => (hout B.root (by simp [root_mem he.1])).1 he.2.symm
      rw [Ctx.link, Heap.set, Heap.cell_setChild]
      split
      case isTrue hy =>
        rw [hy, hcell, if_neg hqr, if_neg hqn, if_neg hqB, hrelink, Ctx.link, Heap.set,
          Heap.cell_setChild, if_pos rfl, Cell.setChild_setChild]
      case isFalse => rfl
  refine ⟨hsnd, ⟨?_, ?_, ?_, ?_, ?_⟩, hset⟩
  · exact set_root_congr (rotation_root h s n)
  · rw [hset, hcell, if_pos rfl, hcr, Cell.setChild_joined, Cell.setParent_joined]
  · rw [hset, hcell, if_neg hnR.1, if_pos rfl, hcn, Cell.setChild_other_joined, Cell.setParent_joined]
  · intro h0
    rw [hset, hcell, if_neg hBr, if_neg hBn, if_pos ⟨h0, rfl⟩, hinside (by simp [root_mem h0])]
  · intro y hy0 hyn hyr hyB
    rw [hset, hcell, if_neg hyr, if_neg hyn, if_neg fun he => hyB he.2, hrelink]

theorem Stands.rotation (hs : Stands h (c.plug (join s A n dn (join s B r dr C)))) :
    (rotation s h n).2 = r ∧
      Stands (rotation s h n).1 (c.plug (join s (join s A n dn B) r dr C)) := by
  obtain ⟨hsnd, hrot, hset⟩ := rotation_rotated hs
  refine ⟨hsnd, ?_⟩
  have ht := hs.isTree
  generalize (c.plug (join s A n dn (join s B r dr C))).root = v at ht
  have hcell (y : ℕ) : (Heap.set { h with root := v } c.link r).cell y = (h.set c.link r).cell y :=
    set_cell_congr rfl
  -- the same cells under a root pointer that follows the rotation
  have hrot' : Rotated { h with root := v }
      { (SearchTree.rotation s h n).1.set c.link r with
        root := (Heap.set { h with root := v } c.link r).root } s c.link c.parent n r B.root :=
    ⟨rfl, hrot.up, hrot.down, hrot.moved,
      fun y h0 hn hr hB => (hrot.rest y h0 hn hr hB).trans (hcell y).symm⟩
  have hstands := stands_of_isTree (ht.rotate hrot')
  exact hstands.congr fun y _ => (hset y).symm

theorem Stands.get_link {q : ℕ} {dq : τ} {sib : BinTree τ} {up : Ctx τ} {side : Side}
    (hs : Stands h ((Ctx.frame side q dq sib up).plug t)) : h.child side q = t.root :=
  hs.isTree.get_link

theorem Stands.smallRotation {q : ℕ} {dq : τ} {sib : BinTree τ} {up : Ctx τ} {side : Side}
    (hs : Stands h ((Ctx.frame side q dq sib up).plug (join s A n dn (join s B r dr C)))) :
    Stands (smallRotation s h (.child side q))
      ((Ctx.frame side q dq sib up).plug (join s (join s A n dn B) r dr C)) := by
  obtain ⟨hsnd, hstands⟩ := hs.rotation
  have hget : h.get (.child side q) = n := hs.get_link.trans (root_join ..)
  obtain ⟨-, -, hset⟩ := rotation_rotated hs
  have hsmall : SearchTree.smallRotation s h (.child side q) =
      (SearchTree.rotation s h n).1.set (.child side q) r := by
    unfold SearchTree.smallRotation
    rw [hget]
    show (SearchTree.rotation s h n).1.set _ (SearchTree.rotation s h n).2 = _
    rw [hsnd]
  rw [hsmall]
  exact hstands.congr fun y _ => hset y

theorem Stands.doubleRotation {D l : BinTree τ} {g p x : ℕ} {dg dp dx : τ}
    (hs : Stands h (c.plug (join s D g dg (join s C p dp (join s A x dx l))))) :
    Stands (doubleRotation s h g).1 (c.plug (join s (join s (join s D g dg C) p dp A) x dx l)) := by
  have hg := hs.reads
  have hp : Reads h s p C.root x g dp := by
    have hs' : Stands h ((Ctx.frame s.other g dg D c).plug (join s C p dp (join s A x dx l))) := by
      rw [Ctx.plug_other]
      exact hs
    have hr := hs'.reads
    rwa [root_join] at hr
  have hx : x ≠ 0 := hs.isTree.ne_zero (by simp [Ctx.mem_nodes_plug, mem_nodes_join])
  obtain ⟨hsnd, hfirst⟩ := hs.rotation
  obtain ⟨-, hsecond⟩ := hfirst.rotation
  unfold SearchTree.doubleRotation
  rw [hg.other, root_join, hp.other, if_neg (not_or.mpr ⟨hp.ne_zero, hx⟩)]
  dsimp only
  rw [hsnd]
  exact hsecond

theorem Stands.bigRotation {D P l : BinTree τ} {g p x : ℕ} {dg dp dx : τ}
    (hs : Stands h (c.plug (join s D g dg (join s.other P p dp (join s.other l x dx A))))) :
    (bigRotation s h g).2 = x ∧
      Stands (bigRotation s h g).1 (c.plug (join s (join s D g dg A) x dx (join s.other P p dp l))) := by
  have hg := hs.reads
  have hp : p ≠ 0 := hs.isTree.ne_zero (by simp [Ctx.mem_nodes_plug, mem_nodes_join])
  have hs' : Stands h ((Ctx.frame s.other g dg D c).plug
      (join s.other P p dp (join s.other l x dx A))) := by
    rw [Ctx.plug_other]
    exact hs
  have hsmall := hs'.smallRotation
  rw [Ctx.plug_other, Ctx.plug, join_other] at hsmall
  unfold SearchTree.bigRotation
  rw [hg.other, root_join, if_neg hp]
  exact hsmall.rotation

end MaiFaSp.SearchTree
