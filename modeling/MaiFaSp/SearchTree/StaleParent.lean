import MaiFaSp.SearchTree.Rotations

/-!
# Rotations beside a stale parent pointer

A rotation reads the parent of the node it is at, and writes to the parents of that node, of its
children and of those of the child that comes up. Another parent in a node further down stays as it
is, and one in the child that goes down with the node is set right.
-/

namespace MaiFaSp.SearchTree

open LinkedTree BinTree

variable {τ : Type} {h : Heap τ} {s : Side} {a x y v w : ℕ}

/-! ### Writes in the other order -/

theorem modify_comm (h : Heap τ) {f g : Cell τ → Cell τ} (hfg : x = y → ∀ c, f (g c) = g (f c)) :
    (h.modify y g).modify x f = (h.modify x f).modify y g := by
  refine heap_eq_of_cells rfl fun z => ?_
  rw [Heap.cell_modify, Heap.cell_modify, Heap.cell_modify, Heap.cell_modify]
  by_cases hx : z = x
  · by_cases hy : z = y
    · rw [if_pos hx, if_pos hy, if_pos hy, if_pos hx, hfg (hx.symm.trans hy)]
    · rw [if_pos hx, if_neg hy, if_neg hy, if_pos hx]
  · rw [if_neg hx, if_neg hx]

theorem setChild_setParent (h : Heap τ) (s : Side) (x w y v : ℕ) :
    (h.setParent y v).setChild s x w = (h.setChild s x w).setParent y v :=
  modify_comm h fun _ c => by cases s <;> rfl

theorem setData_setParent (h : Heap τ) (x : ℕ) (d : τ) (y v : ℕ) :
    (h.setParent y v).setData x d = (h.setData x d).setParent y v :=
  modify_comm h fun _ _ => rfl

theorem setParent_setParent (hxy : x ≠ y) (h : Heap τ) (w v : ℕ) :
    (h.setParent y v).setParent x w = (h.setParent x w).setParent y v :=
  modify_comm h fun he => absurd he hxy

theorem setParentOf_setParent (hxy : x ≠ y) (h : Heap τ) (w v : ℕ) :
    setParentOf (h.setParent y v) x w = (setParentOf h x w).setParent y v := by
  unfold setParentOf
  split
  · exact setParent_setParent hxy h w v
  · rfl

theorem setParentOf_same (hy : y ≠ 0) (h : Heap τ) (w v : ℕ) :
    setParentOf (h.setParent y v) y w = setParentOf h y w := by
  unfold setParentOf
  rw [if_pos hy, if_pos hy]
  refine heap_eq_of_cells rfl fun z => ?_
  rw [Heap.cell_setParent, Heap.cell_setParent, Heap.cell_setParent]
  split <;> rfl

theorem child_setParent (h : Heap τ) (s : Side) (x y v : ℕ) :
    (h.setParent y v).child s x = h.child s x := by
  unfold Heap.child
  rw [Heap.cell_setParent]
  split
  · cases s <;> rfl
  · rfl

theorem left_setParent (h : Heap τ) (x y v : ℕ) : (h.setParent y v).left x = h.left x :=
  child_setParent h .left x y v

theorem right_setParent (h : Heap τ) (x y v : ℕ) : (h.setParent y v).right x = h.right x :=
  child_setParent h .right x y v

theorem parent_setParent (hxy : x ≠ y) (h : Heap τ) (v : ℕ) :
    (h.setParent y v).parent x = h.parent x := by
  unfold Heap.parent
  rw [Heap.cell_setParent, if_neg hxy]

theorem relinkParent_setParent (hay : a ≠ y) (h : Heap τ) (w v : ℕ) :
    relinkParent (h.setParent y v) a w = (relinkParent h a w).setParent y v := by
  unfold relinkParent
  rw [parent_setParent hay, left_setParent, setChild_setParent, setChild_setParent]
  split
  · split <;> rfl
  · rfl

/-! ### Rotations -/

/-- The node `y` is none of those whose parents a rotation at `a` to side `s` reads or writes. -/
structure Beside (h : Heap τ) (s : Side) (a y : ℕ) : Prop where
  at_node : a ≠ y
  near : h.child s a ≠ y
  far : h.child s.other a ≠ y
  below : ∀ s', h.child s' (h.child s.other a) ≠ y

theorem rotation_setParent (hy : Beside h s a y) (v : ℕ) :
    rotation s (h.setParent y v) a = ((rotation s h a).1.setParent y v, (rotation s h a).2) := by
  obtain ⟨ha, hnear, hfar, hbelow⟩ := hy
  cases s with
  | left =>
    have hb : h.left a ≠ y := hnear
    have hc : h.right a ≠ y := hfar
    have hd : h.left (h.right a) ≠ y := hbelow .left
    have he : h.right (h.right a) ≠ y := hbelow .right
    show leftRotation _ _ = ((leftRotation _ _).1.setParent y v, (leftRotation _ _).2)
    unfold leftRotation
    simp only [left_setParent, right_setParent, relinkParent_setParent ha, setChild_setParent,
      parent_setParent ha, setParent_setParent hc, setParent_setParent ha, setParentOf_setParent hb,
      setParentOf_setParent hd, setParentOf_setParent he]
    split
    · rfl
    · split <;> rfl
  | right =>
    have hb : h.left a ≠ y := hfar
    have hc : h.right a ≠ y := hnear
    have hd : h.left (h.left a) ≠ y := hbelow .left
    have he : h.right (h.left a) ≠ y := hbelow .right
    show rightRotation _ _ = ((rightRotation _ _).1.setParent y v, (rightRotation _ _).2)
    unfold rightRotation
    simp only [left_setParent, right_setParent, relinkParent_setParent ha, setChild_setParent,
      parent_setParent ha, setParent_setParent hb, setParent_setParent ha, setParentOf_setParent hc,
      setParentOf_setParent hd, setParentOf_setParent he]
    split
    · rfl
    · split <;> rfl

/-- The child that goes down with the node gets the right parent. -/
theorem rotation_absorbs {b : ℕ} (hb : h.child s a = b) (hb0 : b ≠ 0) (ha0 : a ≠ 0)
    (hc0 : h.child s.other a ≠ 0) (ha : a ≠ b) (hfar : h.child s.other a ≠ b)
    (hbelow : ∀ s', h.child s' (h.child s.other a) ≠ b) (v : ℕ) :
    rotation s (h.setParent b v) a = rotation s h a := by
  cases s with
  | left =>
    have hleft : h.left a = b := hb
    have hc : h.right a ≠ b := hfar
    have hc0 : h.right a ≠ 0 := hc0
    have he : h.right (h.right a) ≠ b := hbelow .right
    show leftRotation _ _ = leftRotation _ _
    unfold leftRotation
    rw [right_setParent, if_neg ha0, if_neg hc0, if_neg ha0, if_neg hc0]
    simp only [left_setParent, right_setParent, relinkParent_setParent ha, setChild_setParent,
      parent_setParent ha, setParent_setParent hc, setParent_setParent ha, setParentOf_setParent he,
      hleft, setParentOf_same hb0]
  | right =>
    have hright : h.right a = b := hb
    have hc : h.left a ≠ b := hfar
    have hc0 : h.left a ≠ 0 := hc0
    have hd : h.left (h.left a) ≠ b := hbelow .left
    have he : h.right (h.left a) ≠ b := hbelow .right
    show rightRotation _ _ = rightRotation _ _
    unfold rightRotation
    rw [left_setParent, if_neg ha0, if_neg hc0, if_neg ha0, if_neg hc0]
    simp only [left_setParent, right_setParent, relinkParent_setParent ha, setChild_setParent,
      parent_setParent ha, setParent_setParent hc, setParent_setParent ha, setParentOf_setParent hd,
      setParentOf_setParent he, hright, setParentOf_same hb0]

/-! ### The node in a tree -/

section Tree

variable {c : Ctx τ} {A B C P Q : BinTree τ} {r z : ℕ} {d dr dz : τ}

theorem rotation_reads (hs : Stands h (c.plug (join s A x d (join s B r dr C)))) :
    x ≠ 0 ∧ r ≠ 0 ∧ h.child s x = A.root ∧ h.child s.other x = r ∧ h.child s r = B.root ∧
      h.child s.other r = C.root := by
  have hr := hs.reads
  rw [root_join] at hr
  have hs' : Stands h ((Ctx.frame s.other x d A c).plug (join s B r dr C)) := by
    rw [Ctx.plug_other]
    exact hs
  have hr' := hs'.reads
  exact ⟨hr.ne_zero, hr'.ne_zero, hr.child, hr.other, hr'.child, hr'.other⟩

theorem below_ne (hs : Stands h (c.plug (join s A x d (join s B r dr C)))) (hy0 : y ≠ 0)
    (hy : y ∉ (join s B r dr C).nodes) (s' : Side) : h.child s' (h.child s.other x) ≠ y := by
  obtain ⟨-, -, -, hfar, hB, hC⟩ := rotation_reads hs
  rw [mem_nodes_join, not_or, not_or] at hy
  have hne {u : BinTree τ} (hu : y ∉ u.nodes) : u.root ≠ y := by
    rintro rfl
    exact hu (root_mem hy0)
  have hside : s' = s ∨ s' = s.other := by cases s <;> cases s' <;> decide
  rw [hfar]
  rcases hside with rfl | rfl
  · rw [hB]
    exact hne hy.2.1
  · rw [hC]
    exact hne hy.2.2

/-- A node outside of the higher subtree that is not the root of the other one is beside the rotation. -/
theorem beside_of_notMem (hs : Stands h (c.plug (join s A x d (join s B r dr C)))) (hy0 : y ≠ 0)
    (hyx : y ≠ x) (hyA : y ≠ A.root) (hy : y ∉ (join s B r dr C).nodes) : Beside h s x y := by
  obtain ⟨-, -, hA, hfar, -, -⟩ := rotation_reads hs
  refine ⟨hyx.symm, ?_, ?_, below_ne hs hy0 hy⟩
  · rw [hA]
    exact hyA.symm
  · rw [hfar]
    rintro rfl
    exact hy ((mem_nodes_join ..).mpr (Or.inl rfl))

/-- The nodes of the lower subtree are in no other part of the tree. -/
theorem lower_separate (hs : Stands h (c.plug (join s A x d B))) (hy : y ∈ A.nodes) :
    y ≠ 0 ∧ y ≠ x ∧ y ∉ B.nodes := by
  obtain ⟨hxA, -, -, -, hdis⟩ := nodup_join.mp hs.isTree.separate.1
  refine ⟨?_, fun he => hxA (he ▸ hy), hdis y hy⟩
  exact hs.isTree.ne_zero (Ctx.mem_nodes_plug.mpr (Or.inl (by simp [mem_nodes_join, hy])))

theorem rotation_beside (hs : Stands h (c.plug (join s A x d (join s B r dr C)))) (hy : y ∈ A.nodes)
    (hyA : y ≠ A.root) (v : ℕ) :
    rotation s (h.setParent y v) x = ((rotation s h x).1.setParent y v, (rotation s h x).2) := by
  obtain ⟨hy0, hyx, hyR⟩ := lower_separate hs hy
  exact rotation_setParent (beside_of_notMem hs hy0 hyx hyA hyR) v

theorem rotation_sets (hs : Stands h (c.plug (join s A x d (join s B r dr C)))) (hA : A.root ≠ 0)
    (v : ℕ) : rotation s (h.setParent A.root v) x = rotation s h x := by
  obtain ⟨-, hyx, hyR⟩ := lower_separate hs (root_mem hA)
  obtain ⟨hx, hr, hnear, hfar, -, -⟩ := rotation_reads hs
  refine rotation_absorbs hnear hA hx (by rw [hfar]; exact hr) hyx.symm ?_ (below_ne hs hA hyR) v
  rw [hfar]
  rintro rfl
  exact hyR ((mem_nodes_join ..).mpr (Or.inl rfl))

theorem smallRotation_setParent (hs : Stands h (c.plug (join s A x d (join s.other C r dr
      (join s.other Q z dz P))))) (hy : y ∈ A.nodes) (v : ℕ) :
    smallRotation s.other (h.setParent y v) (.child s.other x) =
      (smallRotation s.other h (.child s.other x)).setParent y v := by
  obtain ⟨hy0, hyx, hyR⟩ := lower_separate hs hy
  have hs' : Stands h ((Ctx.frame s.other x d A c).plug (join s.other C r dr (join s.other Q z dz P))) := by
    rw [Ctx.plug_other]
    exact hs
  rw [mem_nodes_join, not_or, not_or] at hyR
  have hyC : y ≠ C.root := by
    rintro rfl
    exact hyR.2.1 (root_mem hy0)
  have hbeside := beside_of_notMem hs' hy0 hyR.1 hyC hyR.2.2
  have hget : (h.setParent y v).get (.child s.other x) = r :=
    (child_setParent h s.other x y v).trans (hs'.get_link.trans (root_join ..))
  have hget' : h.get (.child s.other x) = r := hs'.get_link.trans (root_join ..)
  unfold smallRotation
  rw [hget, hget', rotation_setParent hbeside]
  exact setChild_setParent ..

theorem bigRotation_eq (hs : Stands h (c.plug (join s A x d (join s.other C r dr
      (join s.other Q z dz P))))) :
    bigRotation s h x = rotation s (smallRotation s.other h (.child s.other x)) x ∧
      Stands (smallRotation s.other h (.child s.other x)) (c.plug (join s A x d (join s P z dz
        (join s.other C r dr Q)))) := by
  have hr := hs.reads
  rw [root_join] at hr
  have hr0 : r ≠ 0 := hs.isTree.ne_zero (by simp [Ctx.mem_nodes_plug, mem_nodes_join])
  have hs' : Stands h ((Ctx.frame s.other x d A c).plug (join s.other C r dr (join s.other Q z dz P))) := by
    rw [Ctx.plug_other]
    exact hs
  have hsmall := hs'.smallRotation
  rw [Ctx.plug_other, Ctx.plug, join_other] at hsmall
  refine ⟨?_, hsmall⟩
  unfold bigRotation
  rw [hr.other, if_neg hr0]

theorem bigRotation_beside (hs : Stands h (c.plug (join s A x d (join s.other C r dr
      (join s.other Q z dz P))))) (hy : y ∈ A.nodes) (hyA : y ≠ A.root) (v : ℕ) :
    bigRotation s (h.setParent y v) x = ((bigRotation s h x).1.setParent y v, (bigRotation s h x).2) := by
  obtain ⟨hbig, hs'⟩ := bigRotation_eq hs
  have hr := hs.reads
  rw [root_join] at hr
  have hr0 : r ≠ 0 := hs.isTree.ne_zero (by simp [Ctx.mem_nodes_plug, mem_nodes_join])
  have hbig' : bigRotation s (h.setParent y v) x =
      rotation s (smallRotation s.other (h.setParent y v) (.child s.other x)) x := by
    unfold bigRotation
    rw [child_setParent, hr.other, if_neg hr0]
  rw [hbig', hbig, smallRotation_setParent hs hy, rotation_beside hs' hy hyA]

theorem bigRotation_sets (hs : Stands h (c.plug (join s A x d (join s.other C r dr
      (join s.other Q z dz P))))) (hA : A.root ≠ 0) (v : ℕ) :
    bigRotation s (h.setParent A.root v) x = bigRotation s h x := by
  obtain ⟨hbig, hs'⟩ := bigRotation_eq hs
  have hr := hs.reads
  rw [root_join] at hr
  have hr0 : r ≠ 0 := hs.isTree.ne_zero (by simp [Ctx.mem_nodes_plug, mem_nodes_join])
  have hbig' : bigRotation s (h.setParent A.root v) x =
      rotation s (smallRotation s.other (h.setParent A.root v) (.child s.other x)) x := by
    unfold bigRotation
    rw [child_setParent, hr.other, if_neg hr0]
  rw [hbig', hbig, smallRotation_setParent hs (root_mem hA), rotation_sets hs' hA]

end Tree

end MaiFaSp.SearchTree
