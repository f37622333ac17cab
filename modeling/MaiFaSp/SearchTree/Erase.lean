import MaiFaSp.SearchTree.Rotations

/-!
# The removal from the plain tree (`binary_search_tree.h:2937-3028`)

A node with one child at most gives its place to that child, and a node with two
children to its predecessor. The first needs a parent unless there is a right child. The
second is right where the predecessor is further down and has no child; a
predecessor that is the left child itself is cut off from the wrong parent.
-/

namespace MaiFaSp.SearchTree

open LinkedTree BinTree

section Few

variable {τ : Type} {h : Heap τ} {c : Ctx τ} {l r X : BinTree τ} {n turns : ℕ} {d : τ}

theorem replaceChild_eq (h : Heap τ) (n v : ℕ) : replaceChild h (h.parent n) n v =
    if h.parent n = 0 then .error .nullDereference else .ok (h.set (h.linkTo n) v) := by
  unfold replaceChild deref Heap.linkTo
  by_cases hp : h.parent n = 0
  · rw [if_pos hp, if_pos hp]
    rfl
  · rw [if_neg hp, if_neg hp, if_neg hp]
    by_cases hl : n = h.left (h.parent n)
    · rw [if_pos hl]
      exact congrArg Except.ok (if_pos hl.symm)
    · rw [if_neg hl]
      exact congrArg Except.ok (if_neg fun he => hl he.symm)

theorem reads_node (ht : IsTree h (c.plug (node l n d r))) : n ≠ 0 ∧ h.left n = l.root ∧
    h.right n = r.root ∧ h.parent n = c.parent ∧ h.linkTo n = c.link := by
  obtain ⟨hn, hleft, hright, hparent⟩ := ht.reads_place
  exact ⟨hn, hleft, hright, hparent, ht.linkTo_eq hn⟩

/-- The heap after `X` came to the place of its parent. -/
def promoted (h : Heap τ) (c : Ctx τ) (X : BinTree τ) : Heap τ :=
  setParentOf (h.set c.link X.root) X.root c.parent

theorem promoted_isTree {p : ℕ} {u : BinTree τ} (ht : IsTree h (c.plug u)) (hX : Holds h p X)
    (hnd : X.nodes.Nodup) (hsub : ∀ y ∈ X.nodes, y ∈ u.nodes) : IsTree (promoted h c X) (c.plug X) := by
  obtain ⟨-, -, hsep⟩ := ht.separate
  unfold promoted setParentOf
  refine ht.promote hX hnd hsub ?_ ?_ ?_
  · split <;> rfl
  · intro h0
    rw [if_pos h0, Heap.cell_setParent, if_pos rfl,
      set_cell_of_notMem (hsep _ (hsub _ (root_mem h0)))]
  · intro y hy
    split
    · rw [Heap.cell_setParent, if_neg hy]
    · rfl

theorem parent_promoted (ht : IsTree h (c.plug (node l n d r)))
    (hsub : ∀ y ∈ X.nodes, y ∈ l.nodes ∨ y ∈ r.nodes) : (promoted h c X).parent n = c.parent := by
  obtain ⟨hnd, -, hsep⟩ := ht.separate
  obtain ⟨-, -, -, hparent, -⟩ := reads_node ht
  have hn : n ∉ c.nodes := hsep n (by simp)
  have hX : X.root ≠ 0 → n ≠ X.root := by
    rintro h0 he
    have hnode : (join .left l n d r).nodes.Nodup := hnd
    obtain ⟨hnl, hnr, -⟩ := nodup_join.mp hnode
    exact (hsub n (he ▸ root_mem h0)).elim hnl hnr
  unfold promoted setParentOf Heap.parent
  split
  case isTrue h0 =>
    rw [Heap.cell_setParent, if_neg (hX h0), set_cell_of_notMem hn]
    exact hparent
  case isFalse h0 =>
    rw [set_cell_of_notMem hn]
    exact hparent

/-- Without a right child the left one takes the place; the parent is followed. -/
theorem eraseLinks_noRight (ht : IsTree h (c.plug (node l n d nil))) : eraseLinks turns h n =
    if c.parent = 0 then .error .nullDereference else .ok (promoted h c l, l.root) := by
  obtain ⟨hn, hleft, hright, hparent, hlink⟩ := reads_node ht
  have hchild := replaceChild_eq h n l.root
  rw [hparent, hlink] at hchild
  have hset : (h.set c.link l.root).parent n = c.parent := by
    rw [Heap.parent, set_cell_of_notMem (ht.separate.2.2 n (by simp))]
    exact hparent
  unfold eraseLinks
  rw [hleft, hright, hparent]
  by_cases hl : l.root = 0
  · rw [if_pos ⟨hl, rfl⟩]
    rw [hl] at hchild
    simp only [hchild]
    by_cases hc : c.parent = 0
    · rw [if_pos hc, if_pos hc]
      rfl
    · rw [if_neg hc, if_neg hc]
      unfold promoted setParentOf
      rw [hl, if_neg (not_not.mpr rfl)]
      rfl
  · rw [if_neg fun he => hl he.1, if_pos root_nil]
    simp only [hchild]
    by_cases hc : c.parent = 0
    · rw [if_pos hc, if_pos hc]
      rfl
    · rw [if_neg hc, if_neg hc]
      unfold promoted setParentOf
      rw [if_pos hl]
      show Except.ok ((h.set c.link l.root).setParent l.root ((h.set c.link l.root).parent n), _) = _
      rw [hset]

theorem eraseLinks_noLeft (ht : IsTree h (c.plug (node nil n d r))) (hr : r ≠ nil) :
    eraseLinks turns h n = .ok (promoted h c r, r.root) := by
  obtain ⟨hn, hleft, hright, hparent, hlink⟩ := reads_node ht
  have hr0 : r.root ≠ 0 := root_ne_zero ht.focus.2.2.2.2 hr
  have hset : (h.set c.link r.root).parent n = c.parent := by
    rw [Heap.parent, set_cell_of_notMem (ht.separate.2.2 n (by simp))]
    exact hparent
  have hlinked : (if h.parent n ≠ 0 then
      (if h.left (h.parent n) = n then h.setChild .left (h.parent n) r.root
        else h.setChild .right (h.parent n) r.root)
      else { h with root := r.root }) = h.set c.link r.root := by
    rw [← hlink]
    unfold Heap.linkTo
    by_cases hp : h.parent n = 0
    · rw [if_neg (not_not.mpr hp), if_pos hp]
      rfl
    · rw [if_pos hp, if_neg hp]
      by_cases hl : n = h.left (h.parent n)
      · rw [if_pos hl]
        exact if_pos hl.symm
      · rw [if_neg hl]
        exact if_neg fun he => hl he.symm
  unfold eraseLinks
  rw [hleft, hright, if_neg fun he => hr0 he.2, if_neg hr0, if_pos root_nil]
  dsimp only
  rw [hlinked]
  show Except.ok ((h.set c.link r.root).setParent r.root ((h.set c.link r.root).parent n), _) = _
  rw [hset]
  unfold promoted setParentOf
  rw [if_pos hr0]

end Few

section Both

variable {τ : Type} {h : Heap τ} {c k : Ctx τ} {l r L : BinTree τ} {n m turns : ℕ} {d dm : τ}

theorem rightmost_eq {p : ℕ} {u : BinTree τ} (hr : Holds h p u) (hu : u ≠ nil)
    (hn : u.nodes.length ≤ turns) : rightmost h turns u.root = .ok u.last.root := by
  induction u generalizing p turns with
  | nil => exact absurd rfl hu
  | node l x d r _ ihr =>
    obtain ⟨-, hcell, -, hr⟩ := hr
    rw [nodes_node, List.length_append, List.length_cons] at hn
    obtain ⟨turns, rfl⟩ : ∃ j, turns = j + 1 := ⟨turns - 1, by omega⟩
    have hright : h.right x = r.root := by rw [Heap.right, hcell]
    rw [root_node, rightmost, hright]
    cases r with
    | nil => rfl
    | node l' x' d' r' =>
      rw [if_neg (show (node l' x' d' r').root ≠ 0 from hr.1)]
      exact ihr hr (fun he => by cases he) (by omega)

/-- The heap after the parent of the hole came to point to `v`, if there is one. -/
def pointed (h : Heap τ) (c : Ctx τ) (v : ℕ) : Heap τ := if c.parent ≠ 0 then h.set c.link v else h

theorem pointed_eq (ht : IsTree h (c.plug (node l n d r))) : (if h.parent n ≠ 0 then
      (if h.right (h.parent n) = n then h.setChild .right (h.parent n) m
        else h.setChild .left (h.parent n) m)
    else h) = pointed h c m := by
  obtain ⟨hn, -, -, hparent, -⟩ := reads_node ht
  rw [hparent]
  unfold pointed
  cases c with
  | top => rfl
  | frame s q dq S up =>
    have hread := IsTree.reads (c := up) (s := s) (t := node l n d r) ht
    have hne := IsTree.child_ne (c := up) (s := s) (t := node l n d r) ht hn
    have hq : q ≠ 0 := hread.ne_zero
    rw [Ctx.parent, if_pos hq, if_pos hq]
    cases s with
    | left =>
      have hright : ¬ h.right q = n := by
        intro he
        exact hne (he.symm.trans hread.other)
      exact if_neg hright
    | right => exact if_pos hread.child

theorem cell_pointed {v y : ℕ} (hy : y ∉ c.nodes) : (pointed h c v).cell y = h.cell y := by
  unfold pointed
  split
  · exact set_cell_of_notMem hy
  · rfl

theorem reads_pointed {v y : ℕ} (hy : y ∉ c.nodes) :
    (pointed h c v).left y = h.left y ∧ (pointed h c v).right y = h.right y ∧
      (pointed h c v).parent y = h.parent y := by
  unfold Heap.left Heap.right Heap.parent
  rw [cell_pointed hy]
  exact ⟨rfl, rfl, rfl⟩

/-- The predecessor is further down: its parent takes over its left child. -/
theorem detachPredecessor_far {x : ℕ} {dx : τ} {S : BinTree τ} {up : Ctx τ}
    (ht : IsTree h (c.plug (node ((Ctx.frame .right x dx S up).plug (node L m dm nil)) n d r))) :
    detachPredecessor h n m = .ok ((pointed h c m).setChild .right x L.root) := by
  have htm : IsTree h ((Ctx.comp (.frame .right x dx S up) (.frame .left n d r c)).plug
      (node L m dm nil)) := by
    rw [Ctx.plug_comp]
    exact ht
  have htx : IsTree h ((up.comp (.frame .left n d r c)).plug (join .right (node L m dm nil) x dx S)) :=
    htm
  obtain ⟨-, hleft, -, hparent, -⟩ := reads_node htm
  have hparent : h.parent m = x := hparent
  have hx := htx.reads
  have hsep := ht.separate.2.2
  have hm := hsep m (by simp [Ctx.mem_nodes_plug])
  have hxc := hsep x (by simp [Ctx.mem_nodes_plug, Ctx.nodes])
  unfold detachPredecessor
  dsimp only
  rw [pointed_eq ht, (reads_pointed hm).2.2, (reads_pointed hm).1, hparent, (reads_pointed hxc).2.1,
    hleft, if_pos hx.ne_zero]
  exact if_pos hx.child

theorem detachPredecessor_near (ht : IsTree h (c.plug (node (node L m dm nil) n d r))) :
    detachPredecessor h n m =
      if c.parent = 0 then .error .nullDereference
      else .ok ((pointed h c m).setChild .left c.parent L.root) := by
  have htm : IsTree h ((Ctx.frame .left n d r c).plug (node L m dm nil)) := ht
  obtain ⟨hm0, hleft, -, hparent, -⟩ := reads_node htm
  obtain ⟨hn, -, hright, hparentn, -⟩ := reads_node ht
  have hparent : h.parent m = n := hparent
  have hne : ¬ r.root = m := by
    intro he
    exact IsTree.child_ne (s := .left) ht hm0 he.symm
  have hsep := ht.separate.2.2
  have hm := hsep m (by simp)
  have hnc := hsep n (by simp)
  unfold detachPredecessor
  dsimp only
  rw [pointed_eq ht, (reads_pointed hm).2.2, (reads_pointed hm).1, hparent, (reads_pointed hnc).2.1,
    (reads_pointed hnc).2.2, hleft, hright, hparentn, if_pos hn, if_neg hne]
  unfold deref
  split <;> rfl

/-- The cells after the predecessor took over what `n` has. -/
theorem seatPredecessor_cell {a b p : ℕ} (hm : m ≠ n) (hb : h.right n = b) (hp : h.parent n = p)
    (ha : (if h.parent m = n then h.left m else h.left n) = a) (ham : a ≠ m) (hbm : b ≠ m)
    (y : ℕ) :
    (seatPredecessor h n m).cell y =
      if y = m then ⟨a, b, p, h.data m⟩
      else if b ≠ 0 ∧ y = b then ((setParentOf h a m).cell y).setParent m
      else (setParentOf h a m).cell y := by
  have hseat : ∃ h', seatPredecessor h n m = setParentOf (setParentOf h' (h'.left m) m)
      ((setParentOf h' (h'.left m) m).right m) m ∧
      ∀ w, h'.cell w = if w = m then ⟨a, b, p, h.data m⟩ else h.cell w := by
    unfold seatPredecessor
    by_cases hnear : h.parent m = n
    · rw [if_pos hnear] at ha
      refine ⟨_, rfl, fun w => ?_⟩
      simp only [if_pos hnear, hb]
      rw [Heap.cell_setParent, Heap.cell_setChild, Heap.parent, Heap.cell_setChild, if_neg hm.symm]
      by_cases hw : w = m
      · rw [if_pos hw, if_pos hw, if_pos hw, hw, ← ha, ← hp]
        rfl
      · rw [if_neg hw, if_neg hw, if_neg hw]
    · rw [if_neg hnear] at ha
      refine ⟨_, rfl, fun w => ?_⟩
      simp only [if_neg hnear, ha]
      rw [Heap.cell_setParent, Heap.cell_setChild, Heap.cell_setChild, Heap.parent,
        Heap.cell_setChild, Heap.cell_setChild, if_neg hm.symm, if_neg hm.symm, Heap.right,
        Heap.cell_setChild, if_neg hm.symm]
      by_cases hw : w = m
      · rw [if_pos hw, if_pos hw, if_pos hw, if_pos hw, hw, ← hb, ← hp]
        rfl
      · rw [if_neg hw, if_neg hw, if_neg hw, if_neg hw]
  obtain ⟨h', hseat, hcell⟩ := hseat
  have hleft : h'.left m = a := by rw [Heap.left, hcell, if_pos rfl]
  have hright : (setParentOf h' a m).right m = b := by
    rw [Heap.right, cell_setParentOf, if_neg fun he => ham he.2.symm, hcell, if_pos rfl]
  rw [hseat, hleft, hright, cell_setParentOf, cell_setParentOf, cell_setParentOf, hcell]
  by_cases hy : y = m
  · rw [if_pos hy, if_pos hy, if_neg fun he => hbm (he.2.symm.trans hy),
      if_neg fun he => ham (he.2.symm.trans hy)]
  · rw [if_neg hy, if_neg hy]

theorem root_seatPredecessor : (seatPredecessor h n m).root = h.root := by
  unfold seatPredecessor
  dsimp only
  rw [root_setParentOf, root_setParentOf, Heap.root_setParent]
  split <;> rfl

/-- The end of `erase`: a node without a parent was the root. -/
def rerooted (h : Heap τ) (n m : ℕ) : Heap τ := if h.parent n = 0 then { h with root := m } else h

theorem cell_rerooted (y : ℕ) : (rerooted h n m).cell y = h.cell y := by
  unfold rerooted
  split <;> rfl

theorem pointed_cell_eq {a v : ℕ} (hc : c.Holds h a) (y : ℕ) :
    (pointed h c v).cell y = (h.set c.link v).cell y := by
  unfold pointed
  by_cases hp : c.parent = 0
  · rw [if_neg (not_not.mpr hp), hc.parent_eq_zero.mp hp]
    rfl
  · rw [if_pos hp]

theorem root_pointed {a v : ℕ} (hc : c.Holds h a) : (pointed h c v).root = h.root := by
  unfold pointed
  by_cases hp : c.parent = 0
  · rw [if_neg (not_not.mpr hp)]
  · rw [if_pos hp]
    cases c with
    | top => exact absurd rfl hp
    | frame s q dq S up => rfl

theorem root_rerooted {h' : Heap τ} {a : ℕ} (hc : c.Holds h a) (hparent : h'.parent n = c.parent)
    (hroot : h'.root = h.root) : (rerooted h' n m).root = (h.set c.link m).root := by
  unfold rerooted
  rw [hparent]
  by_cases hp : c.parent = 0
  · rw [if_pos hp, hc.parent_eq_zero.mp hp]
    rfl
  · rw [if_neg hp, hroot]
    cases c with
    | top => exact absurd rfl hp
    | frame s q dq S up => rfl

theorem set_link_comm {s : Side} {x v w : ℕ} (hx : x ∉ c.nodes) (y : ℕ) :
    ((h.setChild s x w).set c.link v).cell y =
      if y = x then ((h.set c.link v).cell y).setChild s w else (h.set c.link v).cell y := by
  cases c with
  | top => exact Heap.cell_setChild ..
  | frame s' q dq S up =>
    have hxq : x ≠ q := fun he => hx (by simp [Ctx.nodes, he])
    rw [Ctx.link, Heap.set, Heap.set, Heap.cell_setChild, Heap.cell_setChild, Heap.cell_setChild]
    by_cases hy : y = x
    · have hyq : y ≠ q := hy ▸ hxq
      rw [if_pos hy, if_neg hyq, if_neg hyq, if_pos hy]
    · rw [if_neg hy, if_neg hy]

/-- The predecessor in the place of `n`: `h₂` is the heap it was detached in and `h₁` the one with
the same cells but for the pointer to `n`. -/
theorem seated_replaced {h₁ h₂ : Heap τ} {l' : BinTree τ}
    (ht : IsTree h₁ (c.plug (node l' n d r))) (hm : m ∉ (c.plug (node l' n d r)).nodes) (hm0 : m ≠ 0)
    (hdata : h₂.data m = d) (hroot : h₂.root = h₁.root)
    (hcell : ∀ y, y ≠ m → y ≠ n → h₂.cell y = (h₁.set c.link m).cell y)
    (hb : h₂.right n = r.root) (hp : h₂.parent n = c.parent)
    (ha : (if h₂.parent m = n then h₂.left m else h₂.left n) = l'.root) :
    Replaced h₁ (rerooted (seatPredecessor h₂ n m) n m) c.link c.parent n m l'.root r.root d := by
  have hn : n ≠ 0 := (reads_node ht).1
  obtain ⟨hnd, -, hsep⟩ := ht.separate
  have hnode : (join .left l' n d r).nodes.Nodup := hnd
  obtain ⟨hnl, hnr, -, -, hlr⟩ := nodup_join.mp hnode
  rw [Ctx.mem_nodes_plug, nodes_node, List.mem_append, List.mem_cons] at hm
  have hmn : m ≠ n := by tauto
  have hrootne {u : BinTree τ} {w : ℕ} (hw0 : w ≠ 0) (hw : w ∉ u.nodes) : u.root ≠ w := by
    rintro rfl
    exact hw (root_mem hw0)
  have ham : l'.root ≠ m := hrootne hm0 (by tauto)
  have hbm : r.root ≠ m := hrootne hm0 (by tauto)
  have hseat := seatPredecessor_cell hmn hb hp ha ham hbm
  rw [hdata] at hseat
  refine ⟨?_, ?_, ?_, ?_, ?_⟩
  · have hparent' : (seatPredecessor h₂ n m).parent n = c.parent := by
      rw [Heap.parent, hseat, if_neg hmn.symm, if_neg fun he => hrootne hn hnr he.2.symm,
        cell_setParentOf, if_neg fun he => hrootne hn hnl he.2.symm]
      exact hp
    exact root_rerooted ht.focus.1 hparent' (root_seatPredecessor.trans hroot)
  · rw [cell_rerooted, hseat, if_pos rfl]
  · intro h0
    have hmem := root_mem h0
    have hab : ¬ (r.root ≠ 0 ∧ l'.root = r.root) := by
      rintro ⟨hr0, he⟩
      exact hlr _ hmem (he ▸ root_mem hr0)
    rw [cell_rerooted, hseat, if_neg ham, if_neg hab, cell_setParentOf,
      if_pos ⟨h0, rfl⟩, hcell _ ham (fun he => hnl (he ▸ hmem)), set_cell_of_notMem (hsep _ (by simp [hmem]))]
  · intro h0
    have hmem := root_mem h0
    have hab : ¬ (l'.root ≠ 0 ∧ r.root = l'.root) := by
      rintro ⟨hl0, he⟩
      exact hlr _ (root_mem hl0) (he ▸ hmem)
    rw [cell_rerooted, hseat, if_neg hbm, if_pos ⟨h0, rfl⟩, cell_setParentOf, if_neg hab,
      hcell _ hbm (fun he => hnr (he ▸ hmem)), set_cell_of_notMem (hsep _ (by simp [hmem]))]
  · intro w hwm hwn hwa hwb
    rw [cell_rerooted, hseat, if_neg hwm, if_neg fun he => hwb he.2, cell_setParentOf,
      if_neg fun he => hwa he.2, hcell w hwm hwn]

theorem far_isTree {x : ℕ} {dx : τ} {S : BinTree τ} {up : Ctx τ}
    (ht : IsTree h (c.plug (node ((Ctx.frame .right x dx S up).plug (node nil m d nil)) n d r))) :
    IsTree (rerooted (seatPredecessor ((pointed h c m).setChild .right x 0) n m) n m)
      (c.plug (node ((Ctx.frame .right x dx S up).plug nil) m d r)) := by
  have htm : IsTree h ((Ctx.comp (.frame .right x dx S up) (.frame .left n d r c)).plug
      (node nil m d nil)) := by
    rw [Ctx.plug_comp]
    exact ht
  obtain ⟨hm0, -, -, hparentm, -⟩ := reads_node htm
  obtain ⟨hn, hleft, hright, hparent, -⟩ := reads_node ht
  have hsep := ht.separate.2.2
  have hnd := ht.separate.1
  have hnode : (join .left ((Ctx.frame .right x dx S up).plug (node nil m d nil)) n d r).nodes.Nodup := hnd
  obtain ⟨hnl, -⟩ := nodup_join.mp hnode
  have hxl : x ∈ ((Ctx.frame .right x dx S up).plug (node nil m d nil)).nodes := by
    simp [Ctx.mem_nodes_plug, Ctx.nodes]
  have hml : m ∈ ((Ctx.frame .right x dx S up).plug (node nil m d nil)).nodes := by
    simp [Ctx.mem_nodes_plug]
  have hxc : x ∉ c.nodes := hsep x (by simp [hxl])
  have hmc : m ∉ c.nodes := hsep m (by simp [hml])
  have hxn : n ≠ x := fun he => hnl (he ▸ hxl)
  have hmx : m ≠ x := by
    rintro rfl
    exact htm.separate.2.2 m (by simp) (by simp [Ctx.comp, Ctx.nodes])
  have hgone : m ∉ ((Ctx.comp (.frame .right x dx S up) (.frame .left n d r c)).plug nil).nodes := by
    rw [Ctx.mem_nodes_plug, not_or]
    exact ⟨List.not_mem_nil, htm.separate.2.2 m (by simp)⟩
  have ht₁ : IsTree (h.setChild .right x 0)
      ((Ctx.comp (.frame .right x dx S up) (.frame .left n d r c)).plug nil) :=
    htm.promote (X := nil) (p := 0) trivial List.nodup_nil (fun y hy => absurd hy List.not_mem_nil) rfl
      (fun h0 => absurd rfl h0) (fun y _ => rfl)
  rw [Ctx.plug_comp] at ht₁ hgone
  have hcell (y : ℕ) : ((pointed h c m).setChild .right x 0).cell y =
      ((h.setChild .right x 0).set c.link m).cell y := by
    rw [set_link_comm hxc, Heap.cell_setChild, pointed_cell_eq ht.focus.1]
  have hcelln : ((pointed h c m).setChild .right x 0).cell n = h.cell n := by
    rw [Heap.cell_setChild, if_neg hxn, cell_pointed (hsep n (by simp))]
  have hcellm : ((pointed h c m).setChild .right x 0).cell m = h.cell m := by
    rw [Heap.cell_setChild, if_neg hmx, cell_pointed hmc]
  refine ht₁.replaceNode hgone hm0 (seated_replaced ht₁ hgone hm0 ?_ ?_ (fun y _ _ => hcell y) ?_ ?_ ?_)
  · rw [Heap.data, hcellm]
    exact (IsTree.reads (s := .left) htm).data
  · exact root_pointed ht.focus.1
  · rw [Heap.right, hcelln]
    exact hright
  · rw [Heap.parent, hcelln]
    exact hparent
  · have hmp : ((pointed h c m).setChild .right x 0).parent m = x := by
      rw [Heap.parent, hcellm]
      exact hparentm
    rw [hmp, if_neg hxn.symm, Heap.left, hcelln]
    exact hleft.trans root_plug_frame

/-- The predecessor is the left child and has no child, and the parent of `n` has no other one. -/
theorem near_isTree {q : ℕ} {dq : τ} {up : Ctx τ}
    (ht : IsTree h ((Ctx.frame .right q dq nil up).plug (node (node nil m d nil) n d r))) :
    IsTree (rerooted (seatPredecessor
        ((pointed h (.frame .right q dq nil up) m).setChild .left q 0) n m) n m)
      ((Ctx.frame .right q dq nil up).plug (node nil m d r)) := by
  have htm : IsTree h ((Ctx.frame .left n d r (.frame .right q dq nil up)).plug (node nil m d nil)) := ht
  obtain ⟨hm0, hleftm, -, hparentm, -⟩ := reads_node htm
  obtain ⟨hn, -, hright, hparent, -⟩ := reads_node ht
  have hsep := ht.separate.2.2
  have hqc : q ∈ (Ctx.frame .right q dq nil up).nodes := by simp [Ctx.nodes]
  have hnq : n ≠ q := fun he => hsep n (by simp) (he ▸ hqc)
  have hmq : m ≠ q := fun he => hsep m (by simp) (he ▸ hqc)
  obtain ⟨hq, hcellq, -⟩ := ht.focus.1
  have hgone : m ∉ ((Ctx.frame .left n d r (.frame .right q dq nil up)).plug nil).nodes := by
    rw [Ctx.mem_nodes_plug, not_or]
    exact ⟨List.not_mem_nil, htm.separate.2.2 m (by simp)⟩
  have ht₁ : IsTree (h.setChild .left n 0)
      ((Ctx.frame .left n d r (.frame .right q dq nil up)).plug nil) :=
    htm.promote (X := nil) (p := 0) trivial List.nodup_nil (fun y hy => absurd hy List.not_mem_nil) rfl
      (fun h0 => absurd rfl h0) (fun y _ => rfl)
  have hpointed (y : ℕ) : (pointed h (.frame .right q dq nil up) m).cell y =
      if y = q then (h.cell y).setChild .right m else h.cell y :=
    (pointed_cell_eq ht.focus.1 y).trans (Heap.cell_setChild ..)
  have hcell (y : ℕ) : ((pointed h (.frame .right q dq nil up) m).setChild .left q 0).cell y =
      if y = q then (h.cell y).setChild .right m else h.cell y := by
    rw [Heap.cell_setChild, hpointed]
    by_cases hy : y = q
    · rw [if_pos hy, if_pos hy, hy, hcellq]
      rfl
    · rw [if_neg hy, if_neg hy]
  refine ht₁.replaceNode hgone hm0 (seated_replaced ht₁ hgone hm0 ?_ ?_ ?_ ?_ ?_ ?_)
  · rw [Heap.data, hcell, if_neg hmq]
    exact (IsTree.reads (s := .left) htm).data
  · exact root_pointed ht.focus.1
  · intro y _ hyn
    rw [hcell, Ctx.link, Heap.set, Heap.cell_setChild, Heap.cell_setChild, if_neg hyn]
  · rw [Heap.right, hcell, if_neg hnq]
    exact hright
  · rw [Heap.parent, hcell, if_neg hnq]
    exact hparent
  · have hmp : ((pointed h (.frame .right q dq nil up) m).setChild .left q 0).parent m = n := by
      rw [Heap.parent, hcell, if_neg hmq]
      exact hparentm
    rw [hmp, if_pos rfl, Heap.left, hcell, if_neg hmq]
    exact hleftm

end Both

/-! ### Where the pointers no longer agree -/

section Wrong

variable {τ : Type} {h : Heap τ} {c : Ctx τ} {l r L S t' : BinTree τ} {n m x q : ℕ} {d dm dx dq : τ}
  {up : Ctx τ}

theorem nodes_comp (k c : Ctx τ) : (k.comp c).nodes = k.nodes ++ c.nodes := by
  induction k with
  | top => rfl
  | frame s x d sib up ih => simp [Ctx.comp, Ctx.nodes, ih]

/-- The left child of the predecessor keeps its old parent. -/
theorem far_broken (hL : L.root ≠ 0)
    (ht : IsTree h (c.plug (node ((Ctx.frame .right x dx S up).plug (node L m dm nil)) n d r)))
    (hx : x ∈ t'.nodes) :
    ¬ IsTree (rerooted (seatPredecessor ((pointed h c m).setChild .right x L.root) n m) n m) t' := by
  intro ht'
  have htm : IsTree h ((Ctx.comp (.frame .right x dx S up) (.frame .left n d r c)).plug
      (node L m dm nil)) := by
    rw [Ctx.plug_comp]
    exact ht
  obtain ⟨hm0, hleftm, -, hparentm, -⟩ := reads_node htm
  have hparentm : h.parent m = x := hparentm
  obtain ⟨hn, hleft, hright, hparent, -⟩ := reads_node ht
  have hsep := ht.separate.2.2
  -- the nodes above the predecessor are none of its own subtree
  have hout (y : ℕ) (hy : y = m ∨ y ∈ L.nodes) : y ∉ (Ctx.frame .right x dx S up).nodes ∧ y ≠ n ∧
      y ∉ r.nodes ∧ y ∉ c.nodes := by
    have hctx := htm.separate.2.2 y (by rcases hy with rfl | hy <;> simp [*])
    rw [nodes_comp] at hctx
    simp only [Ctx.nodes, List.mem_append, List.mem_cons, not_or] at hctx ⊢
    tauto
  have hxl : x ∈ ((Ctx.frame .right x dx S up).plug (node L m dm nil)).nodes := by
    simp [Ctx.mem_nodes_plug, Ctx.nodes]
  have hnode : (join .left ((Ctx.frame .right x dx S up).plug (node L m dm nil)) n d r).nodes.Nodup :=
    ht.separate.1
  obtain ⟨hnl, -, -, -, hlr⟩ := nodup_join.mp hnode
  have hxn : x ≠ n := fun he => hnl (he ▸ hxl)
  have hxm : x ≠ m := fun he => (hout m (Or.inl rfl)).1 (by simp [Ctx.nodes, he])
  have hx0 : x ≠ 0 := ht.ne_zero (by simp [Ctx.mem_nodes_plug, Ctx.nodes])
  have hxr : x ≠ r.root := fun he => hlr x hxl (he ▸ root_mem (he ▸ hx0))
  have hxc : x ∉ c.nodes := hsep x (by simp [hxl])
  have hLroot := hout _ (Or.inr (root_mem hL))
  have hLx : L.root ≠ x := fun he => hLroot.1 (by simp [Ctx.nodes, he])
  have hLm : L.root ≠ m := by
    have hnd := htm.separate.1
    have hnodem : (join .left L m dm nil).nodes.Nodup := hnd
    intro he
    exact (nodup_join.mp hnodem).1 (he ▸ root_mem hL)
  -- the left child of `n` stays above the predecessor
  have hroot : ((Ctx.frame .right x dx S up).plug (node L m dm nil)).root ∈
      (Ctx.frame .right x dx S up).nodes := root_frame_mem
  generalize ((Ctx.frame .right x dx S up).plug (node L m dm nil)).root = a at hleft hroot
  have ham : a ≠ m := fun he => (hout m (Or.inl rfl)).1 (he ▸ hroot)
  have haL : L.root ≠ a := fun he => hLroot.1 (he ▸ hroot)
  have hrL : L.root ≠ r.root := fun he => hLroot.2.2.1 (he ▸ root_mem (he ▸ hL))
  have hrm : r.root ≠ m := fun he => (hout m (Or.inl rfl)).2.2.1 (he ▸ root_mem (he ▸ hm0))
  have hcell (y : ℕ) (hy : y ∉ c.nodes) : ((pointed h c m).setChild .right x L.root).cell y =
      if y = x then (h.cell y).setChild .right L.root else h.cell y := by
    rw [Heap.cell_setChild, cell_pointed hy]
  have hmc := (hout m (Or.inl rfl)).2.2.2
  have hnc := hsep n (by simp)
  have hseat := seatPredecessor_cell (h := (pointed h c m).setChild .right x L.root)
    (hout m (Or.inl rfl)).2.1 (b := r.root) (p := c.parent) (a := a)
    (by rw [Heap.right, hcell n hnc, if_neg hxn.symm]; exact hright)
    (by rw [Heap.parent, hcell n hnc, if_neg hxn.symm]; exact hparent)
    (by
      have hmp : ((pointed h c m).setChild .right x L.root).parent m = x := by
        rw [Heap.parent, hcell m hmc, if_neg hxm.symm]
        exact hparentm
      rw [hmp, if_neg hxn, Heap.left, hcell n hnc, if_neg hxn.symm]
      exact hleft) ham hrm
  have hright' : (rerooted (seatPredecessor ((pointed h c m).setChild .right x L.root) n m) n m).child
      .right x = L.root := by
    rw [Heap.child, cell_rerooted, hseat, if_neg hxm, if_neg fun he => hxr he.2, cell_setParentOf,
      hcell x hxc, if_pos rfl]
    split
    · rw [Cell.child_setParent, Cell.child_setChild]
    · rw [Cell.child_setChild]
  have hparent' : (rerooted (seatPredecessor ((pointed h c m).setChild .right x L.root) n m) n
      m).parent L.root = m := by
    rw [Heap.parent, cell_rerooted, hseat, if_neg hLm, if_neg fun he => hrL he.2, cell_setParentOf,
      if_neg fun he => haL he.2, hcell _ hLroot.2.2.2, if_neg hLx]
    have hlinks := (htm.child_links (x := m) (s := .left)
      (Ctx.mem_nodes_plug.mpr (Or.inl (by simp))))
    rw [show h.child .left m = L.root from hleftm] at hlinks
    exact (hlinks hL).1
  have hlinks := (ht'.child_links hx (s := .right) (by rw [hright']; exact hL)).1
  rw [hright', hparent'] at hlinks
  exact hxm hlinks.symm

/-- The parent of `n` is written to in the place of the predecessor's one. -/
theorem near_broken {s : Side}
    (ht : IsTree h ((Ctx.frame s q dq S up).plug (node (node L m dm nil) n d r)))
    (hbad : ¬ (s = .right ∧ S = nil ∧ L = nil)) (hq : q ∈ t'.nodes) (hm : m ∈ t'.nodes)
    (hS : S.root ≠ 0 → S.root ∈ t'.nodes) :
    ¬ IsTree (rerooted (seatPredecessor
        ((pointed h (.frame s q dq S up) m).setChild .left q L.root) n m) n m) t' := by
  intro ht'
  have htm : IsTree h ((Ctx.frame .left n d r (.frame s q dq S up)).plug (node L m dm nil)) := ht
  obtain ⟨hm0, hleftm, -, hparentm, -⟩ := reads_node htm
  obtain ⟨hn, -, hright, hparent, -⟩ := reads_node ht
  have hsep := ht.separate.2.2
  have hout (y : ℕ) (hy : y ∈ (Ctx.frame s q dq S up).nodes) :
      y ≠ n ∧ y ≠ m ∧ y ∉ L.nodes ∧ y ∉ r.nodes := by
    have hall := fun hmem => hsep y hmem hy
    simp only [nodes_node, List.mem_append, List.mem_cons] at hall
    tauto
  obtain ⟨hqn, hqm, hqL, hqr⟩ := hout q (by simp [Ctx.nodes])
  obtain ⟨hq0, hcellq, hS', -⟩ := ht.focus.1
  have hrootne {u : BinTree τ} {y : ℕ} (hy0 : y ≠ 0) (hy : y ∉ u.nodes) : u.root ≠ y := by
    rintro rfl
    exact hy (root_mem hy0)
  have hnodem : (join .left L m dm nil).nodes.Nodup := htm.separate.1
  have hnode : (join .left (node L m dm nil) n d r).nodes.Nodup := ht.separate.1
  obtain ⟨-, -, -, -, hlr⟩ := nodup_join.mp hnode
  have hLm : L.root ≠ m := hrootne hm0 (nodup_join.mp hnodem).1
  have hrm : r.root ≠ m := hrootne hm0 (hlr m (by simp))
  have hmn : m ≠ n := by
    rintro rfl
    exact (nodup_join.mp hnode).1 (by simp)
  have hcell (y : ℕ) : ((pointed h (.frame s q dq S up) m).setChild .left q L.root).cell y =
      if y = q then ((h.cell y).setChild s m).setChild .left L.root else h.cell y := by
    rw [Heap.cell_setChild, pointed_cell_eq ht.focus.1, Ctx.link, Heap.set, Heap.cell_setChild]
    split <;> rfl
  have hseat := seatPredecessor_cell
    (h := (pointed h (.frame s q dq S up) m).setChild .left q L.root) hmn (b := r.root) (p := q)
    (a := L.root)
    (by rw [Heap.right, hcell, if_neg hqn.symm]; exact hright)
    (by rw [Heap.parent, hcell, if_neg hqn.symm]; exact hparent)
    (by
      have hmp : ((pointed h (.frame s q dq S up) m).setChild .left q L.root).parent m = n := by
        rw [Heap.parent, hcell, if_neg hqm.symm]
        exact hparentm
      rw [hmp, if_pos rfl, Heap.left, hcell, if_neg hqm.symm]
      exact hleftm) hLm hrm
  have habove (y : ℕ) (hy : y ∈ (Ctx.frame s q dq S up).nodes) (hy0 : y ≠ 0) :
      (rerooted (seatPredecessor ((pointed h (.frame s q dq S up) m).setChild .left q L.root) n m) n
        m).cell y = if y = q then ((h.cell y).setChild s m).setChild .left L.root else h.cell y := by
    obtain ⟨-, hym, hyL, hyr⟩ := hout y hy
    rw [cell_rerooted, hseat, if_neg hym, if_neg fun he => hrootne hy0 hyr he.2.symm,
      cell_setParentOf, if_neg fun he => hrootne hy0 hyL he.2.symm, hcell]
  have hcellq' := habove q (by simp [Ctx.nodes]) hq0
  rw [if_pos rfl, hcellq] at hcellq'
  have hcellm := hseat m
  rw [if_pos rfl, ← cell_rerooted] at hcellm
  by_cases hL : L.root = 0
  · -- the predecessor has the parent `q`, which has to point to it
    have hparentm' := congrArg Cell.parent hcellm
    obtain ⟨hp0, -⟩ | ⟨-, side, hside⟩ := ht'.parent_links hm
    · exact hq0 (hparentm'.symm.trans hp0)
    rw [show Heap.parent _ m = q from hparentm', Heap.child, hcellq'] at hside
    have hSm : S.root ≠ m := hrootne hm0 fun hmem => (hout m (by simp [Ctx.nodes, hmem])).2.1 rfl
    cases s with
    | left =>
      cases side with
      | left => exact hm0 (hside.symm.trans hL)
      | right => exact hSm hside
    | right =>
      cases side with
      | left => exact hm0 (hside.symm.trans hL)
      | right =>
        -- the sibling has that parent too, and is pointed to no longer
        have hS0 : S.root ≠ 0 := fun h0 => hbad ⟨rfl, eq_nil_of_root hS' h0,
          eq_nil_of_root htm.focus.2.2.2.1 hL⟩
        have hSroot := root_mem hS0
        have hSq : S.root ≠ q := by
          intro he
          have hnd := ht.nodup
          rw [(Ctx.perm_plug _ _).nodup_iff] at hnd
          have hctx := (List.nodup_append.mp hnd).2.1
          rw [Ctx.nodes, List.nodup_cons] at hctx
          exact hctx.1 (he ▸ List.mem_append_left _ hSroot)
        have hcellS := habove S.root (by simp [Ctx.nodes, hSroot]) hS0
        rw [if_neg hSq] at hcellS
        have hparentS := congrArg Cell.parent hcellS
        have hpar : (h.cell S.root).parent = q := by
          cases S with
          | nil => exact absurd rfl hS0
          | node l' y d' r' => rw [root_node, hS'.2.1]
        rw [hpar] at hparentS
        obtain ⟨hp0, -⟩ | ⟨-, side, hside⟩ := ht'.parent_links (hS hS0)
        · exact hq0 (hparentS.symm.trans hp0)
        rw [show Heap.parent _ S.root = q from hparentS, Heap.child, hcellq'] at hside
        cases side with
        | left => exact hS0 (hside.symm.trans hL)
        | right => exact hSm hside.symm
  · have hleft' : (rerooted (seatPredecessor ((pointed h (.frame s q dq S up) m).setChild .left q
        L.root) n m) n m).child .left q = L.root := by
      rw [Heap.child, hcellq']
      cases s <;> rfl
    have hlinks := (ht'.child_links hq (s := .left) (by rw [hleft']; exact hL)).1
    rw [hleft'] at hlinks
    have hLmem := root_mem hL
    have hLr : L.root ≠ r.root := fun he =>
      hlr L.root (by simp [hLmem]) (he ▸ root_mem (he ▸ hL))
    have hLq : L.root ≠ q := fun he => hqL (he ▸ hLmem)
    have hparentL : (rerooted (seatPredecessor ((pointed h (.frame s q dq S up) m).setChild .left q
        L.root) n m) n m).parent L.root = m := by
      rw [Heap.parent, cell_rerooted, hseat, if_neg hLm, if_neg fun he => hLr he.2,
        cell_setParentOf, if_pos ⟨hL, rfl⟩]
      rfl
    exact hqm (hlinks.symm.trans hparentL)

end Wrong

/-! ### When the removal is right -/

/-- The place and the subtrees of a node that is removed rightly. -/
def erasable {τ : Type} : Ctx τ → BinTree τ → BinTree τ → Bool
  | .top, _, nil => false
  | .frame .., _, nil => true
  | _, nil, node .. => true
  -- the predecessor is the left child
  | .frame .right _ _ nil _, node nil _ _ nil, node .. => true
  | _, node _ _ _ nil, node .. => false
  -- it is further down
  | _, node _ _ _ (node l x d r), node .. =>
    match (node l x d r).last with
    | node nil _ _ _ => true
    | _ => false

section Removal

variable {κ υ : Type} (lt : κ → κ → Bool)

/-- The search order: no later key is less. -/
def Ordered {τ : Type} (t : Tree κ υ τ) (xs : List ℕ) : Prop :=
  xs.Pairwise fun x y => lt (key t y) (key t x) = false

/-- The node `n` is gone, the others are a well-formed tree with their entries. -/
def Removed {τ : Type} (xs : List ℕ) (n : ℕ) (t t' : Tree κ υ τ) : Prop :=
  ∃ ys, ys.Perm (xs.erase n) ∧ InOrder t'.heap ys ∧ Ordered lt t' ys ∧ ∀ x ∈ ys, t'.entry x = t.entry x

variable {lt} {t : Tree κ υ Unit} {c : Ctx Unit} {l r : BinTree Unit} {n m turns : ℕ} {d : Unit}
  {xs : List ℕ} {h : Heap Unit}

theorem erase_eq {τ : Type} {t : Tree κ υ τ} (hn : n ≠ 0) : erase turns t n =
    (eraseLinks turns t.heap n).map fun a => { t with heap := rerooted a.1 n a.2 }.shrunk := by
  unfold erase
  rw [if_neg hn]
  cases eraseLinks turns t.heap n <;> rfl

theorem removes_of_isTree {u : BinTree Unit} (hn : n ≠ 0) (hord : Ordered lt t xs)
    (he : eraseLinks turns t.heap n = .ok (h, m)) (hu : IsTree (rerooted h n m) u)
    (hnodes : u.nodes = xs.erase n) :
    ∃ t', erase turns t n = .ok t' ∧ Removed lt xs n t t' := by
  refine ⟨{ t with heap := rerooted h n m }.shrunk, ?_, u.nodes, ?_, ⟨u, hu, rfl⟩, ?_, ?_⟩
  · rw [erase_eq hn, he]
    rfl
  · rw [hnodes]
  · rw [hnodes]
    exact hord.sublist List.erase_sublist
  · intro x _
    rfl

theorem not_removes_of_error {e : LinkFault} (hn : n ≠ 0)
    (he : eraseLinks turns t.heap n = .error (.ofLink e)) :
    ¬ ∃ t', erase turns t n = .ok t' ∧ Removed lt xs n t t' := by
  rintro ⟨t', ht', -⟩
  rw [erase_eq hn, he] at ht'
  cases ht'

theorem not_removes_of_links (hn : n ≠ 0) (hnd : xs.Nodup)
    (he : eraseLinks turns t.heap n = .ok (h, m))
    (hbroken : ∀ u : BinTree Unit, (∀ y ∈ xs, y ≠ n → y ∈ u.nodes) → ¬ IsTree (rerooted h n m) u) :
    ¬ ∃ t', erase turns t n = .ok t' ∧ Removed lt xs n t t' := by
  rintro ⟨t', ht', ys, hperm, ⟨u, hu, rfl⟩, -⟩
  rw [erase_eq hn, he] at ht'
  cases ht'
  refine hbroken u ?_ hu
  intro y hy hyn
  exact hperm.mem_iff.mpr ((hnd.mem_erase_iff).mpr ⟨hyn, hy⟩)

theorem rerooted_promoted {τ : Type} {h : Heap τ} {c : Ctx τ} {l r X : BinTree τ} {d : τ}
    (ht : IsTree h (c.plug (node l n d r))) (hsub : ∀ y ∈ X.nodes, y ∈ l.nodes ∨ y ∈ r.nodes) :
    rerooted (promoted h c X) n X.root = promoted h c X := by
  unfold rerooted
  rw [parent_promoted ht hsub]
  split
  case isTrue hp =>
    rw [ht.focus.1.parent_eq_zero.mp hp]
    unfold promoted setParentOf
    split <;> rfl
  case isFalse => rfl

theorem noRight_iff (ht : IsTree t.heap (c.plug (node l n d nil)))
    (hord : Ordered lt t (c.plug (node l n d nil)).nodes) :
    (∃ t', erase turns t n = .ok t' ∧ Removed lt (c.plug (node l n d nil)).nodes n t t') ↔
      c.parent ≠ 0 := by
  have hn := (reads_node ht).1
  by_cases hc : c.parent = 0
  · refine iff_of_false ?_ (not_not.mpr hc)
    exact not_removes_of_error (e := .nullDereference) hn
      ((eraseLinks_noRight ht).trans (if_pos hc))
  · refine iff_of_true ?_ hc
    have hsub : ∀ y ∈ l.nodes, y ∈ l.nodes ∨ y ∈ (nil : BinTree Unit).nodes := fun y hy => Or.inl hy
    have hnode : (join .left l n d nil).nodes.Nodup := ht.separate.1
    refine removes_of_isTree (u := c.plug l) hn hord ((eraseLinks_noRight ht).trans (if_neg hc)) ?_ ?_
    · rw [rerooted_promoted ht hsub]
      exact promoted_isTree ht ht.focus.2.2.2.1 (nodup_join.mp hnode).2.2.1 fun y hy => by simp [hy]
    · rw [erase_nodes_plug ht.nodup, Ctx.nodes_plug]
      simp

theorem noLeft_removes (ht : IsTree t.heap (c.plug (node nil n d r))) (hr : r ≠ nil)
    (hord : Ordered lt t (c.plug (node nil n d r)).nodes) :
    ∃ t', erase turns t n = .ok t' ∧ Removed lt (c.plug (node nil n d r)).nodes n t t' := by
  have hn := (reads_node ht).1
  have hsub : ∀ y ∈ r.nodes, y ∈ (nil : BinTree Unit).nodes ∨ y ∈ r.nodes := fun y hy => Or.inr hy
  have hnode : (join .left nil n d r).nodes.Nodup := ht.separate.1
  refine removes_of_isTree (u := c.plug r) hn hord (eraseLinks_noLeft ht hr) ?_ ?_
  · rw [rerooted_promoted ht hsub]
    exact promoted_isTree ht ht.focus.2.2.2.2 (nodup_join.mp hnode).2.2.2.1 fun y hy => by simp [hy]
  · rw [erase_nodes_plug ht.nodup, Ctx.nodes_plug]
    simp

theorem eraseLinks_both {τ : Type} {h : Heap τ} {c : Ctx τ} {l r L : BinTree τ} {d dm : τ}
    (ht : IsTree h (c.plug (node l n d r))) (hl : l ≠ nil) (hr : r ≠ nil)
    (hlast : l.last = node L m dm nil) (hturns : l.nodes.length ≤ turns) : eraseLinks turns h n =
      (detachPredecessor h n m).map fun h' => (seatPredecessor h' n m, m) := by
  obtain ⟨-, hleft, hright, -, -⟩ := reads_node ht
  obtain ⟨-, -, -, hhl, hhr⟩ := ht.focus
  have hl0 := root_ne_zero hhl hl
  have hr0 := root_ne_zero hhr hr
  unfold eraseLinks erasePredecessor
  rw [hleft, hright, if_neg fun he => hl0 he.1, if_neg hr0, if_neg hl0, rightmost_eq hhl hl hturns,
    hlast]
  show (detachPredecessor h n m >>= fun h' => pure (seatPredecessor h' n m, m)) = _
  cases detachPredecessor h n m <;> rfl

theorem far_iff {x : ℕ} {dx dm : Unit} {S L : BinTree Unit} {up : Ctx Unit}
    (hl : l = (Ctx.frame .right x dx S up).plug (node L m dm nil)) (hafter : up.after = [])
    (hlast : l.last = node L m dm nil) (hr : r ≠ nil) (ht : IsTree t.heap (c.plug (node l n d r)))
    (hord : Ordered lt t (c.plug (node l n d r)).nodes) (hturns : l.nodes.length ≤ turns) :
    (∃ t', erase turns t n = .ok t' ∧ Removed lt (c.plug (node l n d r)).nodes n t t') ↔
      L = nil := by
  have hn := (reads_node ht).1
  have hboth := eraseLinks_both ht (hl ▸ plug_frame_ne_nil) hr hlast hturns
  subst hl
  rw [detachPredecessor_far ht] at hboth
  by_cases hL : L = nil
  · subst hL
    refine iff_of_true ?_ rfl
    refine removes_of_isTree hn hord hboth (far_isTree ht) ?_
    rw [erase_nodes_plug ht.nodup, Ctx.nodes_plug, Ctx.nodes_plug]
    simp [Ctx.nodes_plug, Ctx.after, hafter]
  · refine iff_of_false (not_removes_of_links hn ht.nodup hboth ?_) hL
    intro u hu
    have hx : x ∈ ((Ctx.frame .right x dx S up).plug (node L m dm nil)).nodes := by
      simp [Ctx.mem_nodes_plug, Ctx.nodes]
    have hnode := ht.separate.1
    have hLroot : L.root ≠ 0 := by
      have htm : IsTree t.heap ((Ctx.comp (.frame .right x dx S up) (.frame .left n d r c)).plug
          (node L m dm nil)) := by
        rw [Ctx.plug_comp]
        exact ht
      exact root_ne_zero htm.focus.2.2.2.1 hL
    refine far_broken hLroot ht (hu x ?_ ?_)
    · simp [Ctx.mem_nodes_plug, hx]
    · rintro rfl
      exact (nodup_join (s := .left).mp hnode).1 hx

theorem near_iff {L : BinTree Unit} {dm : Unit} (hr : r ≠ nil)
    (ht : IsTree t.heap (c.plug (node (node L m dm nil) n d r)))
    (hord : Ordered lt t (c.plug (node (node L m dm nil) n d r)).nodes) (hturns : L.nodes.length < turns) :
    (∃ t', erase turns t n = .ok t' ∧
      Removed lt (c.plug (node (node L m dm nil) n d r)).nodes n t t') ↔
      erasable c (node L m dm nil) r = true := by
  have hn := (reads_node ht).1
  have hboth : eraseLinks turns t.heap n = _ :=
    eraseLinks_both ht (fun he => by cases he) hr rfl (by simp; omega)
  rw [detachPredecessor_near ht] at hboth
  obtain ⟨lr, xr, dr, rr, rfl⟩ : ∃ lr xr dr rr, r = node lr xr dr rr := by
    cases r with
    | nil => exact absurd rfl hr
    | node lr xr dr rr => exact ⟨lr, xr, dr, rr, rfl⟩
  cases c with
  | top => exact iff_of_false (not_removes_of_error (e := .nullDereference) hn hboth) (fun he => by cases he)
  | frame s q dq S up =>
    have hq : q ≠ 0 := ht.focus.1.1
    rw [Ctx.parent, if_neg hq] at hboth
    by_cases hgood : s = .right ∧ S = nil ∧ L = nil
    · obtain ⟨rfl, rfl, rfl⟩ := hgood
      refine iff_of_true ?_ rfl
      refine removes_of_isTree hn hord hboth (near_isTree ht) ?_
      rw [erase_nodes_plug ht.nodup, Ctx.nodes_plug]
      simp
    · refine iff_of_false (not_removes_of_links hn ht.nodup hboth ?_) ?_
      · intro u hu
        have hout (y : ℕ) (hy : y ∈ (Ctx.frame s q dq S up).nodes) :
            y ∈ ((Ctx.frame s q dq S up).plug (node (node L m dm nil) n d (node lr xr dr rr))).nodes ∧
              y ≠ n := by
          refine ⟨Ctx.mem_nodes_plug.mpr (Or.inr hy), ?_⟩
          rintro rfl
          exact ht.separate.2.2 _ (by simp) hy
        have hq' := hout q (by simp [Ctx.nodes])
        have hm : m ∈ ((Ctx.frame s q dq S up).plug
            (node (node L m dm nil) n d (node lr xr dr rr))).nodes :=
          Ctx.mem_nodes_plug.mpr (Or.inl (by simp))
        have hmn : m ≠ n := by
          rintro rfl
          exact (nodup_join (s := .left).mp ht.separate.1).1 (by simp)
        refine near_broken ht hgood (hu q hq'.1 hq'.2) (hu m hm hmn) fun hS => ?_
        have hS' := hout S.root (by simp [Ctx.nodes, root_mem hS])
        exact hu _ hS'.1 hS'.2
      · cases s with
        | left => cases S <;> cases L <;> exact fun he => by cases he
        | right =>
          cases S with
          | node _ _ _ _ => cases L <;> exact fun he => by cases he
          | nil =>
            cases L with
            | node _ _ _ _ => exact fun he => by cases he
            | nil => exact absurd ⟨rfl, rfl, rfl⟩ hgood

theorem exists_last_below {τ : Type} {l r : BinTree τ} {x : ℕ} {d : τ} (hr : r ≠ nil) :
    ∃ q dq S up L m dm, node l x d r = (Ctx.frame .right q dq S up).plug (node L m dm nil) ∧
      up.after = [] ∧ (node l x d r).last = node L m dm nil := by
  obtain ⟨k, L, m, dm, hk, hafter, hlast⟩ := exists_last hr
  have hlast' : (node l x d r).last = node L m dm nil := by
    cases r with
    | nil => exact absurd rfl hr
    | node _ _ _ _ => exact hlast
  cases k with
  | top => exact ⟨x, d, l, .top, L, m, dm, by rw [hk]; rfl, rfl, hlast'⟩
  | frame s q dq S up =>
    cases s with
    | left => exact absurd hafter (by simp [Ctx.after])
    | right =>
      refine ⟨q, dq, S, up.comp (.frame .right x d l .top), L, m, dm, ?_, ?_, hlast'⟩
      · rw [hk, Ctx.plug, Ctx.plug, Ctx.plug_comp]
        rfl
      · rw [Ctx.after_comp]
        simpa [Ctx.after] using hafter

/-- `erase` is right at the nodes that `erasable` names, and only there. -/
theorem erase_removes_iff (ht : IsTree t.heap (c.plug (node l n d r)))
    (hord : Ordered lt t (c.plug (node l n d r)).nodes)
    (hturns : (c.plug (node l n d r)).nodes.length ≤ turns) :
    (∃ t', erase turns t n = .ok t' ∧ Removed lt (c.plug (node l n d r)).nodes n t t') ↔
      erasable c l r = true := by
  have hlength : l.nodes.length < turns := by
    rw [Ctx.nodes_plug, nodes_node] at hturns
    simp only [List.length_append, List.length_cons] at hturns
    omega
  cases r with
  | nil =>
    rw [noRight_iff ht hord]
    cases c with
    | top => exact iff_of_false (fun he => he rfl) (fun he => by cases he)
    | frame s q dq S up => exact iff_of_true ht.focus.1.1 rfl
  | node lr xr dr rr =>
    have hr : node lr xr dr rr ≠ nil := fun he => by cases he
    cases l with
    | nil =>
      refine iff_of_true (noLeft_removes ht hr hord) ?_
      cases c <;> rfl
    | node ll xl dl rl =>
      cases rl with
      | nil => exact near_iff hr ht hord (by simp at hlength; omega)
      | node l' x' d' r' =>
        -- the last node is further down
        have hne : node l' x' d' r' ≠ nil := fun he => by cases he
        obtain ⟨q, dq, S, up, L, m, dm, hl, hafter, hlast⟩ := exists_last_below (l := ll) (x := xl) (d := dl) hne
        have hlast' : (node l' x' d' r').last = node L m dm nil := hlast
        have hfar : erasable c (node ll xl dl (node l' x' d' r')) (node lr xr dr rr) = true ↔
            L = nil := by
          cases L with
          | nil =>
            refine iff_of_true ?_ rfl
            cases c with
            | top => simp only [erasable, hlast']
            | frame s q dq S up => cases s <;> cases S <;> cases ll <;> simp only [erasable, hlast']
          | node _ _ _ _ =>
            refine iff_of_false ?_ (fun he => by cases he)
            cases c with
            | top => simp [erasable, hlast']
            | frame s q dq S up => cases s <;> cases S <;> cases ll <;> simp [erasable, hlast']
        rw [hfar]
        exact far_iff hl hafter hlast hr ht hord hlength.le

end Removal

/-- The keys 2, 1 and 3 inserted into an empty tree. -/
def threeNodes : Tree ℕ ℕ Unit :=
  ⟨⟨2, fun x => if x = 2 then ⟨1, 3, 0, ()⟩ else ⟨0, 0, 2, ()⟩⟩, fun x => (x, 0), 2⟩

theorem threeNodes_isTree :
    IsTree threeNodes.heap (node (node nil 1 () nil) 2 () (node nil 3 () nil)) where
  root := rfl
  holds := ⟨by decide, rfl, ⟨by decide, rfl, trivial, trivial⟩, ⟨by decide, rfl, trivial, trivial⟩⟩
  nodup := by decide

theorem threeNodes_ordered : Ordered (fun a b => decide (a < b)) threeNodes [1, 2, 3] := by
  unfold Ordered
  decide

theorem leaf_removed : ∃ t', erase 3 threeNodes 1 = .ok t' ∧
    Removed (fun a b => decide (a < b)) [1, 2, 3] 1 threeNodes t' :=
  (erase_removes_iff (c := .frame .left 2 () (node nil 3 () nil) .top) (l := nil) (r := nil) (d := ())
    threeNodes_isTree threeNodes_ordered (le_refl 3)).mpr rfl

/-- The root has two children, and its predecessor is one of them. -/
theorem root_not_removed : IsTree threeNodes.heap (node (node nil 1 () nil) 2 () (node nil 3 () nil)) ∧
    Ordered (fun a b => decide (a < b)) threeNodes [1, 2, 3] ∧
    erase 3 threeNodes 2 = .error .nullDereference :=
  ⟨threeNodes_isTree, threeNodes_ordered, rfl⟩

end MaiFaSp.SearchTree
