import MaiFaSp.SearchTree.AVLRebalance
import MaiFaSp.SearchTree.Search

/-!
# Removal from the AVL tree (`AVL_tree.h:638-710`)

A node without a right child gives its place to its left one, whose parent pointer stays, and a
node with two children to its predecessor, whose own left child is forgotten where it is further
down. The rebalancing starts at the node that came to the place, so what changed below it or
beside it is not seen.
-/

namespace MaiFaSp.SearchTree.AVL

open LinkedTree BinTree

variable {h : Heap ℕ} {c k : Ctx ℕ} {l r L : BinTree ℕ} {n m d dm turns : ℕ}

/-! ### The links -/

theorem eraseLinks_noRight (ht : IsTree h (c.plug (node l n d nil))) : eraseLinks turns h n =
    if c.parent = 0 then .error .nullDereference else .ok (h.set c.link l.root, l.root) := by
  obtain ⟨hn, hleft, hright, hparent, hlink⟩ := reads_node ht
  have hchild := replaceChild_eq h n l.root
  rw [hparent, hlink] at hchild
  have herase : eraseLinks turns h n =
      (replaceChild h (h.parent n) n (h.left n)).map fun h' => (h', h'.left n) := by
    unfold eraseLinks replaceChild
    rw [hright, if_pos root_nil]
    cases liftLink (deref (h.parent n)) <;> rfl
  have hleft' : (h.set c.link l.root).left n = l.root := by
    rw [Heap.left, set_cell_of_notMem (ht.separate.2.2 n (by simp))]
    exact hleft
  rw [herase, hparent, hleft, hchild]
  split
  · rfl
  · show Except.ok (h.set c.link l.root, (h.set c.link l.root).left n) = _
    rw [hleft']

theorem eraseLinks_noLeft (ht : IsTree h (c.plug (node nil n d r))) (hr : r ≠ nil) :
    eraseLinks turns h n = .error .nullDereference := by
  obtain ⟨-, hleft, hright, -⟩ := reads_node ht
  unfold eraseLinks
  rw [hright, if_neg (root_ne_zero ht.focus.2.2.2.2 hr), hleft]
  rfl

/-- The heap after `m`, at a place below the node `n` at the place `c`, came to the place of `n`. -/
def seated (h : Heap ℕ) (c K : Ctx ℕ) (n m : ℕ) : Heap ℕ :=
  seatPredecessor (pointed (recalculateHeight (pointed h K 0) m) c m) n m

/-- `m` leaves its place, and what is below it goes with it. -/
theorem detached_isTree (ht : IsTree h (c.plug (node (k.plug (node L m dm nil)) n d r))) :
    detachSuccessor h m = pointed h (k.comp (.frame .left n d r c)) 0 ∧
      IsTree (pointed h (k.comp (.frame .left n d r c)) 0) (c.plug (node (k.plug nil) n d r)) := by
  have htm : IsTree h ((k.comp (.frame .left n d r c)).plug (node L m dm nil)) := by
    rw [Ctx.plug_comp]
    exact ht
  obtain ⟨-, -, hright, -, -⟩ := reads_node htm
  have hpointed := pointed_eq (m := h.right m) htm
  rw [hright] at hpointed
  constructor
  · unfold detachSuccessor
    rw [hright]
    exact hpointed
  · have hparent : (k.comp (.frame .left n d r c)).parent ≠ 0 := by
      intro h0
      have htop := htm.focus.1.parent_eq_zero.mp h0
      cases k <;> cases htop
    unfold pointed
    rw [if_pos hparent]
    have hpromote : IsTree (h.set (k.comp (.frame .left n d r c)).link 0)
        ((k.comp (.frame .left n d r c)).plug nil) :=
      htm.promote (X := nil) (p := 0) trivial List.nodup_nil (fun y hy => nomatch hy) rfl
        (fun h0 => absurd rfl h0) (fun y _ => rfl)
    rw [Ctx.plug_comp] at hpromote
    exact hpromote

/-- The place that `m` left, and its height, are no part of the tree. -/
theorem detached_recalculated (ht : IsTree h (c.plug (node (k.plug (node L m dm nil)) n d r))) :
    m ∉ (c.plug (node (k.plug (nil : BinTree ℕ)) n d r)).nodes ∧
      IsTree (recalculateHeight (pointed h (k.comp (.frame .left n d r c)) 0) m)
        (c.plug (node (k.plug nil) n d r)) := by
  obtain ⟨-, ht₁⟩ := detached_isTree ht
  have htm : IsTree h ((k.comp (.frame .left n d r c)).plug (node L m dm nil)) := by
    rw [Ctx.plug_comp]
    exact ht
  have hm : m ∉ ((k.comp (.frame .left n d r c)).plug (nil : BinTree ℕ)).nodes := by
    rw [Ctx.mem_nodes_plug, not_or]
    exact ⟨fun hmem => (nomatch hmem), htm.separate.2.2 m (by simp)⟩
  rw [Ctx.plug_comp] at hm
  obtain ⟨e, he⟩ : ∃ e, recalculateHeight (pointed h (k.comp (.frame .left n d r c)) 0) m =
      (pointed h (k.comp (.frame .left n d r c)) 0).setData m e := ⟨_, rfl⟩
  rw [he]
  refine ⟨hm, ht₁.root, ht₁.holds.congr fun y hy => ?_, ht₁.nodup⟩
  have hy : y ≠ m := by
    rintro rfl
    exact hm hy
  rw [Heap.cell_setData, if_neg hy]

theorem eraseLinks_both (ht : IsTree h (c.plug (node (k.plug (node L m dm nil)) n d r)))
    (hlast : (k.plug (node L m dm nil)).last = node L m dm nil) (hr : r ≠ nil)
    (hturns : (k.plug (node L m dm nil)).nodes.length ≤ turns) :
    eraseLinks turns h n = .ok (seated h c (k.comp (.frame .left n d r c)) n m, m) := by
  obtain ⟨hn, hleft, hright, hparent, -⟩ := reads_node ht
  obtain ⟨hdetach, -⟩ := detached_isTree ht
  have hl : k.plug (node L m dm nil) ≠ nil := by
    intro he
    rw [he] at hlast
    cases hlast
  have hl0 : (k.plug (node L m dm nil)).root ≠ 0 := root_ne_zero ht.focus.2.2.2.1 hl
  have hmost := rightmost_eq ht.focus.2.2.2.1 hl hturns
  rw [hlast, root_node] at hmost
  have hpoint := pointed_eq (m := m) (detached_recalculated ht).2
  unfold eraseLinks
  dsimp only
  rw [hright, if_neg (root_ne_zero ht.focus.2.2.2.2 hr), hleft, deref_of_ne hl0, hmost]
  show (Except.ok m >>= fun m => _) = _
  rw [ok_bind, ok_bind, hdetach, hpoint]
  rfl

/-- What is read in the heap in which the predecessor takes its place. -/
theorem reads_detached (ht : IsTree h (c.plug (node (k.plug (node L m dm nil)) n d r))) {h₃ : Heap ℕ}
    (hh : h₃ = pointed (recalculateHeight (pointed h (k.comp (.frame .left n d r c)) 0) m) c m) :
    h₃.root = h.root ∧ h₃.left n = (k.plug nil).root ∧ h₃.right n = r.root ∧ h₃.parent n = c.parent ∧
      h₃.left m = L.root ∧ h₃.parent m = (k.comp (.frame .left n d r c)).parent ∧
      ∀ y, y ≠ m → h₃.cell y =
        ((pointed h (k.comp (.frame .left n d r c)) 0).set c.link m).cell y := by
  have htm : IsTree h ((k.comp (.frame .left n d r c)).plug (node L m dm nil)) := by
    rw [Ctx.plug_comp]
    exact ht
  obtain ⟨-, hleftm, -, hparentm, -⟩ := reads_node htm
  obtain ⟨-, ht₂⟩ := detached_recalculated ht
  obtain ⟨-, hleft, hright, hparent, -⟩ := reads_node ht₂
  have hn := reads_pointed (v := m) (ht₂.separate.2.2 n (by simp)) (h := recalculateHeight
    (pointed h (k.comp (.frame .left n d r c)) 0) m)
  have hmK := htm.separate.2.2 m (by simp)
  have hmc : m ∉ c.nodes := ht.separate.2.2 m (by simp [Ctx.mem_nodes_plug])
  have hm := reads_pointed (v := m) hmc (h := recalculateHeight
    (pointed h (k.comp (.frame .left n d r c)) 0) m)
  obtain ⟨hl₁, hr₁, hp₁⟩ := recalculateHeight_links (pointed h (k.comp (.frame .left n d r c)) 0) m m
  have hk := reads_pointed (v := 0) hmK (h := h)
  subst hh
  refine ⟨?_, ?_, ?_, ?_, ?_, ?_, ?_⟩
  · rw [root_pointed ht₂.focus.1]
    exact root_pointed htm.focus.1
  · exact hn.1.trans hleft
  · exact hn.2.1.trans hright
  · exact hn.2.2.trans hparent
  · exact hm.1.trans (hl₁.trans (hk.1.trans hleftm))
  · exact hm.2.2.trans (hp₁.trans (hk.2.2.trans hparentm))
  · intro y hy
    rw [pointed_cell_eq ht₂.focus.1]
    exact set_cell_congr ((Heap.cell_setData ..).trans (if_neg hy))

/-- The predecessor is further down: its left child is no longer in the tree. -/
theorem seated_far {q dq : ℕ} {S : BinTree ℕ} {up : Ctx ℕ} (ht : IsTree h (c.plug
      (node ((Ctx.frame .right q dq S up).plug (node L m dm nil)) n d r))) :
    ∃ e, IsTree (rerooted (seated h c ((Ctx.frame .right q dq S up).comp (.frame .left n d r c)) n m) n m)
      (c.plug (node ((Ctx.frame .right q dq S up).plug nil) m e r)) := by
  obtain ⟨h₃, hh⟩ : ∃ h₃, h₃ = pointed (recalculateHeight (pointed h ((Ctx.frame .right q dq S up).comp
    (.frame .left n d r c)) 0) m) c m := ⟨_, rfl⟩
  obtain ⟨hroot, hleft, hright, hparent, -, hparentm, hcell⟩ := reads_detached ht hh
  obtain ⟨hm, -⟩ := detached_recalculated ht
  obtain ⟨-, ht₁⟩ := detached_isTree ht
  have hm0 : m ≠ 0 := ht.ne_zero (by simp [Ctx.mem_nodes_plug])
  have hqn : q ≠ n := by
    have hnode : (join .left ((Ctx.frame .right q dq S up).plug (node L m dm nil)) n d r).nodes.Nodup :=
      ht.separate.1
    rintro rfl
    exact (nodup_join.mp hnode).1 (by simp [Ctx.mem_nodes_plug, Ctx.nodes])
  have htree := ht₁.setData (h₃.data m)
  have hroot₁ : (pointed h ((Ctx.frame .right q dq S up).comp (.frame .left n d r c)) 0).root = h.root := by
    have htm : IsTree h (((Ctx.frame .right q dq S up).comp (.frame .left n d r c)).plug
        (node L m dm nil)) := by
      rw [Ctx.plug_comp]
      exact ht
    exact root_pointed htm.focus.1
  have hq : h₃.parent m = q := hparentm
  have hm' : m ∉ (c.plug (node ((Ctx.frame .right q dq S up).plug (nil : BinTree ℕ)) n (h₃.data m) r)).nodes := by
    rw [Ctx.nodes_plug] at hm ⊢
    exact hm
  refine ⟨h₃.data m, ?_⟩
  unfold seated
  rw [← hh]
  refine htree.replaceNode hm' hm0 (seated_replaced htree hm' hm0 rfl (hroot.trans hroot₁.symm) ?_ hright
    hparent ?_)
  · intro y hym hyn
    rw [hcell y hym]
    exact set_cell_congr ((Heap.cell_setData ..).trans (if_neg hyn)).symm
  · rw [hq, if_neg hqn]
    exact hleft

/-- The predecessor is the left child: it keeps its own one. -/
theorem seated_near (ht : IsTree h (c.plug (node (node L m dm nil) n d r))) :
    ∃ e, IsTree (rerooted (seated h c (.frame .left n d r c) n m) n m) (c.plug (node L m e r)) := by
  have htk : IsTree h (c.plug (node (Ctx.top.plug (node L m dm nil)) n d r)) := ht
  have htm : IsTree h ((Ctx.frame .left n d r c).plug (node L m dm nil)) := ht
  obtain ⟨h₃, hh⟩ : ∃ h₃, h₃ = pointed (recalculateHeight (pointed h (Ctx.frame .left n d r c) 0) m) c m :=
    ⟨_, rfl⟩
  obtain ⟨hroot, -, hright, hparent, hleftm, hparentm, hcell⟩ := reads_detached htk hh
  have hparentm : h₃.parent m = n := hparentm
  obtain ⟨hn, -, ⟨hm, hcellm, hL, -⟩, hr⟩ := ht.focus.2
  obtain ⟨hnd, -, hsep⟩ := ht.separate
  have hnode : (join .left (node L m dm nil) n d r).nodes.Nodup := hnd
  obtain ⟨hnl, hnr, hlnd, hrnd, hlr⟩ := nodup_join.mp hnode
  have hleft : (join .left L m dm nil).nodes.Nodup := hlnd
  obtain ⟨hmL, -, hLnd, -, -⟩ := nodup_join.mp hleft
  have hmn : m ≠ n := fun he => hnl (by simp [he])
  have hmr : m ∉ r.nodes := hlr m (by simp)
  have hnL : n ∉ L.nodes := fun hmem => hnl (by simp [hmem])
  have hLr {y : ℕ} (hy : y ∈ L.nodes) : y ∉ r.nodes := hlr y (by simp [hy])
  have hrootne {u : BinTree ℕ} {w : ℕ} (hw0 : w ≠ 0) (hw : w ∉ u.nodes) : u.root ≠ w := by
    rintro rfl
    exact hw (root_mem hw0)
  have hcell' (y : ℕ) : (pointed h (Ctx.frame .left n d r c) 0).cell y =
      if y = n then (h.cell y).setChild .left 0 else h.cell y :=
    (pointed_cell_eq htm.focus.1 y).trans (Heap.cell_setChild ..)
  have hin {y : ℕ} (hym : y ≠ m) (hyn : y ≠ n) (hyc : y ∉ c.nodes) : h₃.cell y = h.cell y := by
    rw [hcell y hym, set_cell_of_notMem hyc]
    exact (hcell' y).trans (if_neg hyn)
  have hseat := seatPredecessor_cell hmn hright hparent ((if_pos hparentm).trans hleftm)
    (hrootne hm hmL) (hrootne hm hmr)
  -- nodes outside of the two subtrees
  have hrest {y : ℕ} (hym : y ≠ m) (hyL : y ≠ L.root) (hyr : y ≠ r.root) :
      (seatPredecessor h₃ n m).cell y = h₃.cell y := by
    rw [hseat, if_neg hym, if_neg fun he => hyr he.2, cell_setParentOf, if_neg fun he => hyL he.2]
  have hseatn : (seatPredecessor h₃ n m).parent n = c.parent := by
    rw [Heap.parent, hrest hmn.symm (hrootne hn hnL).symm (hrootne hn hnr).symm]
    exact hparent
  refine ⟨h₃.data m, ?_⟩
  have hseated : seated h c (.frame .left n d r c) n m = seatPredecessor h₃ n m := by
    rw [hh]
    rfl
  rw [hseated]
  refine ht.replace ?_ ?_ ⟨hm, ?_, ?_, ?_⟩ ?_ ?_
  · exact root_rerooted ht.focus.1 hseatn (root_seatPredecessor.trans hroot)
  · intro y hy
    have hne {w : ℕ} (hw : w ∈ (node (node L m dm nil) n d r).nodes) : y ≠ w := fun he => hsep w hw (he ▸ hy)
    have hy0 : y ≠ 0 := ht.ne_zero (Ctx.mem_nodes_plug.mpr (Or.inr hy))
    have hyroot {u : BinTree ℕ} (hu : ∀ w ∈ u.nodes, w ∈ (node (node L m dm nil) n d r).nodes) :
        y ≠ u.root := by
      intro he
      exact hne (hu _ (root_mem (he ▸ hy0))) he
    have hym : y ≠ m := hne (by simp)
    rw [cell_rerooted, hrest hym (hyroot fun w hw => by simp [hw]) (hyroot fun w hw => by simp [hw]),
      hcell y hym]
    exact set_cell_congr ((hcell' y).trans (if_neg (hne (by simp))))
  · rw [cell_rerooted, hseat, if_pos rfl]
  · refine hL.congr fun y hy => ?_
    have hym : y ≠ m := fun he => hmL (he ▸ hy)
    have hyr : y ≠ r.root := fun he => hLr hy (he ▸ root_mem (he ▸ hL.ne_zero hy))
    have hyc : y ∉ c.nodes := hsep y (by simp [hy])
    rw [cell_rerooted, hseat, if_neg hym, if_neg fun he => hyr he.2, cell_setParentOf,
      hin hym (fun he => hnL (he ▸ hy)) hyc]
    split
    case isTrue he =>
      -- the left child has this parent already
      have hpar : (h.cell y).parent = m := by
        rw [he.2]
        exact holds_parent hL he.1
      rw [← hpar]
      rfl
    case isFalse => rfl
  · refine hr.reparent hrnd ?_ ?_
    · intro h0
      have hmem := root_mem h0
      have hab : ¬ (L.root ≠ 0 ∧ r.root = L.root) := fun he => hLr (root_mem he.1) (he.2 ▸ hmem)
      rw [cell_rerooted, hseat, if_neg (hrootne hm hmr), if_pos ⟨h0, rfl⟩, cell_setParentOf, if_neg hab,
        hin (hrootne hm hmr) (hrootne hn hnr) (hsep _ (by simp [hmem]))]
    · intro y hy hyr
      have hyL : y ≠ L.root := fun he => hLr (he ▸ root_mem (he ▸ hr.ne_zero hy)) hy
      have hym : y ≠ m := fun he => hmr (he ▸ hy)
      rw [cell_rerooted, hrest hym hyL hyr, hin hym (fun he => hnr (he ▸ hy)) (hsep y (by simp [hy]))]
  · have hnode' : (join .left L m (h₃.data m) r).nodes.Nodup :=
      nodup_join.mpr ⟨hmL, hmr, hLnd, hrnd, fun y hy => hLr hy⟩
    exact hnode'
  · intro y hy
    refine hsep y ?_
    simp only [nodes_node, List.mem_append, List.mem_cons] at hy ⊢
    tauto

/-! ### Two children -/

/-- `erase` on the links. -/
def eraseHeap (turns : ℕ) (h : Heap ℕ) (n : ℕ) : Except TreeFault (Heap ℕ) := do
  let (h, m) ← eraseLinks turns h n
  rebalanceToRoot turns (rerooted h n m) m

/-- Where `good` holds the node is gone from the nodes `xs` of an AVL tree, and elsewhere what is left is
none. -/
structure Outcome (turns : ℕ) (h : Heap ℕ) (n : ℕ) (xs : List ℕ) (good : Prop) : Prop where
  done : good → ∃ h' u', eraseHeap turns h n = .ok h' ∧ IsTree h' u' ∧ (∃ N, Avl N u') ∧
    u'.nodes = xs.erase n
  spoilt : ¬ good → ∀ h' u', eraseHeap turns h n = .ok h' → IsTree h' u' → ¬ ∃ N, Avl N u'

theorem Outcome.of_iff {xs : List ℕ} {P Q : Prop} (ho : Outcome turns h n xs P) (hPQ : P ↔ Q) :
    Outcome turns h n xs Q :=
  ⟨fun hq => ho.done (hPQ.mpr hq), fun hq => ho.spoilt fun hp => hq (hPQ.mp hp)⟩

theorem depth_lt {t : BinTree ℕ} (hturns : (c.plug t).nodes.length < turns) : c.depth < turns :=
  (Nat.le_add_right ..).trans_lt ((c.depth_le_length t).trans_lt hturns)

theorem near_outcome {N : ℕ} (ht : IsTree h (c.plug (node (node L m dm nil) n d r)))
    (havl : Avl N (c.plug (node (node L m dm nil) n d r))) (hr : r ≠ nil)
    (hlen : (c.plug (node (node L m dm nil) n d r)).nodes.length < 2 ^ 64)
    (hturns : (c.plug (node (node L m dm nil) n d r)).nodes.length < turns) :
    Outcome turns h n (c.plug (node (node L m dm nil) n d r)).nodes True := by
  refine ⟨fun _ => ?_, fun hno => absurd trivial hno⟩
  have htk : IsTree h (c.plug (node (Ctx.top.plug (node L m dm nil)) n d r)) := ht
  have hsmall : (node L m dm nil).nodes.length ≤ turns := by
    rw [length_plug, nodes_node, List.length_append] at hturns
    omega
  have hlinks := eraseLinks_both htk rfl hr hsmall
  obtain ⟨a, hnode, hctx⟩ := avl_plug.mp havl
  cases hnode with
  | @node e b _ _ _ hl hrb heb hbe =>
    cases hl with
    | @node f _ _ _ _ hL hnil hf _ =>
      cases hnil
      have hstored := hL.stored_eq
      obtain ⟨e', hseated⟩ := seated_near ht
      have hnodes : (c.plug (node L m e' r)).nodes =
          (c.plug (node (node L m (max f 0 + 1) nil) n (max (max f 0 + 1) b + 1) r)).nodes.erase n := by
        rw [erase_nodes_plug ht.nodup, Ctx.nodes_plug]
        simp
      have hshort := congrArg List.length hnodes
      rw [List.length_erase_of_mem (Ctx.mem_nodes_plug.mpr (Or.inl (by simp)))] at hshort
      have hstands : Stands _ (c.plug (join .left L m e' r)) := stands_of_isTree hseated
      obtain ⟨h', k', n', hok, ht', hk', hnodes'⟩ := rebalanceToRoot_spec hstands hrb
        (show (c.plug (node L m e' r)).nodes.length < 2 ^ 64 by omega) (by omega) (by omega) hctx
        (by omega) (by omega) (fun _ => by omega) (depth_lt hturns)
      refine ⟨h', _, ?_, ht', ⟨n', avl_plug.mpr ⟨f, hL, hstored ▸ hk'⟩⟩, hnodes'.trans hnodes⟩
      unfold eraseHeap
      rw [hlinks]
      exact hok

theorem eq_nil_of_avl {t : BinTree ℕ} (ht : Avl 0 t) : t = nil := by
  cases ht
  rfl

/-- The heights above the predecessor's old place stay as they are. -/
theorem far_outcome {N q dq : ℕ} {S : BinTree ℕ} {up : Ctx ℕ} (ht : IsTree h (c.plug
      (node ((Ctx.frame .right q dq S up).plug (node L m dm nil)) n d r)))
    (hlast : ((Ctx.frame .right q dq S up).plug (node L m dm nil)).last = node L m dm nil)
    (hafter : up.after = [])
    (havl : Avl N (c.plug (node ((Ctx.frame .right q dq S up).plug (node L m dm nil)) n d r)))
    (hr : r ≠ nil)
    (hlen : (c.plug (node ((Ctx.frame .right q dq S up).plug (node L m dm nil)) n d r)).nodes.length < 2 ^ 64)
    (hturns : (c.plug (node ((Ctx.frame .right q dq S up).plug (node L m dm nil)) n d r)).nodes.length <
      turns) :
    Outcome turns h n (c.plug (node ((Ctx.frame .right q dq S up).plug (node L m dm nil)) n d r)).nodes
      (L = nil ∧ S.stored = 1) := by
  have hlenl := length_plug c (node ((Ctx.frame .right q dq S up).plug (node L m dm nil)) n d r)
  rw [nodes_node, List.length_append, List.length_cons] at hlenl
  have hsmall : ((Ctx.frame .right q dq S up).plug (node L m dm nil)).nodes.length ≤ turns := by omega
  have hlinks := eraseLinks_both ht hlast hr hsmall
  have hnd := ht.nodup
  obtain ⟨a, hnode, hctx⟩ := avl_plug.mp havl
  obtain ⟨e', hseated⟩ := seated_far ht
  have hlenl' := length_plug c (node ((Ctx.frame .right q dq S up).plug nil) m e' r)
  rw [nodes_node, List.length_append, List.length_cons] at hlenl'
  have hshort : ((Ctx.frame .right q dq S up).plug (nil : BinTree ℕ)).nodes.length ≤
      ((Ctx.frame .right q dq S up).plug (node L m dm nil)).nodes.length := by
    rw [length_plug, length_plug]
    exact Nat.add_le_add_right (Nat.zero_le _) _
  obtain ⟨e, b, hl, hrb, heb, hbe, hd, rfl⟩ := (avl_join (s := .left)).mp hnode
  obtain ⟨a₀, hpred, hk⟩ := avl_plug.mp hl
  obtain ⟨f, g, hL, hnil, -, -, rfl, rfl⟩ := (avl_join (s := .left)).mp hpred
  cases hnil
  cases hk with
  | @frame _ _ _ _ _ sb _ hS hab hba hup =>
    have hsS := hS.stored_eq
    have hstored : ((Ctx.frame .right q (max (max f 0 + 1) sb + 1) S up).plug nil).stored = e :=
      hup.stored_plug (stored_join ..)
    have hstands : Stands _ (c.plug (join .left ((Ctx.frame .right q (max (max f 0 + 1) sb + 1) S up).plug
      nil) m e' r)) := stands_of_isTree hseated
    obtain ⟨h', k', n', hok, ht', hk', hnodes'⟩ := rebalanceToRoot_spec hstands hrb
      (show (c.plug (node _ m e' r)).nodes.length < 2 ^ 64 by omega) (by omega) (by omega) hctx
      (by omega) (by omega) (fun _ => by omega) (depth_lt hturns)
    have herase : eraseHeap turns h n = .ok h' := by
      unfold eraseHeap
      rw [hlinks]
      exact hok
    constructor
    · rintro ⟨rfl, hS1⟩
      cases hL
      have hlow : Avl e ((Ctx.frame .right q (max (max 0 0 + 1) sb + 1) S up).plug nil) := by
        refine avl_plug.mpr ⟨0, .nil, ?_⟩
        have hheight : max (max 0 0 + 1) sb + 1 = max 0 sb + 1 := by omega
        rw [hheight] at hup ⊢
        exact .frame hS (by omega) (by omega) hup
      refine ⟨h', _, herase, ht', ⟨n', avl_plug.mpr ⟨e, hlow, hstored ▸ hk'⟩⟩, hnodes'.trans ?_⟩
      show (c.plug (node _ m e' r)).nodes = _
      rw [erase_nodes_plug hnd, Ctx.nodes_plug, nodes_node, Ctx.nodes_plug, Ctx.nodes_plug]
      simp [Ctx.after, hafter]
    · rintro hbad h'' u' hok' hu' ⟨N', hN'⟩
      obtain rfl : h' = h'' := Except.ok.inj (herase.symm.trans hok')
      obtain rfl := ht'.unique hu'
      obtain ⟨_, hlow, -⟩ := avl_plug.mp hN'
      have hlow : Avl _ (up.plug (join .right nil q (max (max f 0 + 1) sb + 1) S)) := hlow
      obtain ⟨_, hframe, -⟩ := avl_plug.mp hlow
      obtain ⟨x, y, hx, hy, hxy, hyx, hheight, -⟩ := avl_join.mp hframe
      cases hx
      have hsy := hy.stored_eq
      have hf : f = 0 := by omega
      subst hf
      exact hbad ⟨eq_nil_of_avl hL, by omega⟩

end MaiFaSp.SearchTree.AVL
