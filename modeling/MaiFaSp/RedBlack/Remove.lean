import MaiFaSp.RedBlack.InOrder

/-!
# Taking a node out of the links

`unlink` is the part of the removal before the colours are set right. Either the
node has a child at most, which comes to its place, or the last node of its left
subtree does. In both cases one node `y` with no child on one side leaves its
place, and the tree is the old one with the other child of `y` in that place,
where the removed address is written over by `y`.
-/

namespace MaiFaSp.RedBlack

open LinkedTree BinTree

/-- The subtree at the node that leaves its place when the root of `u` is removed. -/
def leaving : BinTree Color → BinTree Color
  | node l z d r => if l.root = 0 ∨ r.root = 0 then node l z d r else l.last
  | nil => nil

section

variable {h : Heap Color} {c : Ctx Color} {u X : BinTree Color} {v : ℕ}

theorem transplant_eq (ht : IsTree h (c.plug u)) (hu : u.root ≠ 0) :
    transplant h u.root v =
      if v ≠ 0 then (h.set c.link v).setParent v c.parent else h.set c.link v := by
  have hmem := fun hm => ht.separate.2.2 u.root (BinTree.root_mem hu) hm
  have hparent : (h.set c.link v).parent u.root = c.parent := by
    rw [Heap.parent, set_cell_of_notMem hmem]
    exact ht.parent_focus hu
  unfold transplant
  rw [ht.linkTo_eq hu]
  dsimp only
  rw [hparent]

theorem root_transplant (ht : IsTree h (c.plug u)) (hu : u.root ≠ 0) :
    (transplant h u.root v).root = (h.set c.link v).root := by
  rw [transplant_eq ht hu]
  split <;> rfl

theorem cell_transplant (ht : IsTree h (c.plug u)) (hu : u.root ≠ 0) {y : ℕ} (hy : y ≠ v) :
    (transplant h u.root v).cell y = (h.set c.link v).cell y := by
  rw [transplant_eq ht hu]
  split
  · rw [Heap.cell_setParent, if_neg hy]
  · rfl

theorem cell_transplant_self (ht : IsTree h (c.plug u)) (hu : u.root ≠ 0) (hv : v ≠ 0)
    (hvc : v ∉ c.nodes) :
    (transplant h u.root v).cell v = (h.cell v).setParent c.parent := by
  rw [transplant_eq ht hu, if_pos hv, Heap.cell_setParent, if_pos rfl, set_cell_of_notMem hvc]

theorem transplant_isTree {p : ℕ} (ht : IsTree h (c.plug u)) (hu : u.root ≠ 0)
    (hX : Holds h p X) (hnd : X.nodes.Nodup) (hsub : ∀ y ∈ X.nodes, y ∈ u.nodes) :
    IsTree (transplant h u.root X.root) (c.plug X) := by
  obtain ⟨-, -, hsep⟩ := ht.separate
  have hout (y : ℕ) (hy : y ∈ X.nodes) : y ∉ c.nodes := hsep y (hsub y hy)
  refine ht.replace (root_transplant ht hu) ?_ ?_ hnd hout
  · intro y hy
    apply cell_transplant ht hu
    rintro rfl
    exact hout _ (BinTree.root_mem (ht.ne_zero (Ctx.mem_nodes_plug.mpr (Or.inr hy)))) hy
  · apply hX.reparent hnd
    · exact fun h0 => cell_transplant_self ht hu h0 (hout _ (BinTree.root_mem h0))
    · intro y hy hne
      rw [cell_transplant ht hu hne, set_cell_of_notMem (hout y hy)]

theorem maximum_eq {p n : ℕ} (hr : Holds h p u) (hu : u ≠ nil) (hn : u.nodes.length ≤ n) :
    maximum h n u.root = .ok u.last.root := by
  induction u generalizing p n with
  | nil => exact absurd rfl hu
  | node l x d r _ ihr =>
    obtain ⟨-, hcell, -, hr⟩ := hr
    rw [nodes_node, List.length_append, List.length_cons] at hn
    obtain ⟨n, rfl⟩ : ∃ m, n = m + 1 := ⟨n - 1, by omega⟩
    have hright : h.right x = r.root := by rw [Heap.right, hcell]
    rw [root_node, maximum, hright]
    cases r with
    | nil => rfl
    | node l' x' d' r' =>
      rw [if_pos (show (node l' x' d' r').root ≠ 0 from hr.1)]
      exact ihr hr (fun he => by cases he) (by omega)

end

/-! ### The node with two children -/

/-- `y` is out of its place and has taken over the left subtree `L` of `z`. The rest is as in `h`. -/
structure Lifted (h h' : Heap Color) (z y a : ℕ) : Prop where
  root : h'.root = h.root
  left : h'.left y = a
  moved : a ≠ 0 → h'.cell a = (h.cell a).setParent y
  top : h'.right z = h.right z ∧ h'.parent z = h.parent z ∧ h'.data z = h.data z
  rest : ∀ w, w ≠ y → w ≠ z → w ≠ a → h'.cell w = h.cell w

theorem takePlace_eq {h : Heap Color} {z y : ℕ} {b p : ℕ} {k : Ref} {d : Color} (hy : y ≠ 0)
    (hzy : z ≠ y) (hb0 : b ≠ 0) (hbz : b ≠ z) (hk : h.linkTo z = k)
    (hz : (h.set k y).cell z = h.cell z) (hb : h.right z = b) (hp : h.parent z = p)
    (hd : h.data z = d) :
    takePlace h z y =
      .ok (((((h.set k y).setParent y p).setChild .right y b).setParent b y).setData y d) := by
  unfold takePlace transplant
  dsimp only
  rw [if_pos hy, hk]
  have hp' : (h.set k y).parent z = p := by rw [Heap.parent, hz, ← hp, Heap.parent]
  have hright : ((h.set k y).setParent y p).right z = b := by
    rw [Heap.right, Heap.cell_setParent, if_neg hzy, hz, ← hb, Heap.right]
  rw [hp', hright]
  have hright' : (((h.set k y).setParent y p).setChild .right y b).right y = b := by
    rw [Heap.right, Heap.cell_setChild, if_pos rfl]
    rfl
  have hdata : ((((h.set k y).setParent y p).setChild .right y b).setParent b y).data z = d := by
    rw [Heap.data, Heap.cell_setParent, if_neg hbz.symm, Heap.cell_setChild, if_neg hzy,
      Heap.cell_setParent, if_neg hzy, hz, ← hd, Heap.data]
  rw [hright', deref_of_ne hb0, hdata]
  rfl

theorem takePlace_replaced {h h' : Heap Color} {c : Ctx Color} {l r : BinTree Color} {z y : ℕ}
    {d : Color} (ht : IsTree h (c.plug (node l z d r)))
    (hy : y ∉ (c.plug (node l z d r)).nodes) (hy0 : y ≠ 0) (hr0 : r.root ≠ 0)
    (hl : Lifted h h' z y l.root) :
    ∃ h₂, takePlace h' z y = .ok h₂ ∧
      Replaced h h₂ c.link c.parent z y l.root r.root d ∧ h₂.parent z = h'.parent z := by
  obtain ⟨-, hz0, hcell, hsl, hsr⟩ := ht.focus
  obtain ⟨hnd, -, hsep⟩ := ht.separate
  rw [nodes_node, List.nodup_append, List.nodup_cons] at hnd
  obtain ⟨-, ⟨hzr, -⟩, hlr⟩ := hnd
  have hzc : z ∉ c.nodes := hsep z (by simp)
  rw [Ctx.mem_nodes_plug, nodes_node, List.mem_append, List.mem_cons, not_or, not_or, not_or] at hy
  obtain ⟨⟨hyl, hyz, hyr⟩, hyc⟩ := hy
  have hr := BinTree.root_mem hr0
  have hry : r.root ≠ y := fun he => hyr (he ▸ hr)
  have hrz : r.root ≠ z := fun he => hzr (he ▸ hr)
  have hlroot (h0 : l.root ≠ 0) : l.root ≠ y ∧ l.root ≠ z ∧ l.root ≠ r.root := by
    have hm := BinTree.root_mem h0
    exact ⟨fun he => hyl (he ▸ hm), hlr _ hm z (by simp), hlr _ hm _ (by simp [hr])⟩
  obtain ⟨hright, hparent, hdata⟩ := hl.top
  rw [Heap.right, Heap.right, hcell] at hright
  rw [Heap.parent, Heap.parent, hcell] at hparent
  rw [Heap.data, Heap.data, hcell] at hdata
  have hcctx (w : ℕ) (hw : w ∈ c.nodes) : h'.cell w = h.cell w := by
    refine hl.rest w (fun he => hyc (he ▸ hw)) (fun he => hzc (he ▸ hw)) ?_
    rintro rfl
    have h0 := ht.ne_zero (Ctx.mem_nodes_plug.mpr (Or.inr hw))
    exact hsep _ (by simp [BinTree.root_mem h0]) hw
  have hlink : h'.linkTo z = c.link := by
    rw [← ht.linkTo_eq hz0]
    have hp : h.parent z = c.parent := ht.parent_focus hz0
    apply linkTo_congr
    · rw [Heap.parent, hparent, hp]
    · rw [hp]
      intro h0
      rw [Heap.left, Heap.left, hcctx _ (ht.focus.1.parent_mem.resolve_left h0)]
  refine ⟨_, takePlace_eq hy0 (Ne.symm hyz) hr0 hrz hlink (set_cell_of_notMem hzc) hright hparent
    hdata, ?_⟩
  have hF (w : ℕ) : ((((((h'.set c.link y).setParent y c.parent).setChild .right y r.root).setParent
      r.root y).setData y d).cell w) =
      if w = y then ⟨(h'.set c.link y).left y, r.root, c.parent, d⟩
      else if w = r.root then ((h'.set c.link y).cell w).setParent y
      else (h'.set c.link y).cell w := by
    rw [Heap.cell_setData, Heap.cell_setParent, Heap.cell_setChild, Heap.cell_setParent]
    by_cases hw : w = y
    · subst hw
      rw [if_pos rfl, if_neg hry.symm, if_pos rfl, if_pos rfl, if_pos rfl]
      rfl
    · rw [if_neg hw, if_neg hw, if_neg hw, if_neg hw]
  have hr' : h'.cell r.root = h.cell r.root := by
    refine hl.rest _ hry hrz ?_
    intro he
    exact (hlroot (he ▸ hr0)).2.2 he.symm
  refine ⟨⟨set_root_congr hl.root, ?_, ?_, ?_, ?_⟩, ?_⟩
  · rw [hF, if_pos rfl, Heap.left, set_cell_of_notMem hyc, ← hl.left, Heap.left]
  · intro h0
    obtain ⟨h₁, h₂, h₃⟩ := hlroot h0
    have hc := hsep l.root (by simp [BinTree.root_mem h0])
    rw [hF, if_neg h₁, if_neg h₃, set_cell_of_notMem hc, hl.moved h0]
  · intro _
    have hc := hsep r.root (by simp [hr])
    rw [hF, if_neg hry, if_pos rfl, set_cell_of_notMem hc, hr']
  · intro w h₁ h₂ h₃ h₄
    rw [hF, if_neg h₁, if_neg h₄]
    exact set_cell_congr (hl.rest w h₁ h₂ h₃)
  · rw [Heap.parent, hF, if_neg (Ne.symm hyz), if_neg hrz.symm, set_cell_of_notMem hzc, Heap.parent]

theorem lifted_near {h : Heap Color} {c : Ctx Color} {L r : BinTree Color} {z y : ℕ} {d dy : Color}
    (ht : IsTree h (c.plug (node (node L y dy nil) z d r))) :
    Lifted (transplant h y L.root) (if L.root ≠ 0 then h.setParent L.root y else h) z y L.root := by
  have ht' : IsTree h ((Ctx.frame .left z d r c).plug (node L y dy nil)) := ht
  have hy0 : (node L y dy nil).root ≠ 0 := ht'.focus.2.1
  obtain ⟨-, -, hcy, hL, -⟩ := ht'.focus
  obtain ⟨hnd, -, hsep⟩ := ht'.separate
  have hsame (w : ℕ) : (if L.root ≠ 0 then h.setParent L.root y else h).cell w = h.cell w := by
    split
    case isTrue h0 =>
      rw [Heap.cell_setParent]
      split
      case isTrue hw =>
        cases L with
        | nil => exact absurd rfl h0
        | node l x d' r' =>
          rw [hw, root_node, hL.2.1]
          rfl
      case isFalse => rfl
    case isFalse => rfl
  have hset (w : ℕ) (hw : w ≠ L.root) : (transplant h y L.root).cell w =
      if w = z then (h.cell w).setChild .left L.root else h.cell w :=
    (cell_transplant ht' hy0 hw).trans (Heap.cell_setChild ..)
  have hzL : z ≠ L.root := by
    intro he
    have hz0 : z ≠ 0 := ht.focus.2.1
    exact hsep L.root (by simp [BinTree.root_mem (he ▸ hz0)]) (by simp [Ctx.nodes, he])
  refine ⟨?_, ?_, ?_, ?_, ?_⟩
  · have hr : (transplant h y L.root).root = h.root := root_transplant ht' hy0
    rw [hr]
    split <;> rfl
  · rw [Heap.left, hsame, hcy]
  · intro h0
    have hc := hsep L.root (by simp [BinTree.root_mem h0])
    rw [hsame]
    refine Eq.trans ?_ (congrArg (Cell.setParent · y) (cell_transplant_self ht' hy0 h0 hc)).symm
    cases L with
    | nil => exact absurd rfl h0
    | node l x d' r' =>
      rw [root_node, hL.2.1]
      rfl
  · simp only [Heap.right, Heap.parent, Heap.data, hsame, hset z hzL, if_true]
    exact ⟨rfl, rfl, rfl⟩
  · intro w _ hwz hwL
    rw [hsame, hset w hwL, if_neg hwz]

/-- The node that is lifted is further down, and `a` comes to be its left child. -/
theorem lifted_far {h : Heap Color} {z y a : ℕ} (ha : h.left z = a) (hay : a ≠ y) (haz : a ≠ z)
    (hyz : y ≠ z) :
    Lifted h ((h.setChild .left y (h.left z)).setParent a y) z y a := by
  have hcell (w : ℕ) : ((h.setChild .left y (h.left z)).setParent a y).cell w =
      if w = a then (h.cell w).setParent y
      else if w = y then (h.cell w).setChild .left a else h.cell w := by
    rw [Heap.cell_setParent, Heap.cell_setChild, ha]
    by_cases hw : w = a
    · rw [if_pos hw, if_pos hw, if_neg (hw ▸ hay)]
    · rw [if_neg hw, if_neg hw]
  refine ⟨?_, ?_, ?_, ?_, ?_⟩
  · rfl
  · rw [Heap.left, hcell, if_neg hay.symm, if_pos rfl]
    rfl
  · intro _
    rw [hcell, if_pos rfl]
  · simp only [Heap.right, Heap.parent, Heap.data, hcell, if_neg haz.symm, if_neg hyz.symm,
      and_self]
  · intro w h₁ h₂ h₃
    rw [hcell, if_neg h₃, if_neg h₁]

/-! ### The removal from the links -/

section

variable {h : Heap Color} {c : Ctx Color} {l r : BinTree Color} {z turns : ℕ} {d : Color}

theorem unlink_few (turns : ℕ) (ht : IsTree h (c.plug (node l z d r))) (hfew : l.root = 0 ∨ r.root = 0) :
    ∃ s X, node l z d r = join s X z d nil ∧ unlink turns h z = .ok (transplant h z X.root, X.root, d)
      ∧ IsTree (transplant h z X.root) (c.plug X) ∧ X.nodes = l.nodes ++ r.nodes ∧
      (transplant h z X.root).parent z = h.parent z := by
  obtain ⟨-, hz0, hcell, hl, hr⟩ := ht.focus
  have hsub : ∃ s X, node l z d r = join s X z d nil ∧ Holds h z X ∧ X.nodes = l.nodes ++ r.nodes ∧
      (if h.left z ≠ 0 then h.left z else h.right z) = X.root := by
    rw [Heap.left, Heap.right, hcell]
    dsimp only
    by_cases h0 : l.root = 0
    · rw [eq_nil_of_root hl h0]
      exact ⟨.right, r, rfl, hr, rfl, rfl⟩
    · rw [if_pos h0, eq_nil_of_root hr (hfew.resolve_left h0)]
      exact ⟨.left, l, rfl, hl, by simp, rfl⟩
  obtain ⟨s, X, hjoin, hX, hnodes, hx⟩ := hsub
  have hu0 : (node l z d r).root ≠ 0 := hz0
  obtain ⟨hnd, -, hsep⟩ := ht.separate
  rw [nodes_node, List.nodup_append, List.nodup_cons] at hnd
  have hXz : z ≠ X.root := by
    intro he
    have hm : z ∈ X.nodes := by
      rw [he]
      exact BinTree.root_mem (he ▸ hz0)
    rw [hnodes, List.mem_append] at hm
    exact hm.elim (fun hl => hnd.2.2 z hl z (by simp) rfl) hnd.2.1.1
  have hXnd : X.nodes.Nodup := by
    rw [hnodes, List.nodup_append]
    exact ⟨hnd.1, hnd.2.1.2, fun y hy w hw => hnd.2.2 y hy w (List.mem_cons_of_mem _ hw)⟩
  refine ⟨s, X, hjoin, ?_, transplant_isTree ht hu0 hX hXnd ?_, hnodes, ?_⟩
  · have hfew' : h.left z = 0 ∨ h.right z = 0 := by
      rw [Heap.left, Heap.right, hcell]
      exact hfew
    unfold unlink
    rw [deref_of_ne hz0]
    simp only [bind, Except.bind]
    rw [if_pos hfew', hx, Heap.data, hcell]
    rfl
  · intro y hy
    rw [hnodes] at hy
    rw [nodes_node, List.mem_append, List.mem_cons]
    rcases List.mem_append.mp hy with hy | hy
    · exact Or.inl hy
    · exact Or.inr (Or.inr hy)
  · have hkeep := cell_transplant (v := X.root) ht hu0 hXz
    rw [root_node, set_cell_of_notMem (hsep z (by simp))] at hkeep
    rw [Heap.parent, hkeep, Heap.parent]

/-- The last node `y` of the left subtree leaves its place, and `L` comes there. -/
theorem takeLeft_lifted {k : Ctx Color} {L : BinTree Color} {y : ℕ} {dy : Color}
    (ht : IsTree h (c.plug (node (k.plug (node L y dy nil)) z d r))) :
    y ≠ 0 ∧ h.left y = L.root ∧ h.data y = dy ∧
      IsTree (transplant h y L.root) (c.plug (node (k.plug L) z d r)) ∧
      y ∉ (c.plug (node (k.plug L) z d r)).nodes ∧
      ∃ h₂, takeLeft h z y L.root = .ok h₂ ∧
        Lifted (transplant h y L.root) h₂ z y (k.plug L).root := by
  have htK : IsTree h ((k.comp (.frame .left z d r c)).plug (node L y dy nil)) := by
    rw [Ctx.plug_comp]
    exact ht
  obtain ⟨-, hy0, hcy, hL, -⟩ := htK.focus
  obtain ⟨hynd, -, hsep⟩ := htK.separate
  rw [nodes_node, List.nodup_append] at hynd
  have hyL : y ∉ L.nodes := fun hm => hynd.2.2 y hm y (by simp) rfl
  have hyr : (node L y dy nil).root ≠ 0 := hy0
  have hsub (w : ℕ) (hw : w ∈ L.nodes) : w ∈ (node L y dy nil).nodes := by simp [hw]
  have ht₁ := transplant_isTree htK hyr hL hynd.1 hsub
  have hy : y ∉ ((k.comp (.frame .left z d r c)).plug L).nodes := by
    rw [Ctx.mem_nodes_plug, not_or]
    exact ⟨hyL, hsep y (by simp)⟩
  have hparent : h.parent y = (k.comp (.frame .left z d r c)).parent := by rw [Heap.parent, hcy]
  have hleft : h.left y = L.root := by rw [Heap.left, hcy]
  have hdata : h.data y = dy := by rw [Heap.data, hcy]
  rw [Ctx.plug_comp] at ht₁ hy
  refine ⟨hy0, hleft, hdata, ht₁, hy, ?_⟩
  unfold takeLeft
  cases k with
  | top =>
    rw [if_pos (show h.parent y = z from hparent)]
    exact ⟨_, rfl, lifted_near ht⟩
  | frame s x dx sib up =>
    have hyz : y ≠ z := fun he => hy (Ctx.mem_nodes_plug.mpr (Or.inr (by simp [Ctx.nodes, he])))
    have hxz : x ≠ z := by
      have hnd := ht.separate.1
      rw [nodes_node, List.nodup_append] at hnd
      exact hnd.2.2 x (Ctx.mem_nodes_plug.mpr (Or.inr (by simp [Ctx.nodes]))) z (by simp)
    have ht₁' : IsTree (transplant h y L.root)
        (c.plug (node ((Ctx.frame s x dx sib up).plug L) z d r)) := ht₁
    obtain ⟨-, -, hcz, hl₁, -⟩ := ht₁'.focus
    have haL := root_ne_zero hl₁ plug_frame_ne_nil
    have ham := BinTree.root_mem haL
    have hnd := ht₁'.separate.1
    rw [nodes_node, List.nodup_append] at hnd
    have haz := hnd.2.2 _ ham z (by simp)
    generalize hP : (Ctx.frame s x dx sib up).plug L = P at *
    have hay : P.root ≠ y := by
      intro he
      exact hy (he ▸ Ctx.mem_nodes_plug.mpr (Or.inl ham))
    have ha : (transplant h y L.root).left z = P.root := by rw [Heap.left, hcz]
    have hlefty : ((transplant h y L.root).setChild .left y P.root).left y = P.root := by
      rw [Heap.left, Heap.cell_setChild, if_pos rfl]
      rfl
    have hlift := lifted_far ha hay haz hyz
    rw [if_neg (fun he => hxz (hparent.symm.trans he))]
    dsimp only
    rw [ha] at hlift ⊢
    rw [hlefty, deref_of_ne haL]
    exact ⟨_, rfl, hlift⟩

theorem unlink_both {k : Ctx Color} {L : BinTree Color} {y : ℕ} {dy : Color}
    (ht : IsTree h (c.plug (node l z d r))) (hr0 : r.root ≠ 0)
    (hl : l = k.plug (node L y dy nil)) (hlast : l.last = node L y dy nil)
    (hturns : l.nodes.length ≤ turns) :
    ∃ h', unlink turns h z = .ok (h', L.root, dy) ∧
      IsTree h' (c.plug (node (k.plug L) y d r)) ∧ h'.parent z = h.parent z := by
  obtain ⟨-, hz0, hcell, hhl, -⟩ := ht.focus
  have hl0 : l ≠ nil := by
    rintro rfl
    cases hlast
  have hzleft : h.left z = l.root := by rw [Heap.left, hcell]
  have hzright : h.right z = r.root := by rw [Heap.right, hcell]
  have hboth : ¬ (h.left z = 0 ∨ h.right z = 0) := by
    rw [hzleft, hzright, not_or]
    exact ⟨root_ne_zero hhl hl0, hr0⟩
  have hmax : maximum h turns (h.left z) = .ok y := by
    rw [hzleft, maximum_eq hhl hl0 hturns, hlast]
    rfl
  rw [hl] at ht
  obtain ⟨hy0, hleft, hdata, ht₁, hy, h₂, hok₁, hlifted⟩ := takeLeft_lifted ht
  obtain ⟨h₃, hok₂, hrep, hparent⟩ := takePlace_replaced ht₁ hy hy0 hr0 hlifted
  have hold : h.parent z = c.parent := ht.parent_focus hz0
  have hnew : (transplant h y L.root).parent z = c.parent := ht₁.parent_focus hz0
  refine ⟨h₃, ?_, ht₁.replaceNode hy hy0 hrep, ?_⟩
  rotate_left
  · rw [hparent, hlifted.top.2.1, hold, hnew]
  unfold unlink
  rw [deref_of_ne hz0]
  simp only [bind, Except.bind]
  rw [if_neg hboth, hmax]
  simp only [hleft, hdata, hok₁, hok₂]
  rfl

theorem unlink_spec (ht : IsTree h (c.plug (node l z d r)))
    (hturns : l.nodes.length ≤ turns) :
    ∃ h' k k' s X y dy, c.plug (node l z d r) = k.plug (join s X y dy nil) ∧
      leaving (node l z d r) = join s X y dy nil ∧ Ctx.Alike k k' ∧
      unlink turns h z = .ok (h', X.root, dy) ∧ IsTree h' (k'.plug X) ∧
      (k'.plug X).nodes = (c.plug (node l z d r)).nodes.erase z ∧ h'.parent z = h.parent z := by
  have hnodes := erase_nodes_plug ht.nodup
  obtain ⟨-, hz0, hcell, hl, hr⟩ := ht.focus
  by_cases hfew : l.root = 0 ∨ r.root = 0
  · obtain ⟨s, X, hjoin, hok, ht', hX, hparent⟩ := unlink_few turns ht hfew
    refine ⟨_, c, c, s, X, z, d, by rw [hjoin], ?_, .refl c, hok, ht', ?_, hparent⟩
    · rw [leaving, if_pos hfew, hjoin]
    · rw [hnodes, Ctx.nodes_plug, hX]
      simp
  · have hl0 : l ≠ nil := fun he => hfew (Or.inl (by rw [he]; rfl))
    obtain ⟨k, L, y, dy, hk, hafter, hlast⟩ := exists_last hl0
    obtain ⟨h', hok, ht', hparent⟩ := unlink_both ht (fun he => hfew (Or.inr he)) hk hlast hturns
    refine ⟨h', k.comp (.frame .left z d r c), k.comp (.frame .left y d r c), .left, L, y, dy, ?_, ?_,
      Ctx.Alike.here.comp k, hok, ?_, ?_, hparent⟩
    · rw [Ctx.plug_comp, hk]
      rfl
    · rw [leaving, if_neg hfew, hlast]
      rfl
    · rw [Ctx.plug_comp]
      exact ht'
    · rw [hnodes, Ctx.plug_comp, hk]
      show (c.plug (node (k.plug L) y d r)).nodes = _
      rw [Ctx.nodes_plug, nodes_node, Ctx.nodes_plug k, Ctx.nodes_plug k, hafter]
      simp

end

/-- A removal that returns leaves the other nodes in order, whatever the colours are, and the removed
one with the parent it had. -/
theorem removeNode_inOrder {rot : Rotation} (hrot : LawfulRotation rot) {h h' : Heap Color}
    {xs : List ℕ} {z x turns : ℕ} (hi : InOrder h xs) (hz : z ∈ xs) (hturns : xs.length ≤ turns)
    (hok : removeNode rot turns h z = .ok (h', x)) :
    InOrder h' (xs.erase z) ∧ h'.parent z = h.parent z := by
  obtain ⟨c, l, d, r, ht, rfl⟩ := hi.focus hz
  have hlen : l.nodes.length ≤ turns := by
    have hl := (c.perm_plug (node l z d r)).length_eq
    simp only [nodes_node, List.length_append, List.length_cons] at hl
    omega
  obtain ⟨h₁, k, k', s, X, y, dy, -, -, -, hunlink, ht₁, hnodes, hparent⟩ := unlink_spec ht hlen
  have hgone : z ∉ (k'.plug X).nodes := by
    rw [hnodes]
    exact ht.nodup.not_mem_erase
  rw [← hnodes]
  have hi₁ : InOrder h₁ (k'.plug X).nodes := ⟨_, ht₁, rfl⟩
  have hX : X.root = 0 ∨ X.root ∈ (k'.plug X).nodes := by
    by_cases h0 : X.root = 0
    · exact Or.inl h0
    · exact Or.inr (Ctx.mem_nodes_plug.mpr (Or.inl (root_mem h0)))
  have hfix : removeNode rot turns h z = removeFix rot turns h₁ X.root dy := by
    unfold removeNode
    rw [hunlink]
    rfl
  exact removeFix_keeps (steady_parent hrot ht.focus.2.1 hgone) ⟨hi₁, hparent⟩ hX (hfix.symm.trans hok)

end MaiFaSp.RedBlack

/-!
## Removal from a red-black tree

The loop after a removal never makes a turn on a red-black tree. Where the node
that leaves its place has a child, the child is red and is coloured black. Where it
has none, the loop is entered with null and leaves at the missing parent, so a
black node is lost from the paths through it.
-/

namespace MaiFaSp.RedBlack

open LinkedTree BinTree

def isBlackLeaf : BinTree Color → Bool
  | node nil _ .black nil => true
  | _ => false

/-- The node that leaves its place is red or has a child, or `z` is the only node. -/
def Removable (t : BinTree Color) (z : ℕ) : Prop :=
  t.nodes = [z] ∨ isBlackLeaf (leaving (t.subtree z)) = false

instance (t : BinTree Color) (z : ℕ) : Decidable (Removable t z) :=
  inferInstanceAs (Decidable (_ ∨ _))

variable {rot : Rotation}

theorem removeFix_null (n : ℕ) (h : Heap Color) (oc : Color) :
    removeFix rot (n + 1) h 0 oc = .ok (h, 0) := by
  unfold removeFix
  by_cases hoc : oc = .black
  · rw [if_pos hoc, removeLoop]
    have hblack : color h 0 = .black := if_pos rfl
    by_cases hroot : 0 = h.root
    · rw [if_pos (Or.inl hroot)]
      rfl
    · rw [if_neg (by rw [hblack]; exact fun he => he.elim hroot (fun hne => hne rfl))]
      rfl
  · rw [if_neg hoc]
    rfl

/-- The loop does not start at a red node. -/
theorem removeFix_red (n : ℕ) {h : Heap Color} {x : ℕ} (hx : x ≠ 0) (hred : h.data x = .red) :
    removeFix rot (n + 1) h x .black = .ok (h.setData x .black, x) := by
  have hcolor : color h x = .red := (if_neg hx).trans hred
  unfold removeFix
  rw [if_pos rfl, removeLoop, if_pos (Or.inr (by rw [hcolor]; decide))]
  show Except.ok (if x ≠ 0 then h.setData x .black else h, x) = _
  rw [if_pos hx]

theorem removable_blackLeaf {k : Ctx Color} {t : BinTree Color} {y z : ℕ} {s : Side}
    (ht : t = k.plug (join s nil y .black nil)) (hz : z ∈ t.nodes)
    (hleaving : leaving (t.subtree z) = join s nil y .black nil) :
    Removable t z ↔ k = .top := by
  have hleaf : isBlackLeaf (leaving (t.subtree z)) = true := by
    rw [hleaving]
    cases s <;> rfl
  have hperm := k.perm_plug (join s nil y .black nil)
  rw [← ht] at hperm
  have hj : (join s nil y Color.black nil).nodes = [y] := by cases s <;> rfl
  rw [hj] at hperm
  unfold Removable
  rw [hleaf]
  constructor
  · rintro (hone | hne)
    · rw [hone] at hperm
      have hlen := hperm.length_eq
      cases k with
      | top => rfl
      | frame s x d sib up => simp [Ctx.nodes] at hlen
    · cases hne
  · rintro rfl
    left
    have hnodes : t.nodes = [y] := by rw [ht, Ctx.plug, hj]
    rw [hnodes] at hz ⊢
    rw [List.mem_singleton.mp hz]

/-- A removal takes the node out and keeps the others in order. The tree is red-black again just
where the node is removable. -/
theorem removeNode_spec {h : Heap Color} {t : BinTree Color} {z turns : ℕ} (ht : IsTree h t)
    (hrb : RedBlack t) (hz : z ∈ t.nodes) (hturns : t.nodes.length ≤ turns) :
    ∃ h' x t', removeNode rot turns h z = .ok (h', x) ∧ IsTree h' t' ∧
      t'.nodes = t.nodes.erase z ∧ (RedBlack t' ↔ Removable t z) := by
  obtain ⟨c, l, d, r, rfl⟩ := exists_focus hz
  have hlen : l.nodes.length ≤ turns := by
    have hl := (c.perm_plug (node l z d r)).length_eq
    simp only [nodes_node, List.length_append, List.length_cons] at hl
    omega
  obtain ⟨n, rfl⟩ : ∃ n, turns = n + 1 := by
    have := List.length_pos_of_mem hz
    exact ⟨turns - 1, by omega⟩
  obtain ⟨h₁, k, k', s, X, y, dy, hold, hleaving, halike, hok, ht₁, hnodes, -⟩ := unlink_spec ht hlen
  rw [← subtree_plug ht.nodup] at hleaving
  have hfix : removeNode rot (n + 1) h z = removeFix rot (n + 1) h₁ X.root dy := by
    unfold removeNode
    rw [hok]
    rfl
  obtain ⟨c₀, n₀, hbal, hk⟩ := redBlack_plug.mp (hold ▸ hrb)
  cases dy with
  | red =>
    obtain ⟨rfl, hX, hnil⟩ := balanced_join_red.mp hbal
    cases hnil
    have hXnil : X = nil := by
      rcases hX.of_zero with hX | ⟨x, rfl⟩
      · exact hX
      · cases hX
    subst hXnil
    refine ⟨h₁, 0, _, hfix.trans (removeFix_null n h₁ _), ht₁, hnodes, iff_of_true ?_ ?_⟩
    · exact redBlack_plug.mpr ⟨_, _, .nil, (hk.alike halike).of_red⟩
    · right
      rw [hleaving]
      cases s <;> rfl
  | black =>
    obtain ⟨rfl, m, c₁, c₂, rfl, hX, hnil⟩ := balanced_join_black.mp hbal
    cases hnil
    have hk' := hk.alike halike
    rcases hX.of_zero with rfl | ⟨x, rfl⟩
    · refine ⟨h₁, 0, _, hfix.trans (removeFix_null n h₁ _), ht₁, hnodes, ?_⟩
      rw [removable_blackLeaf hold hz hleaving, halike.top_iff, redBlack_plug]
      constructor
      · rintro ⟨c, n, hc, hn⟩
        cases hc
        by_contra hne
        exact absurd (hn.unique hk' hne) (by decide)
      · rintro rfl
        exact ⟨_, _, .nil, .top⟩
    · obtain ⟨-, hx0, hcell, -⟩ := ht₁.focus
      have hred : h₁.data x = .red := by rw [Heap.data, hcell]
      have ht₂ := ht₁.setData .black
      refine ⟨_, x, _, hfix.trans (removeFix_red n hx0 hred), ht₂, ?_, iff_of_true ?_ ?_⟩
      · rw [← hnodes, Ctx.nodes_plug, Ctx.nodes_plug]
        rfl
      · exact redBlack_plug.mpr ⟨_, _, .black .nil .nil, hk'⟩
      · right
        rw [hleaving]
        cases s <;> rfl

end MaiFaSp.RedBlack
