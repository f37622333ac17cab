import MaiFaSp.RedBlack.Insert
import MaiFaSp.RedBlack.Remove
import MaiFaSp.SearchTree.Insertions
import MaiFaSp.SearchTree.Size

/-!
# The red-black tree (`red_black_tree.h:639-908`)

An insertion leaves a red-black tree in the order of its keys. A removal takes the entry out and
keeps the order, but a black node without children that leaves its place is missed by the loop
that should set the colours right.
-/

namespace MaiFaSp.SearchTree

open LinkedTree BinTree
open RedBlack (Follows LawfulRotation Removable)

/-! ### The rotations of the container -/

theorem smallRotation_stuck {τ : Type} {h : Heap τ} {c : Ctx τ} {s : Side} {A : BinTree τ} {n : ℕ}
    {d : τ} (ht : IsTree h (c.plug (join s A n d nil))) : smallRotation s h c.link = h := by
  have hr := ht.reads
  have hget : h.get c.link = n := ht.get_link.trans (root_join ..)
  have hnone : rotation s h n = (h, n) := rotation_stuck hr.other
  unfold smallRotation
  rw [hget, hnone]
  obtain ⟨hroot, hcell⟩ := ht.focus.1.set_self
  rw [root_join] at hroot hcell
  exact heap_eq_of_cells hroot hcell

theorem smallRotation_lawful : LawfulRotation smallRotation where
  rotated := by
    intro h c s A B C n r dn dr ht
    obtain ⟨hsnd, hrotated, -⟩ := rotation_rotated (stands_of_isTree ht)
    have hget : h.get c.link = n := ht.get_link.trans (root_join ..)
    have hsmall : smallRotation s h c.link = (rotation s h n).1.set c.link r := by
      unfold smallRotation
      rw [hget]
      show (rotation s h n).1.set _ (rotation s h n).2 = _
      rw [hsnd]
    rw [hsmall]
    exact hrotated
  stuck := fun ht => smallRotation_stuck ht

/-! ### Insertion and removal -/

section Kept

variable {κ υ : Type} (lt : κ → κ → Bool)

/-- The links of `t` are those of the red-black tree `u`, in the order of the keys. -/
structure WellFormed (t : Tree κ υ Color) (u : BinTree Color) : Prop where
  isTree : IsTree t.heap u
  redBlack : RedBlack u
  ordered : Ordered lt t u.nodes

variable {lt} {t : Tree κ υ Color} {u : BinTree Color} {turns x : ℕ} {e : κ × υ}

/-- `post_insert` at a new red node. -/
theorem redBlackInsert_fixed {c : Ctx Color} {t₁ : Tree κ υ Color} (hrb : RedBlack (c.plug nil))
    (ht₁ : IsTree t₁.heap (c.plug (node nil x .red nil)))
    (hturns : (c.plug (nil : BinTree Color)).nodes.length < turns) :
    ∃ h' u', redBlackInsert turns t₁ x = .ok { t₁ with heap := h' } ∧ IsTree h' u' ∧ RedBlack u' ∧
      u'.nodes = (c.plug (node nil x .red nil)).nodes := by
  obtain ⟨c₀, n, hnil, hbal⟩ := redBlack_plug.mp hrb
  cases hnil
  have hlen : c.nodes.length < turns := by
    have hperm := (c.perm_plug (nil : BinTree Color)).length_eq
    simp only [nodes_nil, List.nil_append] at hperm
    omega
  obtain ⟨h', u', hok, ht', hrb'⟩ :=
    RedBlack.insertFix_spec smallRotation_lawful ht₁ (.red .nil .nil) hbal hlen
  have hin : InOrder t₁.heap (c.plug (node nil x .red nil)).nodes := ⟨_, ht₁, rfl⟩
  have hmem : x ∈ (c.plug (node nil x .red nil)).nodes := Ctx.mem_nodes_plug.mpr (Or.inl (by simp))
  obtain ⟨u₁, hu₁, hnodes⟩ := RedBlack.insertFix_inOrder smallRotation_lawful hin hmem hok
  rw [hu₁.unique ht'] at hnodes
  refine ⟨h', u', ?_, ht', hrb', hnodes⟩
  unfold redBlackInsert
  rw [show RedBlack.insertFix smallRotation turns t₁.heap x = .ok h' from hok]
  rfl

theorem redBlackInsert_spec [IsStrictTotalOrder κ fun a b => lt a b = true] {c : Ctx Color}
    {t₁ : Tree κ υ Color} (hw : WellFormed lt t (c.plug nil))
    (hc : Follows (fun y => lt e.1 (key t y)) c) (hfresh : x ∉ (c.plug (nil : BinTree Color)).nodes)
    (ht₁ : IsTree t₁.heap (c.plug (node nil x .red nil))) (hentry : t₁.entry = Function.update t.entry x e)
    (hturns : (c.plug (nil : BinTree Color)).nodes.length < turns) :
    ∃ h' u', redBlackInsert turns t₁ x = .ok { t₁ with heap := h' } ∧
      WellFormed lt { t₁ with heap := h' } u' ∧ u'.nodes = c.before ++ x :: c.after := by
  obtain ⟨h', u', hok, ht', hrb, hnodes⟩ := redBlackInsert_fixed hw.redBlack ht₁ hturns
  refine ⟨h', u', hok, ⟨ht', hrb, ?_⟩, ?_⟩
  · have hord : Ordered lt { t₁ with heap := h' } (c.plug (node nil x .red nil)).nodes :=
      attach_ordered hw.ordered hc hfresh hentry
    rw [hnodes]
    exact hord
  · rw [hnodes, Ctx.nodes_plug]
    rfl

variable (lt) in
/-- The entry `e` has come into the tree at the node `x`, the others are as they were. -/
structure Added (t : Tree κ υ Color) (u : BinTree Color) (x : ℕ) (e : κ × υ) (t' : Tree κ υ Color)
    (u' : BinTree Color) : Prop where
  wellFormed : WellFormed lt t' u'
  nodes : ∃ xs ys, u.nodes = xs ++ ys ∧ u'.nodes = xs ++ x :: ys
  entry : t'.entry = Function.update t.entry x e

theorem Added.grown {t' : Tree κ υ Color} {u' : BinTree Color} (h : Added lt t u x e t' u') :
    Added lt t u x e t'.grown u' :=
  ⟨⟨h.wellFormed.isTree, h.wellFormed.redBlack, h.wellFormed.ordered⟩, h.nodes, h.entry⟩

variable [hlt : IsStrictTotalOrder κ fun a b => lt a b = true]

theorem postInsert_added {c : Ctx Color} {t₁ : Tree κ υ Color} (hw : WellFormed lt t (c.plug nil))
    (hc : Follows (fun y => lt e.1 (key t y)) c) (hx : x ≠ 0)
    (hfresh : x ∉ (c.plug (nil : BinTree Color)).nodes)
    (hheap : t₁.heap = (attach lt redBlackTree t x c.parent e).heap)
    (hentry : t₁.entry = (attach lt redBlackTree t x c.parent e).entry)
    (hturns : (c.plug (nil : BinTree Color)).nodes.length < turns) :
    ∃ t' u', redBlackInsert turns t₁ x = .ok t' ∧ Added lt t (c.plug nil) x e t' u' := by
  have ht₁ : IsTree (attach lt redBlackTree t x c.parent e).heap (c.plug (node nil x .red nil)) :=
    attach_isTree hw.isTree hc hx hfresh
  rw [← hheap] at ht₁
  have hentry' := hentry.trans (entry_attach c.parent)
  obtain ⟨h', u', hok, hw', hnodes⟩ := redBlackInsert_spec hw hc hfresh ht₁ hentry' hturns
  exact ⟨_, u', hok, hw', ⟨c.before, c.after, by rw [Ctx.nodes_plug]; rfl, hnodes⟩, hentry'⟩

/-- Both overloads of `insert` add the entry. -/
theorem insert_added (hw : WellFormed lt t u) (hx : x ≠ 0) (hfresh : x ∉ u.nodes)
    (hturns : u.nodes.length < turns) :
    (∃ t' u', SearchTree.insert lt redBlackTree turns t x e = .ok t' ∧ Added lt t u x e t' u') ∧
      ∃ t' u', insertMoved lt redBlackTree turns t x e = .ok t' ∧ Added lt t u x e t' u' := by
  obtain ⟨c, rfl, hc, hplace⟩ := insertPlace_spec lt e.1 hw.isTree hturns.le
  have hgrown (t' : Tree κ υ Color) (h' : ∃ u', Added lt t (c.plug nil) x e t' u') :
      ∃ u', Added lt t (c.plug nil) x e t'.grown u' := by
    obtain ⟨u', hadded⟩ := h'
    exact ⟨u', hadded.grown⟩
  have hpost (t₁ : Tree κ υ Color) (hheap : t₁.heap = (attach lt redBlackTree t x c.parent e).heap)
      (hentry : t₁.entry = (attach lt redBlackTree t x c.parent e).entry) :
      ∃ t', redBlackInsert turns t₁ x = .ok t' ∧ ∃ u', Added lt t (c.plug nil) x e t' u' := by
    obtain ⟨t', u', hok, hadded⟩ := postInsert_added hw hc hx hfresh hheap hentry hturns
    exact ⟨t', hok, u', hadded⟩
  obtain ⟨⟨t₁, hok₁, u₁, h₁⟩, t₂, hok₂, u₂, h₂⟩ := insert_spec hplace hgrown hpost
  exact ⟨⟨t₁, u₁, hok₁, h₁⟩, t₂, u₂, hok₂, h₂⟩

/-- Both overloads of `insert` end, in a red-black tree with the new entry in order. -/
theorem red_black_insertion (hw : WellFormed lt t u) (hx : x ≠ 0) (hfresh : x ∉ u.nodes)
    (hturns : u.nodes.length < turns) :
    Inserts lt (WellFormed lt) t u x e (SearchTree.insert lt redBlackTree turns t x e) ∧
      Inserts lt (WellFormed lt) t u x e (insertMoved lt redBlackTree turns t x e) := by
  refine insert_inserts hw.isTree hw.ordered hx hfresh hturns.le
    (fun t' u' h => ⟨h.isTree, h.redBlack, h.ordered⟩) ?_
  rintro c t₁ rfl ht₁ hord
  obtain ⟨h', u', hok, ht', hrb, hnodes⟩ := redBlackInsert_fixed hw.redBlack ht₁ hturns
  have hord' : Ordered lt { t₁ with heap := h' } u'.nodes := by
    rw [hnodes]
    exact hord
  exact ⟨_, u', hok, ⟨ht', hrb, hord'⟩, rfl, hnodes⟩

variable [DecidableEq κ] {k : κ}

/-- The removal ends in any case; the colours are right just where the node can go. -/
theorem eraseKey_spec (hw : WellFormed lt t u) (hk : k ∈ u.nodes.map (key t))
    (hturns : u.nodes.length < turns) :
    ∃ h' u', eraseKey lt redBlackTree turns t k = .ok { t with heap := h' }.shrunk ∧ IsTree h' u' ∧
      u'.nodes = u.nodes.erase (found lt t k u) ∧ (RedBlack u' ↔ Removable u (found lt t k u)) := by
  obtain ⟨hmem, -⟩ := found_spec hw.ordered hk
  obtain ⟨h', x, u', hok, ht', hnodes, hiff⟩ :=
    RedBlack.removeNode_spec hw.isTree hw.redBlack hmem hturns.le
  refine ⟨h', u', ?_, ht', hnodes, hiff⟩
  rw [eraseKey_eq hw.isTree hturns.le]
  show redBlackErase turns t (found lt t k u) = _
  unfold redBlackErase
  rw [if_neg (hw.isTree.ne_zero hmem), hok]
  rfl

theorem erasesKey_iff (hw : WellFormed lt t u) (hk : k ∈ u.nodes.map (key t))
    (hturns : u.nodes.length < turns) :
    ErasesKey lt redBlackTree (WellFormed lt) turns t u k ↔ Removable u (found lt t k u) := by
  obtain ⟨h', u', hok, ht', hnodes, hiff⟩ := eraseKey_spec hw hk hturns
  rw [← hiff]
  constructor
  · rintro ⟨t₁, u₁, hok₁, hw₁, -⟩
    obtain rfl : { t with heap := h' }.shrunk = t₁ := Except.ok.inj (hok.symm.trans hok₁)
    rw [ht'.unique hw₁.isTree]
    exact hw₁.redBlack
  · intro hrb
    obtain ⟨hmem, hkey⟩ := found_spec hw.ordered hk
    have hord : Ordered lt t u'.nodes := hnodes ▸ hw.ordered.sublist List.erase_sublist
    exact ⟨_, u', hok, ⟨ht', hrb, hord⟩, _, hmem, hkey, hnodes, fun y _ => rfl⟩

end Kept

/-! ### Runs -/

section Runs

variable {κ υ : Type} [DecidableEq κ] (lt : κ → κ → Bool)

/-- A new node is at an address that is not in use; a key that is erased is there, and its node can
leave its place. -/
def Op.Kept (t : Tree κ υ Color) (u : BinTree Color) : Op κ υ → Prop
  | .insert x _ => x ≠ 0 ∧ x ∉ u.nodes
  | .insertMoved x _ => x ≠ 0 ∧ x ∉ u.nodes
  | .erase k => k ∈ u.nodes.map (key t) ∧ Removable u (found lt t k u)

/-- An operation of the container, with turns enough for its loops. -/
def KeptStep (t t' : Tree κ υ Color) : Prop :=
  ∃ (op : Op κ υ) (u : BinTree Color) (turns : ℕ), IsTree t.heap u ∧ u.nodes.length < turns ∧
    op.Kept lt t u ∧ op.apply lt redBlackTree turns t = .ok t'

variable {lt} [IsStrictTotalOrder κ fun a b => lt a b = true] {t t' : Tree κ υ Color} {u : BinTree Color}
  {turns : ℕ}

theorem apply_kept {op : Op κ υ} (hw : WellFormed lt t u) (hop : op.Kept lt t u)
    (hturns : u.nodes.length < turns) :
    ∃ t' u', op.apply lt redBlackTree turns t = .ok t' ∧ WellFormed lt t' u' := by
  cases op with
  | insert x e =>
    obtain ⟨⟨t', u', hok, hadded⟩, -⟩ := insert_added (e := e) hw hop.1 hop.2 hturns
    exact ⟨t', u', hok, hadded.wellFormed⟩
  | insertMoved x e =>
    obtain ⟨-, t', u', hok, hadded⟩ := insert_added (e := e) hw hop.1 hop.2 hturns
    exact ⟨t', u', hok, hadded.wellFormed⟩
  | erase k =>
    obtain ⟨t', u', hok, hw', -⟩ := (erasesKey_iff hw hop.1 hturns).mpr hop.2
    exact ⟨t', u', hok, hw'⟩

theorem keptStep_wellFormed (hstep : KeptStep lt t t') (hw : WellFormed lt t u) :
    ∃ u', WellFormed lt t' u' := by
  obtain ⟨op, u₀, turns, ht₀, hturns, hop, hok⟩ := hstep
  obtain rfl : u₀ = u := ht₀.unique hw.isTree
  obtain ⟨t₁, u₁, hok₁, hw₁⟩ := apply_kept hw hop hturns
  obtain rfl : t₁ = t' := Except.ok.inj (hok₁.symm.trans hok)
  exact ⟨u₁, hw₁⟩

omit [DecidableEq κ] [IsStrictTotalOrder κ fun a b => lt a b = true] in
theorem wellFormed_empty (e : κ × υ) : WellFormed lt (empty .red e) nil where
  isTree := ⟨rfl, trivial, List.nodup_nil⟩
  redBlack := ⟨0, .nil⟩
  ordered := List.Pairwise.nil

theorem keptSteps_wellFormed {e : κ × υ} (hrun : Relation.ReflTransGen (KeptStep lt) (empty .red e) t) :
    ∃ u, WellFormed lt t u := by
  induction hrun with
  | refl => exact ⟨nil, wellFormed_empty e⟩
  | tail _ hstep ih =>
    obtain ⟨u, hw⟩ := ih
    exact keptStep_wellFormed hstep hw

/-- `erase` does what it should just to the keys whose node can leave its place. In every run that
erases such keys only, every state is a well-formed red-black tree, and every further operation
goes through. -/
theorem red_black_tree_kept :
    (∀ (t : Tree κ υ Color) (u : BinTree Color) (k : κ) (turns : ℕ), WellFormed lt t u →
      k ∈ u.nodes.map (key t) → u.nodes.length < turns →
      (ErasesKey lt redBlackTree (WellFormed lt) turns t u k ↔ Removable u (found lt t k u))) ∧
    ∀ (e : κ × υ) (t : Tree κ υ Color), Relation.ReflTransGen (KeptStep lt) (empty .red e) t →
      ∃ u, WellFormed lt t u ∧ ∀ (op : Op κ υ) (turns : ℕ), op.Kept lt t u → u.nodes.length < turns →
        ∃ t', op.apply lt redBlackTree turns t = .ok t' := by
  refine ⟨fun t u k turns hw hk hturns => erasesKey_iff hw hk hturns, ?_⟩
  intro e t hrun
  obtain ⟨u, hw⟩ := keptSteps_wellFormed hrun
  refine ⟨u, hw, fun op turns hop hturns => ?_⟩
  obtain ⟨t', -, hok, -⟩ := apply_kept hw hop hturns
  exact ⟨t', hok⟩

end Runs

/-! ### Four keys -/

/-- The keys 2, 1, 3 and 4 inserted into an empty tree, each at the node of its number. -/
def fourKeys : Tree ℕ ℕ Color :=
  ⟨⟨2, fun x =>
    if x = 1 then ⟨0, 0, 2, .black⟩
    else if x = 2 then ⟨1, 3, 0, .black⟩
    else if x = 3 then ⟨0, 4, 2, .black⟩
    else ⟨0, 0, 3, .red⟩⟩, fun x => (x, 0), 3⟩

def fourKeysTree : BinTree Color :=
  node (node nil 1 .black nil) 2 .black (node nil 3 .black (node nil 4 .red nil))

theorem fourKeys_wellFormed : WellFormed natLess fourKeys fourKeysTree where
  isTree :=
    { root := rfl
      holds := by
        refine ⟨by decide, rfl, ⟨by decide, rfl, trivial, trivial⟩, by decide, rfl, trivial, ?_⟩
        exact ⟨by decide, rfl, trivial, trivial⟩
      nodup := by decide }
  redBlack := ⟨2, .black (.black .nil .nil) (.black .nil (.red .nil .nil))⟩
  ordered := by
    unfold Ordered
    decide

/-- The key 5 comes below the red leaf 4, which comes up with a rotation. -/
theorem red_black_insertion_fifth :
    Inserts natLess (WellFormed natLess) fourKeys fourKeysTree 5 (5, 0)
        (SearchTree.insert natLess redBlackTree 5 fourKeys 5 (5, 0)) ∧
      Inserts natLess (WellFormed natLess) fourKeys fourKeysTree 5 (5, 0)
        (insertMoved natLess redBlackTree 5 fourKeys 5 (5, 0)) :=
  red_black_insertion fourKeys_wellFormed (by decide) (by decide) (by decide)

/-- A red leaf is erased as it should be, and a first key leaves a well-formed tree. -/
theorem red_black_tree_kept_four :
    ErasesKey natLess redBlackTree (WellFormed natLess) 5 fourKeys fourKeysTree 4 ∧
      ∃ t, SearchTree.insert natLess redBlackTree 1 (empty .red (0, 0)) 7 (5, 5) = .ok t ∧
        ∃ u, WellFormed natLess t u := by
  obtain ⟨herases, hruns⟩ := @red_black_tree_kept ℕ ℕ _ natLess _
  refine ⟨(herases fourKeys fourKeysTree 4 5 fourKeys_wellFormed (by decide) (by decide)).mpr (by decide), ?_⟩
  have hempty : WellFormed natLess (empty .red (0, 0) : Tree ℕ ℕ Color) nil := wellFormed_empty (0, 0)
  have hfresh : 7 ∉ (nil : BinTree Color).nodes := by decide
  obtain ⟨⟨t, u, hok, -⟩, -⟩ := insert_added hempty (by decide) hfresh (le_refl 1)
  have hstep : KeptStep natLess (empty .red (0, 0)) t :=
    ⟨.insert 7 (5, 5), nil, 1, hempty.isTree, le_refl 1, ⟨by decide, hfresh⟩, hok⟩
  obtain ⟨u', hw, -⟩ := hruns (0, 0) t (.single hstep)
  exact ⟨t, hok, u', hw⟩

/-- The four insertions lead to this tree. The key 1 is at a black leaf: without it the path to its
place has one black node and the others have two. -/
theorem black_key_lost :
    (do
      let t ← SearchTree.insert natLess redBlackTree 5 (empty .red (0, 0)) 2 (2, 0)
      let t ← SearchTree.insert natLess redBlackTree 5 t 1 (1, 0)
      let t ← SearchTree.insert natLess redBlackTree 5 t 3 (3, 0)
      let t ← SearchTree.insert natLess redBlackTree 5 t 4 (4, 0)
      pure (t.heap.root, [1, 2, 3, 4].map t.heap.cell)) =
        .ok (fourKeys.heap.root, [1, 2, 3, 4].map fourKeys.heap.cell) ∧
      WellFormed natLess fourKeys fourKeysTree ∧ 1 ∈ fourKeysTree.nodes.map (key fourKeys) ∧
        ∀ turns, 4 < turns → ¬ ErasesKey natLess redBlackTree (WellFormed natLess) turns fourKeys fourKeysTree 1 := by
  have hmem : 1 ∈ fourKeysTree.nodes.map (key fourKeys) := by decide
  refine ⟨rfl, fourKeys_wellFormed, hmem, ?_⟩
  intro turns hturns
  rw [erasesKey_iff fourKeys_wellFormed hmem hturns]
  decide

end MaiFaSp.SearchTree
