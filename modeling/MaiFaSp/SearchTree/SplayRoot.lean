import MaiFaSp.SearchTree.Insertions
import MaiFaSp.SearchTree.Splay

/-!
# The root of the splay tree (`splay_tree.h:252-258, 282-323, 352-364`)

`post_insert` sets the root pointer to the node that it splayed. `splay` itself sets it only where
the last turn is a single rotation, which it is for a node at an odd depth. `split` splays the node
that `lower_bound` gives it and cuts off the left child of the root.
-/

namespace MaiFaSp.SearchTree.SplayTree

open LinkedTree BinTree
open RedBlack (Follows)

section Insertion

variable {κ υ : Type} (lt : κ → κ → Bool)

/-- The links of `t` are those of the tree `u`, in the order of the keys. -/
structure WellFormed (t : Tree κ υ Unit) (u : BinTree Unit) : Prop where
  isTree : IsTree t.heap u
  ordered : Ordered lt t u.nodes

/-- The same, with the node `x` at the root. -/
structure RootedAt (x : ℕ) (t : Tree κ υ Unit) (u : BinTree Unit) : Prop extends WellFormed lt t u where
  root : t.heap.root = x

variable {lt} [IsStrictTotalOrder κ fun a b => lt a b = true] {t : Tree κ υ Unit} {u : BinTree Unit}
  {e : κ × υ} {x turns : ℕ}

/-- Both overloads of `insert` end, with the new node at the root and its entry in order. -/
theorem splay_insertion (hw : WellFormed lt t u) (hx : x ≠ 0) (hfresh : x ∉ u.nodes)
    (hturns : u.nodes.length ≤ turns) :
    Inserts lt (RootedAt lt x) t u x e (SearchTree.insert lt splayTree turns t x e) ∧
      Inserts lt (RootedAt lt x) t u x e (insertMoved lt splayTree turns t x e) := by
  refine insert_inserts hw.isTree hw.ordered hx hfresh hturns
    (fun t' u' h => ⟨⟨h.isTree, h.ordered⟩, h.root⟩) ?_
  rintro c t₁ rfl ht₁ hord
  have hs : Stands t₁.heap (c.plug (node nil x () nil)) := stands_of_isTree ht₁
  obtain ⟨h', hok, hs', -⟩ := splayLoop_spec hs (depth_le_turns hturns)
  have hnodes := nodes_lifted c (nil : BinTree Unit) nil x ()
  have hpost : postInsert turns t₁ x = .ok ({ t₁ with heap := h' }.setRoot x) := by
    unfold postInsert splay
    rw [if_neg hx, hok]
    rfl
  have hset : Stands ({ t₁ with heap := h' }.setRoot x).heap
      (node (lifted c nil nil).1 x () (lifted c nil nil).2) := hs'.congr fun _ _ => rfl
  refine ⟨_, _, hpost, ⟨⟨⟨rfl, hset.holds, hset.nodup⟩, ?_⟩, rfl⟩, rfl, hnodes⟩
  rw [hnodes]
  exact hord

end Insertion

/-! ### The root pointer after a splay -/

section Root

variable {τ : Type} {h : Heap τ} {c up : Ctx τ} {l r C D : BinTree τ} {s s' : Side} {x p g turns : ℕ}
  {d dp dg : τ}

theorem parent_root {t : BinTree τ} (ht : IsTree h t) (hne : h.root ≠ 0) : h.parent h.root = 0 := by
  rw [ht.root] at hne ⊢
  exact holds_parent ht.holds hne

/-- After `splay` the node is at the root pointer where it was there before or is at an odd depth. -/
theorem splay_root (ht : IsTree h (c.plug (node l x d r))) (hturns : c.depth ≤ turns) :
    ∃ h', splay turns h x = .ok h' ∧ (h'.root = x ↔ c = .top ∨ Odd c.depth) := by
  have hx : x ≠ 0 := ht.focus.2.1
  obtain ⟨h', hok, -, hroot⟩ := splayLoop_spec (stands_of_isTree ht) hturns
  refine ⟨h', (if_neg hx).trans hok, ?_⟩
  rw [hroot]
  by_cases hodd : Odd c.depth
  · rw [if_pos hodd]
    exact iff_of_true rfl (Or.inr hodd)
  · rw [if_neg hodd]
    constructor
    · rintro rfl
      have hparent := ht.parent_focus hx
      rw [root_node, parent_root ht hx] at hparent
      exact Or.inl (ht.focus.1.parent_eq_zero.mp hparent.symm)
    · rintro (rfl | h)
      · exact ht.root
      · exact absurd h hodd

end Root

/-! ### `split` -/

section Split

variable {κ υ τ : Type} (lt : κ → κ → Bool)

/-- The node of the iterator that the `lower_bound` without `const` returns; that of `end_infix` is
null. -/
def lowerBound (t : Tree κ υ τ) (k : κ) : ℕ → ℕ → Except TreeFault ℕ
  | 0, current => if current = 0 then pure 0 else throw .diverged
  | n + 1, current =>
    if current = 0 then pure 0
    else if lt k (key t current) then do
      liftLink (deref (t.heap.left current))
      if lt k (key t (t.heap.left current)) then lowerBound t k n (t.heap.left current)
      else pure (t.heap.left current)
    else lowerBound t k n (t.heap.right current)

/-- The root loses its left child. -/
def detachLeft (h : Heap τ) : Except TreeFault (Heap τ × ℕ × ℕ) := do
  liftLink (deref h.root)
  let leftChild := h.left h.root
  let h := h.setChild .left h.root 0
  liftLink (deref leftChild)
  let h := h.setParent leftChild 0
  pure (h, h.root, leftChild)

/-- `split`; the parts are returned as their roots. -/
def split (turns : ℕ) (t : Tree κ υ τ) (k : κ) : Except TreeFault (Tree κ υ τ × ℕ × ℕ) := do
  let n ← lowerBound lt t k turns t.heap.root
  let h ← splay turns t.heap n
  let (h, root, leftChild) ← detachLeft h
  pure ({ t with heap := h }, root, leftChild)

/-! ### The search of `lower_bound` -/

/-- Below a node with a greater key the search goes on to the left, and none is where it follows null. -/
def boundLeft (t : Tree κ υ τ) (k : κ) : BinTree τ → Option ℕ
  | nil => none
  | node l x _ _ => if lt k (key t x) then boundLeft t k l else some x

def bound (t : Tree κ υ τ) (k : κ) : BinTree τ → Option ℕ
  | nil => some 0
  | node l x _ r => if lt k (key t x) then boundLeft lt t k l else bound t k r

variable {lt} {t : Tree κ υ τ} {u : BinTree τ} {k : κ} {turns : ℕ}

theorem lowerBound_left {p : ℕ} (hu : Holds t.heap p u) (hne : u ≠ nil) (hgo : lt k (key t u.root) = true)
    (hturns : u.nodes.length ≤ turns) : lowerBound lt t k turns u.root =
      (boundLeft lt t k u).elim (.error .nullDereference) .ok := by
  induction u generalizing p turns with
  | nil => exact absurd rfl hne
  | node l x d r ihl ihr =>
    obtain ⟨hx, hcell, hl, hr⟩ := hu
    rw [nodes_node, List.length_append, List.length_cons] at hturns
    obtain ⟨n, rfl⟩ : ∃ n, turns = n + 1 := ⟨turns - 1, by omega⟩
    rw [root_node] at hgo ⊢
    rw [lowerBound, if_neg hx, if_pos hgo, Heap.left, hcell, boundLeft, if_pos hgo]
    cases l with
    | nil => rfl
    | node l' y d' r' =>
      rw [root_node, deref_of_ne hl.1, boundLeft]
      show (if lt k (key t y) then lowerBound lt t k n y else pure y) = _
      split
      case isTrue hgo' =>
        have hlen : (node l' y d' r').nodes.length ≤ n := by omega
        have hrest := ihl hl (fun he => by cases he) hgo' hlen
        rw [boundLeft, if_pos hgo'] at hrest
        exact hrest
      case isFalse => rfl

theorem lowerBound_eq {p : ℕ} (hu : Holds t.heap p u) (hturns : u.nodes.length ≤ turns) :
    lowerBound lt t k turns u.root = (bound lt t k u).elim (.error .nullDereference) .ok := by
  induction u generalizing p turns with
  | nil => cases turns <;> rfl
  | node l x d r ihl ihr =>
    have hx := hu.1
    by_cases hgo : lt k (key t x) = true
    · have hleft := lowerBound_left hu (fun he => by cases he) hgo hturns
      rw [boundLeft, if_pos hgo] at hleft
      rw [hleft, bound, if_pos hgo]
    · obtain ⟨hx, hcell, hl, hr⟩ := hu
      rw [nodes_node, List.length_append, List.length_cons] at hturns
      obtain ⟨n, rfl⟩ : ∃ n, turns = n + 1 := ⟨turns - 1, by omega⟩
      rw [root_node, lowerBound, if_neg hx, if_neg hgo, Heap.right, hcell, bound, if_neg hgo]
      exact ihr hr (by omega)

/-! ### Where the search ends -/

/-- Only turns to the right. -/
def Rights : Ctx τ → Prop
  | .top => True
  | .frame .left _ _ _ _ => False
  | .frame .right _ _ _ up => Rights up

/-- Turns to the right, and then to the left one at least. -/
def RightsLefts : Ctx τ → Prop
  | .top => False
  | .frame .left _ _ _ up => Rights up ∨ RightsLefts up
  | .frame .right _ _ _ _ => False

variable {c : Ctx τ} {n : ℕ}

theorem bound_rights (hc : Rights c) (hf : Follows (fun y => lt k (key t y)) c) :
    bound lt t k (c.plug u) = bound lt t k u := by
  induction c generalizing u with
  | top => rfl
  | frame s x d sib up ih =>
    cases s with
    | left => exact hc.elim
    | right =>
      have hgo : ¬ lt k (key t x) = true := fun hgo => absurd (hf.1.mp hgo) (by decide)
      rw [Ctx.plug, ih hc hf.2, join, bound, if_neg hgo]

theorem bound_rightsLefts (hc : RightsLefts c) (hf : Follows (fun y => lt k (key t y)) c) :
    bound lt t k (c.plug u) = boundLeft lt t k u := by
  induction c generalizing u with
  | top => exact hc.elim
  | frame s x d sib up ih =>
    cases s with
    | right => exact hc.elim
    | left =>
      have hgo : lt k (key t x) = true := hf.1.mpr rfl
      rw [Ctx.plug, join]
      rcases hc with hr | hl
      · rw [bound_rights hr hf.2, bound, if_pos hgo]
      · rw [ih hl hf.2, boundLeft, if_pos hgo]

theorem bound_none_above (hu : ∀ y ∈ u.nodes, lt k (key t y) = false) : bound lt t k u = some 0 := by
  induction u with
  | nil => rfl
  | node l x d r ihl ihr =>
    have hgo : ¬ lt k (key t x) = true := by
      rw [hu x (by simp)]
      exact Bool.false_ne_true
    rw [bound, if_neg hgo]
    exact ihr fun y hy => hu y (by simp [hy])

/-- The search for `k` comes to the node, whose key is not above `k`, on such a way. -/
def FoundAt (lt : κ → κ → Bool) (t : Tree κ υ τ) (k : κ) (u : BinTree τ) (n : ℕ) : Prop :=
  ∃ (c : Ctx τ) (l : BinTree τ) (d : τ) (r : BinTree τ), u = c.plug (node l n d r) ∧ RightsLefts c ∧
    Follows (fun y => lt k (key t y)) c ∧ lt k (key t n) = false

theorem boundLeft_found (hn : boundLeft lt t k u = some n) (hc : RightsLefts c)
    (hf : Follows (fun y => lt k (key t y)) c) : FoundAt lt t k (c.plug u) n := by
  induction u generalizing c with
  | nil => cases hn
  | node l x d r ihl _ =>
    rw [boundLeft] at hn
    by_cases hgo : lt k (key t x) = true
    · rw [if_pos hgo] at hn
      exact ihl (c := .frame .left x d r c) hn (Or.inr hc) ⟨iff_of_true hgo rfl, hf⟩
    · rw [if_neg hgo] at hn
      cases hn
      exact ⟨c, l, d, r, rfl, hc, hf, Bool.eq_false_iff.mpr hgo⟩

theorem bound_found (hn : bound lt t k u = some n) (hc : Rights c)
    (hf : Follows (fun y => lt k (key t y)) c) :
    FoundAt lt t k (c.plug u) n ∨
      n = 0 ∧ ∃ c' : Ctx τ, c.plug u = c'.plug nil ∧ Rights c' ∧ Follows (fun y => lt k (key t y)) c' := by
  induction u generalizing c with
  | nil =>
    cases hn
    exact Or.inr ⟨rfl, c, rfl, hc, hf⟩
  | node l x d r _ ihr =>
    rw [bound] at hn
    by_cases hgo : lt k (key t x) = true
    · rw [if_pos hgo] at hn
      have hleft : RightsLefts (Ctx.frame .left x d r c) := Or.inl hc
      exact Or.inl (boundLeft_found (c := .frame .left x d r c) hn hleft ⟨iff_of_true hgo rfl, hf⟩)
    · rw [if_neg hgo] at hn
      exact ihr (c := .frame .right x d l c) hn hc ⟨iff_of_false hgo (by decide), hf⟩

theorem rights_after (hc : Rights c) : c.after = [] := by
  induction c with
  | top => rfl
  | frame s x d sib up ih =>
    cases s with
    | left => exact hc.elim
    | right => exact ih hc

/-! ### The parts -/

variable {h : Heap τ} {x : ℕ} {l r L R : BinTree τ} {d : τ}

theorem detachLeft_eq (hroot : h.root ≠ 0) (hleft : h.left h.root ≠ 0) : detachLeft h =
    .ok ((h.setChild .left h.root 0).setParent (h.left h.root) 0, h.root, h.left h.root) := by
  unfold detachLeft
  rw [deref_of_ne hroot]
  show (liftLink (deref (h.left h.root)) >>= fun _ => _) = _
  rw [deref_of_ne hleft]
  rfl

theorem detachLeft_null (hleft : h.left h.root = 0) : ∃ e, detachLeft h = .error e := by
  unfold detachLeft
  rw [hleft]
  by_cases hroot : h.root = 0
  · rw [hroot]
    exact ⟨_, rfl⟩
  · rw [deref_of_ne hroot]
    exact ⟨_, rfl⟩

theorem detached_trees (hs : Stands h (node L x d R)) (hL : L ≠ nil) :
    IsTree { (h.setChild .left x 0).setParent L.root 0 with root := x } (node nil x d R) ∧
      IsTree { (h.setChild .left x 0).setParent L.root 0 with root := L.root } L := by
  obtain ⟨hx, hcell, hhl, hhr⟩ := hs.holds
  obtain ⟨hxL, hxR, hLnd, hRnd, hLR⟩ := nodup_join (s := .left).mp hs.nodup
  have hl0 := root_ne_zero hhl hL
  have hxl : x ≠ L.root := fun he => hxL (he ▸ root_mem hl0)
  have hset (y : ℕ) : ((h.setChild .left x 0).setParent L.root 0).cell y =
      if y = L.root then (h.cell y).setParent 0 else if y = x then (h.cell y).setChild .left 0 else h.cell y := by
    rw [Heap.cell_setParent, Heap.cell_setChild]
    by_cases hy : y = L.root
    · rw [if_pos hy, if_pos hy, if_neg fun he => hxl (he.symm.trans hy)]
    · rw [if_neg hy, if_neg hy]
  constructor
  · refine ⟨rfl, ⟨hx, ?_, trivial, hhr.congr ?_⟩, ?_⟩
    · refine (hset x).trans ?_
      rw [if_neg hxl, if_pos rfl, hcell]
      rfl
    · intro y hy
      have hyl : y ≠ L.root := fun he => hLR _ (root_mem hl0) (he ▸ hy)
      have hyx : y ≠ x := fun he => hxR (he ▸ hy)
      exact (hset y).trans (by rw [if_neg hyl, if_neg hyx])
    · exact List.nodup_cons.mpr ⟨hxR, hRnd⟩
  · refine ⟨rfl, hhl.reparent hLnd ?_ ?_, hLnd⟩
    · intro _
      exact (hset _).trans (if_pos rfl)
    · intro y hy hyl
      have hyx : y ≠ x := fun he => hxL (he ▸ hy)
      exact (hset y).trans (by rw [if_neg hyl, if_neg hyx])

/-- At a root that is not the root of the tree the first part is no tree. -/
theorem detached_below {v : ℕ} (hs : Stands h (node L x d R)) (hv : v ∈ (node L x d R).nodes) (hvx : v ≠ x)
    (hleft : h.left v ≠ 0) :
    ¬ ∃ w, IsTree { (h.setChild .left v 0).setParent (h.left v) 0 with root := v } w := by
  rintro ⟨w, hw⟩
  have ht : IsTree { h with root := x } (node L x d R) := ⟨rfl, hs.isTree.holds, hs.nodup⟩
  have hv0 := ht.ne_zero hv
  have hparent : h.parent v ≠ 0 := by
    obtain ⟨-, he⟩ | ⟨hm, -⟩ := ht.parent_links hv
    · exact absurd he.symm hvx
    · exact ht.ne_zero hm
  have hne : v ≠ h.left v := by
    obtain ⟨c, l, d', r, htree⟩ := exists_focus hv
    rw [htree] at ht
    obtain ⟨-, hchild, -⟩ := reads_node ht
    have hchild : h.left v = l.root := hchild
    obtain ⟨hvl, -⟩ := nodup_join (s := .left).mp ht.separate.1
    rw [hchild] at hleft ⊢
    exact fun he => hvl (he ▸ root_mem hleft)
  have hzero := parent_root hw hv0
  have hzero : ((h.setChild .left v 0).setParent (h.left v) 0).parent v = 0 := hzero
  rw [Heap.parent, Heap.cell_setParent, if_neg hne, Heap.cell_setChild, if_pos rfl, Cell.parent_setChild] at hzero
  exact hparent hzero

end Split

/-! ### When the parts are right -/

section Parts

variable {κ υ : Type} (lt : κ → κ → Bool)

/-- The keys before the node are below `k` and there are some; its own is not, and not above `k`. -/
structure Boundary (t : Tree κ υ Unit) (k : κ) (before : List ℕ) (x : ℕ) : Prop where
  some : before ≠ []
  below : ∀ y ∈ before, lt (key t y) k = true
  notBelow : lt (key t x) k = false
  notAbove : lt k (key t x) = false

/-- The first key that is not below `k` is not above it either. It is at the root and no key is above
`k`, or the search for `k` comes to it by turns to the right and then to the left, an odd number of
them. -/
def Splittable (t : Tree κ υ Unit) (u : BinTree Unit) (k : κ) : Prop :=
  ∃ c l x d r, u = c.plug (node l x d r) ∧ Boundary lt t k (c.before ++ l.nodes) x ∧
    (c = .top ∧ (∀ y ∈ r.nodes, lt k (key t y) = false) ∨
      RightsLefts c ∧ Follows (fun y => lt k (key t y)) c ∧ Odd c.depth)

/-- `split` ends, with the nodes whose keys are not below `k` and with the others, two well-formed trees. -/
def Splits (turns : ℕ) (t : Tree κ υ Unit) (u : BinTree Unit) (k : κ) : Prop :=
  ∃ t' a b u₁ u₂, split lt turns t k = .ok (t', a, b) ∧ t'.entry = t.entry ∧
    WellFormed lt (t'.setRoot a) u₁ ∧ WellFormed lt (t'.setRoot b) u₂ ∧ (u₂.nodes ++ u₁.nodes).Perm u.nodes ∧
    (∀ y ∈ u₁.nodes, lt (key t y) k = false) ∧ ∀ y ∈ u₂.nodes, lt (key t y) k = true

variable {lt} {t : Tree κ υ Unit} {u L R : BinTree Unit} {k : κ} {turns x : ℕ} {h : Heap Unit} {d : Unit}

theorem split_eq (ht : IsTree t.heap u) (hturns : u.nodes.length ≤ turns) {n : ℕ}
    (hn : bound lt t k u = some n) (hsplay : splay turns t.heap n = .ok h) : split lt turns t k =
      (detachLeft h).map fun a => ({ t with heap := a.1 }, a.2.1, a.2.2) := by
  have hlow : lowerBound lt t k turns t.heap.root = .ok n := by
    rw [ht.root, lowerBound_eq ht.holds hturns, hn]
    rfl
  unfold split
  rw [hlow]
  show (splay turns t.heap n >>= fun h => _) = _
  rw [hsplay]
  show (detachLeft h >>= fun a => _) = _
  cases detachLeft h <;> rfl

variable [IsStrictTotalOrder κ fun a b => lt a b = true]

/-- With the node `x` at the root pointer the parts are its left subtree and the rest. -/
theorem splits_iff_boundary (hw : WellFormed lt t u) (hs : Stands h (node L x d R)) (hroot : h.root = x)
    (hnodes : (node L x d R).nodes = u.nodes) (habove : lt k (key t x) = false)
    (hsplit : split lt turns t k = (detachLeft h).map fun a => ({ t with heap := a.1 }, a.2.1, a.2.2)) :
    Splits lt turns t u k ↔ Boundary lt t k L.nodes x := by
  obtain ⟨hx, hcell, hhl, -⟩ := hs.holds
  have hleft : h.left h.root = L.root := by rw [hroot, Heap.left, hcell]
  have hord : Ordered lt t (node L x d R).nodes := hnodes ▸ hw.ordered
  obtain ⟨hordL, hordR, -⟩ := List.pairwise_append.mp hord
  constructor
  · rintro ⟨t', a, b, u₁, u₂, hok, -, hw₁, hw₂, -, hnot, hbelow⟩
    rw [hsplit] at hok
    have hL : L ≠ nil := by
      rintro rfl
      obtain ⟨e, he⟩ := detachLeft_null hleft
      rw [he] at hok
      cases hok
    rw [detachLeft_eq (by rw [hroot]; exact hx) (by rw [hleft]; exact root_ne_zero hhl hL), hleft, hroot] at hok
    cases hok
    obtain ⟨ht₁, ht₂⟩ := detached_trees hs hL
    rw [hw₁.isTree.unique ht₁] at hnot
    rw [hw₂.isTree.unique ht₂] at hbelow
    have hne : L.nodes ≠ [] := List.ne_nil_of_mem (root_mem (root_ne_zero hhl hL))
    exact ⟨hne, hbelow, hnot x (by simp), habove⟩
  · intro hb
    have hL : L ≠ nil := by
      rintro rfl
      exact hb.some rfl
    rw [detachLeft_eq (by rw [hroot]; exact hx) (by rw [hleft]; exact root_ne_zero hhl hL), hleft, hroot] at hsplit
    obtain ⟨ht₁, ht₂⟩ := detached_trees hs hL
    refine ⟨_, _, _, _, _, hsplit, rfl, ⟨ht₁, hordR⟩, ⟨ht₂, hordL⟩, ?_, ?_, hb.below⟩
    · rw [← hnodes]
      exact List.Perm.refl _
    · intro y hy
      rcases List.mem_cons.mp hy with rfl | hy
      · exact hb.notBelow
      · by_contra hlt
        have hlt := lt_of_lt_of_not_lt (Bool.eq_true_of_not_eq_false hlt) hb.notBelow
        have hle := (List.pairwise_cons.mp hordR).1 y hy
        rw [hle] at hlt
        cases hlt

variable {c : Ctx Unit} {l r : BinTree Unit}

omit [IsStrictTotalOrder κ fun a b => lt a b = true] in
theorem nodes_lifted_left (c : Ctx Unit) (l r : BinTree Unit) :
    (lifted c l r).1.nodes = c.before ++ l.nodes := by
  fun_induction lifted c l r with
  | case1 l r => rfl
  | case2 p dp C l r => rfl
  | case3 p dp C l r => simp [Ctx.before]
  | case4 p dp C g dg D up l r ih => simp [ih, Ctx.before]
  | case5 p dp C g dg D up l r ih => simp [ih, Ctx.before]
  | case6 p dp C g dg D up l r ih => simp [ih, Ctx.before]
  | case7 p dp C g dg D up l r ih => simp [ih, Ctx.before]

/-- At an odd depth the node comes to the root pointer. -/
theorem splits_odd_iff (hw : WellFormed lt t (c.plug (node l x d r)))
    (hturns : (c.plug (node l x d r)).nodes.length ≤ turns)
    (hn : bound lt t k (c.plug (node l x d r)) = some x) (habove : lt k (key t x) = false)
    (hodd : Odd c.depth) :
    Splits lt turns t (c.plug (node l x d r)) k ↔ Boundary lt t k (c.before ++ l.nodes) x := by
  obtain ⟨h', hok, hs, hroot⟩ := splayLoop_spec (stands_of_isTree hw.isTree) (depth_le_turns hturns)
  have hsplay : splay turns t.heap x = .ok h' := (if_neg hw.isTree.focus.2.1).trans hok
  rw [if_pos hodd] at hroot
  rw [← nodes_lifted_left c l r]
  exact splits_iff_boundary hw hs hroot (nodes_lifted ..) habove (split_eq hw.isTree hturns hn hsplay)

omit [IsStrictTotalOrder κ fun a b => lt a b = true] in
/-- At an even depth the root pointer is left at a node below it. -/
theorem not_splits_even (hw : WellFormed lt t (c.plug (node l x d r)))
    (hturns : (c.plug (node l x d r)).nodes.length ≤ turns)
    (hn : bound lt t k (c.plug (node l x d r)) = some x) (hc : c ≠ .top) (heven : ¬ Odd c.depth) :
    ¬ Splits lt turns t (c.plug (node l x d r)) k := by
  have hx : x ≠ 0 := hw.isTree.focus.2.1
  obtain ⟨h', hok, hs, hroot⟩ := splayLoop_spec (stands_of_isTree hw.isTree) (depth_le_turns hturns)
  have hsplay : splay turns t.heap x = .ok h' := (if_neg hx).trans hok
  have hsplit := split_eq hw.isTree hturns hn hsplay
  rw [if_neg heven] at hroot
  have hstale : t.heap.root ≠ x := by
    rintro rfl
    have hparent := hw.isTree.parent_focus hx
    rw [root_node, parent_root hw.isTree hx] at hparent
    exact hc (hw.isTree.focus.1.parent_eq_zero.mp hparent.symm)
  have hmem : h'.root ∈ (node (lifted c l r).1 x d (lifted c l r).2).nodes := by
    rw [nodes_lifted, hroot, hw.isTree.root]
    refine root_mem (root_ne_zero hw.isTree.holds ?_)
    intro he
    have hno : x ∈ (nil : BinTree Unit).nodes := he ▸ Ctx.mem_nodes_plug.mpr (Or.inl (by simp))
    cases hno
  rintro ⟨t', a, b, u₁, u₂, hok', -, hw₁, -⟩
  rw [hsplit] at hok'
  by_cases hleft : h'.left h'.root = 0
  · obtain ⟨e, he⟩ := detachLeft_null hleft
    rw [he] at hok'
    cases hok'
  · rw [detachLeft_eq (hs.isTree.ne_zero hmem) hleft] at hok'
    cases hok'
    exact detached_below hs hmem (by rw [hroot]; exact hstale) hleft ⟨u₁, hw₁.isTree⟩

omit [IsStrictTotalOrder κ fun a b => lt a b = true] in
theorem not_splits_none (ht : IsTree t.heap u) (hturns : u.nodes.length ≤ turns) (hn : bound lt t k u = none) :
    ¬ Splits lt turns t u k := by
  rintro ⟨t', a, b, u₁, u₂, hok, -⟩
  have hlow : lowerBound lt t k turns t.heap.root = .error .nullDereference := by
    rw [ht.root, lowerBound_eq ht.holds hturns, hn]
    rfl
  unfold split at hok
  rw [hlow] at hok
  cases hok

/-- Without a key above `k` nothing is splayed. -/
theorem splits_root_iff (hw : WellFormed lt t (node l x d r)) (hturns : (node l x d r).nodes.length ≤ turns)
    (habove : ∀ y ∈ (node l x d r).nodes, lt k (key t y) = false) :
    Splits lt turns t (node l x d r) k ↔ Boundary lt t k l.nodes x := by
  have hsplay : splay turns t.heap 0 = .ok t.heap := if_pos rfl
  exact splits_iff_boundary hw (stands_of_isTree hw.isTree) hw.isTree.root rfl (habove x (by simp))
    (split_eq hw.isTree hturns (bound_none_above habove) hsplay)

omit [IsStrictTotalOrder κ fun a b => lt a b = true] in
theorem not_splits_nil (hw : WellFormed lt t nil) : ¬ Splits lt turns t nil k := by
  rintro ⟨t', a, b, u₁, u₂, hok, -⟩
  have hroot : t.heap.root = 0 := hw.isTree.root
  have hn : bound lt t k (nil : BinTree Unit) = some 0 := rfl
  have hsplay : splay turns t.heap 0 = .ok t.heap := if_pos rfl
  have hsplit := split_eq hw.isTree (Nat.zero_le turns) hn hsplay
  have hnull : detachLeft t.heap = .error .nullDereference := by
    unfold detachLeft
    rw [hroot]
    rfl
  rw [hsplit, hnull] at hok
  cases hok

theorem splits_iff (hw : WellFormed lt t u) (hturns : u.nodes.length ≤ turns) :
    Splits lt turns t u k ↔ Splittable lt t u k := by
  constructor
  · intro hsplits
    cases hb : bound lt t k u with
    | none => exact absurd hsplits (not_splits_none hw.isTree hturns hb)
    | some n =>
      obtain ⟨c, l, d, r, hu, hc, hf, habove⟩ | ⟨rfl, c, hu, hc, hf⟩ :=
        bound_found (c := Ctx.top) hb trivial trivial
      · obtain rfl : u = c.plug (node l n d r) := hu
        have htop : c ≠ .top := fun he => by rw [he] at hc; exact hc
        have hodd : Odd c.depth := by
          by_contra heven
          exact not_splits_even hw hturns hb htop heven hsplits
        exact ⟨c, l, n, d, r, rfl, (splits_odd_iff hw hturns hb habove hodd).mp hsplits, Or.inr ⟨hc, hf, hodd⟩⟩
      · obtain rfl : u = c.plug nil := hu
        have habove : ∀ y ∈ (c.plug (nil : BinTree Unit)).nodes, lt k (key t y) = false := by
          intro y hy
          rw [Ctx.nodes_plug, rights_after hc, nodes_nil, List.append_nil, List.append_nil] at hy
          exact (hf.splits nil (hw.ordered.goLeft k)).1 y hy
        generalize c.plug (nil : BinTree Unit) = u at hw hturns hsplits habove
        cases u with
        | nil => exact absurd hsplits (not_splits_nil hw)
        | node l x d r =>
          have hb := (splits_root_iff hw hturns habove).mp hsplits
          exact ⟨.top, l, x, d, r, rfl, hb, Or.inl ⟨rfl, fun y hy => habove y (by simp [hy])⟩⟩
  · rintro ⟨c, l, x, d, r, rfl, hb, ⟨rfl, hr⟩ | ⟨hc, hf, hodd⟩⟩
    · refine (splits_root_iff hw hturns ?_).mpr hb
      intro y hy
      rcases List.mem_append.mp hy with hy | hy
      · exact not_lt_of_lt (hb.below y hy)
      · rcases List.mem_cons.mp hy with rfl | hy
        · exact hb.notAbove
        · exact hr y hy
    · have hfound : bound lt t k (c.plug (node l x d r)) = some x := by
        rw [bound_rightsLefts hc hf, boundLeft, if_neg (by rw [hb.notAbove]; exact Bool.false_ne_true)]
      exact (splits_odd_iff hw hturns hfound hb.notAbove hodd).mpr hb

/-- `splay` brings a node to the root pointer just from the root and from odd depths, and `split` is right
just where the node it splays is at the boundary and comes there. -/
theorem splay_split_iff (hw : WellFormed lt t u) (hturns : u.nodes.length ≤ turns) :
    (∀ (c : Ctx Unit) l x d r, u = c.plug (node l x d r) →
      ∃ h', splay turns t.heap x = .ok h' ∧ (h'.root = x ↔ c = .top ∨ Odd c.depth)) ∧
      ∀ k, Splits lt turns t u k ↔ Splittable lt t u k := by
  refine ⟨?_, fun k => splits_iff hw hturns⟩
  rintro c l x d r rfl
  exact splay_root hw.isTree (depth_le_turns hturns)

end Parts

/-! ### Three keys in a row -/

/-- The keys 1, 2 and 3 inserted into an empty tree, each at the node of its number. -/
def threeInRow : Tree ℕ ℕ Unit :=
  ⟨⟨3, fun x => if x = 3 then ⟨2, 0, 0, ()⟩ else if x = 2 then ⟨1, 0, 3, ()⟩ else ⟨0, 0, 2, ()⟩⟩,
    fun x => (x, 0), 2⟩

def threeInRowTree : BinTree Unit := node (node (node nil 1 () nil) 2 () nil) 3 () nil

theorem threeInRow_wellFormed : WellFormed natLess threeInRow threeInRowTree where
  isTree :=
    { root := rfl
      holds := ⟨by decide, rfl, ⟨by decide, rfl, ⟨by decide, rfl, trivial, trivial⟩, trivial⟩, trivial⟩
      nodup := by decide }
  ordered := by
    unfold Ordered
    decide

/-- The key 0 comes below the leaf 1 and is splayed to the root from the depth three. -/
theorem splay_insertion_fourth :
    Inserts natLess (RootedAt natLess 4) threeInRow threeInRowTree 4 (0, 0)
        (SearchTree.insert natLess splayTree 3 threeInRow 4 (0, 0)) ∧
      Inserts natLess (RootedAt natLess 4) threeInRow threeInRowTree 4 (0, 0)
        (insertMoved natLess splayTree 3 threeInRow 4 (0, 0)) :=
  splay_insertion threeInRow_wellFormed (by decide) (by decide) (by decide)

/-- The key 2 is at the depth one. -/
theorem splay_split_two : Splits natLess 3 threeInRow threeInRowTree 2 := by
  refine ((splay_split_iff threeInRow_wellFormed (by decide)).2 2).mpr ?_
  refine ⟨.frame .left 3 () nil .top, node nil 1 () nil, 2, (), nil, rfl, ⟨by decide, by decide, rfl, rfl⟩, ?_⟩
  exact Or.inr ⟨Or.inl trivial, ⟨iff_of_true rfl rfl, trivial⟩, odd_one⟩

/-- The three insertions lead to this tree. The leaf 1 is splayed and the root pointer stays at the node
3; a split at the key 1 follows null, and one at the key 4 leaves 3 among the keys that are not less. -/
theorem splay_root_stale :
    (do
      let t ← SearchTree.insert natLess splayTree 3 (empty () (0, 0)) 1 (1, 0)
      let t ← SearchTree.insert natLess splayTree 3 t 2 (2, 0)
      let t ← SearchTree.insert natLess splayTree 3 t 3 (3, 0)
      pure (t.heap.root, [1, 2, 3].map t.heap.cell)) =
        .ok (threeInRow.heap.root, [1, 2, 3].map threeInRow.heap.cell) ∧
      WellFormed natLess threeInRow threeInRowTree ∧
      (splay 3 threeInRow.heap 1).map (fun h => (h.root, h.parent 1)) = .ok (3, 0) ∧
      ¬ Splits natLess 3 threeInRow threeInRowTree 1 ∧ ¬ Splits natLess 3 threeInRow threeInRowTree 4 := by
  have hone : (split natLess 3 threeInRow 1).map (fun a => a.2) = .error .nullDereference := rfl
  have hfour : (split natLess 3 threeInRow 4).map (fun a => a.2) = .ok (3, 2) := rfl
  refine ⟨rfl, threeInRow_wellFormed, rfl, ?_, ?_⟩
  · rintro ⟨t', a, b, u₁, u₂, hok, -⟩
    rw [hok] at hone
    cases hone
  · rintro ⟨t', a, b, u₁, u₂, hok, -, hw₁, -, -, hnot, -⟩
    rw [hok] at hfour
    cases hfour
    have hroot : u₁.root = 3 := hw₁.isTree.root.symm
    have hmem : 3 ∈ u₁.nodes := by
      rw [← hroot]
      exact root_mem (by rw [hroot]; decide)
    exact Bool.false_ne_true (hnot 3 hmem).symm

end MaiFaSp.SearchTree.SplayTree
