import MaiFaSp.BPlusTree.Nodes
import MaiFaSp.Lib.CopiedSeparators
import MaiFaSp.Lib.LinkedChain

/-!
# Leaves under one root, and what the iterators see

A tree that is a single leaf, and a tree with leaves right below the root. Both keep
their leaves in a chain, and the iterators follow it.
-/

namespace MaiFaSp.BPlusTree

open BoundedVector LinkedChain CopiedSeparators

variable {κ υ : Type}

namespace Tree

/-- The leaves as linked cells. -/
def cell (tree : Tree κ υ) (a : ℕ) : Option (ℕ × List (κ × υ)) :=
  match tree.node a with
  | some (.term n) => some (n.next, n.data)
  | _ => none

/-- The leaves that are reachable from the root, left to right. -/
def leavesBelow (turns : ℕ) (tree : Tree κ υ) : Except NodeFault (List ℕ) := do
  let nodes ← tree.getAllNodesRecursively turns tree.root
  pure (nodes.filter fun a => (tree.cell a).isSome)

/-- The entries that leaves store. -/
def storedIn (tree : Tree κ υ) (leaves : List ℕ) : List (κ × υ) :=
  leaves.flatMap fun a => ((tree.cell a).map Prod.snd).getD []

end Tree

/-- The links from `begin()` visit exactly the leaves below the root, left to right, and the
iterators from `begin()` to `end()` their entries, with strictly increasing keys. -/
def ChainVisitsLeaves [LinearOrder κ] (turns : ℕ) (tree : Tree κ υ) : Prop :=
  ∃ leaves first last steps,
    tree.leavesBelow turns = .ok leaves ∧
    tree.beginIterator turns = .ok first ∧ tree.endIterator turns = .ok last ∧
    follow tree.cell steps first.node = some leaves ∧
    tree.enumerate last steps first = .ok (tree.storedIn leaves) ∧
    Sorted (tree.storedIn leaves)

/-- Addresses that hold no object. -/
structure Sound (tree : Tree κ υ) : Prop where
  null : tree.node 0 = none
  unused : ∀ a, tree.fresh ≤ a → tree.node a = none
  fresh_pos : 0 < tree.fresh

variable {t turns : ℕ} {tree : Tree κ υ} {a next : ℕ} {data es part : List (κ × υ)}
  {leaves : List ℕ} {parts : List (List (κ × υ))} {it last : Iterator}

theorem cell_eq_some :
    tree.cell a = some (next, data) ↔ tree.node a = some (.term ⟨next, data⟩) := by
  unfold Tree.cell
  constructor
  · intro h
    split at h
    case h_1 n hn =>
      cases h
      exact hn
    case h_2 => cases h
  · intro h
    rw [h]

theorem derefTerm_eq (h : tree.cell a = some (next, data)) :
    tree.derefTerm a = .ok ⟨next, data⟩ := by
  unfold Tree.derefTerm Tree.deref
  rw [cell_eq_some.mp h]
  rfl

theorem derefMiddle_eq {n : Middle κ} (h : tree.node a = some (.middle n)) :
    tree.derefMiddle a = .ok n := by
  unfold Tree.derefMiddle Tree.deref
  rw [h]
  rfl

theorem sound_empty : Sound (Tree.empty : Tree κ υ) := ⟨rfl, fun _ _ => rfl, Nat.one_pos⟩

theorem Sound.cell_null (h : Sound tree) : tree.cell 0 = none := by
  unfold Tree.cell
  rw [h.null]

theorem Sound.ne_zero (h : Sound tree) {n : Node κ υ} (ha : tree.node a = some n) : a ≠ 0 := by
  rintro rfl
  rw [h.null] at ha
  cases ha

theorem Sound.lt_fresh (h : Sound tree) {n : Node κ υ} (ha : tree.node a = some n) :
    a < tree.fresh := by
  by_contra hge
  rw [h.unused a (not_lt.mp hge)] at ha
  cases ha

theorem Sound.congr {tree' : Tree κ υ} (h : Sound tree) (hnode : tree'.node = tree.node)
    (hfresh : tree'.fresh = tree.fresh) : Sound tree' := by
  refine ⟨?_, fun a ha => ?_, ?_⟩
  · rw [hnode]
    exact h.null
  · rw [hnode]
    rw [hfresh] at ha
    exact h.unused a ha
  · rw [hfresh]
    exact h.fresh_pos

theorem Sound.setNode (h : Sound tree) {n m : Node κ υ} (ha : tree.node a = some n) :
    Sound (tree.setNode a m) := by
  refine ⟨?_, fun b hb => ?_, h.fresh_pos⟩
  · rw [tree.setNode_node_of_ne _ (h.ne_zero ha).symm]
    exact h.null
  · have hne : b ≠ a := ((h.lt_fresh ha).trans_le hb).ne'
    rw [tree.setNode_node_of_ne _ hne]
    exact h.unused b hb

theorem Sound.newNode (h : Sound tree) (n : Node κ υ) : Sound (tree.newNode n) := by
  refine ⟨?_, fun b hb => ?_, Nat.succ_pos _⟩
  · rw [tree.newNode_node_of_ne _ h.fresh_pos.ne]
    exact h.null
  · rw [tree.newNode_fresh] at hb
    rw [tree.newNode_node_of_ne _ (by omega)]
    exact h.unused b (by omega)

theorem Sound.deleteObject (h : Sound tree) (a : ℕ) : Sound (tree.deleteObject a) := by
  have hnone : ∀ b, tree.node b = none → (tree.deleteObject a).node b = none := by
    intro b hb
    by_cases hba : b = a
    · rw [hba]
      exact tree.deleteObject_node_self
    · rw [tree.deleteObject_node_of_ne hba]
      exact hb
  exact ⟨hnone 0 h.null, fun b hb => hnone b (h.unused b hb), h.fresh_pos⟩

theorem cell_congr {tree' : Tree κ υ} (h : tree'.node a = tree.node a) :
    tree'.cell a = tree.cell a := by
  unfold Tree.cell
  rw [h]

theorem cell_setNode_self {n : Term κ υ} :
    (tree.setNode a (.term n)).cell a = some (n.next, n.data) :=
  cell_eq_some.mpr (tree.setNode_node_self _)

/-- The two parts of a leaf, with the new object on the right. -/
def cutLeaf (tree : Tree κ υ) (a next n : ℕ) (part : List (κ × υ)) : Tree κ υ :=
  (tree.newNode (.term ⟨next, part.drop n⟩)).setNode a (.term ⟨tree.fresh, part.take n⟩)

theorem Sound.cutLeaf (h : Sound tree) {n : ℕ} (ha : tree.cell a = some (next, part)) :
    Sound (cutLeaf tree a next n part) := by
  have hnode : (tree.newNode (.term ⟨next, part.drop n⟩)).node a = some (.term ⟨next, part⟩) := by
    rw [tree.newNode_node_of_ne _ (h.lt_fresh (cell_eq_some.mp ha)).ne]
    exact cell_eq_some.mp ha
  exact (h.newNode _).setNode hnode

/-- The tree behind the split of a leaf below the root. -/
def splitBelow (tree : Tree κ υ) (a next n : ℕ) (part : List (κ × υ)) (root : Middle κ) :
    Tree κ υ :=
  (cutLeaf (tree.setNode a (.term ⟨next, part⟩)) a next n part).setNode tree.root (.middle root)

theorem splitBelow_nodes (h : Sound tree) {n : ℕ} {root node : Middle κ} {leaf : Term κ υ}
    (hroot : tree.node tree.root = some (.middle node)) (ha : tree.node a = some (.term leaf)) :
    Sound (splitBelow tree a next n part root) ∧
      (splitBelow tree a next n part root).node tree.root = some (.middle root) ∧
      (splitBelow tree a next n part root).cell a = some (tree.fresh, part.take n) ∧
      (splitBelow tree a next n part root).cell tree.fresh = some (next, part.drop n) ∧
      ∀ c, tree.node c ≠ none → c ≠ a → c ≠ tree.root →
        (splitBelow tree a next n part root).node c = tree.node c := by
  have hra : tree.root ≠ a := by
    intro heq
    rw [heq, ha] at hroot
    cases hroot
  have hset : (tree.setNode a (.term ⟨next, part⟩)).cell a = some (next, part) := cell_setNode_self
  have hcut : Sound (cutLeaf (tree.setNode a (.term ⟨next, part⟩)) a next n part) :=
    (h.setNode ha).cutLeaf hset
  have hroot_node : (cutLeaf (tree.setNode a (.term ⟨next, part⟩)) a next n part).node tree.root =
      some (.middle node) := by
    have hne : tree.root ≠ (tree.setNode a (.term ⟨next, part⟩)).fresh := (h.lt_fresh hroot).ne
    unfold cutLeaf
    rw [Tree.setNode_node_of_ne _ _ hra, Tree.newNode_node_of_ne _ _ hne,
      Tree.setNode_node_of_ne _ _ hra]
    exact hroot
  have ha_node : (cutLeaf (tree.setNode a (.term ⟨next, part⟩)) a next n part).node a =
      some (.term ⟨tree.fresh, part.take n⟩) := Tree.setNode_node_self _ _
  have hfresh_node : (cutLeaf (tree.setNode a (.term ⟨next, part⟩)) a next n part).node
      tree.fresh = some (.term ⟨next, part.drop n⟩) := by
    unfold cutLeaf
    rw [Tree.setNode_node_of_ne _ _ (h.lt_fresh ha).ne']
    exact Tree.newNode_node_self _ _
  refine ⟨hcut.setNode hroot_node, Tree.setNode_node_self _ _, cell_eq_some.mpr ?_,
    cell_eq_some.mpr ?_, fun c hc hca hcr => ?_⟩
  · unfold splitBelow
    rw [Tree.setNode_node_of_ne _ _ hra.symm]
    exact ha_node
  · unfold splitBelow
    rw [Tree.setNode_node_of_ne _ _ (h.lt_fresh hroot).ne']
    exact hfresh_node
  · have hcf : c ≠ (tree.setNode a (.term ⟨next, part⟩)).fresh := by
      rintro rfl
      exact hc (h.unused _ le_rfl)
    unfold splitBelow cutLeaf
    rw [Tree.setNode_node_of_ne _ _ hcr, Tree.setNode_node_of_ne _ _ hca,
      Tree.newNode_node_of_ne _ _ hcf, Tree.setNode_node_of_ne _ _ hca]

/-- The tree behind the split of a leaf that is the root. -/
def splitRoot (tree : Tree κ υ) (n : ℕ) (part : List (κ × υ)) (key : κ) : Tree κ υ :=
  (cutLeaf (underNewRoot (tree.setNode tree.root (.term ⟨0, part⟩))) tree.root 0 n part).setNode
    tree.fresh (.middle ⟨false, [key], [tree.root, tree.fresh + 1]⟩)

theorem splitRoot_nodes (h : Sound tree) {n : ℕ} {key : κ} {leaf : Term κ υ}
    (hroot : tree.node tree.root = some (.term leaf)) :
    Sound (splitRoot tree n part key) ∧
      (splitRoot tree n part key).node tree.fresh =
        some (.middle ⟨false, [key], [tree.root, tree.fresh + 1]⟩) ∧
      (splitRoot tree n part key).cell tree.root = some (tree.fresh + 1, part.take n) ∧
      (splitRoot tree n part key).cell (tree.fresh + 1) = some (0, part.drop n) := by
  have hlt := h.lt_fresh hroot
  have hset : Sound (tree.setNode tree.root (.term ⟨0, part⟩)) := h.setNode hroot
  have hunder : Sound (underNewRoot (tree.setNode tree.root (.term ⟨0, part⟩))) :=
    (hset.newNode (.middle ⟨false, [], []⟩)).congr rfl rfl
  have hroot_node : (underNewRoot (tree.setNode tree.root (.term ⟨0, part⟩))).node tree.root =
      some (.term ⟨0, part⟩) := by
    have hne : tree.root ≠ (tree.setNode tree.root (.term ⟨0, part⟩)).fresh := hlt.ne
    refine (Tree.newNode_node_of_ne _ _ hne).trans ?_
    exact Tree.setNode_node_self _ _
  have hcut : Sound (cutLeaf (underNewRoot (tree.setNode tree.root (.term ⟨0, part⟩))) tree.root 0 n
      part) := hunder.cutLeaf (cell_eq_some.mpr hroot_node)
  have hfresh_node : (cutLeaf (underNewRoot (tree.setNode tree.root (.term ⟨0, part⟩))) tree.root 0
      n part).node tree.fresh = some (.middle ⟨false, [], []⟩) := by
    have hne : tree.fresh ≠ (underNewRoot (tree.setNode tree.root (.term ⟨0, part⟩))).fresh :=
      (Nat.lt_succ_self tree.fresh).ne
    unfold cutLeaf
    rw [Tree.setNode_node_of_ne _ _ hlt.ne', Tree.newNode_node_of_ne _ _ hne]
    exact (tree.setNode tree.root (.term ⟨0, part⟩)).newNode_node_self _
  refine ⟨hcut.setNode hfresh_node, Tree.setNode_node_self _ _, cell_eq_some.mpr ?_,
    cell_eq_some.mpr ?_⟩
  · unfold splitRoot
    rw [Tree.setNode_node_of_ne _ _ hlt.ne]
    exact Tree.setNode_node_self _ _
  · have hne : tree.fresh + 1 ≠ tree.fresh := (Nat.lt_succ_self tree.fresh).ne'
    have hne' : tree.fresh + 1 ≠ tree.root := by omega
    unfold splitRoot cutLeaf
    rw [Tree.setNode_node_of_ne _ _ hne, Tree.setNode_node_of_ne _ _ hne']
    exact Tree.newNode_node_self _ _

theorem storedIn_chain {tail : ℕ} (h : Chain tree.cell leaves parts tail) :
    tree.storedIn leaves = parts.flatten := by
  induction leaves generalizing parts with
  | nil =>
    cases parts with
    | nil => rfl
    | cons part parts => cases h
  | cons a leaves ih =>
    cases parts with
    | nil => cases h
    | cons part parts =>
      have hrest := ih h.2
      unfold Tree.storedIn at hrest ⊢
      rw [List.flatMap_cons, h.1, hrest]
      rfl

theorem not_mem_around {key : κ} {before after : List (List (κ × υ))}
    (hkey : key ∉ keyList (before ++ part :: after).flatten) :
    key ∉ keyList part ∧ key ∉ keyList after.flatten := by
  rw [List.flatten_append, List.flatten_cons] at hkey
  unfold keyList at hkey ⊢
  rw [List.map_append, List.map_append, List.mem_append, List.mem_append, not_or, not_or] at hkey
  exact hkey.2

/-! ### Iterators along the chain -/

theorem entry_eq (hsound : Sound tree) (ha : tree.cell a = some (next, part)) {j : ℕ} {e : κ × υ}
    (he : part[j]? = some e) : tree.entry ⟨a, j⟩ = .ok e := by
  unfold Tree.entry
  rw [if_neg (hsound.ne_zero (cell_eq_some.mp ha)), derefTerm_eq ha]
  exact get_eq_ok.mpr he

theorem increment_eq (ha : tree.cell a = some (next, part)) {j : ℕ} :
    tree.increment ⟨a, j⟩ =
      .ok (if j + 1 = part.length ∧ next ≠ 0 then ⟨next, 0⟩ else ⟨a, j + 1⟩) := by
  unfold Tree.increment
  rw [derefTerm_eq ha]
  show (if _ then _ else _) = _
  split
  · rfl
  · rfl

theorem enumerate_last {steps : ℕ} : tree.enumerate last (steps + 1) last = .ok [] := by
  rw [Tree.enumerate, if_pos rfl]
  rfl

theorem enumerate_step {steps : ℕ} {e : κ × υ} {following : Iterator} (hlast : it ≠ last)
    (he : tree.entry it = .ok e) (hnext : tree.increment it = .ok following)
    (hrest : tree.enumerate last steps following = .ok es) :
    tree.enumerate last (steps + 1) it = .ok (e :: es) := by
  rw [Tree.enumerate, if_neg hlast, he, hnext]
  show (tree.enumerate last steps following >>= fun es => pure (e :: es)) = _
  rw [hrest]
  rfl

/-- Where the enumeration of a chain ends. -/
def lastOf (a : ℕ) (leaves : List ℕ) (part : List (κ × υ)) (parts : List (List (κ × υ))) :
    Iterator :=
  ⟨leaves.getLastD a, (parts.getLastD part).length⟩

theorem lastOf_cons {b : ℕ} {q : List (κ × υ)} :
    lastOf a (b :: leaves) part (q :: parts) = lastOf b leaves q parts := by
  unfold lastOf
  rw [List.getLastD_cons, List.getLastD_cons]

theorem ne_lastOf (hsound : Sound tree) {j : ℕ}
    (h : Chain tree.cell (a :: leaves) (part :: parts) 0) (hj : j ≠ part.length) :
    (⟨a, j⟩ : Iterator) ≠ lastOf a leaves part parts := by
  intro heq
  obtain ⟨hnode, hindex⟩ := Iterator.mk.inj heq
  cases leaves with
  | nil =>
    have hparts : parts = [] := List.eq_nil_of_length_eq_zero h.2.length_eq.symm
    rw [hparts] at hindex
    exact hj hindex
  | cons b leaves =>
    -- the leaves of a chain are distinct
    refine (List.nodup_cons.mp (h.nodup hsound.cell_null)).1 ?_
    rw [List.getLastD_cons] at hnode
    rw [hnode]
    exact List.getLastD_mem_cons

theorem enumerate_chain (hsound : Sound tree) {steps j : ℕ}
    (h : Chain tree.cell (a :: leaves) (part :: parts) 0) (hne : ∀ p ∈ parts, p ≠ [])
    (hj : j ≤ part.length) (hmid : parts ≠ [] → j < part.length)
    (hsteps : (part.drop j ++ parts.flatten).length < steps) :
    tree.enumerate (lastOf a leaves part parts) steps ⟨a, j⟩ =
      .ok (part.drop j ++ parts.flatten) := by
  induction steps generalizing a leaves part parts j with
  | zero => cases hsteps
  | succ steps ih =>
    by_cases hend : j = part.length
    · -- behind the last entry of the last leaf
      have hparts : parts = [] := by
        by_contra hparts
        exact (hmid hparts).ne hend
      subst hparts
      obtain rfl : leaves = [] := List.eq_nil_of_length_eq_zero h.2.length_eq
      subst hend
      rw [List.drop_length]
      exact enumerate_last
    · have hlt : j < part.length := lt_of_le_of_ne hj hend
      have hdrop : part.drop j = part[j] :: part.drop (j + 1) := List.drop_eq_getElem_cons hlt
      rw [hdrop, List.cons_append] at hsteps ⊢
      rw [List.length_cons] at hsteps
      refine enumerate_step (ne_lastOf hsound h hend)
        (entry_eq hsound h.1 (List.getElem?_eq_getElem hlt)) (increment_eq h.1) ?_
      cases leaves with
      | nil =>
        obtain rfl : parts = [] := List.eq_nil_of_length_eq_zero h.2.length_eq.symm
        rw [if_neg (fun hc => hc.2 rfl)]
        exact ih h hne (by omega) (fun hc => absurd rfl hc) (by omega)
      | cons b leaves =>
        cases parts with
        | nil => cases h.2
        | cons q parts =>
          have hq : q ≠ [] := hne q List.mem_cons_self
          by_cases hlast : j + 1 = part.length
          · -- the last entry of a leaf: on to the next leaf
            have hb : b ≠ 0 := hsound.ne_zero (cell_eq_some.mp h.2.1)
            rw [if_pos ⟨hlast, hb⟩, hlast, List.drop_length, List.nil_append, lastOf_cons]
            rw [hlast, List.drop_length, List.nil_append] at hsteps
            have hpos : 0 < q.length := List.length_pos_of_ne_nil hq
            exact ih h.2 (fun p hp => hne p (List.mem_cons_of_mem q hp)) hpos.le (fun _ => hpos)
              (by rw [List.drop_zero]; exact Nat.lt_of_succ_lt_succ hsteps)
          · rw [if_neg (fun hc => hlast hc.1)]
            exact ih h hne (by omega) (fun _ => by omega) (by omega)

variable {keys : List κ}

/-- The entry that `operator++` goes to. -/
theorem entry_increment (hsound : Sound tree) {j : ℕ}
    (h : Chain tree.cell (a :: leaves) (part :: parts) 0) (hne : ∀ p ∈ parts, p ≠ [])
    (hj : j < part.length) :
    ∃ it, tree.increment ⟨a, j⟩ = .ok it ∧
      (it = lastOf a leaves part parts ∨ ∃ e, tree.entry it = .ok e) := by
  refine ⟨_, increment_eq h.1, ?_⟩
  cases leaves with
  | nil =>
    obtain rfl : parts = [] := List.eq_nil_of_length_eq_zero h.2.length_eq.symm
    rw [if_neg (fun hc => hc.2 rfl)]
    rcases Nat.lt_or_eq_of_le (Nat.succ_le_of_lt hj) with hlt | heq
    · exact Or.inr ⟨_, entry_eq hsound h.1 (List.getElem?_eq_getElem hlt)⟩
    · refine Or.inl ?_
      show (⟨a, j + 1⟩ : Iterator) = ⟨a, part.length⟩
      rw [← heq]
  | cons b leaves =>
    cases parts with
    | nil => cases h.2
    | cons q parts =>
      refine Or.inr ?_
      split
      · have hq : 0 < q.length := List.length_pos_of_ne_nil (hne q List.mem_cons_self)
        exact ⟨_, entry_eq hsound h.2.1 (List.getElem?_eq_getElem hq)⟩
      case isFalse hc =>
        have hb : b ≠ 0 := hsound.ne_zero (cell_eq_some.mp h.2.1)
        have hlt : j + 1 < part.length := by
          have hnext : j + 1 ≠ part.length := fun heq => hc ⟨heq, hb⟩
          omega
        exact ⟨_, entry_eq hsound h.1 (List.getElem?_eq_getElem hlt)⟩

theorem getLastD_append_cons {α : Type} {x d : α} {xs ys : List α} :
    (xs ++ x :: ys).getLastD d = ys.getLastD x := by
  induction xs generalizing d with
  | nil => exact List.getLastD_cons ..
  | cons y xs ih =>
    rw [List.cons_append, List.getLastD_cons]
    exact ih

/-! ### The walks down -/

theorem walkDown_leaf {pick : List ℕ → ℕ} (ha : tree.cell a = some (next, data))
    (hturns : 1 ≤ turns) : tree.walkDown pick turns a = .ok a := by
  obtain ⟨turns, rfl⟩ := Nat.exists_eq_add_of_le' hturns
  rw [Tree.walkDown]
  unfold Tree.deref
  rw [cell_eq_some.mp ha]
  rfl

theorem walkDown_middle {pick : List ℕ → ℕ} {b : ℕ}
    (hb : tree.node b = some (.middle ⟨false, keys, leaves⟩)) (hne : pick leaves ≠ 0) :
    tree.walkDown pick (turns + 1) b = tree.walkDown pick turns (pick leaves) := by
  rw [Tree.walkDown]
  unfold Tree.deref
  rw [hb]
  show (if _ then _ else _) = _
  rw [if_neg hne]

theorem getAllNodes_leaf (hsound : Sound tree) (ha : tree.cell a = some (next, data))
    (hturns : 1 ≤ turns) : tree.getAllNodesRecursively turns a = .ok [a] := by
  obtain ⟨turns, rfl⟩ := Nat.exists_eq_add_of_le' hturns
  rw [Tree.getAllNodesRecursively, if_neg (hsound.ne_zero (cell_eq_some.mp ha))]
  unfold Tree.deref
  rw [cell_eq_some.mp ha]
  rfl

theorem mapM_eq_ok {ε α β : Type} {f : α → Except ε β} {g : α → β} {xs : List α}
    (h : ∀ x ∈ xs, f x = .ok (g x)) : xs.mapM f = .ok (xs.map g) := by
  induction xs with
  | nil => rfl
  | cons x xs ih =>
    rw [List.mapM_cons, h x List.mem_cons_self, ih fun y hy => h y (List.mem_cons_of_mem x hy)]
    rfl

theorem getAllNodes_middle (hsound : Sound tree) {b : ℕ}
    (hb : tree.node b = some (.middle ⟨false, keys, leaves⟩))
    (hleaves : ∀ a ∈ leaves, (tree.cell a).isSome) (hturns : 2 ≤ turns) :
    tree.getAllNodesRecursively turns b = .ok (b :: leaves) := by
  obtain ⟨turns, rfl⟩ := Nat.exists_eq_add_of_le' (show 1 ≤ turns by omega)
  have hbelow : leaves.mapM (tree.getAllNodesRecursively turns) = .ok (leaves.map fun a => [a]) := by
    refine mapM_eq_ok fun a ha => ?_
    obtain ⟨⟨next, data⟩, hcell⟩ := Option.isSome_iff_exists.mp (hleaves a ha)
    exact getAllNodes_leaf hsound hcell (by omega)
  rw [Tree.getAllNodesRecursively, if_neg (hsound.ne_zero hb)]
  unfold Tree.deref
  rw [hb]
  show (leaves.mapM (tree.getAllNodesRecursively turns) >>= fun below => pure (b :: below.flatten)) = _
  rw [hbelow]
  show Except.ok (b :: (leaves.map fun a => [a]).flatten) = _
  rw [← List.flatMap_def, List.flatMap_singleton']

/-- Both iterators of a tree, by its walks to the first and to the last leaf. -/
theorem iterators_eq {first lastLeaf : ℕ} (hroot : tree.root ≠ 0)
    (hfirst : tree.walkDown (fun pointers => pointers.headD 0) turns tree.root = .ok first)
    (hlast : tree.walkDown (fun pointers => pointers.getLastD 0) turns tree.root = .ok lastLeaf)
    (hcell : tree.cell lastLeaf = some (next, data)) :
    tree.beginIterator turns = .ok ⟨first, 0⟩ ∧
      tree.endIterator turns = .ok ⟨lastLeaf, data.length⟩ := by
  constructor
  · rw [Tree.beginIterator, if_neg hroot, hfirst]
    rfl
  · rw [Tree.endIterator, if_neg hroot, hlast]
    show (do
      let leaf ← tree.derefTerm lastLeaf
      pure (⟨lastLeaf, leaf.data.length⟩ : Iterator)) = _
    rw [derefTerm_eq hcell]
    rfl

variable [LinearOrder κ]

/-! ### The two shapes -/

/-- The root is a leaf. -/
structure Sole (t : ℕ) (tree : Tree κ υ) (es : List (κ × υ)) : Prop where
  sound : Sound tree
  root_node : tree.node tree.root = some (.term ⟨0, es⟩)
  sorted : Sorted es
  length_le : es.length ≤ maximumKeysInNode t

/-- The root is a middle node, its children are leaves. -/
structure Forest (t : ℕ) (tree : Tree κ υ) (keys : List κ) (leaves : List ℕ)
    (parts : List (List (κ × υ))) : Prop where
  sound : Sound tree
  root_node : tree.node tree.root = some (.middle ⟨false, keys, leaves⟩)
  chain : Chain tree.cell leaves parts 0
  separates : Separates keys parts
  sorted : Sorted parts.flatten
  keys_ne : keys ≠ []
  keys_le : keys.length ≤ maximumKeysInNode t
  parts_ne : ∀ p ∈ parts, p ≠ []
  parts_le : ∀ p ∈ parts, p.length ≤ maximumKeysInNode t

theorem Sole.chain (h : Sole t tree es) : Chain tree.cell [tree.root] [es] 0 :=
  chain_cons.mpr ⟨cell_eq_some.mpr h.root_node, chain_nil⟩

theorem chainVisitsLeaves_of_chain (hsound : Sound tree)
    (hchain : Chain tree.cell (a :: leaves) (part :: parts) 0)
    (hne : ∀ p ∈ parts, p ≠ []) (hsorted : Sorted (part :: parts).flatten)
    (hpart : parts ≠ [] → part ≠ [])
    (hbelow : tree.leavesBelow turns = .ok (a :: leaves))
    (hfirst : tree.beginIterator turns = .ok ⟨a, 0⟩)
    (hlast : tree.endIterator turns = .ok (lastOf a leaves part parts)) :
    ChainVisitsLeaves turns tree := by
  have hstored : tree.storedIn (a :: leaves) = (part :: parts).flatten := storedIn_chain hchain
  refine ⟨a :: leaves, _, _, (part :: parts).flatten.length + (a :: leaves).length + 1, hbelow,
    hfirst, hlast, ?_, ?_, ?_⟩
  · exact hchain.follow_eq hsound.cell_null (by omega)
  · rw [hstored]
    refine enumerate_chain hsound hchain hne (Nat.zero_le _)
      (fun hparts => List.length_pos_of_ne_nil (hpart hparts)) ?_
    rw [List.drop_zero, List.flatten_cons]
    omega
  · rw [hstored]
    exact hsorted

theorem Sole.leavesBelow (h : Sole t tree es) (hturns : 1 ≤ turns) :
    tree.leavesBelow turns = .ok [tree.root] := by
  have hcell := h.chain.1
  unfold Tree.leavesBelow
  rw [getAllNodes_leaf h.sound hcell hturns]
  show Except.ok ([tree.root].filter fun a => (tree.cell a).isSome) = _
  rw [List.filter_cons, hcell]
  rfl

theorem Sole.iterators (h : Sole t tree es) (hturns : 1 ≤ turns) :
    tree.beginIterator turns = .ok ⟨tree.root, 0⟩ ∧
      tree.endIterator turns = .ok ⟨tree.root, es.length⟩ :=
  iterators_eq (h.sound.ne_zero h.root_node) (walkDown_leaf h.chain.1 hturns)
    (walkDown_leaf h.chain.1 hturns) h.chain.1

theorem Sole.chainVisitsLeaves (h : Sole t tree es) (hturns : 1 ≤ turns) :
    ChainVisitsLeaves turns tree := by
  obtain ⟨hfirst, hlast⟩ := h.iterators hturns
  refine chainVisitsLeaves_of_chain h.sound h.chain (fun p hp => absurd hp List.not_mem_nil) ?_
    (fun hc => absurd rfl hc) (h.leavesBelow hturns) hfirst hlast
  rw [List.flatten_cons, List.flatten_nil, List.append_nil]
  exact h.sorted

theorem Forest.exists_cons (h : Forest t tree keys leaves parts) :
    ∃ a leaves' part parts', leaves = a :: leaves' ∧ parts = part :: parts' := by
  have hlen := h.chain.length_eq
  have hparts := h.separates.length_eq
  cases leaves with
  | nil =>
    rw [List.length_nil] at hlen
    omega
  | cons a leaves =>
    cases parts with
    | nil => cases hlen
    | cons part parts => exact ⟨a, leaves, part, parts, rfl, rfl⟩

theorem Forest.cell_isSome (h : Forest t tree keys leaves parts) (ha : a ∈ leaves) :
    (tree.cell a).isSome := by
  obtain ⟨next, data, hcell⟩ := h.chain.mem ha
  rw [hcell]
  rfl

theorem Forest.cell_root (h : Forest t tree keys leaves parts) : tree.cell tree.root = none := by
  unfold Tree.cell
  rw [h.root_node]

theorem Forest.root_not_mem (h : Forest t tree keys leaves parts) : tree.root ∉ leaves := by
  intro hmem
  obtain ⟨next, data, hcell⟩ := h.chain.mem hmem
  rw [h.cell_root] at hcell
  cases hcell

theorem Forest.leavesBelow (h : Forest t tree keys leaves parts) (hturns : 2 ≤ turns) :
    tree.leavesBelow turns = .ok leaves := by
  unfold Tree.leavesBelow
  rw [getAllNodes_middle h.sound h.root_node (fun a ha => h.cell_isSome ha) hturns]
  show Except.ok ((tree.root :: leaves).filter fun a => (tree.cell a).isSome) = _
  rw [List.filter_cons, h.cell_root]
  show Except.ok (leaves.filter fun a => (tree.cell a).isSome) = _
  rw [List.filter_eq_self.mpr fun a ha => h.cell_isSome ha]

theorem Forest.iterators (h : Forest t tree keys (a :: leaves) (part :: parts))
    (hturns : 2 ≤ turns) :
    tree.beginIterator turns = .ok ⟨a, 0⟩ ∧
      tree.endIterator turns = .ok (lastOf a leaves part parts) := by
  obtain ⟨turns, rfl⟩ := Nat.exists_eq_add_of_le' (show 1 ≤ turns by omega)
  have hcell := h.chain.last
  have hhead : a ≠ 0 := h.sound.ne_zero (cell_eq_some.mp h.chain.1)
  have hlast : leaves.getLastD a ≠ 0 := h.sound.ne_zero (cell_eq_some.mp hcell)
  refine iterators_eq (h.sound.ne_zero h.root_node) ?_ ?_ hcell
  · rw [walkDown_middle h.root_node hhead]
    exact walkDown_leaf h.chain.1 (by omega)
  · have hpick : (a :: leaves).getLastD 0 = leaves.getLastD a := List.getLastD_cons ..
    rw [walkDown_middle h.root_node (by rw [hpick]; exact hlast), hpick]
    exact walkDown_leaf hcell (by omega)

theorem Forest.chainVisitsLeaves (h : Forest t tree keys leaves parts) (hturns : 2 ≤ turns) :
    ChainVisitsLeaves turns tree := by
  obtain ⟨a, leaves, part, parts, rfl, rfl⟩ := h.exists_cons
  obtain ⟨hfirst, hlast⟩ := h.iterators hturns
  exact chainVisitsLeaves_of_chain h.sound h.chain
    (fun p hp => h.parts_ne p (List.mem_cons_of_mem part hp)) h.sorted
    (fun _ => h.parts_ne part List.mem_cons_self) (h.leavesBelow hturns) hfirst hlast

end MaiFaSp.BPlusTree
