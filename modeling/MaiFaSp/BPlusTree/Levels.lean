import MaiFaSp.BPlusTree.Shape

/-!
# Trees of any height

A well-formed tree with its leaves from left to right. Every separator is the first key of what is right of it.
-/

namespace MaiFaSp.BPlusTree

open BoundedVector LinkedChain CopiedSeparators

variable {κ υ : Type}

/-- What is stored in leaves, each given with its address. -/
def contents (leaves : List (ℕ × List (κ × υ))) : List (κ × υ) := (leaves.map Prod.snd).flatten

/-- The node at the address has the leaves below it. -/
def Subtree (tree : Tree κ υ) : ℕ → ℕ → List (ℕ × List (κ × υ)) → Prop
  | 0, a, leaves => ∃ n, tree.node a = some (.term n) ∧ leaves = [(a, n.data)]
  | height + 1, a, leaves => ∃ keys pointers groups,
      tree.node a = some (.middle ⟨false, keys, pointers⟩) ∧
      List.Forall₂ (Subtree tree height) pointers groups ∧
      Separates keys (groups.map contents) ∧ leaves = groups.flatten

/-- How full the nodes are is left open. -/
structure WellFormed [LinearOrder κ] (tree : Tree κ υ) (height : ℕ) (leaves : List (ℕ × List (κ × υ))) : Prop where
  sound : Sound tree
  shape : tree.root = 0 ∧ leaves = [] ∨ Subtree tree height tree.root leaves
  chain : Chain tree.cell (leaves.map Prod.fst) (leaves.map Prod.snd) 0
  sorted : Sorted (contents leaves)
  size_eq : tree.size = (contents leaves).length

variable {turns height a b i : ℕ} {tree : Tree κ υ} {keys : List κ} {pointers : List ℕ} {k : κ}
  {leaves before mid after : List (ℕ × List (κ × υ))} {groups : List (List (ℕ × List (κ × υ)))}
  {data : List (κ × υ)}

theorem contents_append : contents (before ++ after) = contents before ++ contents after := by
  unfold contents
  rw [List.map_append, List.flatten_append]

@[simp] theorem contents_nil : contents ([] : List (ℕ × List (κ × υ))) = [] := rfl

theorem contents_cons : contents ((a, data) :: after) = data ++ contents after := rfl

theorem contents_flatten : contents groups.flatten = (groups.map contents).flatten := by
  induction groups with
  | nil => rfl
  | cons g groups ih => rw [List.flatten_cons, contents_append, ih, List.map_cons, List.flatten_cons]

/-! ### The child with an index -/

/-- The leaves below the child with index `i` and those on both sides, with the separators next to it. -/
structure Entered (tree : Tree κ υ) (height : ℕ) (keys : List κ) (pointers : List ℕ)
    (leaves : List (ℕ × List (κ × υ))) (i b : ℕ) (before mid after : List (ℕ × List (κ × υ))) : Prop where
  child : pointers[i]? = some b
  subtree : Subtree tree height b mid
  leaves_eq : leaves = before ++ (mid ++ after)
  lead : 0 < i → ∃ k, keys[i - 1]? = some k ∧ Leads k (contents mid)
  first : i = 0 → before = []
  next : ∀ k, keys[i]? = some k → Leads k (contents after)
  last : keys[i]? = none → after = []

/-- The separators next to a part. -/
theorem separators_around {parts : List (List (κ × υ))} (h : Separates keys parts) (hi : i < parts.length) :
    (0 < i → ∃ k, keys[i - 1]? = some k ∧ Leads k parts[i]) ∧
      List.Forall₂ Leads (keys.drop i) (parts.drop (i + 1)) := by
  have hparts : parts = parts.take i ++ parts[i] :: parts.drop (i + 1) := by
    rw [← List.drop_eq_getElem_cons hi, List.take_append_drop]
  have htake : (parts.take i).length = i := by
    rw [List.length_take, min_eq_left hi.le]
  obtain ⟨kb, ka, rfl, hleft, hright⟩ := separates_append.mp (hparts ▸ h)
  have hkb : kb.length = i := hleft.keys_length.trans htake
  constructor
  · intro hpos
    have hne : parts.take i ≠ [] := List.ne_nil_of_length_pos (htake.symm ▸ hpos)
    obtain ⟨ks, k, rfl, hk⟩ := hleft.last hne
    refine ⟨k, ?_, hk⟩
    rw [List.length_append, List.length_singleton] at hkb
    rw [← hkb, Nat.add_sub_cancel, List.append_assoc, List.getElem?_append_right le_rfl, Nat.sub_self]
    rfl
  · rw [← hkb, List.drop_left, hkb]
    exact hright

theorem Subtree.entered (h : Subtree tree (height + 1) a leaves) :
    ∃ keys pointers, tree.node a = some (.middle ⟨false, keys, pointers⟩) ∧
      pointers.length = keys.length + 1 ∧
      ∀ i ≤ keys.length, ∃ b before mid after,
        Entered tree height keys pointers leaves i b before mid after := by
  obtain ⟨keys, pointers, groups, hnode, hgroups, hsep, rfl⟩ := h
  have hlen : groups.length = keys.length + 1 := by
    rw [← hsep.length_eq, List.length_map]
  refine ⟨keys, pointers, hnode, hgroups.length_eq.trans hlen, fun i hi => ?_⟩
  have hg : i < groups.length := by omega
  have hp : i < pointers.length := by
    rw [hgroups.length_eq]
    exact hg
  obtain ⟨hlead, hafter⟩ := separators_around hsep (i := i) (by rw [List.length_map]; exact hg)
  rw [← List.map_drop] at hafter
  refine ⟨pointers[i], (groups.take i).flatten, groups[i], (groups.drop (i + 1)).flatten,
    List.getElem?_eq_getElem hp, hgroups.get hp hg, ?_, ?_, ?_, ?_, ?_⟩
  · rw [← List.flatten_cons, ← List.drop_eq_getElem_cons hg, ← List.flatten_append, List.take_append_drop]
  · intro hpos
    rw [List.getElem_map] at hlead
    exact hlead hpos
  · rintro rfl
    rfl
  · intro k hk
    obtain ⟨hlt, hk⟩ := List.getElem?_eq_some_iff.mp hk
    rw [List.drop_eq_getElem_cons hlt, hk] at hafter
    obtain ⟨p, ps, hkp, -, hps⟩ := List.forall₂_cons_left_iff.mp hafter
    rw [contents_flatten, hps, List.flatten_cons]
    exact hkp.append
  · intro hk
    rw [List.drop_eq_nil_of_le (List.getElem?_eq_none_iff.mp hk)] at hafter
    have hnil := List.forall₂_nil_left_iff.mp hafter
    rw [List.map_eq_nil_iff.mp hnil]
    rfl

theorem Subtree.node_eq (h : Subtree tree 0 a leaves) :
    ∃ next data, tree.cell a = some (next, data) ∧ leaves = [(a, data)] := by
  obtain ⟨n, hnode, rfl⟩ := h
  exact ⟨n.next, n.data, cell_eq_some.mpr hnode, rfl⟩

theorem Subtree.exists_node (h : Subtree tree height a leaves) : ∃ n, tree.node a = some n := by
  cases height with
  | zero =>
    obtain ⟨n, hnode, -⟩ := h
    exact ⟨_, hnode⟩
  | succ height =>
    obtain ⟨keys, pointers, -, hnode, -⟩ := h
    exact ⟨_, hnode⟩

/-! ### `end()` -/

/-- The walk to the right ends in the last leaf. -/
theorem Subtree.walkDown_last (h : Subtree tree height a leaves) (hsound : Sound tree) (hturns : height < turns) :
    ∃ before b next data, leaves = before ++ [(b, data)] ∧ tree.cell b = some (next, data) ∧
      tree.walkDown (fun pointers => pointers.getLastD 0) turns a = .ok b := by
  induction height generalizing a leaves turns with
  | zero =>
    obtain ⟨next, data, hcell, rfl⟩ := h.node_eq
    exact ⟨[], a, next, data, rfl, hcell, walkDown_leaf hcell hturns⟩
  | succ height ih =>
    obtain ⟨turns, rfl⟩ := Nat.exists_eq_add_of_le' (show 1 ≤ turns by omega)
    obtain ⟨keys, pointers, hnode, hlen, henter⟩ := h.entered
    obtain ⟨b, before, mid, after, he⟩ := henter keys.length le_rfl
    obtain ⟨front, c, next, data, rfl, hcell, hwalk⟩ := ih he.subtree (by omega : height < turns)
    have hpick : pointers.getLastD 0 = b := by
      rw [List.getLastD_eq_getLast?, List.getLast?_eq_getElem?, hlen, Nat.add_sub_cancel, he.child]
      rfl
    obtain ⟨n, hb⟩ := he.subtree.exists_node
    refine ⟨before ++ front, c, next, data, ?_, hcell, ?_⟩
    · rw [he.leaves_eq, he.last (List.getElem?_eq_none le_rfl), List.append_nil, List.append_assoc]
    · rw [walkDown_middle hnode (hpick.symm ▸ hsound.ne_zero hb), hpick]
      exact hwalk

/-- Nothing is stored where `end()` is. -/
theorem WellFormed.end_eq [LinearOrder κ] (h : WellFormed tree height leaves) (hturns : height < turns) :
    ∃ it, tree.endIterator turns = .ok it ∧ ∀ e, tree.entry it ≠ .ok e := by
  rcases h.shape with ⟨hroot, -⟩ | hsub
  · refine ⟨⟨0, 0⟩, ?_, fun e he => ?_⟩
    · rw [Tree.endIterator, if_pos hroot]
      rfl
    · cases he
  · obtain ⟨before, b, next, data, -, hcell, hwalk⟩ := hsub.walkDown_last h.sound hturns
    obtain ⟨n, hnode⟩ := hsub.exists_node
    refine ⟨⟨b, data.length⟩, ?_, fun e he => ?_⟩
    · rw [Tree.endIterator, if_neg (h.sound.ne_zero hnode), hwalk]
      show (tree.derefTerm b >>= fun leaf => pure (⟨b, leaf.data.length⟩ : Iterator)) = _
      rw [derefTerm_eq hcell]
      rfl
    · rw [Tree.entry, if_neg (h.sound.ne_zero (cell_eq_some.mp hcell)), derefTerm_eq hcell] at he
      have hget : data[data.length]? = some e := get_eq_ok.mp he
      rw [List.getElem?_eq_none le_rfl] at hget
      cases hget

/-- The tree after six inserts with `t = 2`. -/
def threeLeaves : Tree ℕ Char where
  root := 4
  size := 6
  node
    | 1 => some (.term ⟨2, [(10, 'a'), (20, 'b')]⟩)
    | 2 => some (.term ⟨3, [(30, 'c'), (40, 'd')]⟩)
    | 3 => some (.term ⟨0, [(50, 'e'), (60, 'f')]⟩)
    | 4 => some (.middle ⟨false, [30, 50], [1, 2, 3]⟩)
    | _ => none
  fresh := 5

/-- The leaves of `threeLeaves`. -/
def itsLeaves : List (ℕ × List (ℕ × Char)) :=
  [(1, [(10, 'a'), (20, 'b')]), (2, [(30, 'c'), (40, 'd')]), (3, [(50, 'e'), (60, 'f')])]

theorem threeLeaves_wellFormed : WellFormed threeLeaves 1 itsLeaves := by
  have hsound : Sound threeLeaves := by
    refine ⟨rfl, fun a ha => ?_, by decide⟩
    obtain ⟨n, rfl⟩ := Nat.exists_eq_add_of_le' (show 5 ≤ a from ha)
    rfl
  have hleaves : List.Forall₂ (Subtree threeLeaves 0) [1, 2, 3] (itsLeaves.map fun leaf => [leaf]) :=
    .cons ⟨_, rfl, rfl⟩ (.cons ⟨_, rfl, rfl⟩ (.cons ⟨_, rfl, rfl⟩ .nil))
  have hshape : Subtree threeLeaves 1 threeLeaves.root itsLeaves :=
    ⟨_, _, _, rfl, hleaves, .cons rfl (.cons rfl .nil), rfl⟩
  exact ⟨hsound, Or.inr hshape, ⟨rfl, rfl, rfl, trivial⟩, by unfold Sorted; decide, rfl⟩

end MaiFaSp.BPlusTree
