import MaiFaSp.BPlusTree.EraseStep

/-!
# The leaf chain over runs of inserts and erases
-/

namespace MaiFaSp.BPlusTree

open BoundedVector LinkedChain CopiedSeparators

section

variable {κ υ : Type} {tree : Tree κ υ} {a next : ℕ} {part : List (κ × υ)}

/-- The entries of the leaf that the child with index `i` is. -/
def Tree.dataAt (tree : Tree κ υ) (pointers : List ℕ) (i : ℕ) : List (κ × υ) :=
  ((tree.cell (pointers.getD i 0)).map Prod.snd).getD []

theorem dataAt_eq (h : tree.cell a = some (next, part)) {pointers : List ℕ} {i : ℕ}
    (ha : pointers.getD i 0 = a) : tree.dataAt pointers i = part := by
  unfold Tree.dataAt
  rw [ha, h]
  rfl

end

variable {κ υ : Type} [LinearOrder κ] {t turns : ℕ} {tree : Tree κ υ} {key : κ} {keys kb ka : List κ}
  {leaves lb la : List ℕ} {parts before after : List (List (κ × υ))} {a next : ℕ}
  {part es : List (κ × υ)} {data : κ × υ}

inductive Op (κ υ : Type) where
  | insert (data : κ × υ)
  | erase (key : κ)

/-- A call, without its return value. -/
def apply (t turns : ℕ) (unset : κ) (tree : Tree κ υ) : Op κ υ → Except NodeFault (Tree κ υ)
  | .insert data => do
    let result ← insert t turns tree data
    pure result.1
  | .erase key => do
    let result ← erase t turns unset tree key
    pure result.1

def run (t turns : ℕ) (unset : κ) : List (Op κ υ) → Tree κ υ → Except NodeFault (Tree κ υ)
  | [], tree => pure tree
  | op :: ops, tree => do
    let tree ← apply t turns unset tree op
    run t turns unset ops tree

/-! ### The calls that keep the chain -/

def NotStored (turns : ℕ) (tree : Tree κ υ) (key : κ) : Prop :=
  ∀ leaves, tree.leavesBelow turns = .ok leaves → key ∉ keyList (tree.storedIn leaves)

/-- The leaf for the key has room, or the root has room for one more separator. -/
def HasRoom (t : ℕ) (tree : Tree κ υ) (key : κ) : Prop :=
  ∀ m, tree.node tree.root = some (.middle m) → m.keys.length < maximumKeysInNode t ∨
    (tree.dataAt m.pointers (lowerIndex m.keys key)).length < maximumKeysInNode t

/-- The key is not in its leaf, or the removal merges no two of three or more leaves. -/
def CanErase (t : ℕ) (tree : Tree κ υ) (key : κ) : Prop :=
  ∀ m, tree.node tree.root = some (.middle m) →
    key ∉ keyList (tree.dataAt m.pointers (lowerIndex m.keys key)) ∨
      2 ≤ t ∧ (m.keys.length = 1 ∨
        t ≤ (tree.dataAt m.pointers (lowerIndex m.keys key)).length ∨
        (0 < lowerIndex m.keys key ∧
          t ≤ (tree.dataAt m.pointers (lowerIndex m.keys key - 1)).length) ∨
        t ≤ (tree.dataAt m.pointers (lowerIndex m.keys key + 1)).length)

/-- The call gets a key that it may get, and keeps the chain. -/
def Meets (t turns : ℕ) (tree : Tree κ υ) : Op κ υ → Prop
  | .insert data => NotStored turns tree data.1 ∧ HasRoom t tree data.1
  | .erase key => tree.root ≠ 0 ∧ CanErase t tree key

/-- Every call of a run meets the condition in the state that it finds. -/
def StepsMeet (t turns : ℕ) (unset : κ) : Tree κ υ → List (Op κ υ) → Prop
  | _, [] => True
  | tree, op :: ops => Meets t turns tree op ∧
      ∀ tree', apply t turns unset tree op = .ok tree' → StepsMeet t turns unset tree' ops

/-! ### The steps -/

theorem Chained.resize (h : Chained t tree) (n : ℕ) : Chained t { tree with size := n } := by
  cases h with
  | empty hsound hroot => exact Chained.empty (hsound.congr rfl rfl) hroot
  | sole es h =>
    exact Chained.sole es ⟨h.sound.congr rfl rfl, h.root_node, h.sorted, h.length_le⟩
  | forest keys leaves parts h =>
    exact Chained.forest keys leaves parts ⟨h.sound.congr rfl rfl, h.root_node,
      h.chain.congr fun _ _ => cell_congr rfl, h.separates, h.sorted, h.keys_ne, h.keys_le,
      h.parts_ne, h.parts_le⟩

theorem Chained.searchable (h : Chained t tree) (hturns : 2 ≤ turns) : Searchable turns tree := by
  cases h with
  | empty hsound hroot => exact searchable_empty hroot (by omega)
  | sole es h => exact h.searchable (by omega)
  | forest keys leaves parts h => exact h.searchable hturns

theorem Chained.chainVisitsLeaves (h : Chained t tree) (hturns : 2 ≤ turns) :
    ChainVisitsLeaves turns tree := by
  cases h with
  | empty hsound hroot =>
    obtain ⟨turns, rfl⟩ := Nat.exists_eq_add_of_le' (show 1 ≤ turns by omega)
    refine ⟨[], ⟨0, 0⟩, ⟨0, 0⟩, 1, ?_, ?_, ?_, rfl, enumerate_last, List.Pairwise.nil⟩
    · unfold Tree.leavesBelow
      rw [hroot]
      rfl
    · unfold Tree.beginIterator
      rw [if_pos hroot]
      rfl
    · unfold Tree.endIterator
      rw [if_pos hroot]
      rfl
  | sole es h => exact h.chainVisitsLeaves (by omega)
  | forest keys leaves parts h => exact h.chainVisitsLeaves hturns

theorem Chained.insert_step (h : Chained t tree) (ht : 1 ≤ t) (hturns : 2 ≤ turns)
    (hnew : NotStored turns tree data.1) (hroom : HasRoom t tree data.1) :
    ∃ tree', insert t turns tree data = .ok (tree', ⟨0, 0⟩, true) ∧ Chained t tree' := by
  cases h with
  | empty hsound hroot =>
    obtain ⟨tree', hinsert, hsole⟩ : ∃ tree', insert t turns tree data = .ok (tree', ⟨0, 0⟩, true) ∧
        Sole t tree' [data] := insert_empty hsound hroot ht
    exact ⟨tree', hinsert, Chained.sole _ hsole⟩
  | sole es h =>
    have hkey : data.1 ∉ keyList es := by
      have hnot := hnew [tree.root] (h.leavesBelow (by omega))
      rw [storedIn_chain h.chain, List.flatten_singleton] at hnot
      exact hnot
    rcases h.length_le.lt_or_eq with hlt | hfull
    · obtain ⟨tree', hinsert, hsole⟩ := h.insert_room hkey hlt (show 1 ≤ turns by omega)
      exact ⟨tree', hinsert, Chained.sole _ hsole⟩
    · obtain ⟨tree', key, leaves, hinsert, -, hforest⟩ := h.insert_full ht hkey hfull hturns
      exact ⟨tree', hinsert, Chained.forest _ _ _ hforest⟩
  | forest keys leaves parts h =>
    have hkey : data.1 ∉ keyList parts.flatten := by
      have hnot := hnew leaves (h.leavesBelow hturns)
      rw [storedIn_chain h.chain] at hnot
      exact hnot
    obtain ⟨kb, ka, lb, a, la, before, part, after, rfl, rfl, rfl, hlen, hcell, haround⟩ :=
      h.around data.1
    rcases (h.parts_le part (by simp)).lt_or_eq with hlt | hfull
    · obtain ⟨tree', hinsert, hforest⟩ := h.insert_room hlen hcell haround hkey hlt hturns
      exact ⟨tree', hinsert, Chained.forest _ _ _ hforest⟩
    · have hkeys : (kb ++ ka).length < maximumKeysInNode t := by
        rcases hroom _ h.root_node with hkeys | hpart
        · exact hkeys
        · have hchild : (lb ++ a :: la).getD (lowerIndex (kb ++ ka) data.1) 0 = a := by
            rw [haround.index, ← hlen, List.getD_eq_getElem?_getD,
              List.getElem?_append_right le_rfl, Nat.sub_self]
            rfl
          rw [dataAt_eq hcell hchild] at hpart
          exact absurd hfull hpart.ne
      obtain ⟨tree', key, leaves, hinsert, hforest⟩ :=
        h.insert_split ht hlen hcell haround hkey hfull hkeys hturns
      exact ⟨tree', hinsert, Chained.forest _ _ _ hforest⟩

theorem Forest.dataAt_left (h : Forest t tree keys (lb ++ a :: la) (before ++ part :: after))
    (hlen : lb.length = before.length) (hpos : 0 < before.length) :
    tree.dataAt (lb ++ a :: la) (before.length - 1) = before.getLastD [] := by
  rcases List.eq_nil_or_concat' before with rfl | ⟨before, l, rfl⟩
  · cases hpos
  · obtain ⟨lb, b, rfl⟩ := exists_snoc_of_length hlen
    have hlen' : lb.length = before.length := by simpa using hlen
    have hchain := h.chain
    rw [List.append_assoc, List.append_assoc] at hchain
    have hcell : tree.cell b = some (a, l) := ((chain_append hlen').mp hchain).2.1
    rw [List.getLastD_concat]
    exact dataAt_eq hcell (getD_before hlen)

theorem Forest.dataAt_right (h : Forest t tree keys (lb ++ a :: la) (before ++ part :: after))
    (hlen : lb.length = before.length) :
    tree.dataAt (lb ++ a :: la) (before.length + 1) = after.headD [] := by
  have hright := ((chain_append hlen).mp h.chain).2.2
  have hget : (lb ++ a :: la).getD (before.length + 1) 0 = la.headD 0 := getD_after hlen
  cases la with
  | nil =>
    obtain rfl : after = [] := List.eq_nil_of_length_eq_zero hright.length_eq.symm
    unfold Tree.dataAt
    rw [hget, List.headD_nil, h.sound.cell_null]
    rfl
  | cons c la =>
    cases after with
    | nil => cases hright
    | cons r after => exact dataAt_eq hright.1 hget

theorem Forest.canRemove (h : Forest t tree (kb ++ ka) (lb ++ a :: la) (before ++ part :: after))
    (hlen : lb.length = before.length) (hcell : tree.cell a = some (la.headD 0, part))
    (haround : Around key kb ka before part after) (hcan : CanErase t tree key)
    (hkey : key ∈ keyList part) : 2 ≤ t ∧ CanRemove t (kb ++ ka) before part after := by
  have hchild : (lb ++ a :: la).getD before.length 0 = a := by
    rw [← hlen, List.getD_eq_getElem?_getD, List.getElem?_append_right le_rfl, Nat.sub_self]
    rfl
  have hroot := hcan _ h.root_node
  rw [haround.index, dataAt_eq hcell hchild, h.dataAt_right hlen] at hroot
  rcases hroot with habsent | ⟨ht, hkeys | hpart | ⟨hpos, hleft⟩ | hright⟩
  · exact absurd hkey habsent
  · exact ⟨ht, Or.inl hkeys⟩
  · exact ⟨ht, Or.inr (Or.inl hpart)⟩
  · rw [h.dataAt_left hlen hpos] at hleft
    exact ⟨ht, Or.inr (Or.inr (Or.inl hleft))⟩
  · exact ⟨ht, Or.inr (Or.inr (Or.inr hright))⟩

theorem Sole.remove (h : Sole t tree es) (hkey : key ∈ keyList es) :
    ∃ tree', deleteKeyFromLeaf t tree (equalIndex es key) tree.root [(tree.root, 0)] = .ok tree' ∧
      Chained t tree' := by
  have hcell : tree.cell tree.root = some (0, es) := h.chain.1
  have hsole : Sole t (tree.setNode tree.root (.term ⟨0, without es key⟩)) (without es key) :=
    ⟨h.sound.setNode h.root_node, tree.setNode_node_self _, h.sorted.sublist without_sublist,
      length_le_of_without hkey h.length_le⟩
  rw [deleteKeyFromLeaf.eq_def, derefTerm_eq hcell]
  show ∃ tree', (if minimumKeysInNode t < es.length then eraseKey tree tree.root (equalIndex es key)
    else if 1 < es.length then eraseKey tree tree.root (equalIndex es key)
    else pure { tree.deleteObject tree.root with root := 0 }) = .ok tree' ∧ _
  have herase := eraseKey_eq hcell (equalIndex_lt hkey)
  split
  · exact ⟨_, herase, Chained.sole _ hsole⟩
  · split
    · exact ⟨_, herase, Chained.sole _ hsole⟩
    · exact ⟨_, rfl, Chained.empty ((h.sound.deleteObject _).congr rfl rfl) rfl⟩

theorem erase_chained {unset : κ} {st : List (ℕ × ℕ)} {leaves : List ℕ}
    {parts : List (List (κ × υ))} (hsound : Sound tree) (hroot : tree.root ≠ 0)
    (hsearch : Searchable turns tree) (hturns : 2 ≤ turns)
    (hwalk : eraseWalk tree key turns tree.root 0 [] = .ok (a, st))
    (hchain : Chain tree.cell (a :: leaves) (part :: parts) 0) (hne : ∀ p ∈ parts, p ≠ [])
    (hlast : tree.endIterator turns = .ok (lastOf a leaves part parts))
    (hkey : key ∈ keyList part)
    (hremove : ∃ tree', deleteKeyFromLeaf t tree (equalIndex part key) a st = .ok tree' ∧
      Chained t tree') :
    ∃ tree' it, erase t turns unset tree key = .ok (tree', it) ∧ Chained t tree' := by
  obtain ⟨tree', hremove, hchained⟩ := hremove
  have hlt := equalIndex_lt hkey
  obtain ⟨nextIt, hnext, hentry⟩ := entry_increment hsound hchain hne hlt
  obtain ⟨nextKey, hnextKey⟩ : ∃ nextKey, nextKeyOf turns unset tree nextIt = .ok nextKey := by
    refine nextKeyOf_ok hsearch fun last hend hnot => ?_
    rw [hlast] at hend
    cases hend
    exact hentry.resolve_left hnot
  have hchained' : Chained t (discounted tree') := hchained.resize _
  obtain ⟨it, herase⟩ := erase_of_removed hroot hwalk hchain.1 hlt.ne hnext hnextKey hremove
    (hchained'.searchable hturns)
  exact ⟨_, it, herase, hchained'⟩

theorem Chained.erase_step (unset : κ) (h : Chained t tree) (hturns : 2 ≤ turns)
    (hroot : tree.root ≠ 0) (hcan : CanErase t tree key) :
    ∃ tree' it, erase t turns unset tree key = .ok (tree', it) ∧ Chained t tree' := by
  have hsearch := h.searchable hturns
  cases h with
  | empty hsound hempty => exact absurd hempty hroot
  | sole es h =>
    have hcell : tree.cell tree.root = some (0, es) := h.chain.1
    have hwalk : eraseWalk tree key turns tree.root 0 [] = .ok (tree.root, [(tree.root, 0)]) :=
      eraseWalk_leaf hcell (by omega)
    by_cases hkey : key ∈ keyList es
    · exact erase_chained h.sound hroot hsearch hturns hwalk h.chain
        (fun p hp => absurd hp List.not_mem_nil) (h.iterators (by omega)).2 hkey (h.remove hkey)
    · obtain ⟨it, herase⟩ := erase_of_absent hroot hwalk hcell hkey hsearch
      exact ⟨tree, it, herase, Chained.sole es h⟩
  | forest keys leaves parts h =>
    obtain ⟨kb, ka, lb, a, la, before, part, after, rfl, rfl, rfl, hlen, hcell, haround⟩ :=
      h.around key
    have hwalk := h.eraseWalk_eq hlen hcell haround hturns
    by_cases hkey : key ∈ keyList part
    · obtain ⟨ht, hremove⟩ := h.canRemove hlen hcell haround hcan hkey
      have hchain := ((chain_append hlen).mp h.chain).2
      exact erase_chained h.sound hroot hsearch hturns hwalk hchain
        (fun p hp => h.parts_ne p (by simp [hp])) (h.end_at hlen hturns) hkey
        (h.remove ht hlen hcell haround hkey hremove)
    · obtain ⟨it, herase⟩ := erase_of_absent hroot hwalk hcell hkey hsearch
      exact ⟨tree, it, herase, Chained.forest _ _ _ h⟩

theorem Chained.run {unset : κ} {ops : List (Op κ υ)} (h : Chained t tree) (ht : 1 ≤ t)
    (hturns : 2 ≤ turns) (hmeet : StepsMeet t turns unset tree ops) :
    ∃ tree', run t turns unset ops tree = .ok tree' ∧ Chained t tree' := by
  induction ops generalizing tree with
  | nil => exact ⟨tree, rfl, h⟩
  | cons op ops ih =>
    obtain ⟨hop, hrest⟩ := hmeet
    obtain ⟨tree', happly, hchained⟩ : ∃ tree', apply t turns unset tree op = .ok tree' ∧
        Chained t tree' := by
      cases op with
      | insert data =>
        obtain ⟨tree', hinsert, hchained⟩ := h.insert_step ht hturns hop.1 hop.2
        refine ⟨tree', ?_, hchained⟩
        show (insert t turns tree data >>= fun result => pure result.1) = _
        rw [hinsert]
        rfl
      | erase key =>
        obtain ⟨tree', it, herase, hchained⟩ := h.erase_step unset hturns hop.1 hop.2
        refine ⟨tree', ?_, hchained⟩
        show (erase t turns unset tree key >>= fun result => pure result.1) = _
        rw [herase]
        rfl
    obtain ⟨tree'', hrun, hchained'⟩ := ih hchained (hrest tree' happly)
    refine ⟨tree'', ?_, hchained'⟩
    show (apply t turns unset tree op >>= fun tree => BPlusTree.run t turns unset ops tree) = _
    rw [happly]
    exact hrun

/-! ### Every run of such calls -/

end MaiFaSp.BPlusTree
