import MaiFaSp.BPlusTree.InsertStep
import MaiFaSp.BPlusTree.Levels

/-!
# Keys that are inserted again (`b_plus_tree.h:527-584`)

In a middle node the walk of `insert` compares the key with the separator before the child that it goes to, or with the
first one; no entry of a leaf is compared. So it finds a key that is there where the key is the first separator of a
node.
-/

namespace MaiFaSp.BPlusTree

open BoundedVector

variable {κ υ : Type} [LinearOrder κ]

/-- `insert` leaves the tree as it is and says so. -/
def LeavesAlone (t turns : ℕ) (tree : Tree κ υ) (data : κ × υ) : Prop :=
  ∃ it, insert t turns tree data = .ok (tree, it, false)

/-- The key is the first separator of a middle node on the way of the search, and every node before that has keys. -/
def LeadsANode (tree : Tree κ υ) (key : κ) : ℕ → ℕ → Prop
  | 0, _ => False
  | height + 1, a => ∃ keys pointers, tree.node a = some (.middle ⟨false, keys, pointers⟩) ∧
      (keys.head? = some key ∨
        keys ≠ [] ∧ ∃ b, pointers[lowerIndex keys key]? = some b ∧ LeadsANode tree key height b)

variable {t turns height a b : ℕ} {tree : Tree κ υ} {leaves : List (ℕ × List (κ × υ))} {keys : List κ}
  {pointers : List ℕ} {key : κ} {p : Place}

theorem leadsANode_middle (hnode : tree.node a = some (.middle ⟨false, keys, pointers⟩))
    (hchild : pointers[lowerIndex keys key]? = some b) :
    LeadsANode tree key (height + 1) a ↔
      keys.head? = some key ∨ keys ≠ [] ∧ LeadsANode tree key height b := by
  constructor
  · rintro ⟨keys', pointers', hnode', h⟩
    rw [hnode] at hnode'
    cases hnode'
    refine h.imp_right fun h => ⟨h.1, ?_⟩
    obtain ⟨-, b', hb', hlead⟩ := h
    rw [hchild] at hb'
    cases hb'
    exact hlead
  · intro h
    exact ⟨keys, pointers, hnode, h.imp_right fun h => ⟨h.1, b, hchild, h.2⟩⟩

/-- The walk stops at a middle node exactly where the key is the first separator, and fails without keys. -/
theorem insertWalk_stops (hnode : tree.node p.node = some (.middle ⟨false, keys, pointers⟩))
    (hkey : keys = [] ∨ keys.head? = some key) :
    insertWalk tree key (turns + 1) p = .ok none ↔ keys ≠ [] := by
  rw [insertWalk]
  unfold Tree.deref
  rw [hnode]
  show (get keys (lowerIndex keys key - 1) >>= fun curKey => if curKey = key then pure none else
    get pointers (lowerIndex keys key) >>= fun next => _) = _ ↔ _
  rcases hkey with rfl | hhead
  · refine iff_of_false ?_ fun h => h rfl
    intro h
    cases h
  · refine iff_of_true ?_ ?_
    · rw [get_eq_ok.mpr (getElem?_pred_lowerIndex.mpr hhead)]
      exact if_pos rfl
    · rintro rfl
      cases hhead

theorem insertWalk_none_iff (h : Subtree tree height p.node leaves) (hturns : height < turns) :
    insertWalk tree key turns p = .ok none ↔ LeadsANode tree key height p.node := by
  obtain ⟨turns, rfl⟩ := Nat.exists_eq_add_of_le' (show 1 ≤ turns by omega)
  induction height generalizing p leaves turns with
  | zero =>
    obtain ⟨next, data, hcell, -⟩ := h.node_eq
    refine iff_of_false ?_ id
    rw [insertWalk_leaf hcell]
    intro h
    cases h
  | succ height ih =>
    obtain ⟨keys, pointers, hnode, -, henter⟩ := h.entered
    obtain ⟨b, before, mid, after, he⟩ := henter (lowerIndex keys key) lowerIndex_le
    rw [leadsANode_middle hnode he.child]
    by_cases hkey : keys = [] ∨ keys.head? = some key
    · rw [insertWalk_stops hnode hkey]
      rcases hkey with rfl | hhead
      · simp
      · refine iff_of_true ?_ (Or.inl hhead)
        rintro rfl
        cases hhead
    · obtain ⟨hne, hhead⟩ := not_or.mp hkey
      obtain ⟨turns, rfl⟩ := Nat.exists_eq_add_of_le' (show 1 ≤ turns by omega)
      have hlt : lowerIndex keys key - 1 < keys.length := by
        have hle : lowerIndex keys key ≤ keys.length := lowerIndex_le
        have hpos := List.length_pos_of_ne_nil hne
        omega
      have hcur : keys[lowerIndex keys key - 1] ≠ key := by
        intro heq
        refine hhead (getElem?_pred_lowerIndex.mp ?_)
        rw [List.getElem?_eq_getElem hlt, heq]
      rw [insertWalk_middle hnode (List.getElem?_eq_getElem hlt) hcur he.child, or_iff_right hhead,
        and_iff_right hne]
      exact ih he.subtree turns (by omega)

/-- A key that is stored is refused where it is the first separator of a middle node on its way, and nowhere else. -/
theorem insert_stored_iff (data : κ × υ) (h : WellFormed tree height leaves)
    (hkey : data.1 ∈ keyList (contents leaves)) (hturns : height < turns) :
    LeavesAlone t turns tree data ↔ LeadsANode tree data.1 height tree.root := by
  rcases h.shape with ⟨-, rfl⟩ | hsub
  · cases hkey
  · obtain ⟨n, hroot⟩ := hsub.exists_node
    rw [← insertWalk_none_iff (p := ⟨tree.root, 0, []⟩) hsub hturns]
    have hinsert : insert t turns tree data = _ := if_neg (h.sound.ne_zero hroot)
    constructor
    · rintro ⟨it, hok⟩
      rw [hinsert] at hok
      obtain ⟨found, hwalk, hok⟩ := bind_eq_ok.mp hok
      cases found with
      | none => exact hwalk
      | some p =>
        obtain ⟨after, -, hok⟩ := bind_eq_ok.mp hok
        cases hok
    · intro hwalk
      obtain ⟨it, hend, -⟩ := h.end_eq hturns
      refine ⟨it, ?_⟩
      rw [hinsert, hwalk]
      show (tree.endIterator turns >>= fun last => pure (tree, last, false)) = _
      rw [hend]
      rfl

theorem insert_thirty_again : LeavesAlone 2 2 threeLeaves (30, 'x') :=
  (insert_stored_iff (30, 'x') threeLeaves_wellFormed (by decide) (by decide)).mpr
    ⟨_, _, rfl, Or.inl rfl⟩

/-- An entry that is no separator is stored once more. -/
theorem insert_twenty_again : WellFormed threeLeaves 1 itsLeaves ∧
    (insert 2 2 threeLeaves (20, 'z')).map (fun r => (r.1.size, r.1.cell 1, r.2.2)) =
      .ok (7, some (2, [(10, 'a'), (20, 'z'), (20, 'b')]), true) ∧
    ¬ LeavesAlone 2 2 threeLeaves (20, 'z') := by
  have hresult : (insert 2 2 threeLeaves (20, 'z')).map (fun r => (r.1.size, r.1.cell 1, r.2.2)) =
      .ok (7, some (2, [(10, 'a'), (20, 'z'), (20, 'b')]), true) := rfl
  refine ⟨threeLeaves_wellFormed, hresult, ?_⟩
  rintro ⟨it, hok⟩
  rw [hok] at hresult
  cases hresult

end MaiFaSp.BPlusTree
