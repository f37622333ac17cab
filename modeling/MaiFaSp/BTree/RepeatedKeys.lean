import MaiFaSp.BTree.Bounds
import MaiFaSp.BTree.Erase

/-!
# Keys that are inserted again (`b_tree.h:340-346, 1432-1493`)

The walk of `insert` compares the key with the last one that is smaller than it, or with the first one of the node.
So it finds a key that is there where the key is the first of its node.
-/

namespace MaiFaSp.BTree

open BoundedVector

variable {κ υ : Type} [LinearOrder κ]

/-- `insert` leaves the tree as it is and says so. -/
def LeavesAlone (t turns : ℕ) (tree : Tree κ υ) (data : κ × υ) : Prop :=
  ∃ it, insert t turns tree data = .ok (tree, it, false)

/-- The key is the first one of a node on the way of the search, and every node before that has keys, but not
this one. -/
def FirstOfItsNode (node : ℕ → Node κ υ) (key : κ) : ℕ → ℕ → Prop
  | 0, a => (node a).keyList.head? = some key
  | height + 1, a =>
    (node a).keyList.head? = some key ∨ (node a).keys ≠ [] ∧ key ∉ (node a).keyList ∧
      FirstOfItsNode node key height ((node a).pointers.getD (lowerIndex (node a).keyList key) 0)

variable {t turns height least a : ℕ} {tree : Tree κ υ} {es : List (κ × υ)} {key : κ} {p : Place}

/-- A node without keys is read past its end. -/
theorem insertWalk_keyless (ha : a ≠ 0) (hkeys : (tree.node a).keys = []) :
    insertWalk tree key turns a p ≠ .ok none := by
  cases turns with
  | zero =>
    intro h
    cases h
  | succ turns =>
    intro h
    rw [insertWalk, if_neg ha] at h
    obtain ⟨e, he, -⟩ := bind_eq_ok.mp h
    rw [hkeys] at he
    cases he

/-- The key that is compared is smaller, unless it is the first one. -/
theorem compared_eq_iff {ks : List (κ × υ)} (hlt : lowerIndex (ks.map Prod.fst) key - 1 < ks.length) :
    ks[lowerIndex (ks.map Prod.fst) key - 1].1 = key ↔ (ks.map Prod.fst).head? = some key := by
  rw [← getElem?_pred_lowerIndex, List.getElem?_map, List.getElem?_eq_getElem hlt, Option.map_some,
    Option.some.injEq]

/-- The walk stops at a node exactly where the key is the first one. -/
theorem insertWalk_step (turns : ℕ) (key : κ) (p : Place) (ha : a ≠ 0) (hkeys : (tree.node a).keys ≠ []) :
    ∃ p', insertWalk tree key (turns + 1) a p =
      if (tree.node a).keyList.head? = some key then .ok none
      else insertWalk tree key turns
        ((tree.node a).pointers.getD (lowerIndex (tree.node a).keyList key) 0) p' := by
  have hle := lowerIndex_le_length (tree.node a).keys key
  have hpos := List.length_pos_of_ne_nil hkeys
  have hlt : lowerIndex (tree.node a).keyList key - 1 < (tree.node a).keys.length := by
    show lowerIndex ((tree.node a).keys.map Prod.fst) key - 1 < _
    omega
  refine ⟨⟨a, p.node, lowerIndex (tree.node a).keyList key, lowerIndex (tree.node a).keyList key - 1,
    (a, lowerIndex (tree.node a).keyList key - 1) :: p.path⟩, ?_⟩
  rw [insertWalk, if_neg ha]
  show (get (tree.node a).keys (lowerIndex (tree.node a).keyList key - 1) >>= _) = _
  rw [get_eq_ok.mpr (List.getElem?_eq_getElem hlt), ok_bind]
  have hhead : (tree.node a).keys[lowerIndex (tree.node a).keyList key - 1].1 = key ↔
      (tree.node a).keyList.head? = some key := compared_eq_iff hlt
  by_cases h : (tree.node a).keyList.head? = some key
  · rw [if_pos h]
    exact if_pos (hhead.mpr h)
  · rw [if_neg h]
    exact if_neg fun he => h (hhead.mp he)

theorem insertWalk_null : insertWalk tree key turns 0 p ≠ .ok none := by
  intro h
  cases turns with
  | zero => cases h
  | succ turns => cases h

/-- A key that is not there is not found. -/
theorem insertWalk_absent (h : Subtree t tree.node height least a es) (hkey : key ∉ es.map Prod.fst) :
    insertWalk tree key turns a p ≠ .ok none := by
  induction height generalizing least a es turns p with
  | zero =>
    obtain ⟨ha, hnode, -⟩ := h
    by_cases hkeys : (tree.node a).keys = []
    · exact insertWalk_keyless ha hkeys
    cases turns with
    | zero =>
      intro h
      cases h
    | succ turns =>
      obtain ⟨p', hstep⟩ := insertWalk_step turns key p ha hkeys
      have hhead : (tree.node a).keyList.head? ≠ some key := by
        intro he
        rw [Node.keyList, hnode] at he
        exact hkey (List.mem_of_head? he)
      rw [hstep, if_neg hhead, pointer_of_leaf hnode]
      exact insertWalk_null
  | succ height ih =>
    have ha := h.ne_zero
    obtain ⟨parts, hlen, hi, rfl, -, hchild⟩ := h.entered fun k => decide (k < key)
    by_cases hkeys : (tree.node a).keys = []
    · exact insertWalk_keyless ha hkeys
    cases turns with
    | zero =>
      intro h
      cases h
    | succ turns =>
      obtain ⟨p', hstep⟩ := insertWalk_step turns key p ha hkeys
      have hhead : (tree.node a).keyList.head? ≠ some key := by
        intro he
        obtain ⟨e, hmem, rfl⟩ := List.mem_map.mp (List.mem_of_head? he)
        exact hkey (List.mem_map_of_mem (mem_interleave_of_separator hmem hlen))
      rw [hstep, if_neg hhead]
      refine ih hchild fun hm => hkey ?_
      obtain ⟨e, he, rfl⟩ := List.mem_map.mp hm
      exact List.mem_map_of_mem (mem_interleave_of_part (List.getElem_mem hi) he)

/-- A key that is there is found where it is the first one of its node. -/
theorem insertWalk_none_iff (h : Subtree t tree.node height least a es) (hs : Sorted es)
    (hkey : key ∈ es.map Prod.fst) (hturns : height + 2 ≤ turns) :
    insertWalk tree key turns a p = .ok none ↔ FirstOfItsNode tree.node key height a := by
  obtain ⟨turns, rfl⟩ : ∃ n, turns = n + 1 := ⟨turns - 1, by omega⟩
  induction height generalizing least a es turns p with
  | zero =>
    obtain ⟨ha, hnode, -⟩ := h
    have hkeys : (tree.node a).keys ≠ [] := by
      rw [hnode]
      rintro rfl
      cases hkey
    obtain ⟨p', hstep⟩ := insertWalk_step turns key p ha hkeys
    rw [hstep, FirstOfItsNode, pointer_of_leaf hnode]
    split
    case isTrue hhead => exact iff_of_true rfl hhead
    case isFalse hhead => exact iff_of_false insertWalk_null hhead
  | succ height ih =>
    have ha := h.ne_zero
    obtain ⟨parts, hlen, hi, rfl, -, hchild⟩ := h.entered fun k => decide (k < key)
    by_cases hkeys : (tree.node a).keys = []
    · refine iff_of_false (insertWalk_keyless ha hkeys) ?_
      rintro (hhead | ⟨hne, -⟩)
      · rw [Node.keyList, hkeys] at hhead
        cases hhead
      · exact hne hkeys
    obtain ⟨p', hstep⟩ := insertWalk_step turns key p ha hkeys
    rw [hstep, FirstOfItsNode]
    split
    case isTrue hhead => exact iff_of_true rfl (Or.inl hhead)
    case isFalse hhead =>
      rw [or_iff_right hhead, and_iff_right hkeys]
      obtain ⟨x, hx, rfl⟩ := List.mem_map.mp hkey
      by_cases hsep : x.1 ∈ (tree.node a).keyList
      · -- the key is behind the child that the walk goes to
        refine iff_of_false (insertWalk_absent hchild fun hm => ?_) fun h => h.1 hsep
        obtain ⟨y, hy, hyx⟩ := List.mem_map.mp hm
        obtain ⟨z, hz, hzx⟩ := List.mem_map.mp hsep
        have heq : y = z := hs.eq_of_mem (mem_interleave_of_part (List.getElem_mem hi) hy)
          (mem_interleave_of_separator hz hlen) (hyx.trans hzx.symm)
        refine kept_ne_separator hlen hs rfl hi hy ?_ (heq ▸ hz)
        rw [hyx]
        exact decide_eq_false (lt_irrefl _)
      · rw [and_iff_right hsep]
        have hin := (hs.settled.mem_interleave_route hlen hsep hi rfl).mp hx
        obtain ⟨n, rfl⟩ : ∃ n, turns = n + 1 := ⟨turns - 1, by omega⟩
        rw [interleave_at hlen hi] at hs
        exact ih hchild (sorted_append.mp (sorted_append.mp hs).1).2.1 (List.mem_map_of_mem hin) n (by omega)

/-- A key that is stored is refused where it is the first one of the node that holds it, and nowhere else. -/
theorem insert_repeated_iff (data : κ × υ) (h : WellFormed t tree height es) (hkey : data.1 ∈ es.map Prod.fst)
    (hturns : height + 2 ≤ turns) :
    LeavesAlone t turns tree data ↔ FirstOfItsNode tree.node data.1 height tree.root := by
  obtain ⟨⟨hs, ⟨-, rfl⟩ | hsub⟩, -⟩ := h
  · cases hkey
  · rw [← insertWalk_none_iff (p := ⟨0, 0, 0, 0, []⟩) hsub hs hkey hturns]
    have hinsert : insert t turns tree data = _ := if_neg hsub.ne_zero
    constructor
    · rintro ⟨it, hok⟩
      rw [hinsert] at hok
      obtain ⟨found, hwalk, hok⟩ := bind_eq_ok.mp hok
      cases found with
      | none => exact hwalk
      | some p =>
        obtain ⟨tree₁, -, hok⟩ := bind_eq_ok.mp hok
        split at hok
        · obtain ⟨tree₂, -, hok⟩ := bind_eq_ok.mp hok
          cases hok
        · cases hok
    · intro hwalk
      refine ⟨tree.endIterator, ?_⟩
      rw [hinsert, hwalk]
      rfl

theorem insert_fifty_again : LeavesAlone 2 4 threeLevels (50, 'x') :=
  (insert_repeated_iff (50, 'x') ⟨threeLevels_shape, rfl⟩ (by decide) (by decide)).mpr
    (Or.inr ⟨by decide, by decide, Or.inr ⟨by decide, by decide, rfl⟩⟩)

/-- The second key of a leaf is stored once more. -/
theorem insert_forty_again : WellFormed 2 twoLeaves 1 [(10, 'a'), (20, 'b'), (30, 'c'), (40, 'd')] ∧
    (insert 2 3 twoLeaves (40, 'z')).map (fun r => (r.1.size, (r.1.node 3).keyList, r.2.2)) =
      .ok (5, [30, 40, 40], true) ∧
    ¬ LeavesAlone 2 3 twoLeaves (40, 'z') := by
  have hresult : (insert 2 3 twoLeaves (40, 'z')).map (fun r => (r.1.size, (r.1.node 3).keyList, r.2.2)) =
      .ok (5, [30, 40, 40], true) := rfl
  refine ⟨twoLeaves_wellFormed, hresult, ?_⟩
  rintro ⟨it, hok⟩
  rw [hok] at hresult
  cases hresult

end MaiFaSp.BTree
