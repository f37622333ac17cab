import MaiFaSp.BTree.Iteration
import MaiFaSp.Lib.SkippedKeys

/-!
# The bounds of `B_tree` (`b_tree.h:1260-1355`)

`lower_bound` and `upper_bound` go down to null and keep the way in a stack, whose first element is there twice.
At the end the leaf is taken from it and the index in the leaf is kept.
-/

namespace MaiFaSp.BTree

open BoundedVector

variable {κ υ : Type}

/-- The loop of `lower_bound` and `upper_bound`: the keys that `skip` holds of are passed. At its head `i` and
`prev_i` are the same. -/
def boundWalk (tree : Tree κ υ) (skip : κ → Bool) :
    ℕ → ℕ → ℕ → List (ℕ × ℕ) → Except NodeFault (List (ℕ × ℕ) × ℕ)
  | 0, _, _, _ => throw .diverged
  | turns + 1, curNode, prevI, st =>
    if curNode = 0 then pure (st, prevI)
    else do
      let n := tree.node curNode
      let i := skipIndex skip n.keyList
      let next ← get n.pointers i
      boundWalk tree skip turns next i ((curNode, prevI) :: st)

/-- What follows the loop: the last node is taken from the stack. -/
def boundEnd (tree : Tree κ υ) (i : ℕ) : List (ℕ × ℕ) → Except NodeFault Iterator
  | [] => throw .outOfRange
  | [top] => do
    let n ← tree.deref top.1
    if i = n.keys.length then pure tree.endIterator else pure ⟨[], i⟩
  | _ :: st => pure ⟨st, i⟩

def boundIterator (turns : ℕ) (tree : Tree κ υ) (skip : κ → Bool) : Except NodeFault Iterator := do
  let (st, i) ← boundWalk tree skip turns tree.root 0 [(tree.root, 0)]
  boundEnd tree i st

section Functions

variable [LinearOrder κ]

def lowerBound (turns : ℕ) (tree : Tree κ υ) (key : κ) : Except NodeFault Iterator :=
  boundIterator turns tree fun k => decide (k < key)

def upperBound (turns : ℕ) (tree : Tree κ υ) (key : κ) : Except NodeFault Iterator :=
  boundIterator turns tree fun k => !decide (key < k)

/-- The iterator refers to the entry with the least of the keys that are not skipped, or it is `end()`. -/
def RefersToLeast (tree : Tree κ υ) (skip : κ → Bool) (es : List (κ × υ)) (result : Except NodeFault Iterator) :
    Prop :=
  ∃ it, result = .ok it ∧ ((∃ e, tree.entry it = some e ∧ LeastKept skip es e) ∨
    it = tree.endIterator ∧ ∀ e ∈ es, skip e.1 = true)

end Functions

/-! ### Where the walk ends -/

def childAt (skip : κ → Bool) (n : Node κ υ) : ℕ := n.pointers.getD (skipIndex skip n.keyList) 0

/-- The stack and the index after the loop. -/
def walkEnd (node : ℕ → Node κ υ) (skip : κ → Bool) : ℕ → ℕ → ℕ → List (ℕ × ℕ) → List (ℕ × ℕ) × ℕ
  | 0, a, prevI, st => ((a, prevI) :: st, skipIndex skip (node a).keyList)
  | height + 1, a, prevI, st =>
    walkEnd node skip height (childAt skip (node a)) (skipIndex skip (node a).keyList) ((a, prevI) :: st)

/-- The key of the leaf's parent with the index that the search has in the leaf. -/
def parentEntry (node : ℕ → Node κ υ) (skip : κ → Bool) : ℕ → ℕ → Option (κ × υ)
  | 0, _ => none
  | 1, a => (node a).keys[skipIndex skip (node (childAt skip (node a))).keyList]?
  | height + 2, a => parentEntry node skip (height + 1) (childAt skip (node a))

/-- The leaf has no key that is kept, as many keys as its place among the children says, and a key behind it. -/
def ParentHasIt (node : ℕ → Node κ υ) (skip : κ → Bool) : ℕ → ℕ → Prop
  | 0, _ => False
  | 1, a =>
    (∀ e ∈ (node (childAt skip (node a))).keys, skip e.1 = true) ∧
      (node (childAt skip (node a))).keys.length = skipIndex skip (node a).keyList ∧
      skipIndex skip (node a).keyList < (node a).keys.length
  | height + 2, a => ParentHasIt node skip (height + 1) (childAt skip (node a))

variable {t turns height least a prevI : ℕ} {tree : Tree κ υ} {es before after : List (κ × υ)} {st : List (ℕ × ℕ)}
  {skip : κ → Bool}

/-- The child that the search enters, and the entries around it. -/
theorem Subtree.entered (h : Subtree t tree.node (height + 1) least a es) (skip : κ → Bool) :
    ∃ parts : List (List (κ × υ)), ∃ _ : parts.length = (tree.node a).keys.length + 1,
      ∃ hi : skipIndex skip (tree.node a).keyList < parts.length,
      es = interleave parts (tree.node a).keys ∧
      (tree.node a).pointers[skipIndex skip (tree.node a).keyList]? = some (childAt skip (tree.node a)) ∧
      Subtree t tree.node height (minimumKeysInNode t) (childAt skip (tree.node a))
        parts[skipIndex skip (tree.node a).keyList] := by
  obtain ⟨-, hplen, -, -, parts, hparts, rfl⟩ := h
  have hlen : parts.length = (tree.node a).keys.length + 1 := hparts.length_eq ▸ hplen
  have hle := skipIndex_le skip (tree.node a).keys
  have hi : skipIndex skip (tree.node a).keyList < parts.length := by
    rw [hlen]
    exact Nat.lt_succ_of_le hle
  have hi' : skipIndex skip (tree.node a).keyList < (tree.node a).pointers.length := by
    rw [hplen]
    exact Nat.lt_succ_of_le hle
  have hchild : childAt skip (tree.node a) = (tree.node a).pointers[skipIndex skip (tree.node a).keyList] := by
    rw [childAt, List.getD_eq_getElem?_getD, List.getElem?_eq_getElem hi']
    rfl
  refine ⟨parts, hlen, hi, rfl, ?_, ?_⟩
  · rw [hchild]
    exact List.getElem?_eq_getElem hi'
  · rw [hchild]
    exact hparts.get hi' hi

theorem boundWalk_eq (h : Subtree t tree.node height least a es) (hturns : height + 2 ≤ turns) :
    boundWalk tree skip turns a prevI st = .ok (walkEnd tree.node skip height a prevI st) := by
  induction height generalizing least a es prevI st turns with
  | zero =>
    obtain ⟨n, rfl⟩ : ∃ n, turns = n + 2 := ⟨turns - 2, by omega⟩
    have ha := h.ne_zero
    obtain ⟨-, hnode, -⟩ := h
    have hle := skipIndex_le skip es
    have hnull : get (tree.node a).pointers (skipIndex skip (tree.node a).keyList) = .ok 0 := by
      rw [get_eq_ok, hnode]
      exact List.getElem?_replicate_of_lt (Nat.lt_succ_of_le hle)
    rw [boundWalk, if_neg ha]
    show (get (tree.node a).pointers (skipIndex skip (tree.node a).keyList) >>= _) = _
    rw [hnull]
    rfl
  | succ height ih =>
    obtain ⟨n, rfl⟩ : ∃ n, turns = n + 1 := ⟨turns - 1, by omega⟩
    obtain ⟨parts, hlen, hi, -, hget, hchild⟩ := h.entered skip
    rw [boundWalk, if_neg h.ne_zero]
    show (get (tree.node a).pointers (skipIndex skip (tree.node a).keyList) >>= _) = _
    rw [get_eq_ok.mpr hget, ok_bind]
    exact ih hchild (by omega)

theorem length_walkEnd : (walkEnd tree.node skip height a prevI st).1.length = height + 1 + st.length := by
  induction height generalizing a prevI st with
  | zero => exact Nat.add_comm ..
  | succ height ih =>
    rw [walkEnd, ih, List.length_cons]
    omega

theorem entry_walkEnd : tree.entry ⟨(walkEnd tree.node skip (height + 1) a prevI st).1.tail,
    (walkEnd tree.node skip (height + 1) a prevI st).2⟩ = parentEntry tree.node skip (height + 1) a := by
  induction height generalizing a prevI st with
  | zero => rfl
  | succ height ih => exact ih

theorem boundIterator_eq (h : Subtree t tree.node height least tree.root es) (hturns : height + 2 ≤ turns) :
    boundIterator turns tree skip = .ok ⟨(walkEnd tree.node skip height tree.root 0 [(tree.root, 0)]).1.tail,
      (walkEnd tree.node skip height tree.root 0 [(tree.root, 0)]).2⟩ := by
  have hlen : (walkEnd tree.node skip height tree.root 0 [(tree.root, 0)]).1.length = height + 1 + 1 :=
    length_walkEnd
  unfold boundIterator
  rw [boundWalk_eq h hturns, ok_bind]
  generalize walkEnd tree.node skip height tree.root 0 [(tree.root, 0)] = result at hlen
  obtain ⟨_ | ⟨x, _ | ⟨y, st⟩⟩, i⟩ := result
  · simp at hlen
  · simp at hlen
  · rfl

/-! ### What it finds there -/

section Order

variable [LinearOrder κ]

theorem parentEntry_leaf (hskip : SkipsDown skip) (h : Subtree t tree.node 1 least a es)
    (hs : Sorted (before ++ es ++ after)) (hb : ∀ y ∈ before, skip y.1 = true)
    (ha : ∀ y ∈ after, skip y.1 = false) :
    (∃ e, parentEntry tree.node skip 1 a = some e ∧ firstKept skip (before ++ es ++ after) = some e) ↔
      ParentHasIt tree.node skip 1 a := by
  obtain ⟨parts, hlen, hi, rfl, -, -, hleaf, -⟩ := h.entered skip
  obtain ⟨hbe, -, hafter⟩ := sorted_append.mp hs
  have hes := (sorted_append.mp hbe).2.1
  obtain ⟨hB, hA⟩ := skip_bounds hskip hlen hes (i := skipIndex skip (tree.node a).keyList) rfl
  have hlist : (tree.node (childAt skip (tree.node a))).keyList =
      parts[skipIndex skip (tree.node a).keyList].map Prod.fst := by
    rw [Node.keyList, hleaf]
  rw [parentEntry, ParentHasIt, hlist, hleaf]
  have hfirst : firstKept skip (before ++ interleave parts (tree.node a).keys ++ after) =
      (firstKept skip parts[skipIndex skip (tree.node a).keyList]).or
        (((tree.node a).keys[skipIndex skip (tree.node a).keyList]?).or after.head?) := by
    rw [interleave_at hlen hi, List.append_assoc, firstKept_of_skipped hb, List.append_assoc, List.append_assoc,
      firstKept_of_skipped hB, firstKept_append, firstKept_append, firstKept_of_kept hA, firstKept_of_kept ha,
      head?_interleaveAfter hlen]
  rw [hfirst]
  have hseps := sorted_separators hlen hes
  set i := skipIndex skip (tree.node a).keyList with hidef
  cases hpart : firstKept skip parts[i] with
  | some x =>
    obtain ⟨hx, hkept⟩ := firstKept_spec hpart
    refine iff_of_false ?_ ?_
    · rintro ⟨e, he, hfirst⟩
      obtain rfl : x = e := Option.some.inj hfirst
      exact kept_ne_separator hlen hes hidef hi hx hkept (List.mem_of_getElem? he)
    · rintro ⟨hall, -⟩
      rw [hall x hx] at hkept
      cases hkept
  | none =>
    have hall := firstKept_eq_none.mp hpart
    rw [skipIndex_eq_length hall, Option.none_or]
    by_cases hlt : i < (tree.node a).keys.length
    · rw [List.getElem?_eq_getElem hlt, Option.some_or]
      constructor
      · rintro ⟨e, he, hfirst⟩
        obtain rfl : (tree.node a).keys[i] = e := Option.some.inj hfirst
        obtain ⟨hj, heq⟩ := List.getElem?_eq_some_iff.mp he
        have hnodup : (tree.node a).keys.Nodup := List.Nodup.of_map Prod.fst (List.Pairwise.imp ne_of_lt hseps)
        exact ⟨hall, (List.Nodup.getElem_inj_iff hnodup).mp heq, hlt⟩
      · rintro ⟨-, hj, -⟩
        exact ⟨_, by rw [hj, List.getElem?_eq_getElem hlt], rfl⟩
    · rw [List.getElem?_eq_none (not_lt.mp hlt), Option.none_or]
      refine iff_of_false ?_ fun h => hlt h.2.2
      rintro ⟨e, he, hfirst⟩
      have hmem := mem_interleave_of_separator (List.mem_of_getElem? he) hlen
      exact lt_irrefl _ (hafter e (List.mem_append_right _ hmem) e (List.mem_of_head? hfirst))

theorem parentEntry_iff (hskip : SkipsDown skip) (h : Subtree t tree.node (height + 1) least a es)
    (hs : Sorted (before ++ es ++ after)) (hb : ∀ y ∈ before, skip y.1 = true)
    (ha : ∀ y ∈ after, skip y.1 = false) :
    (∃ e, parentEntry tree.node skip (height + 1) a = some e ∧
      firstKept skip (before ++ es ++ after) = some e) ↔ ParentHasIt tree.node skip (height + 1) a := by
  induction height generalizing least a es before after with
  | zero => exact parentEntry_leaf hskip h hs hb ha
  | succ height ih =>
    obtain ⟨parts, hlen, hi, rfl, -, hchild⟩ := h.entered skip
    have hes := (sorted_append.mp (sorted_append.mp hs).1).2.1
    obtain ⟨hB, hA⟩ := skip_bounds hskip hlen hes (i := skipIndex skip (tree.node a).keyList) rfl
    rw [interleave_at hlen hi] at hs ⊢
    simp only [← List.append_assoc] at hs ⊢
    rw [List.append_assoc _ _ after] at hs ⊢
    exact ih hchild hs (fun y hy => (List.mem_append.mp hy).elim (hb y) (hB y))
      (fun y hy => (List.mem_append.mp hy).elim (hA y) (ha y))

/-! ### When the bound is right -/

theorem refersToLeast_iff {it : Iterator} (hs : Sorted es) : RefersToLeast tree skip es (.ok it) ↔
    (∃ e, tree.entry it = some e ∧ firstKept skip es = some e) ∨
      it = tree.endIterator ∧ firstKept skip es = none := by
  rw [firstKept_eq_none]
  constructor
  · rintro ⟨it', hit, h⟩
    cases hit
    exact h.imp_left fun ⟨e, he, hleast⟩ => ⟨e, he, (firstKept_eq_some hs).mpr hleast⟩
  · intro h
    exact ⟨it, rfl, h.imp_left fun ⟨e, he, hfirst⟩ => ⟨e, he, (firstKept_eq_some hs).mp hfirst⟩⟩

/-- A root that is a leaf gives the right answer; with a level below the root it has to be in the parent of
the leaf that the search comes to, at the index of the leaf. -/
theorem bound_iff (hskip : SkipsDown skip) (h : Shape t tree height es) (hturns : height + 2 ≤ turns) :
    RefersToLeast tree skip es (boundIterator turns tree skip) ↔
      tree.root ≠ 0 ∧ (height = 0 ∨ ParentHasIt tree.node skip height tree.root) := by
  obtain ⟨hs, ⟨hroot, rfl⟩ | hsub⟩ := h
  · refine iff_of_false ?_ fun h => h.1 hroot
    rintro ⟨it, hit, -⟩
    obtain ⟨n, rfl⟩ : ∃ n, turns = n + 1 := ⟨turns - 1, by omega⟩
    rw [boundIterator, hroot] at hit
    cases hit
  · have hroot := hsub.ne_zero
    rw [boundIterator_eq hsub hturns, refersToLeast_iff hs, and_iff_right hroot]
    cases height with
    | zero =>
      obtain ⟨-, hnode, -⟩ := hsub
      refine iff_of_true ?_ (Or.inl rfl)
      have hlist : (tree.node tree.root).keyList = es.map Prod.fst := by rw [Node.keyList, hnode]
      have hentry : tree.entry ⟨[(tree.root, 0)], skipIndex skip (tree.node tree.root).keyList⟩ =
          firstKept skip es := by
        rw [entry_at, firstKept_eq_getElem?, hlist, hnode]
      cases hfirst : firstKept skip es with
      | some e => exact Or.inl ⟨e, hentry.trans hfirst, rfl⟩
      | none =>
        refine Or.inr ⟨?_, rfl⟩
        rw [Tree.endIterator, if_neg hroot, hnode, ← skipIndex_eq_length (firstKept_eq_none.mp hfirst), ← hlist]
        rfl
    | succ height =>
      have hnoEnd : (⟨(walkEnd tree.node skip (height + 1) tree.root 0 [(tree.root, 0)]).1.tail,
          (walkEnd tree.node skip (height + 1) tree.root 0 [(tree.root, 0)]).2⟩ : Iterator) ≠ tree.endIterator := by
        intro he
        have hlen := congrArg (fun it => it.path.length) he
        rw [Tree.endIterator, if_neg hroot] at hlen
        simp only [List.length_tail, length_walkEnd, List.length_singleton] at hlen
        omega
      rw [or_iff_left fun h => hnoEnd h.1, or_iff_right (Nat.succ_ne_zero height), entry_walkEnd]
      have hs' : Sorted ([] ++ es ++ []) := by
        rw [List.nil_append, List.append_nil]
        exact hs
      have hparent := parentEntry_iff hskip hsub hs' (fun y hy => by cases hy) (fun y hy => by cases hy)
      rw [List.nil_append, List.append_nil] at hparent
      exact hparent

theorem bounds_iff (key : κ) (h : Shape t tree height es) (hturns : height + 2 ≤ turns) :
    (RefersToLeast tree (fun k => decide (k < key)) es (lowerBound turns tree key) ↔
      tree.root ≠ 0 ∧ (height = 0 ∨ ParentHasIt tree.node (fun k => decide (k < key)) height tree.root)) ∧
    (RefersToLeast tree (fun k => !decide (key < k)) es (upperBound turns tree key) ↔
      tree.root ≠ 0 ∧ (height = 0 ∨ ParentHasIt tree.node (fun k => !decide (key < k)) height tree.root)) :=
  ⟨bound_iff (skipsDown_lt key) h hturns, bound_iff (skipsDown_le key) h hturns⟩

end Order

theorem bounds_of_three_levels :
    RefersToLeast threeLevels (fun k => decide (k < 20)) threeLevelsEntries (lowerBound 4 threeLevels 20) ↔
      ParentHasIt threeLevels.node (fun k => decide (k < 20)) 2 1 := by
  refine (bounds_iff 20 threeLevels_shape (by decide)).1.trans ?_
  exact ⟨fun h => h.2.resolve_left (by decide), fun h => ⟨by decide, Or.inr h⟩⟩

/-- The index is that behind the only key of the leaf, and the node is its parent, which has one key too. -/
theorem lower_bound_twenty_lost : WellFormed 2 threeLevels 2 threeLevelsEntries ∧
    lowerBound 4 threeLevels 20 = .ok ⟨[(2, 0), (1, 0), (1, 0)], 1⟩ ∧
    ¬ RefersToLeast threeLevels (fun k => decide (k < 20)) threeLevelsEntries (lowerBound 4 threeLevels 20) := by
  have hresult : lowerBound 4 threeLevels 20 = .ok ⟨[(2, 0), (1, 0), (1, 0)], 1⟩ := by decide
  refine ⟨⟨threeLevels_shape, rfl⟩, hresult, ?_⟩
  rw [hresult]
  rintro ⟨it, hit, ⟨e, he, -⟩ | ⟨hend, -⟩⟩
  · cases hit
    cases he
  · cases hit
    cases hend

end MaiFaSp.BTree
