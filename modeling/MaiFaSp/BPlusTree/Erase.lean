import MaiFaSp.BPlusTree.Shape

/-!
# `erase` of `BP_tree`

`b_plus_tree.h:1227-1434` (`erase`, `delete_key_from_leaf`, `merge`, `merge_terminate` and
`merge_middle`). `unset` is the key that `tkey next_key;` leaves behind.
-/

namespace MaiFaSp.BPlusTree

open BoundedVector

variable {κ υ : Type}

def mergeTerminate (t : ℕ) (tree : Tree κ υ) (left right parent splitKeyIndex : ℕ) :
    Except NodeFault (Tree κ υ) := do
  let l ← tree.derefTerm left
  let r ← tree.derefTerm right
  let data ← append (keysCapacity t) l.data r.data
  let p ← tree.derefMiddle parent
  let keys ← eraseAt p.keys splitKeyIndex
  let pointers ← eraseAt p.pointers splitKeyIndex
  let pointers ← setAt pointers splitKeyIndex tree.fresh
  let tree := tree.newNode (.term ⟨0, data⟩)
  let tree := tree.setNode parent (.middle ⟨p.isTerminate, keys, pointers⟩)
  pure ((tree.deleteObject left).deleteObject right)

/-- The pointers of the parent when the merged node is in. -/
def placeMerged (t : ℕ) (pointers : List ℕ) (splitKeyIndex newNode : ℕ) :
    Except NodeFault (List ℕ) :=
  if splitKeyIndex < pointers.length then setAt pointers splitKeyIndex newNode
  else append (pointersCapacity t) pointers [newNode]

/-- The new node keeps the `_is_terminate` of the constructor. -/
def mergeMiddle (t : ℕ) (tree : Tree κ υ) (left right parent splitKeyIndex : ℕ) :
    Except NodeFault (Tree κ υ) := do
  let l ← tree.derefMiddle left
  let p ← tree.derefMiddle parent
  let key ← get p.keys splitKeyIndex
  let r ← tree.derefMiddle right
  let newKeys ← append (keysCapacity t) (l.keys ++ [key]) r.keys
  let newPointers ← append (pointersCapacity t) (l.pointers ++ [0]) r.pointers
  let keys ← eraseAt p.keys splitKeyIndex
  let pointers ← eraseAt p.pointers splitKeyIndex
  let pointers ← placeMerged t pointers splitKeyIndex tree.fresh
  let tree := tree.newNode (.middle ⟨true, newKeys, newPointers⟩)
  let tree := tree.setNode parent (.middle ⟨p.isTerminate, keys, pointers⟩)
  pure ((tree.deleteObject left).deleteObject right)

def merge (t : ℕ) (tree : Tree κ υ) (left right parent splitKeyIndex : ℕ) :
    Except NodeFault (Tree κ υ) := do
  let l ← tree.deref left
  if l.isTerminate then mergeTerminate t tree left right parent splitKeyIndex
  else mergeMiddle t tree left right parent splitKeyIndex

/-- `node->_data.erase(node->_data.begin() + index_of_key);` -/
def eraseKey (tree : Tree κ υ) (node indexOfKey : ℕ) : Except NodeFault (Tree κ υ) := do
  let n ← tree.derefTerm node
  let data ← eraseAt n.data indexOfKey
  pure (tree.setNode node (.term ⟨n.next, data⟩))

/-- The last entry of the left sibling goes to the front of the leaf. -/
def borrowLeft (t : ℕ) (tree : Tree κ υ) (node parent left i indexOfKey sizeLeftSibling : ℕ) :
    Except NodeFault (Tree κ υ) := do
  let tree ← eraseKey tree node indexOfKey
  let n ← tree.derefTerm node
  let l ← tree.derefTerm left
  let moved ← get l.data (sizeLeftSibling - 1)
  let data ← insertAt (keysCapacity t) n.data 0 moved
  let tree := tree.setNode node (.term ⟨n.next, data⟩)
  let p ← tree.derefMiddle parent
  let keys ← setAt p.keys (i - 1) moved.1
  let tree := tree.setNode parent (.middle ⟨p.isTerminate, keys, p.pointers⟩)
  eraseKey tree left (sizeLeftSibling - 1)

/-- The first entry of the right sibling goes to the end of the leaf. -/
def borrowRight (t : ℕ) (tree : Tree κ υ) (node parent right i indexOfKey : ℕ) :
    Except NodeFault (Tree κ υ) := do
  let tree ← eraseKey tree node indexOfKey
  let n ← tree.derefTerm node
  let r ← tree.derefTerm right
  let moved ← get r.data 0
  let data ← insertAt (keysCapacity t) n.data n.data.length moved
  let tree := tree.setNode node (.term ⟨n.next, data⟩)
  let r ← tree.derefTerm right
  let second ← get r.data 1
  let p ← tree.derefMiddle parent
  let keys ← setAt p.keys i second.1
  let tree := tree.setNode parent (.middle ⟨p.isTerminate, keys, p.pointers⟩)
  eraseKey tree right 0

/-- `pointers[i - 1]` -/
def getBefore (pointers : List ℕ) (i : ℕ) : Except NodeFault ℕ :=
  if i = 0 then throw .outOfRange else get pointers (i - 1)

/-- The size of a sibling, 0 without one. -/
def siblingSize (tree : Tree κ υ) (sibling : ℕ) : Except NodeFault ℕ :=
  if sibling = 0 then pure 0
  else do
    let n ← tree.deref sibling
    n.size

/-- `static_cast<bptree_node_middle*>(p)->_keys.size()`, or the old value for a missing sibling. -/
def middleSize (tree : Tree κ υ) (present : Bool) (sibling old : ℕ) : Except NodeFault ℕ :=
  if present ∧ sibling ≠ 0 then do
    let n ← tree.derefMiddle sibling
    pure n.keys.length
  else pure old

/-- The merge with one of the siblings. -/
def mergeMiddleWith (t : ℕ) (tree : Tree κ υ)
    (curNode parent leftSibling rightSibling i sizeLeftSibling sizeRightSibling : ℕ) :
    Except NodeFault (Tree κ υ) :=
  if 0 < sizeLeftSibling then
    if i = 0 then throw .outOfRange else merge t tree leftSibling curNode parent (i - 1)
  else if 0 < sizeRightSibling then merge t tree curNode rightSibling parent i
  else throw .logicError

/-- The loop that merges upwards; `i` is still the index of the node below. -/
def mergeLoop (t : ℕ) : Tree κ υ → ℕ → ℕ → ℕ → ℕ → List (ℕ × ℕ) →
    Except NodeFault (Tree κ υ × ℕ)
  | tree, parent, _, _, _, [] => pure (tree, parent)
  | tree, parent, i, sizeLeftSibling, sizeRightSibling, top :: st => do
    let n ← tree.derefMiddle parent
    if n.keys.length < minimumKeysInNode t then do
      let curNode := parent
      let parent := top.1
      let p ← tree.derefMiddle parent
      let leftSibling ← getBefore p.pointers i
      let rightSibling ← get p.pointers (i + 1)
      let i := top.2
      let sizeLeftSibling ← middleSize tree (0 < i) leftSibling sizeLeftSibling
      let sizeRightSibling ←
        middleSize tree (i + 1 < p.pointers.length) rightSibling sizeRightSibling
      let tree ← mergeMiddleWith t tree curNode parent leftSibling rightSibling i sizeLeftSibling
        sizeRightSibling
      mergeLoop t tree parent i sizeLeftSibling sizeRightSibling st
    else pure (tree, parent)

def replaceRoot (tree : Tree κ υ) (parent root : ℕ) : Tree κ υ :=
  { tree.deleteObject parent with root := root }

/-- The end of `delete_key_from_leaf`: a root without keys is replaced. -/
def dropEmptyRoot (tree : Tree κ υ) (parent : ℕ) : Except NodeFault (Tree κ υ) := do
  let p ← tree.derefMiddle parent
  if p.keys.length = 0 then
    pure (replaceRoot tree parent
      (if p.pointers.getD 0 0 ≠ 0 then p.pointers.getD 0 0 else p.pointers.getD 1 0))
  else pure tree

/-- The merge of the leaf with one of its siblings; without a sibling it only loses the entry. -/
def mergeLeaf (t : ℕ) (tree : Tree κ υ)
    (node parent left right i indexOfKey sizeLeftSibling sizeRightSibling : ℕ) :
    Except NodeFault (Tree κ υ) := do
  let tree ← eraseKey tree node indexOfKey
  if 0 < sizeLeftSibling then merge t tree left node parent (i - 1)
  else if 0 < sizeRightSibling then merge t tree node right parent i
  else pure tree

/-- `delete_key_from_leaf`; the top of the stack comes first. -/
def deleteKeyFromLeaf (t : ℕ) (tree : Tree κ υ) (indexOfKey node : ℕ) (st : List (ℕ × ℕ)) :
    Except NodeFault (Tree κ υ) := do
  let leaf ← tree.derefTerm node
  if minimumKeysInNode t < leaf.data.length then eraseKey tree node indexOfKey
  else
    match st with
    | [] => throw .outOfRange
    | [_] =>
      if 1 < leaf.data.length then eraseKey tree node indexOfKey
      else pure { tree.deleteObject node with root := 0 }
    | (curNode, i) :: (parent, _) :: st => do
      let p ← tree.derefMiddle parent
      let left := if 0 < i then p.pointers.getD (i - 1) 0 else 0
      let right := p.pointers.getD (i + 1) 0
      let sizeLeftSibling ← siblingSize tree left
      let sizeRightSibling ← siblingSize tree right
      if minimumKeysInNode t < sizeLeftSibling then
        borrowLeft t tree node parent left i indexOfKey sizeLeftSibling
      else if minimumKeysInNode t < sizeRightSibling then
        borrowRight t tree node parent right i indexOfKey
      else do
        let tree ← mergeLeaf t tree curNode parent left right i indexOfKey sizeLeftSibling
          sizeRightSibling
        let result ← mergeLoop t tree parent i sizeLeftSibling sizeRightSibling st
        dropEmptyRoot result.1 result.2

/-! ### The writes of a removal -/

variable {t : ℕ} {tree : Tree κ υ} {a b next : ℕ} {part l r : List (κ × υ)} {moved second : κ × υ}
  {keys : List κ} {leaves : List ℕ}

theorem eraseKey_eq {j : ℕ} (ha : tree.cell a = some (next, part)) (hj : j < part.length) :
    eraseKey tree a j = .ok (tree.setNode a (.term ⟨next, part.eraseIdx j⟩)) := by
  unfold eraseKey
  rw [derefTerm_eq ha]
  show (eraseAt part j >>= fun data => _) = _
  rw [eraseAt_eq_ok hj]
  rfl

theorem siblingSize_leaf (hsound : Sound tree) (ha : tree.cell a = some (next, part)) :
    siblingSize tree a = .ok part.length := by
  unfold siblingSize
  rw [if_neg (hsound.ne_zero (cell_eq_some.mp ha))]
  unfold Tree.deref
  rw [cell_eq_some.mp ha]
  rfl

theorem exists_snoc_of_length {α β : Type} {xs : List α} {ys : List β} {y : β}
    (h : xs.length = (ys ++ [y]).length) : ∃ zs z, xs = zs ++ [z] := by
  rcases List.eq_nil_or_concat' xs with rfl | hxs
  · simp at h
  · exact hxs

theorem getD_before {β : Type} {lb la : List ℕ} {xs : List β} {x : β}
    (h : (lb ++ [b]).length = (xs ++ [x]).length) :
    (lb ++ [b] ++ a :: la).getD ((xs ++ [x]).length - 1) 0 = b := by
  have hlen : (xs ++ [x]).length - 1 = lb.length := by
    rw [← h, List.length_append, List.length_singleton]
    omega
  rw [hlen, List.append_assoc, List.getD_eq_getElem?_getD, List.getElem?_append_right le_rfl,
    Nat.sub_self]
  rfl

theorem getD_after {β : Type} {lb la : List ℕ} {xs : List β} (h : lb.length = xs.length) :
    (lb ++ a :: la).getD (xs.length + 1) 0 = la.headD 0 := by
  rw [← h, List.getD_eq_getElem?_getD, List.getElem?_append_right (Nat.le_succ _)]
  have hone : lb.length + 1 - lb.length = 1 := by omega
  rw [hone]
  cases la with
  | nil => rfl
  | cons c la => rfl

/-- The tree with two leaves and the root rewritten. -/
def rewritten (tree : Tree κ υ) (a b : ℕ) (leafA leafB : Term κ υ) (p : Middle κ) : Tree κ υ :=
  ((tree.setNode a (.term leafA)).setNode tree.root (.middle p)).setNode b (.term leafB)

theorem borrowLeft_eq {i j : ℕ} (hroot : tree.node tree.root = some (.middle ⟨false, keys, leaves⟩))
    (ha : tree.cell a = some (next, part)) (hb : tree.cell b = some (a, l ++ [moved])) (hab : b ≠ a)
    (hj : j < part.length) (hcapacity : part.length ≤ maximumKeysInNode t)
    (hi : i < keys.length) :
    borrowLeft t tree a tree.root b (i + 1) j (l ++ [moved]).length =
      .ok (rewritten tree a b ⟨next, moved :: part.eraseIdx j⟩ ⟨a, l⟩
        ⟨false, keys.set i moved.1, leaves⟩) := by
  have hra : tree.root ≠ a := by
    intro heq
    rw [heq, cell_eq_some.mp ha] at hroot
    cases hroot
  have hrb : tree.root ≠ b := by
    intro heq
    rw [heq, cell_eq_some.mp hb] at hroot
    cases hroot
  have hlast : (l ++ [moved]).length - 1 = l.length := by simp
  have hmoved : get (l ++ [moved]) l.length = .ok moved := by
    rw [get_eq_ok, List.getElem?_append_right le_rfl, Nat.sub_self]
    rfl
  have hroom : (part.eraseIdx j).length < keysCapacity t :=
    Nat.lt_succ_of_le ((List.eraseIdx_sublist part j).length_le.trans hcapacity)
  have hinsert : insertAt (keysCapacity t) (part.eraseIdx j) 0 moved =
      .ok (moved :: part.eraseIdx j) := insertAt_eq_ok.mpr ⟨Nat.zero_le _, hroom, rfl⟩
  have hl : (tree.setNode a (.term ⟨next, part.eraseIdx j⟩)).derefTerm b =
      .ok ⟨a, l ++ [moved]⟩ :=
    derefTerm_eq ((cell_congr (tree.setNode_node_of_ne _ hab)).trans hb)
  have hp : (tree.setNode a (.term ⟨next, moved :: part.eraseIdx j⟩)).derefMiddle tree.root =
      .ok ⟨false, keys, leaves⟩ :=
    derefMiddle_eq ((tree.setNode_node_of_ne _ hra).trans hroot)
  unfold borrowLeft
  rw [eraseKey_eq ha hj, hlast]
  show ((tree.setNode a (.term ⟨next, part.eraseIdx j⟩)).derefTerm a >>= fun n => _) = _
  rw [derefTerm_eq cell_setNode_self]
  show ((tree.setNode a (.term ⟨next, part.eraseIdx j⟩)).derefTerm b >>= fun l => _) = _
  rw [hl]
  show (get (l ++ [moved]) l.length >>= fun moved => _) = _
  rw [hmoved]
  show (insertAt (keysCapacity t) (part.eraseIdx j) 0 moved >>= fun data => _) = _
  rw [hinsert]
  show (((tree.setNode a (.term ⟨next, part.eraseIdx j⟩)).setNode a
    (.term ⟨next, moved :: part.eraseIdx j⟩)).derefMiddle tree.root >>= fun p => _) = _
  rw [Tree.setNode_setNode, hp]
  show (setAt keys i moved.1 >>= fun keys => _) = _
  rw [setAt_eq_ok hi]
  have hleft : ((tree.setNode a (.term ⟨next, moved :: part.eraseIdx j⟩)).setNode tree.root
      (.middle ⟨false, keys.set i moved.1, leaves⟩)).cell b = some (a, l ++ [moved]) := by
    refine (cell_congr ?_).trans hb
    rw [Tree.setNode_node_of_ne _ _ hrb.symm, tree.setNode_node_of_ne _ hab]
  have herase : (l ++ [moved]).eraseIdx l.length = l := by
    rw [List.eraseIdx_append_of_length_le le_rfl, Nat.sub_self]
    exact List.append_nil l
  show eraseKey ((tree.setNode a (.term ⟨next, moved :: part.eraseIdx j⟩)).setNode tree.root
    (.middle ⟨false, keys.set i moved.1, leaves⟩)) b l.length = _
  rw [eraseKey_eq hleft (by simp), herase]
  rfl

theorem borrowRight_eq {i j bNext : ℕ}
    (hroot : tree.node tree.root = some (.middle ⟨false, keys, leaves⟩))
    (ha : tree.cell a = some (next, part)) (hb : tree.cell b = some (bNext, moved :: second :: r))
    (hab : b ≠ a) (hj : j < part.length) (hcapacity : part.length ≤ maximumKeysInNode t)
    (hi : i < keys.length) :
    borrowRight t tree a tree.root b i j =
      .ok (rewritten tree a b ⟨next, part.eraseIdx j ++ [moved]⟩ ⟨bNext, second :: r⟩
        ⟨false, keys.set i second.1, leaves⟩) := by
  have hra : tree.root ≠ a := by
    intro heq
    rw [heq, cell_eq_some.mp ha] at hroot
    cases hroot
  have hrb : tree.root ≠ b := by
    intro heq
    rw [heq, cell_eq_some.mp hb] at hroot
    cases hroot
  have hroom : (part.eraseIdx j).length < keysCapacity t :=
    Nat.lt_succ_of_le ((List.eraseIdx_sublist part j).length_le.trans hcapacity)
  have hinsert : insertAt (keysCapacity t) (part.eraseIdx j) (part.eraseIdx j).length moved =
      .ok (part.eraseIdx j ++ [moved]) := by
    refine insertAt_eq_ok.mpr ⟨le_rfl, hroom, ?_⟩
    have hend : (part.eraseIdx j ++ []).insertIdx (part.eraseIdx j).length moved =
        part.eraseIdx j ++ [moved] := insertIdx_length_append
    rw [List.append_nil] at hend
    exact hend.symm
  have hright : ∀ n : Term κ υ, (tree.setNode a (.term n)).derefTerm b =
      .ok ⟨bNext, moved :: second :: r⟩ := fun n =>
    derefTerm_eq ((cell_congr (tree.setNode_node_of_ne _ hab)).trans hb)
  have hp : (tree.setNode a (.term ⟨next, part.eraseIdx j ++ [moved]⟩)).derefMiddle tree.root =
      .ok ⟨false, keys, leaves⟩ :=
    derefMiddle_eq ((tree.setNode_node_of_ne _ hra).trans hroot)
  unfold borrowRight
  rw [eraseKey_eq ha hj]
  show ((tree.setNode a (.term ⟨next, part.eraseIdx j⟩)).derefTerm a >>= fun n => _) = _
  rw [derefTerm_eq cell_setNode_self]
  show ((tree.setNode a (.term ⟨next, part.eraseIdx j⟩)).derefTerm b >>= fun r => _) = _
  rw [hright]
  show (insertAt (keysCapacity t) (part.eraseIdx j) (part.eraseIdx j).length moved >>=
    fun data => _) = _
  rw [hinsert]
  show (((tree.setNode a (.term ⟨next, part.eraseIdx j⟩)).setNode a
    (.term ⟨next, part.eraseIdx j ++ [moved]⟩)).derefTerm b >>= fun r => _) = _
  rw [Tree.setNode_setNode, hright]
  show ((tree.setNode a (.term ⟨next, part.eraseIdx j ++ [moved]⟩)).derefMiddle tree.root >>=
    fun p => _) = _
  rw [hp]
  show (setAt keys i second.1 >>= fun keys => _) = _
  rw [setAt_eq_ok hi]
  have hafter : ((tree.setNode a (.term ⟨next, part.eraseIdx j ++ [moved]⟩)).setNode tree.root
      (.middle ⟨false, keys.set i second.1, leaves⟩)).cell b =
        some (bNext, moved :: second :: r) := by
    refine (cell_congr ?_).trans hb
    rw [Tree.setNode_node_of_ne _ _ hrb.symm, tree.setNode_node_of_ne _ hab]
  show eraseKey ((tree.setNode a (.term ⟨next, part.eraseIdx j ++ [moved]⟩)).setNode tree.root
    (.middle ⟨false, keys.set i second.1, leaves⟩)) b 0 = _
  rw [eraseKey_eq hafter (Nat.succ_pos _)]
  rfl

theorem rewritten_nodes {leafA leafB : Term κ υ} {p : Middle κ} (h : Sound tree)
    {na nb nr : Node κ υ} (ha : tree.node a = some na) (hb : tree.node b = some nb)
    (hroot : tree.node tree.root = some nr) (hab : b ≠ a) (hra : tree.root ≠ a)
    (hrb : tree.root ≠ b) :
    Sound (rewritten tree a b leafA leafB p) ∧
      (rewritten tree a b leafA leafB p).node tree.root = some (.middle p) ∧
      (rewritten tree a b leafA leafB p).cell a = some (leafA.next, leafA.data) ∧
      (rewritten tree a b leafA leafB p).cell b = some (leafB.next, leafB.data) ∧
      ∀ c, c ≠ a → c ≠ b → c ≠ tree.root →
        (rewritten tree a b leafA leafB p).node c = tree.node c := by
  have hroot' : (tree.setNode a (.term leafA)).node tree.root = some nr :=
    (tree.setNode_node_of_ne _ hra).trans hroot
  have hb' : ((tree.setNode a (.term leafA)).setNode tree.root (.middle p)).node b = some nb := by
    rw [Tree.setNode_node_of_ne _ _ hrb.symm, tree.setNode_node_of_ne _ hab]
    exact hb
  refine ⟨((h.setNode ha).setNode hroot').setNode hb', ?_, cell_eq_some.mpr ?_,
    cell_setNode_self, fun c hca hcb hcr => ?_⟩
  · unfold rewritten
    rw [Tree.setNode_node_of_ne _ _ hrb]
    exact Tree.setNode_node_self _ _
  · unfold rewritten
    rw [Tree.setNode_node_of_ne _ _ hab.symm, Tree.setNode_node_of_ne _ _ hra.symm]
    exact Tree.setNode_node_self _ _
  · unfold rewritten
    rw [Tree.setNode_node_of_ne _ _ hcb, Tree.setNode_node_of_ne _ _ hcr,
      Tree.setNode_node_of_ne _ _ hca]

/-- The tree with one leaf in the place of the two below the root, and the root replaced. -/
def mergedLeaf (tree : Tree κ υ) (a b : ℕ) (data : List (κ × υ)) : Tree κ υ :=
  replaceRoot ((((tree.newNode (.term ⟨0, data⟩)).setNode tree.root
    (.middle ⟨false, [], [tree.fresh]⟩)).deleteObject a).deleteObject b) tree.root tree.fresh

theorem mergeTerminate_eq {aNext bNext : ℕ} {k : κ}
    (hroot : tree.node tree.root = some (.middle ⟨false, [k], [a, b]⟩))
    (ha : tree.cell a = some (aNext, l)) (hb : tree.cell b = some (bNext, r))
    (hcapacity : l.length + r.length ≤ maximumKeysInNode t) :
    merge t tree a b tree.root 0 = .ok ((((tree.newNode (.term ⟨0, l ++ r⟩)).setNode tree.root
      (.middle ⟨false, [], [tree.fresh]⟩)).deleteObject a).deleteObject b) := by
  have hdata : append (keysCapacity t) l r = .ok (l ++ r) :=
    append_eq_ok (hcapacity.trans (Nat.le_succ _))
  unfold merge Tree.deref
  rw [cell_eq_some.mp ha]
  show mergeTerminate t tree a b tree.root 0 = _
  unfold mergeTerminate
  rw [derefTerm_eq ha, derefTerm_eq hb]
  show (append (keysCapacity t) l r >>= fun data => _) = _
  rw [hdata, derefMiddle_eq hroot]
  rfl

theorem dropEmptyRoot_merged {data : List (κ × υ)} (hra : tree.root ≠ a) (hrb : tree.root ≠ b)
    (hfresh : tree.fresh ≠ 0) :
    dropEmptyRoot ((((tree.newNode (.term ⟨0, data⟩)).setNode tree.root
      (.middle ⟨false, [], [tree.fresh]⟩)).deleteObject a).deleteObject b) tree.root =
        .ok (mergedLeaf tree a b data) := by
  have hnode : ((((tree.newNode (.term ⟨0, data⟩)).setNode tree.root
      (.middle ⟨false, [], [tree.fresh]⟩)).deleteObject a).deleteObject b).node tree.root =
        some (.middle ⟨false, [], [tree.fresh]⟩) := by
    rw [Tree.deleteObject_node_of_ne _ hrb, Tree.deleteObject_node_of_ne _ hra]
    exact Tree.setNode_node_self _ _
  unfold dropEmptyRoot
  rw [derefMiddle_eq hnode]
  show Except.ok (replaceRoot _ tree.root (if tree.fresh ≠ 0 then tree.fresh else 0)) = _
  rw [if_pos hfresh]
  rfl

theorem mergedLeaf_nodes {data : List (κ × υ)} (h : Sound tree) {na nb nr : Node κ υ}
    (ha : tree.node a = some na) (hb : tree.node b = some nb)
    (hroot : tree.node tree.root = some nr) :
    Sound (mergedLeaf tree a b data) ∧
      (mergedLeaf tree a b data).node (mergedLeaf tree a b data).root = some (.term ⟨0, data⟩) := by
  have hroot' : (tree.newNode (.term ⟨0, data⟩)).node tree.root = some nr :=
    (tree.newNode_node_of_ne _ (h.lt_fresh hroot).ne).trans hroot
  have hsound := (((h.newNode _).setNode (m := .middle ⟨false, [], [tree.fresh]⟩)
    hroot').deleteObject a).deleteObject b
  refine ⟨(hsound.deleteObject tree.root).congr rfl rfl, ?_⟩
  show (((((tree.newNode (.term ⟨0, data⟩)).setNode tree.root
      (.middle ⟨false, [], [tree.fresh]⟩)).deleteObject a).deleteObject b).deleteObject
        tree.root).node tree.fresh = _
  rw [Tree.deleteObject_node_of_ne _ (h.lt_fresh hroot).ne',
    Tree.deleteObject_node_of_ne _ (h.lt_fresh hb).ne',
    Tree.deleteObject_node_of_ne _ (h.lt_fresh ha).ne',
    Tree.setNode_node_of_ne _ _ (h.lt_fresh hroot).ne']
  exact tree.newNode_node_self _

/-- Where `delete_key_from_leaf` goes on below a root. -/
theorem deleteKeyFromLeaf_child {j i sizeLeft sizeRight : ℕ}
    (hroot : tree.node tree.root = some (.middle ⟨false, keys, leaves⟩))
    (ha : tree.cell a = some (next, part)) (hsmall : part.length ≤ minimumKeysInNode t)
    (hleft : siblingSize tree (if 0 < i then leaves.getD (i - 1) 0 else 0) = .ok sizeLeft)
    (hright : siblingSize tree (leaves.getD (i + 1) 0) = .ok sizeRight) :
    deleteKeyFromLeaf t tree j a [(a, i), (tree.root, 0)] =
      if minimumKeysInNode t < sizeLeft then
        borrowLeft t tree a tree.root (if 0 < i then leaves.getD (i - 1) 0 else 0) i j sizeLeft
      else if minimumKeysInNode t < sizeRight then
        borrowRight t tree a tree.root (leaves.getD (i + 1) 0) i j
      else (mergeLeaf t tree a tree.root (if 0 < i then leaves.getD (i - 1) 0 else 0)
        (leaves.getD (i + 1) 0) i j sizeLeft sizeRight >>= fun tree' =>
          dropEmptyRoot tree' tree.root) := by
  unfold deleteKeyFromLeaf
  rw [derefTerm_eq ha]
  show (if minimumKeysInNode t < part.length then _ else _) = _
  rw [if_neg (not_lt.mpr hsmall)]
  show (tree.derefMiddle tree.root >>= fun p => _) = _
  rw [derefMiddle_eq hroot]
  show (siblingSize tree (if 0 < i then leaves.getD (i - 1) 0 else 0) >>= fun sizeLeft =>
    siblingSize tree (leaves.getD (i + 1) 0) >>= fun sizeRight => _) = _
  rw [hleft, hright]
  rfl

variable [LinearOrder κ]

/-- The walk of `erase`: the leaf, and the path with the leaf on top. -/
def eraseWalk (tree : Tree κ υ) (key : κ) :
    ℕ → ℕ → ℕ → List (ℕ × ℕ) → Except NodeFault (ℕ × List (ℕ × ℕ))
  | 0, _, _, _ => throw .diverged
  | turns + 1, curNode, prevIndex, st => do
    let n ← tree.deref curNode
    if n.isTerminate then pure (curNode, (curNode, prevIndex) :: st)
    else do
      let middle ← n.asMiddle
      let index := lowerIndex middle.keys key
      let next ← get middle.pointers index
      eraseWalk tree key turns next index ((curNode, prevIndex) :: st)

/-- The key after the erased one, which `erase` looks for at its end. -/
def nextKeyOf (turns : ℕ) (unset : κ) (tree : Tree κ υ) (nextIt : Iterator) :
    Except NodeFault κ := do
  let last ← tree.endIterator turns
  if nextIt ≠ last then do
    let e ← tree.entry nextIt
    pure e.1
  else pure unset

/-- The return value of `erase`. -/
def eraseResult (turns : ℕ) (tree : Tree κ υ) (nextIt : Iterator) (nextKey : κ) :
    Except NodeFault Iterator := do
  let last ← tree.endIterator turns
  if nextIt = last then pure last else find turns tree nextKey

def erase (t turns : ℕ) (unset : κ) (tree : Tree κ υ) (key : κ) :
    Except NodeFault (Tree κ υ × Iterator) :=
  if tree.root = 0 then throw .logicError
  else do
    let (curNode, st) ← eraseWalk tree key turns tree.root 0 []
    let leaf ← tree.derefTerm curNode
    let index := equalIndex leaf.data key
    if index = leaf.data.length then do
      let last ← tree.endIterator turns
      pure (tree, last)
    else do
      let nextIt ← tree.increment ⟨curNode, index⟩
      let nextKey ← nextKeyOf turns unset tree nextIt
      let tree ← deleteKeyFromLeaf t tree index curNode st
      let tree := { tree with size := tree.size - 1 }
      let it ← eraseResult turns tree nextIt nextKey
      pure (tree, it)

end MaiFaSp.BPlusTree
