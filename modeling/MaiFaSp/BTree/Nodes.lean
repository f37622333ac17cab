import MaiFaSp.Lib.BoundedVector
import MaiFaSp.Lib.Interleave

/-!
# The nodes of `B_tree`, its iterators and `find`

`b_tree.h:14-48` (the node and the tree), `556-582` (`go_to_next`), `1080-1090`
(`end`), `1214-1235` (`find`), `1382-1430` (`split`) and `1432-1493` (`insert`).
Address 0 is `nullptr`. A new object gets an address no object had before.
-/

namespace MaiFaSp.BTree

open BoundedVector

structure Node (κ υ : Type) where
  keys : List (κ × υ)
  pointers : List ℕ
  deriving DecidableEq, Repr

structure Tree (κ υ : Type) where
  root : ℕ
  size : ℕ
  node : ℕ → Node κ υ
  fresh : ℕ

/-- `btree_iterator`, the top of the path first. -/
structure Iterator where
  path : List (ℕ × ℕ)
  index : ℕ
  deriving DecidableEq, Repr

variable {κ υ : Type}

def minimumKeysInNode (t : ℕ) : ℕ := t - 1

def maximumKeysInNode (t : ℕ) : ℕ := 2 * t - 1

/-- The capacity of `_keys`. -/
def keysCapacity (t : ℕ) : ℕ := maximumKeysInNode t + 1

/-- The capacity of `_pointers`. -/
def pointersCapacity (t : ℕ) : ℕ := maximumKeysInNode t + 2

def Node.keyList (n : Node κ υ) : List κ := n.keys.map Prod.fst

namespace Tree

/-- The tree that the constructors of lines 422-444 build. -/
def empty : Tree κ υ := ⟨0, 0, fun _ => ⟨[], []⟩, 1⟩

def setNode (tree : Tree κ υ) (a : ℕ) (n : Node κ υ) : Tree κ υ :=
  { tree with node := Function.update tree.node a n }

/-- `new_object` with the contents the object then gets. -/
def newNode (tree : Tree κ υ) (n : Node κ υ) : Tree κ υ :=
  { tree.setNode tree.fresh n with fresh := tree.fresh + 1 }

/-- `p->` -/
def deref (tree : Tree κ υ) (a : ℕ) : Except NodeFault (Node κ υ) :=
  if a = 0 then throw .nullDereference else pure (tree.node a)

def endIterator (tree : Tree κ υ) : Iterator :=
  if tree.root = 0 then ⟨[], 0⟩ else ⟨[(tree.root, 0)], (tree.node tree.root).keys.length⟩

@[simp] theorem setNode_node_self (tree : Tree κ υ) (a : ℕ) (n : Node κ υ) :
    (tree.setNode a n).node a = n := by
  unfold setNode
  exact Function.update_self a n tree.node

theorem setNode_node_of_ne (tree : Tree κ υ) {a b : ℕ} (n : Node κ υ) (h : b ≠ a) :
    (tree.setNode a n).node b = tree.node b := by
  unfold setNode
  exact Function.update_of_ne h n tree.node

@[simp] theorem setNode_root (tree : Tree κ υ) (a : ℕ) (n : Node κ υ) :
    (tree.setNode a n).root = tree.root := rfl

@[simp] theorem setNode_size (tree : Tree κ υ) (a : ℕ) (n : Node κ υ) :
    (tree.setNode a n).size = tree.size := rfl

@[simp] theorem newNode_size (tree : Tree κ υ) (n : Node κ υ) :
    (tree.newNode n).size = tree.size := rfl

theorem deref_of_ne {tree : Tree κ υ} {a : ℕ} (h : a ≠ 0) : tree.deref a = .ok (tree.node a) :=
  if_neg h

/-- The part of `go_to_next` that climbs from a node whose keys are all passed. -/
def climb (tree : Tree κ υ) : List (ℕ × ℕ) → ℕ → Except NodeFault Iterator
  | [], index => pure ⟨[], index⟩
  | [top], _ => do
    let root ← tree.deref top.1
    pure ⟨[top], root.keys.length⟩
  | top :: next :: path, _ => do
    let curNode ← tree.deref next.1
    if top.2 < curNode.keys.length then pure ⟨next :: path, top.2⟩
    else climb tree (next :: path) top.2

def goToNext (tree : Tree κ υ) (it : Iterator) : Except NodeFault Iterator :=
  match it.path with
  | [] => pure it
  | top :: _ => do
    let curNode ← tree.deref top.1
    let child := curNode.pointers.getD (it.index + 1) 0
    if child ≠ 0 then pure ⟨(child, it.index + 1) :: it.path, 0⟩
    else if it.index + 1 < curNode.keys.length then pure ⟨it.path, it.index + 1⟩
    else tree.climb it.path it.index

/-- What an iterator points to. -/
def entry (tree : Tree κ υ) (it : Iterator) : Option (κ × υ) := do
  let top ← it.path.head?
  (tree.node top.1).keys[it.index]?

end Tree

variable [LinearOrder κ]

/-- The walk of `find` and of the first loop of `erase`: it stops at the node that holds the
key, with the key's index, or at `nullptr`. -/
def searchWalk (tree : Tree κ υ) (key : κ) :
    ℕ → ℕ → ℕ → List (ℕ × ℕ) → Except NodeFault (Option Iterator)
  | 0, _, _, _ => throw .diverged
  | turns + 1, curNode, prevIndex, path =>
    if curNode = 0 then pure none
    else
      let n := tree.node curNode
      let i := lowerIndex n.keyList key
      let path := (curNode, prevIndex) :: path
      if n.keyList[i]? = some key then pure (some ⟨path, i⟩)
      else do
        let next ← get n.pointers i
        searchWalk tree key turns next i path

def find (turns : ℕ) (tree : Tree κ υ) (key : κ) : Except NodeFault Iterator := do
  let root ← tree.deref tree.root
  let _ ← get root.keys 0
  let found ← searchWalk tree key turns tree.root 0 [(tree.root, 0)]
  pure (found.getD tree.endIterator)

/-- Where `insert` puts the pair: `node`, the node above it, the position in `node`, the last
`index_of_node_in_parent_node` and the path. -/
structure Place where
  node : ℕ
  parentNode : ℕ
  i : ℕ
  indexOfNodeInParentNode : ℕ
  path : List (ℕ × ℕ)

/-- The walk of `insert`; `none` is the early return for a key that is there. -/
def insertWalk (tree : Tree κ υ) (key : κ) :
    ℕ → ℕ → Place → Except NodeFault (Option Place)
  | 0, _, _ => throw .diverged
  | turns + 1, curPointer, p =>
    if curPointer = 0 then pure (some p)
    else do
      let n := tree.node curPointer
      let i := lowerIndex n.keyList key
      let index := i - 1
      let curKey ← get n.keys index
      if curKey.1 = key then pure none
      else
        insertWalk tree key turns (n.pointers.getD i 0)
          ⟨curPointer, p.node, i, index, (curPointer, index) :: p.path⟩

/-- `split` -/
def split (t : ℕ) (tree : Tree κ υ) (nodeToSplit parentNode : ℕ) :
    Except NodeFault (Tree κ υ) := do
  let middleInd := (maximumKeysInNode t + 1) / 2
  let n ← tree.deref nodeToSplit
  let middle ← get n.keys middleInd
  let (tree, parentNode, splitIndexInParent) :=
    if parentNode = 0 then
      ({ tree.newNode ⟨[], []⟩ with root := tree.fresh }, tree.fresh, 0)
    else (tree, parentNode, lowerIndex (tree.node parentNode).keyList middle.1)
  if n.pointers.length < middleInd + 1 then throw .outOfRange
  let leftPart := tree.fresh
  let rightPart := tree.fresh + 1
  let tree := tree.newNode ⟨n.keys.take middleInd, n.pointers.take middleInd⟩
  let tree := tree.newNode ⟨n.keys.drop (middleInd + 1), n.pointers.drop (middleInd + 1)⟩
  let parent := tree.node parentNode
  let keys ← insertAt (keysCapacity t) parent.keys splitIndexInParent middle
  let pointers ← insertAt (pointersCapacity t) parent.pointers splitIndexInParent leftPart
  let pointers ← insertAt (pointersCapacity t) pointers (splitIndexInParent + 1) rightPart
  pure (tree.setNode parentNode ⟨keys, pointers⟩)

/-- The loop that splits upwards. The caller's `parent_node` stays `nullptr` when `split` makes
a new root. -/
def splitLoop (t : ℕ) : ℕ → Tree κ υ → ℕ → ℕ → List (ℕ × ℕ) → Except NodeFault (Tree κ υ)
  | 0, _, _, _, _ => throw .diverged
  | turns + 1, tree, node, parentNode, path =>
    if node ≠ 0 ∧ maximumKeysInNode t < (tree.node node).keys.length then do
      let tree ← split t tree node parentNode
      splitLoop t turns tree parentNode ((path.head?.map Prod.fst).getD 0) path.tail
    else pure tree

/-- `node->_keys.insert(...); node->_pointers.insert(...);` -/
def insertInto (t : ℕ) (tree : Tree κ υ) (node i : ℕ) (data : κ × υ) :
    Except NodeFault (Tree κ υ) := do
  let n ← tree.deref node
  let keys ← insertAt (keysCapacity t) n.keys i data
  let pointers ← insertAt (pointersCapacity t) n.pointers i 0
  pure (tree.setNode node ⟨keys, pointers⟩)

def insert (t turns : ℕ) (tree : Tree κ υ) (data : κ × υ) :
    Except NodeFault (Tree κ υ × Iterator × Bool) :=
  if tree.root = 0 then
    let tree := { tree.newNode ⟨[data], [0, 0]⟩ with root := tree.fresh, size := tree.size + 1 }
    pure (tree, ⟨[], 0⟩, true)
  else do
    match ← insertWalk tree data.1 turns tree.root ⟨0, 0, 0, 0, []⟩ with
    | none => pure (tree, tree.endIterator, false)
    | some p =>
      let wasFull := (tree.node p.node).keys.length = maximumKeysInNode t
      let tree ← insertInto t tree p.node p.i data
      let tree ← if wasFull then splitLoop t turns tree p.node p.parentNode p.path else pure tree
      pure ({ tree with size := tree.size + 1 }, ⟨p.path, p.indexOfNodeInParentNode⟩, true)

/-- A sequence of calls of `insert`. -/
def insertAll (t turns : ℕ) : List (κ × υ) → Tree κ υ → Except NodeFault (Tree κ υ)
  | [], tree => pure tree
  | data :: rest, tree => do
    let result ← insert t turns tree data
    insertAll t turns rest result.1

end MaiFaSp.BTree

/-!
## Well-formed trees of `B_tree`, and the walk for a key that is not there
-/

namespace MaiFaSp.BTree

open BoundedVector

variable {κ υ : Type}

/-- The subtree of the given height below address `a`, with at least `least` keys at its top,
holds `es` in order. -/
def Subtree (t : ℕ) (node : ℕ → Node κ υ) : ℕ → ℕ → ℕ → List (κ × υ) → Prop
  | 0, least, a, es =>
    a ≠ 0 ∧ node a = ⟨es, List.replicate (es.length + 1) 0⟩ ∧ least ≤ es.length ∧
      es.length ≤ maximumKeysInNode t
  | height + 1, least, a, es =>
    a ≠ 0 ∧ (node a).pointers.length = (node a).keys.length + 1 ∧ least ≤ (node a).keys.length ∧
      (node a).keys.length ≤ maximumKeysInNode t ∧
      ∃ parts, List.Forall₂ (Subtree t node height (minimumKeysInNode t)) (node a).pointers parts ∧
        es = interleave parts (node a).keys

/-- The nodes under the root have the shape of a B-tree of minimum degree `t`: one more pointer
than keys, key counts in the bounds except at the root, leaves at one depth, and `es`, the
contents from left to right, strictly increasing. -/
def Shape [LinearOrder κ] (t : ℕ) (tree : Tree κ υ) (height : ℕ) (es : List (κ × υ)) : Prop :=
  Sorted es ∧ (tree.root = 0 ∧ es = [] ∨ Subtree t tree.node height 0 tree.root es)

/-- A tree of that shape whose `_size` is right. -/
def WellFormed [LinearOrder κ] (t : ℕ) (tree : Tree κ υ) (height : ℕ) (es : List (κ × υ)) :
    Prop :=
  Shape t tree height es ∧ tree.size = es.length

variable {t : ℕ} {tree : Tree κ υ} {height least a : ℕ} {es : List (κ × υ)} {key : κ}

variable [LinearOrder κ]

theorem lowerIndex_le_length (es : List (κ × υ)) (key : κ) :
    lowerIndex (es.map Prod.fst) key ≤ es.length :=
  lowerIndex_le.trans (List.length_map _).le

theorem searchWalk_null {turns prevIndex : ℕ} {path : List (ℕ × ℕ)} (hturns : 0 < turns) :
    searchWalk tree key turns 0 prevIndex path = .ok none := by
  obtain ⟨turns, rfl⟩ := Nat.exists_eq_succ_of_ne_zero hturns.ne'
  rfl

theorem searchWalk_next {turns prevIndex next : ℕ} {path : List (ℕ × ℕ)} (ha : a ≠ 0)
    (habsent : (tree.node a).keyList[lowerIndex (tree.node a).keyList key]? ≠ some key)
    (hnext : (tree.node a).pointers[lowerIndex (tree.node a).keyList key]? = some next) :
    searchWalk tree key (turns + 1) a prevIndex path =
      searchWalk tree key turns next (lowerIndex (tree.node a).keyList key)
        ((a, prevIndex) :: path) := by
  rw [searchWalk, if_neg ha]
  show (if _ then _ else _) = _
  rw [if_neg habsent, get_eq_ok.mpr hnext]
  rfl

/-- The search for a key that is in no node ends at `nullptr`, inside every pointer array. -/
theorem searchWalk_absent {turns prevIndex : ℕ} {path : List (ℕ × ℕ)}
    (h : Subtree t tree.node height least a es) (hkey : key ∉ es.map Prod.fst)
    (hturns : height + 2 ≤ turns) :
    searchWalk tree key turns a prevIndex path = .ok none := by
  induction height generalizing least a es turns prevIndex path with
  | zero =>
    obtain ⟨ha, hnode, -, -⟩ := h
    obtain ⟨turns, rfl⟩ := Nat.exists_eq_add_of_le' (show 1 ≤ turns by omega)
    have hle : lowerIndex (tree.node a).keyList key ≤ es.length := by
      rw [hnode]
      exact lowerIndex_le_length es key
    have habsent : (tree.node a).keyList[lowerIndex (tree.node a).keyList key]? ≠ some key := by
      intro hk
      have hm := List.mem_of_getElem? hk
      rw [hnode] at hm
      exact hkey hm
    have hnull : (tree.node a).pointers[lowerIndex (tree.node a).keyList key]? = some 0 := by
      rw [hnode] at hle ⊢
      rw [List.getElem?_replicate, if_pos (by omega)]
    rw [searchWalk_next ha habsent hnull, searchWalk_null (by omega)]
  | succ height ih =>
    obtain ⟨ha, hlen, -, -, parts, hparts, rfl⟩ := h
    obtain ⟨turns, rfl⟩ := Nat.exists_eq_add_of_le' (show 1 ≤ turns by omega)
    have hplen : parts.length = (tree.node a).keys.length + 1 := by
      rw [← hparts.length_eq, hlen]
    have habsent : (tree.node a).keyList[lowerIndex (tree.node a).keyList key]? ≠ some key := by
      intro hk
      obtain ⟨e, he, rfl⟩ := List.mem_map.mp (List.mem_of_getElem? hk)
      exact hkey (List.mem_map_of_mem (mem_interleave_of_separator he hplen))
    have hle : lowerIndex (tree.node a).keyList key < (tree.node a).pointers.length := by
      rw [hlen]
      exact Nat.lt_succ_of_le (lowerIndex_le_length (tree.node a).keys key)
    have hlt : lowerIndex (tree.node a).keyList key < parts.length := by
      rw [← hparts.length_eq]
      exact hle
    rw [searchWalk_next ha habsent (List.getElem?_eq_getElem hle)]
    refine ih (hparts.get hle hlt) (fun hmem => hkey ?_) (by omega)
    obtain ⟨e, he, rfl⟩ := List.mem_map.mp hmem
    exact List.mem_map_of_mem (mem_interleave_of_part (List.getElem_mem hlt) he)

end MaiFaSp.BTree
