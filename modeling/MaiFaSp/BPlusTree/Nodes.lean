import MaiFaSp.Lib.BoundedVector

/-!
# The nodes of `BP_tree`, its iterators, `insert` and `find`

`b_plus_tree.h:33-66` (the nodes and the tree), `323-372` (the constructors of the nodes,
`operator*` and `operator++`), `527-693` (`insert` and the splits), `797-836` (`begin` and
`end`), `931-959` (`find`) and `1093-1110` (`get_all_nodes_recursively`). Address 0 is
`nullptr`; no object is there. An object gets an address that no object had before. Reading a
node as one of the other type is a fault.
-/

namespace MaiFaSp.BPlusTree

open BoundedVector

structure Term (κ υ : Type) where
  next : ℕ
  data : List (κ × υ)
  deriving DecidableEq, Repr

/-- The constructor of a middle node leaves `_is_terminate` at `true`. -/
structure Middle (κ : Type) where
  isTerminate : Bool
  keys : List κ
  pointers : List ℕ
  deriving DecidableEq, Repr

inductive Node (κ υ : Type) where
  | term (n : Term κ υ)
  | middle (n : Middle κ)
  deriving DecidableEq, Repr

structure Tree (κ υ : Type) where
  root : ℕ
  size : ℕ
  node : ℕ → Option (Node κ υ)
  fresh : ℕ

structure Iterator where
  node : ℕ
  index : ℕ
  deriving DecidableEq, Repr

variable {κ υ : Type}

def minimumKeysInNode (t : ℕ) : ℕ := t - 1

def maximumKeysInNode (t : ℕ) : ℕ := 2 * t - 1

/-- The capacity of `_data` and of `_keys`. -/
def keysCapacity (t : ℕ) : ℕ := maximumKeysInNode t + 1

def pointersCapacity (t : ℕ) : ℕ := maximumKeysInNode t + 2

def keyList (data : List (κ × υ)) : List κ := data.map Prod.fst

namespace Node

def isTerminate : Node κ υ → Bool
  | term _ => true
  | middle n => n.isTerminate

/-- `static_cast<bptree_node_term*>` -/
def asTerm : Node κ υ → Except NodeFault (Term κ υ)
  | term n => pure n
  | middle _ => throw .outOfRange

/-- `static_cast<bptree_node_middle*>` -/
def asMiddle : Node κ υ → Except NodeFault (Middle κ)
  | term _ => throw .outOfRange
  | middle n => pure n

/-- `size()` -/
def size (n : Node κ υ) : Except NodeFault ℕ :=
  if n.isTerminate then do
    let n ← n.asTerm
    pure n.data.length
  else do
    let n ← n.asMiddle
    pure n.keys.length

end Node

namespace Tree

def empty : Tree κ υ := ⟨0, 0, fun _ => none, 1⟩

def setNode (tree : Tree κ υ) (a : ℕ) (n : Node κ υ) : Tree κ υ :=
  { tree with node := Function.update tree.node a (some n) }

/-- `new_object` with the contents the object then gets. -/
def newNode (tree : Tree κ υ) (n : Node κ υ) : Tree κ υ :=
  { tree.setNode tree.fresh n with fresh := tree.fresh + 1 }

def deleteObject (tree : Tree κ υ) (a : ℕ) : Tree κ υ :=
  { tree with node := Function.update tree.node a none }

/-- `p->` -/
def deref (tree : Tree κ υ) (a : ℕ) : Except NodeFault (Node κ υ) :=
  match tree.node a with
  | some n => pure n
  | none => throw .nullDereference

def derefTerm (tree : Tree κ υ) (a : ℕ) : Except NodeFault (Term κ υ) := do
  let n ← tree.deref a
  n.asTerm

def derefMiddle (tree : Tree κ υ) (a : ℕ) : Except NodeFault (Middle κ) := do
  let n ← tree.deref a
  n.asMiddle

section

variable (tree : Tree κ υ) {a b : ℕ} (n : Node κ υ)

@[simp] theorem setNode_node_self : (tree.setNode a n).node a = some n := by
  unfold setNode
  exact Function.update_self a _ tree.node

@[simp] theorem setNode_node_of_ne (h : b ≠ a) : (tree.setNode a n).node b = tree.node b := by
  unfold setNode
  exact Function.update_of_ne h _ tree.node

theorem setNode_setNode (n' : Node κ υ) : (tree.setNode a n').setNode a n = tree.setNode a n := by
  unfold setNode
  rw [Function.update_idem]

@[simp] theorem setNode_root : (tree.setNode a n).root = tree.root := rfl

@[simp] theorem setNode_fresh : (tree.setNode a n).fresh = tree.fresh := rfl

@[simp] theorem newNode_node_self : (tree.newNode n).node tree.fresh = some n := by
  unfold newNode setNode
  exact Function.update_self tree.fresh _ tree.node

@[simp] theorem newNode_node_of_ne (h : b ≠ tree.fresh) : (tree.newNode n).node b = tree.node b := by
  unfold newNode setNode
  exact Function.update_of_ne h _ tree.node

@[simp] theorem newNode_root : (tree.newNode n).root = tree.root := rfl

@[simp] theorem newNode_fresh : (tree.newNode n).fresh = tree.fresh + 1 := rfl

@[simp] theorem deleteObject_node_self : (tree.deleteObject a).node a = none := by
  unfold deleteObject
  exact Function.update_self a _ tree.node

@[simp] theorem deleteObject_node_of_ne (h : b ≠ a) : (tree.deleteObject a).node b = tree.node b := by
  unfold deleteObject
  exact Function.update_of_ne h _ tree.node

@[simp] theorem deleteObject_root : (tree.deleteObject a).root = tree.root := rfl

@[simp] theorem deleteObject_fresh : (tree.deleteObject a).fresh = tree.fresh := rfl

end

/-- The loops of `begin` and `end`: on to the child that is picked, up to a leaf or `nullptr`. -/
def walkDown (tree : Tree κ υ) (pick : List ℕ → ℕ) : ℕ → ℕ → Except NodeFault ℕ
  | 0, _ => throw .diverged
  | turns + 1, curNode => do
    let n ← tree.deref curNode
    if n.isTerminate then pure curNode
    else do
      let middle ← n.asMiddle
      if pick middle.pointers = 0 then pure curNode
      else walkDown tree pick turns (pick middle.pointers)

/-- `begin()` -/
def beginIterator (turns : ℕ) (tree : Tree κ υ) : Except NodeFault Iterator :=
  if tree.root = 0 then pure ⟨0, 0⟩
  else do
    let curNode ← tree.walkDown (fun pointers => pointers.headD 0) turns tree.root
    pure ⟨curNode, 0⟩

/-- `end()` -/
def endIterator (turns : ℕ) (tree : Tree κ υ) : Except NodeFault Iterator :=
  if tree.root = 0 then pure ⟨0, 0⟩
  else do
    let curNode ← tree.walkDown (fun pointers => pointers.getLastD 0) turns tree.root
    let leaf ← tree.derefTerm curNode
    pure ⟨curNode, leaf.data.length⟩

/-- `operator++` -/
def increment (tree : Tree κ υ) (it : Iterator) : Except NodeFault Iterator := do
  let n ← tree.derefTerm it.node
  if it.index + 1 = n.data.length ∧ n.next ≠ 0 then pure ⟨n.next, 0⟩
  else pure ⟨it.node, it.index + 1⟩

/-- `operator*` -/
def entry (tree : Tree κ υ) (it : Iterator) : Except NodeFault (κ × υ) :=
  if it.node = 0 then throw .logicError
  else do
    let n ← tree.derefTerm it.node
    get n.data it.index

/-- `for (auto it = begin; it != end; ++it)`, with the entries it comes by. -/
def enumerate (tree : Tree κ υ) (last : Iterator) : ℕ → Iterator →
    Except NodeFault (List (κ × υ))
  | 0, _ => throw .diverged
  | turns + 1, it =>
    if it = last then pure []
    else do
      let e ← tree.entry it
      let next ← tree.increment it
      let es ← enumerate tree last turns next
      pure (e :: es)

/-- `get_all_nodes_recursively` -/
def getAllNodesRecursively (tree : Tree κ υ) : ℕ → ℕ → Except NodeFault (List ℕ)
  | 0, _ => throw .diverged
  | turns + 1, node =>
    if node = 0 then pure []
    else do
      let n ← tree.deref node
      if n.isTerminate then pure [node]
      else do
        let middle ← n.asMiddle
        let below ← middle.pointers.mapM (getAllNodesRecursively tree turns)
        pure (node :: below.flatten)

end Tree

variable [LinearOrder κ]

/-! ### `find` -/

/-- The child where `find` goes on: `_pointers[i + 1]` only for the last of the keys. -/
def findNext (n : Middle κ) (key : κ) : ℕ :=
  let i := lowerIndex n.keys key
  if i + 1 = n.keys.length ∧ n.keys[i]? = some key then i + 1 else i

/-- The loop of `find`; `none` when it comes to `nullptr`. -/
def findWalk (tree : Tree κ υ) (key : κ) : ℕ → ℕ → Except NodeFault (Option ℕ)
  | 0, _ => throw .diverged
  | turns + 1, curNode =>
    if curNode = 0 then pure none
    else do
      let n ← tree.deref curNode
      if n.isTerminate then pure (some curNode)
      else do
        let middle ← n.asMiddle
        let next ← get middle.pointers (findNext middle key)
        findWalk tree key turns next

/-- `for (i = 0; i < _data.size() && _data[i].first != key; i++) {}` -/
def equalIndex (data : List (κ × υ)) (key : κ) : ℕ := data.findIdx fun e => decide (e.1 = key)

def find (turns : ℕ) (tree : Tree κ υ) (key : κ) : Except NodeFault Iterator := do
  match ← findWalk tree key turns tree.root with
  | none => tree.endIterator turns
  | some curNode => do
    let leaf ← tree.derefTerm curNode
    let i := equalIndex leaf.data key
    if i ≠ leaf.data.length then pure ⟨curNode, i⟩ else tree.endIterator turns

/-! ### `insert` -/

/-- Where the walk of `insert` ends. -/
structure Place where
  node : ℕ
  parentNode : ℕ
  path : List (ℕ × ℕ)

/-- The walk of `insert`; `none` is the early return for a key that is there. The path gets the
node that the walk goes to, not the one it comes from. -/
def insertWalk (tree : Tree κ υ) (key : κ) : ℕ → Place → Except NodeFault (Option Place)
  | 0, _ => throw .diverged
  | turns + 1, p => do
    let n ← tree.deref p.node
    if n.isTerminate then pure (some p)
    else do
      let middle ← n.asMiddle
      let i := lowerIndex middle.keys key
      let indexOfNodeInParentNode := i - 1
      let curKey ← get middle.keys indexOfNodeInParentNode
      if curKey = key then pure none
      else do
        let next ← get middle.pointers i
        insertWalk tree key turns ⟨next, p.node, (next, indexOfNodeInParentNode) :: p.path⟩

/-- A new middle node without children as the root. -/
def underNewRoot (tree : Tree κ υ) : Tree κ υ :=
  { tree.newNode (.middle ⟨false, [], []⟩) with root := tree.fresh }

/-- The parent of the parts of a split, with the index of the new key: a new root when there is
no parent. -/
def splitParent (tree : Tree κ υ) (parentNode : ℕ) (middleKey : κ) :
    Except NodeFault (Tree κ υ × ℕ × ℕ) :=
  if parentNode = 0 then pure (underNewRoot tree, tree.fresh, 0)
  else do
    let parent ← tree.derefMiddle parentNode
    pure (tree, parentNode, lowerIndex parent.keys middleKey)

/-- The inserts into the parent's `_keys` and `_pointers`. -/
def linkParts (t : ℕ) (parent : Middle κ) (parentCreated : Bool) (i : ℕ) (key : κ)
    (nodeToSplit rightPart : ℕ) : Except NodeFault (Middle κ) := do
  let keys ← insertAt (keysCapacity t) parent.keys i key
  let pointers ←
    (if parentCreated then insertAt (pointersCapacity t) parent.pointers i nodeToSplit
      else pure parent.pointers)
  let pointers ← insertAt (pointersCapacity t) pointers (i + 1) rightPart
  pure ⟨parent.isTerminate, keys, pointers⟩

def splitTerminate (t : ℕ) (tree : Tree κ υ) (nodeToSplit parentNode : ℕ) :
    Except NodeFault (Tree κ υ) := do
  let middleInd := (maximumKeysInNode t + 1) / 2
  let n ← tree.derefTerm nodeToSplit
  let middle ← get n.data middleInd
  let (tree, parent, i) ← splitParent tree parentNode middle.1
  let rightPart := tree.fresh
  let tree := tree.newNode (.term ⟨n.next, n.data.drop middleInd⟩)
  let tree := tree.setNode nodeToSplit (.term ⟨rightPart, n.data.take middleInd⟩)
  let p ← tree.derefMiddle parent
  let p ← linkParts t p (parentNode = 0) i middle.1 nodeToSplit rightPart
  pure (tree.setNode parent (.middle p))

/-- The right part keeps the `_is_terminate` of the constructor. -/
def splitMiddle (t : ℕ) (tree : Tree κ υ) (nodeToSplit parentNode : ℕ) :
    Except NodeFault (Tree κ υ) := do
  let middleInd := (maximumKeysInNode t + 1) / 2
  let n ← tree.derefMiddle nodeToSplit
  let middleKey ← get n.keys middleInd
  let (tree, parent, i) ← splitParent tree parentNode middleKey
  let rightPart := tree.fresh
  let tree := tree.newNode (.middle ⟨true, n.keys.drop middleInd, n.pointers.drop middleInd⟩)
  let p ← tree.derefMiddle parent
  let p ← linkParts t p (parentNode = 0) i middleKey nodeToSplit rightPart
  let tree := tree.setNode parent (.middle p)
  pure (tree.setNode nodeToSplit
    (.middle ⟨n.isTerminate, n.keys.take middleInd, n.pointers.take middleInd⟩))

def split (t : ℕ) (tree : Tree κ υ) (nodeToSplit parentNode : ℕ) :
    Except NodeFault (Tree κ υ) := do
  let n ← tree.deref nodeToSplit
  if n.isTerminate then splitTerminate t tree nodeToSplit parentNode
  else splitMiddle t tree nodeToSplit parentNode

/-- The loop of `insert` that splits upwards. -/
def splitLoop (t : ℕ) : ℕ → Tree κ υ → Place → Except NodeFault (Tree κ υ)
  | 0, _, _ => throw .diverged
  | turns + 1, tree, p =>
    if p.node = 0 then pure tree
    else do
      let n ← tree.deref p.node
      let size ← n.size
      if maximumKeysInNode t < size then do
        let tree ← split t tree p.node p.parentNode
        splitLoop t turns tree ⟨p.parentNode, (p.path.head?.map Prod.fst).getD 0, p.path.tail⟩
      else pure tree

def insertIntoLeaf (t turns : ℕ) (tree : Tree κ υ) (p : Place) (data : κ × υ) :
    Except NodeFault (Tree κ υ) := do
  let leaf ← tree.derefTerm p.node
  let i := lowerIndex (keyList leaf.data) data.1
  let entries ← insertAt (keysCapacity t) leaf.data i data
  let tree := tree.setNode p.node (.term ⟨leaf.next, entries⟩)
  if leaf.data.length = maximumKeysInNode t then splitLoop t turns tree p else pure tree

/-- `insert`; the iterator of a successful insert is `bptree_iterator()`. -/
def insert (t turns : ℕ) (tree : Tree κ υ) (data : κ × υ) :
    Except NodeFault (Tree κ υ × Iterator × Bool) :=
  if tree.root = 0 then
    pure ({ tree.newNode (.term ⟨0, [data]⟩) with root := tree.fresh, size := tree.size + 1 },
      ⟨0, 0⟩, true)
  else do
    match ← insertWalk tree data.1 turns ⟨tree.root, 0, []⟩ with
    | none => do
      let last ← tree.endIterator turns
      pure (tree, last, false)
    | some p => do
      let tree ← insertIntoLeaf t turns tree p data
      pure ({ tree with size := tree.size + 1 }, ⟨0, 0⟩, true)

def insertAll (t turns : ℕ) : List (κ × υ) → Tree κ υ → Except NodeFault (Tree κ υ)
  | [], tree => pure tree
  | data :: rest, tree => do
    let result ← insert t turns tree data
    insertAll t turns rest result.1

end MaiFaSp.BPlusTree
