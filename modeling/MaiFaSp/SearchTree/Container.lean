import MaiFaSp.Lib.TreeSurgery

/-!
# The search trees (`binary_search_tree.h`)

The container that the plain, the AVL, the red-black and the splay tree share: its
links, the rotations, the search and the insertion. What a tag specialises in
`bst_impl` is a record of operations. The entries stay at their nodes, so they are
kept apart from the links; a cell has what the tag adds to a node.

Null is address 0. A pointer that the code follows without a test is followed
after `deref`, and the loops have a bound on their turns.
-/

namespace MaiFaSp.SearchTree

open LinkedTree

inductive TreeFault where
  | nullDereference
  | diverged
  | outOfRange
  deriving Repr, DecidableEq

def TreeFault.ofLink : LinkFault → TreeFault
  | .nullDereference => .nullDereference
  | .diverged => .diverged

/-- A computation on the links inside one on the container. -/
def liftLink {α : Type} : Except LinkFault α → Except TreeFault α
  | .ok a => .ok a
  | .error e => .error (.ofLink e)

/-- `binary_search_tree`, with the entry of each node. -/
structure Tree (κ υ τ : Type) where
  heap : Heap τ
  entry : ℕ → κ × υ
  size : ℕ

/-! ### Rotations -/

section Rotations

variable {τ : Type}

/-- `x->parent = v` if there is an `x`. -/
def setParentOf (h : Heap τ) (x v : ℕ) : Heap τ := if x ≠ 0 then h.setParent x v else h

/-- The pointer from the parent of `a`, if there is one, comes to point to `c`. -/
def relinkParent (h : Heap τ) (a c : ℕ) : Heap τ :=
  if h.parent a ≠ 0 then
    if a = h.left (h.parent a) then h.setChild .left (h.parent a) c
    else h.setChild .right (h.parent a) c
  else h

/-- `small_left_rotation` at the node `a`; the second result is what its argument refers to then. -/
def leftRotation (h : Heap τ) (a : ℕ) : Heap τ × ℕ :=
  if a = 0 then (h, a)
  else if h.right a = 0 then (h, a)
  else
    let b := h.left a
    let c := h.right a
    let d := h.left c
    let e := h.right c
    let h := relinkParent h a c
    let h := h.setChild .left c a
    let h := h.setParent c (h.parent a)
    let h := h.setParent a c
    let h := h.setChild .right c e
    let h := setParentOf h e c
    let h := h.setChild .left a b
    let h := setParentOf h b a
    let h := h.setChild .right a d
    (setParentOf h d a, c)

/-- `small_right_rotation`. -/
def rightRotation (h : Heap τ) (a : ℕ) : Heap τ × ℕ :=
  if a = 0 then (h, a)
  else if h.left a = 0 then (h, a)
  else
    let b := h.left a
    let c := h.right a
    let d := h.left b
    let e := h.right b
    let h := relinkParent h a b
    let h := h.setChild .left b d
    let h := h.setParent b (h.parent a)
    let h := setParentOf h d b
    let h := h.setChild .right b a
    let h := h.setParent a b
    let h := h.setChild .left a e
    let h := setParentOf h e a
    let h := h.setChild .right a c
    (setParentOf h c a, b)

def rotation : Side → Heap τ → ℕ → Heap τ × ℕ
  | .left => leftRotation
  | .right => rightRotation

/-- A small rotation at a pointer that is stored in the tree. -/
def smallRotation (s : Side) (h : Heap τ) (k : Ref) : Heap τ :=
  let (h', c) := rotation s h (h.get k)
  h'.set k c

/-- `big_left_rotation` and `big_right_rotation` at the node `a`. -/
def bigRotation (s : Side) (h : Heap τ) (a : ℕ) : Heap τ × ℕ :=
  if h.child s.other a = 0 then (h, a)
  else rotation s (smallRotation s.other h (.child s.other a)) a

/-- `double_left_rotation` and `double_right_rotation`. -/
def doubleRotation (s : Side) (h : Heap τ) (a : ℕ) : Heap τ × ℕ :=
  if h.child s.other a = 0 ∨ h.child s.other (h.child s.other a) = 0 then (h, a)
  else
    let (h, a) := rotation s h a
    rotation s h a

end Rotations

/-! ### The container -/

section Operations

variable {κ υ τ : Type} [DecidableEq κ] (lt : κ → κ → Bool)

/-- What `bst_impl` does for a tag: the data of a new node, `post_insert` and `erase`. Both have a
bound on the turns of their loops. -/
structure BstImpl (κ υ τ : Type) where
  newData : τ
  postInsert : ℕ → Tree κ υ τ → ℕ → Except TreeFault (Tree κ υ τ)
  erase : ℕ → Tree κ υ τ → ℕ → Except TreeFault (Tree κ υ τ)

def empty (d : τ) (e : κ × υ) : Tree κ υ τ := ⟨⟨0, fun _ => ⟨0, 0, 0, d⟩⟩, fun _ => e, 0⟩

def key (t : Tree κ υ τ) (x : ℕ) : κ := (t.entry x).1

/-- `go_to_node_with_key`; `lt` is `compare_keys`. -/
def goToNodeWithKey (t : Tree κ υ τ) (k : κ) : ℕ → ℕ → Except TreeFault ℕ
  | 0, current => if current = 0 then pure 0 else throw .diverged
  | n + 1, current =>
    if current = 0 then pure 0
    else if k = key t current then pure current
    else if lt k (key t current) then goToNodeWithKey t k n (t.heap.left current)
    else goToNodeWithKey t k n (t.heap.right current)

/-- The loop of `insert`: the last node before null. -/
def insertPlace (t : Tree κ υ τ) (k : κ) : ℕ → ℕ → ℕ → Except TreeFault ℕ
  | 0, prev, current => if current = 0 then pure prev else throw .diverged
  | n + 1, prev, current =>
    if current = 0 then pure prev
    else if lt k (key t current) then insertPlace t k n current (t.heap.left current)
    else insertPlace t k n current (t.heap.right current)

variable (impl : BstImpl κ υ τ)

/-- A new node `x` with the parent `prev`. -/
def createNode (t : Tree κ υ τ) (x prev : ℕ) (e : κ × υ) : Tree κ υ τ :=
  { t with
    heap := t.heap.modify x fun _ => ⟨0, 0, prev, impl.newData⟩
    entry := Function.update t.entry x e }

def linkNode (t : Tree κ υ τ) (x prev : ℕ) (e : κ × υ) : Tree κ υ τ :=
  { t with heap := t.heap.setChild (if lt e.1 (key t prev) then .left else .right) prev x }

def Tree.setRoot (t : Tree κ υ τ) (x : ℕ) : Tree κ υ τ := { t with heap := { t.heap with root := x } }

/-- `++_size`, a `size_t`. -/
def Tree.grown (t : Tree κ υ τ) : Tree κ υ τ := { t with size := (t.size + 1) % 2 ^ 64 }

/-- `--_size` -/
def Tree.shrunk (t : Tree κ υ τ) : Tree κ υ τ := { t with size := (t.size + 2 ^ 64 - 1) % 2 ^ 64 }

/-- `insert(const value_type &)`; the allocator gives the node `x`. -/
def insert (turns : ℕ) (t : Tree κ υ τ) (x : ℕ) (e : κ × υ) : Except TreeFault (Tree κ υ τ) := do
  let prev ← insertPlace lt t e.1 turns 0 t.heap.root
  let t := createNode impl t x prev e
  if prev = 0 then impl.postInsert turns (t.setRoot x) x
  else impl.postInsert turns (linkNode lt t x prev e).grown x

/-- `insert(value_type &&)` counts after `post_insert`. -/
def insertMoved (turns : ℕ) (t : Tree κ υ τ) (x : ℕ) (e : κ × υ) :
    Except TreeFault (Tree κ υ τ) := do
  let prev ← insertPlace lt t e.1 turns 0 t.heap.root
  let t := createNode impl t x prev e
  if prev = 0 then impl.postInsert turns (t.setRoot x) x
  else
    let t ← impl.postInsert turns (linkNode lt t x prev e) x
    pure t.grown

/-- `erase(const tkey &)` -/
def eraseKey (turns : ℕ) (t : Tree κ υ τ) (k : κ) : Except TreeFault (Tree κ υ τ) := do
  let n ← goToNodeWithKey lt t k turns t.heap.root
  impl.erase turns t n

end Operations

/-! ### The plain tree -/

section Plain

variable {κ υ τ : Type}

/-- The last node to the right. -/
def rightmost (h : Heap τ) : ℕ → ℕ → Except TreeFault ℕ
  | 0, x => if h.right x = 0 then pure x else throw .diverged
  | n + 1, x => if h.right x = 0 then pure x else rightmost h n (h.right x)

/-- The pointer from `p` to `n` comes to point to `v`; `p` is followed. -/
def replaceChild (h : Heap τ) (p n v : ℕ) : Except TreeFault (Heap τ) := do
  liftLink (deref p)
  pure (if h.left p = n then h.setChild .left p v else h.setChild .right p v)

/-- The parent of `n` comes to point to the predecessor `m`, which leaves its own place. -/
def detachPredecessor (h : Heap τ) (n m : ℕ) : Except TreeFault (Heap τ) := do
  let p := h.parent n
  let h := if p ≠ 0 then
      (if h.right p = n then h.setChild .right p m else h.setChild .left p m)
    else h
  if h.parent m ≠ 0 then
    if h.right (h.parent m) = m then pure (h.setChild .right (h.parent m) (h.left m))
    else
      -- the parent of `n` is written to here, not that of `m`
      liftLink (deref (h.parent n))
      pure (h.setChild .left (h.parent n) (h.left m))
  else pure h

/-- `m` takes over the children and the parent of `n`. -/
def seatPredecessor (h : Heap τ) (n m : ℕ) : Heap τ :=
  let h := if h.parent m = n then h.setChild .right m (h.right n)
    else
      let h := h.setChild .left m (h.left n)
      h.setChild .right m (h.right n)
  let h := h.setParent m (h.parent n)
  let h := setParentOf h (h.left m) m
  setParentOf h (h.right m) m

/-- Both children: the last node to the left comes to the place of `n`. -/
def erasePredecessor (turns : ℕ) (h : Heap τ) (n : ℕ) : Except TreeFault (Heap τ × ℕ) := do
  let m ← rightmost h turns (h.left n)
  let h ← detachPredecessor h n m
  pure (seatPredecessor h n m, m)

/-- The links after the removal of `n` with the node that came to its place. -/
def eraseLinks (turns : ℕ) (h : Heap τ) (n : ℕ) : Except TreeFault (Heap τ × ℕ) := do
  let p := h.parent n
  if h.left n = 0 ∧ h.right n = 0 then
    let h ← replaceChild h p n 0
    pure (h, 0)
  else if h.right n = 0 then
    let m := h.left n
    let h ← replaceChild h p n m
    pure (h.setParent m (h.parent n), m)
  else if h.left n = 0 then
    let m := h.right n
    let h := if p ≠ 0 then
        (if h.left p = n then h.setChild .left p m else h.setChild .right p m)
      else { h with root := m }
    pure (h.setParent m (h.parent n), m)
  else erasePredecessor turns h n

/-- `bst_impl::erase`. -/
def erase (turns : ℕ) (t : Tree κ υ τ) (n : ℕ) : Except TreeFault (Tree κ υ τ) := do
  if n = 0 then throw .outOfRange
  else
    let (h, m) ← eraseLinks turns t.heap n
    let h := if h.parent n = 0 then { h with root := m } else h
    pure { t with heap := h }.shrunk

/-- The tag of `binary_search_tree`. -/
def plain : BstImpl κ υ Unit := ⟨(), fun _ t _ => pure t, erase⟩

end Plain

end MaiFaSp.SearchTree
