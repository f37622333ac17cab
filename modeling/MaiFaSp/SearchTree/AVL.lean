import MaiFaSp.SearchTree.Container

/-!
# The AVL tree (`AVL_tree.h`)

A node's data is its height, a `size_t` that is computed in `int` and compared in
`short`. The small rotations are those of every search tree and leave the heights to
`rebalance`.
-/

namespace MaiFaSp.SearchTree.AVL

open LinkedTree

def height (h : Heap ℕ) (x : ℕ) : ℕ := if x = 0 then 0 else h.data x

/-- `node::recalculate_height` -/
def recalculateHeight (h : Heap ℕ) (x : ℕ) : Heap ℕ :=
  let leftHeight := Int.bmod (height h (h.left x)) (2 ^ 32)
  let rightHeight := Int.bmod (height h (h.right x)) (2 ^ 32)
  h.setData x ((1 + max leftHeight rightHeight) % 2 ^ 64).toNat

/-- `node::get_balance` -/
def getBalance (h : Heap ℕ) (x : ℕ) : ℤ :=
  let leftHeight := Int.bmod (height h (h.left x)) (2 ^ 16)
  let rightHeight := Int.bmod (height h (h.right x)) (2 ^ 16)
  Int.bmod (rightHeight - leftHeight) (2 ^ 16)

/-- The rotation in `rebalance` with the node that is at the place then. -/
def rotate (h : Heap ℕ) (x : ℕ) : Except TreeFault (Heap ℕ × ℕ) := do
  let left := h.left x
  let right := h.right x
  if getBalance h x = 2 then
    liftLink (deref right)
    if height h (h.left right) ≤ height h (h.right right) then pure (leftRotation h x)
    else pure (bigRotation .left h x)
  else if getBalance h x = -2 then
    liftLink (deref left)
    if height h (h.right left) ≤ height h (h.left left) then pure (rightRotation h x)
    else pure (bigRotation .right h x)
  else pure (h, x)

def rebalance (h : Heap ℕ) (x : ℕ) : Except TreeFault (Heap ℕ × ℕ) := do
  let (h, y) ← rotate h x
  let h := recalculateHeight h x
  let p := h.parent x
  let h := if p ≠ 0 then
      let h := if h.left p ≠ 0 then recalculateHeight h (h.left p) else h
      if h.right p ≠ 0 then recalculateHeight h (h.right p) else h
    else h
  pure (h, y)

/-- The end of a turn of both loops: a node without a parent is the root. -/
def climb (h : Heap ℕ) (cur : ℕ) : Heap ℕ × ℕ :=
  let h := recalculateHeight h cur
  let h := if h.parent cur = 0 then { h with root := cur } else h
  (h, h.parent cur)

/-- The loop of `post_insert`. -/
def insertLoop : ℕ → Heap ℕ → ℕ → Except TreeFault (Heap ℕ)
  | 0, h, cur => if cur = 0 then pure h else throw .diverged
  | n + 1, h, cur =>
    if cur = 0 then pure h
    else do
      let (h, cur) ← rebalance (recalculateHeight h cur) cur
      if cur = 0 then pure h
      else
        let (h, cur) := climb h cur
        insertLoop n h cur

def rebalanceToRoot : ℕ → Heap ℕ → ℕ → Except TreeFault (Heap ℕ)
  | 0, h, cur => if cur = 0 then pure h else throw .diverged
  | n + 1, h, cur =>
    if cur = 0 then pure h
    else do
      let (h, cur) ← rebalance h cur
      liftLink (deref cur)
      let (h, cur) := climb h cur
      rebalanceToRoot n h cur

/-- The node `m` leaves the place below its parent to its right child. -/
def detachSuccessor (h : Heap ℕ) (m : ℕ) : Heap ℕ :=
  if h.parent m ≠ 0 then
    if h.right (h.parent m) = m then h.setChild .right (h.parent m) (h.right m)
    else h.setChild .left (h.parent m) (h.right m)
  else h

/-- The links after the removal of `n` with the node that came to its place. -/
def eraseLinks (turns : ℕ) (h : Heap ℕ) (n : ℕ) : Except TreeFault (Heap ℕ × ℕ) := do
  let p := h.parent n
  if h.right n = 0 then
    liftLink (deref p)
    let h := if h.left p = n then h.setChild .left p (h.left n) else h.setChild .right p (h.left n)
    pure (h, h.left n)
  else
    liftLink (deref (h.left n))
    let m ← rightmost h turns (h.left n)
    let h := recalculateHeight (detachSuccessor h m) m
    let h := if h.parent n ≠ 0 then
        (if h.right (h.parent n) = n then h.setChild .right (h.parent n) m
          else h.setChild .left (h.parent n) m)
      else h
    pure (seatPredecessor h n m, m)

section Container

variable {κ υ : Type}

/-- `bst_impl<AVL_TAG>::post_insert` -/
def postInsert (turns : ℕ) (t : Tree κ υ ℕ) (x : ℕ) : Except TreeFault (Tree κ υ ℕ) := do
  let h ← insertLoop turns t.heap x
  pure { t with heap := h }

/-- `bst_impl<AVL_TAG>::erase` -/
def erase (turns : ℕ) (t : Tree κ υ ℕ) (n : ℕ) : Except TreeFault (Tree κ υ ℕ) := do
  if n = 0 then throw .outOfRange
  else
    let (h, m) ← eraseLinks turns t.heap n
    let h := if h.parent n = 0 then { h with root := m } else h
    let h ← rebalanceToRoot turns h m
    pure { t with heap := h }.shrunk

/-- The tag of `AVL_tree`. -/
def avlTree : BstImpl κ υ ℕ := ⟨0, postInsert, erase⟩

end Container

/-! ### A tree of one node -/

section One

variable {h : Heap ℕ} {x turns : ℕ}

theorem recalculateHeight_links (h : Heap ℕ) (x y : ℕ) :
    (recalculateHeight h x).left y = h.left y ∧ (recalculateHeight h x).right y = h.right y ∧
      (recalculateHeight h x).parent y = h.parent y := by
  obtain ⟨d, hd⟩ : ∃ d, recalculateHeight h x = h.setData x d := ⟨_, rfl⟩
  rw [hd]
  unfold Heap.left Heap.right Heap.parent
  rw [Heap.cell_setData]
  split <;> exact ⟨rfl, rfl, rfl⟩

theorem rebalance_alone (hleft : h.left x = 0) (hright : h.right x = 0) (hparent : h.parent x = 0) :
    rebalance h x = .ok (recalculateHeight h x, x) := by
  have hbalance : getBalance h x = 0 := by
    unfold getBalance height
    rw [hleft, hright, if_pos rfl]
    rfl
  have hrotate : rotate h x = .ok (h, x) := by
    unfold rotate
    rw [hbalance]
    rfl
  have hparent' : (recalculateHeight h x).parent x = 0 :=
    (recalculateHeight_links h x x).2.2.trans hparent
  unfold rebalance
  rw [hrotate]
  show (Except.ok (if (recalculateHeight h x).parent x ≠ 0 then _ else recalculateHeight h x, x) :
    Except TreeFault (Heap ℕ × ℕ)) = _
  rw [if_neg (not_not.mpr hparent')]

theorem climb_alone (hparent : h.parent x = 0) :
    climb h x = ({ recalculateHeight h x with root := x }, 0) := by
  have hup := (recalculateHeight_links h x x).2.2.trans hparent
  unfold climb
  dsimp only
  rw [if_pos hup]
  exact Prod.ext rfl hup

theorem insertLoop_alone (hx : x ≠ 0) (hleft : h.left x = 0) (hright : h.right x = 0)
    (hparent : h.parent x = 0) {h' : Heap ℕ} (hok : insertLoop turns h x = .ok h') : h'.root = x := by
  cases turns with
  | zero =>
    rw [insertLoop, if_neg hx] at hok
    cases hok
  | succ n =>
    obtain ⟨hl, hr, hp⟩ := recalculateHeight_links h x x
    have hp' := hp.trans hparent
    rw [insertLoop, if_neg hx, rebalance_alone (hl.trans hleft) (hr.trans hright) hp'] at hok
    have hup := (recalculateHeight_links (recalculateHeight h x) x x).2.2.trans hp'
    have hok : (if x = 0 then pure (recalculateHeight (recalculateHeight h x) x)
        else insertLoop n (climb (recalculateHeight (recalculateHeight h x) x) x).1
          (climb (recalculateHeight (recalculateHeight h x) x) x).2) = .ok h' := hok
    rw [if_neg hx, climb_alone hup] at hok
    cases n <;> cases hok <;> rfl

end One

end MaiFaSp.SearchTree.AVL
