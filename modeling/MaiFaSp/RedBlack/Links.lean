import MaiFaSp.Lib.RedBlackShape
import MaiFaSp.Lib.TreeSurgery

/-!
# The red-black code of the two trees

`rb_tree_insert` and `rb_tree_remove` of the allocator
(`allocator_red_black_tree.cpp:322-609`) and `post_insert` and `erase` of the
container (`red_black_tree.h:639-908`) are the same text over nodes of two types.
They call the small rotations of their own class, which are the parameter `rot`:
`rot .left h v` rotates to the left at the node that the variable `v` points to.

A null pointer is address 0; what is read through a pointer that the code has not
tested is read after `deref`. The loops have a bound on their turns, and running
out of it is the fault `diverged`.
-/

namespace MaiFaSp.RedBlack

open LinkedTree

/-- A small rotation of the class that the tree belongs to. -/
abbrev Rotation := Side → Heap Color → Ref → Heap Color

/-! ### Insertion -/

/-- The loop that goes down to where a node is inserted: the last node before null. -/
def searchParent (h : Heap Color) (goLeft : ℕ → Bool) : ℕ → ℕ → ℕ → Except LinkFault ℕ
  | 0, _, _ => throw .diverged
  | n + 1, parent, node =>
    if node = 0 then pure parent
    else searchParent h goLeft n node (if goLeft node then h.left node else h.right node)

/-- A turn of the loop after an insertion, with the parent of `z` the child of `grand` on `side`. -/
def insertTurn (rot : Rotation) (side : Side) (h : Heap Color) (z parent grand : ℕ) :
    Except LinkFault (Heap Color × ℕ) := do
  let uncle := h.child side.other grand
  -- 1. the uncle is red
  if uncle ≠ 0 ∧ h.data uncle = .red then
    pure (((h.setData parent .black).setData uncle .black).setData grand .red, grand)
  else
    -- 2. `z` is the child on the inner side
    let (h, z, parent) :=
      if z = h.child side.other parent then
        let h := rot side h (h.linkTo parent)
        (h, parent, h.parent parent)
      else (h, z, parent)
    -- 3. `z` is the child on the outer side
    deref parent
    let h := (h.setData parent .black).setData grand .red
    pure (rot side.other h (h.linkTo grand), z)

def insertLoop (rot : Rotation) : ℕ → Heap Color → ℕ → Except LinkFault (Heap Color)
  | 0, _, _ => throw .diverged
  | n + 1, h, z => do
    if z = h.root then pure h
    else
      deref z
      deref (h.parent z)
      if h.data (h.parent z) ≠ .red then pure h
      else
        let parent := h.parent z
        let grand := h.parent parent
        deref grand
        let side := if parent = h.left grand then Side.left else Side.right
        let (h, z) ← insertTurn rot side h z parent grand
        insertLoop rot n h z

/-- The colours are set right after `z` was linked in. -/
def insertFix (rot : Rotation) (turns : ℕ) (h : Heap Color) (z : ℕ) :
    Except LinkFault (Heap Color) := do
  let h ← insertLoop rot turns h z
  deref h.root
  pure (h.setData h.root .black)

/-! ### Removal -/

/-- `color`: null is black. -/
def color (h : Heap Color) (p : ℕ) : Color := if p = 0 then .black else h.data p

/-- `child_is_black`. -/
def childIsBlack (h : Heap Color) (p : ℕ) (side : Side) : Bool :=
  color h (if p = 0 then 0 else h.child side p) = .black

def transplant (h : Heap Color) (u v : ℕ) : Heap Color :=
  let h := h.set (h.linkTo u) v
  if v ≠ 0 then h.setParent v (h.parent u) else h

def maximum (h : Heap Color) : ℕ → ℕ → Except LinkFault ℕ
  | 0, _ => throw .diverged
  | n + 1, x => if h.right x ≠ 0 then maximum h n (h.right x) else pure x

/-- `y`, the last node to the left of `z`, gives its place to `x` and takes over the left
subtree of `z`. -/
def takeLeft (h : Heap Color) (z y x : ℕ) : Except LinkFault (Heap Color) :=
  if h.parent y = z then pure (if x ≠ 0 then h.setParent x y else h)
  else do
    let h := transplant h y x
    let h := h.setChild .left y (h.left z)
    deref (h.left y)
    pure (h.setParent (h.left y) y)

/-- `y` comes to the place of `z` and takes over its right subtree and its colour. -/
def takePlace (h : Heap Color) (z y : ℕ) : Except LinkFault (Heap Color) := do
  let h := transplant h z y
  let h := h.setChild .right y (h.right z)
  deref (h.right y)
  let h := h.setParent (h.right y) y
  pure (h.setData y (h.data z))

/-- Takes `z` out of the links. The results are `x`, which has come to the place of
the node that was moved or removed, and the colour `oc` of that node. -/
def unlink (turns : ℕ) (h : Heap Color) (z : ℕ) : Except LinkFault (Heap Color × ℕ × Color) := do
  deref z
  if h.left z = 0 ∨ h.right z = 0 then
    let x := if h.left z ≠ 0 then h.left z else h.right z
    pure (transplant h z x, x, h.data z)
  else
    let y ← maximum h turns (h.left z)
    let oc := h.data y
    let x := h.left y
    let h ← takeLeft h z y x
    let h ← takePlace h z y
    pure (h, x, oc)

/-- 1. `w`, the sibling of a child on `side`, is red. -/
def redSibling (rot : Rotation) (side : Side) (h : Heap Color) (xp w : ℕ) : Heap Color × ℕ :=
  if color h w = .red then
    let h := (h.setData w .black).setData xp .red
    let h := rot side h (h.linkTo xp)
    (h, h.child side.other xp)
  else (h, w)

/-- 3. for a left child: the left child of `w` is red and the right one is black. -/
def innerRedLeft (rot : Rotation) (h : Heap Color) (xp w : ℕ) : Heap Color × ℕ :=
  if ¬ childIsBlack h w .left ∧ childIsBlack h w .right then
    let h := (h.setData (h.left w) .black).setData w .red
    let h := rot .right h (h.linkTo w)
    (h, h.right xp)
  else (h, w)

/-- 3. for a right child. The rotation is at `xp`, not at `w`. -/
def innerRedRight (rot : Rotation) (h : Heap Color) (xp w : ℕ) : Heap Color × ℕ :=
  if ¬ childIsBlack h w .right ∧ childIsBlack h w .left then
    let h := (h.setData (h.right w) .black).setData w .red
    let h := rot .left h (h.linkTo xp)
    (h, h.left xp)
  else (h, w)

/-- A turn of the loop with `x == xp->left`. It goes on with `xp` when the result says so. -/
def removeTurnLeft (rot : Rotation) (h : Heap Color) (xp w : ℕ) :
    Except LinkFault (Heap Color × Bool) := do
  let (h, w) := redSibling rot .left h xp w
  -- 2. both children of `w` are black
  if childIsBlack h w .left ∧ childIsBlack h w .right then
    pure (if w ≠ 0 then h.setData w .red else h, true)
  else
    let (h, w) := innerRedLeft rot h xp w
    -- 4. the right child of `w` is red
    deref w
    let h := (h.setData w (h.data xp)).setData xp .black
    let h := if h.right w ≠ 0 then h.setData (h.right w) .black else h
    pure (rot .left h (h.linkTo xp), false)

/-- A turn of the loop with `x == xp->right`, where the left child of `w` is not tested in 4. -/
def removeTurnRight (rot : Rotation) (h : Heap Color) (xp w : ℕ) :
    Except LinkFault (Heap Color × Bool) := do
  let (h, w) := redSibling rot .right h xp w
  if childIsBlack h w .left ∧ childIsBlack h w .right then
    pure (if w ≠ 0 then h.setData w .red else h, true)
  else
    let (h, w) := innerRedRight rot h xp w
    deref w
    let h := (h.setData w (h.data xp)).setData xp .black
    deref (h.left w)
    let h := h.setData (h.left w) .black
    pure (rot .right h (h.linkTo xp), false)

def removeTurn (rot : Rotation) (h : Heap Color) (x xp w : ℕ) :
    Except LinkFault (Heap Color × Bool) :=
  if x = h.left xp then removeTurnLeft rot h xp w else removeTurnRight rot h xp w

/-- The loop after the removal of a black node, with the `x` it ends at. -/
def removeLoop (rot : Rotation) : ℕ → Heap Color → ℕ → Except LinkFault (Heap Color × ℕ)
  | 0, _, _ => throw .diverged
  | n + 1, h, x => do
    if x = h.root ∨ color h x ≠ .black then pure (h, x)
    else
      let xp := if x ≠ 0 then h.parent x else 0
      if xp = 0 then pure (if x ≠ 0 then h.setData x .black else h, x)
      else
        -- `get_sibling`
        let w := if x = h.left xp then h.right xp else h.left xp
        if w = 0 then removeLoop rot n h xp
        else
          let (h, again) ← removeTurn rot h x xp w
          if again then removeLoop rot n h xp else pure (h, x)

/-- The colours are set right after a removal. The result says where the loop ended. -/
def removeFix (rot : Rotation) (turns : ℕ) (h : Heap Color) (x : ℕ) (oc : Color) :
    Except LinkFault (Heap Color × ℕ) := do
  if oc = .black then
    let (h, x) ← removeLoop rot turns h x
    pure (if x ≠ 0 then h.setData x .black else h, x)
  else pure (h, x)

def removeNode (rot : Rotation) (turns : ℕ) (h : Heap Color) (z : ℕ) :
    Except LinkFault (Heap Color × ℕ) := do
  let (h, x, oc) ← unlink turns h z
  removeFix rot turns h x oc

end MaiFaSp.RedBlack
