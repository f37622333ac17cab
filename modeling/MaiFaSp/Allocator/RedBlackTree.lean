import MaiFaSp.Allocator.FitMode
import MaiFaSp.Lib.AllocatorRun
import MaiFaSp.Lib.ByteMemory
import MaiFaSp.RedBlack.Links

/-!
# `allocator_red_black_tree` (`allocator_red_black_tree.cpp`)

Blocks lie end to end and are linked in the order of their addresses; the free ones
are the nodes of a red-black tree by size. A block's header is packed: a byte with the
flag and the colour, then 8 bytes each of the previous block, the next block and the
parent (25 bytes), and for a free block 8 bytes each of the two children (41 bytes).
The parent of an occupied block is `_trusted_memory`.

The code is given over any memory of such headers: one that keeps every header as a
record of its own, and one of bytes. The tree code runs on the nodes of the tree as
records, whose headers are written afterwards. The allocator's own metadata, which lies
below the first block, is kept in fields. A null pointer is address 0.
-/

namespace MaiFaSp

open Memory LinkedTree

/-- What a header says. The children are meant for free blocks only. -/
structure Header where
  occupied : Bool
  back : ℕ
  forward : ℕ
  node : Cell Color

/-- A memory with headers at addresses; the setters are the assignments of the code. -/
class HeaderMemory (σ : Type) where
  get : σ → ℕ → Header
  setOccupied : σ → ℕ → Bool → σ
  setBack : σ → ℕ → ℕ → σ
  setForward : σ → ℕ → ℕ → σ
  setParent : σ → ℕ → ℕ → σ
  setNode : σ → ℕ → Cell Color → σ
  write : σ → ℕ → UInt8 → σ

structure RedBlackAllocator (σ : Type) where
  trusted : ℕ
  fitMode : FitMode
  size : ℕ
  root : ℕ
  memory : σ

namespace RedBlackAllocator

def allocatorMetadataSize : ℕ := 80

/-- `sizeof(block_metadata)` -/
def blockMetadataSize : ℕ := 25

/-- `sizeof(free_block_metadata)` -/
def freeBlockMetadataSize : ℕ := 41

/-! ### The tree code on records -/

section Tree

/-- `rb_small_left_rotation`, and with `.right` its mirror image. -/
def smallRotation (s : Side) (h : Heap Color) (k : Ref) : Heap Color :=
  let a := h.get k
  if a = 0 ∨ h.child s.other a = 0 then h
  else
    let c := h.child s.other a
    let b := h.child s c
    let p := h.parent a
    let h := if p ≠ 0 then
        (if a = h.left p then h.setChild .left p c else h.setChild .right p c)
      else h
    let h := h.setParent c (h.parent a)
    let h := h.setChild s c a
    let h := h.setParent a c
    let h := h.setChild s.other a b
    let h := if b ≠ 0 then h.setParent b a else h
    h.set k c

/-- The nodes below `x`, in order. -/
def nodesBelow (h : Heap Color) : ℕ → ℕ → List ℕ
  | 0, _ => []
  | n + 1, x => if x = 0 then [] else nodesBelow h n (h.left x) ++ x :: nodesBelow h n (h.right x)

end Tree

variable {σ : Type} [HeaderMemory σ]

open HeaderMemory (get)

def occupied (s : RedBlackAllocator σ) (block : ℕ) : Bool := (get s.memory block).occupied

def back (s : RedBlackAllocator σ) (block : ℕ) : ℕ := (get s.memory block).back

def forward (s : RedBlackAllocator σ) (block : ℕ) : ℕ := (get s.memory block).forward

def parent (s : RedBlackAllocator σ) (block : ℕ) : ℕ := (get s.memory block).node.parent

def setOccupied (s : RedBlackAllocator σ) (block : ℕ) (v : Bool) : RedBlackAllocator σ :=
  { s with memory := HeaderMemory.setOccupied s.memory block v }

def setBack (s : RedBlackAllocator σ) (block v : ℕ) : RedBlackAllocator σ :=
  { s with memory := HeaderMemory.setBack s.memory block v }

def setForward (s : RedBlackAllocator σ) (block v : ℕ) : RedBlackAllocator σ :=
  { s with memory := HeaderMemory.setForward s.memory block v }

def setParent (s : RedBlackAllocator σ) (block v : ℕ) : RedBlackAllocator σ :=
  { s with memory := HeaderMemory.setParent s.memory block v }

/-- The first block. -/
def base (s : RedBlackAllocator σ) : ℕ := s.trusted + allocatorMetadataSize

def allocatorEnd (s : RedBlackAllocator σ) : ℕ := base s + s.size

/-- `get_size` -/
def getSize (s : RedBlackAllocator σ) (block : ℕ) : ℕ :=
  if forward s block ≠ 0 then sizeSub (sizeSub (forward s block) block) blockMetadataSize
  else sizeSub (sizeSub (allocatorEnd s) block) blockMetadataSize

/-- Bounds the turns of the loops: a block has a header, so there are fewer. -/
def turns (s : RedBlackAllocator σ) : ℕ := s.size + 1

/-- The constructor, on the region the parent allocator returned. -/
def construct (trusted spaceSize : ℕ) (mode : FitMode) (m : σ) :
    Except AllocFault (RedBlackAllocator σ) :=
  if spaceSize = 0 then throw .logicError
  else
    let block := trusted + allocatorMetadataSize
    let m := HeaderMemory.setOccupied m block false
    let m := HeaderMemory.setBack m block 0
    let m := HeaderMemory.setForward m block 0
    let m := HeaderMemory.setNode m block ⟨0, 0, 0, .black⟩
    pure ⟨trusted, mode, spaceSize, block, m⟩

/-! ### The tree of the free blocks -/

/-- The tree as records. -/
def heap (s : RedBlackAllocator σ) : Heap Color := ⟨s.root, fun x => (get s.memory x).node⟩

/-- The headers of the given nodes after the tree code ran on their records. -/
def writeNodes (m : σ) (h : Heap Color) (xs : List ℕ) : σ :=
  xs.foldl (fun m x => HeaderMemory.setNode m x (h.cell x)) m

def putNodes (s : RedBlackAllocator σ) (h : Heap Color) (xs : List ℕ) : RedBlackAllocator σ :=
  { s with root := h.root, memory := writeNodes s.memory h xs }

def nodes (s : RedBlackAllocator σ) : List ℕ := nodesBelow (heap s) (turns s) s.root

def liftLink {α : Type} : Except LinkFault α → Except AllocFault α
  | .ok a => .ok a
  | .error .nullDereference => .error .nullDereference
  | .error .diverged => .error .diverged

/-- The node `z` linked in below the last node on the way down. -/
def linkBlock (s : RedBlackAllocator σ) (z : ℕ) : Except LinkFault (Heap Color) := do
  let h := (heap s).modify z fun c => ⟨0, 0, c.parent, .red⟩
  let p ← RedBlack.searchParent h (fun node => getSize s z < getSize s node) (turns s + 1) 0 h.root
  let h := h.setParent z p
  if p = 0 then pure { h with root := z }
  else if getSize s z < getSize s p then pure (h.setChild .left p z)
  else pure (h.setChild .right p z)

/-- `rb_tree_insert` -/
def rbTreeInsert (s : RedBlackAllocator σ) (z : ℕ) : Except AllocFault (RedBlackAllocator σ) := do
  let h ← liftLink (linkBlock s z)
  let h ← liftLink (RedBlack.insertFix smallRotation (turns s) h z)
  pure (putNodes s h (z :: nodes s))

/-- `rb_tree_remove` -/
def rbTreeRemove (s : RedBlackAllocator σ) (z : ℕ) : Except AllocFault (RedBlackAllocator σ) := do
  let (h, _) ← liftLink (RedBlack.removeNode smallRotation (turns s) (heap s) z)
  pure (putNodes s h (nodes s))

/-! ### Allocation -/

/-- The loop of `get_first_free_block`. -/
def firstFit (s : RedBlackAllocator σ) (size : ℕ) : ℕ → ℕ → Except AllocFault ℕ
  | 0, block => if block = 0 then pure 0 else throw .diverged
  | n + 1, block =>
    if block = 0 then pure 0
    else if getSize s block ≥ size then pure block
    else firstFit s size n ((heap s).right block)

/-- The loop of `get_best_free_block`. -/
def bestFit (s : RedBlackAllocator σ) (size : ℕ) : ℕ → ℕ → ℕ → Except AllocFault ℕ
  | 0, best, block => if block = 0 then pure best else throw .diverged
  | n + 1, best, block =>
    if block = 0 then pure best
    else
      let best := if getSize s block ≥ size then block else best
      if getSize s block < size then bestFit s size n best ((heap s).right block)
      else if getSize s block > size then bestFit s size n best ((heap s).left block)
      else pure best

/-- The loop of `get_worst_free_block`. -/
def worstFit (s : RedBlackAllocator σ) (size : ℕ) : ℕ → ℕ → ℕ → Except AllocFault ℕ
  | 0, worst, block => if block = 0 then pure worst else throw .diverged
  | n + 1, worst, block =>
    if block = 0 then pure worst
    else
      let worst := if getSize s block ≥ size then block else worst
      worstFit s size n worst ((heap s).right block)

def getFreeBlock (s : RedBlackAllocator σ) (size : ℕ) : Except AllocFault ℕ :=
  match s.fitMode with
  | .firstFit => firstFit s size (turns s) s.root
  | .theBestFit => bestFit s size (turns s) 0 s.root
  | .theWorstFit => worstFit s size (turns s) 0 s.root

/-- `for (auto it = begin(); it != end(); ++it)`: the sizes and flags of the blocks. -/
def blocksFrom (s : RedBlackAllocator σ) : ℕ → ℕ → Except AllocFault (List (ℕ × Bool))
  | 0, block => if block = 0 then pure [] else throw .diverged
  | n + 1, block =>
    if block = 0 then pure []
    else do
      let blocks ← blocksFrom s n (forward s block)
      pure ((getSize s block, occupied s block) :: blocks)

/-- What is computed for the logger: `available_memory` and `print_blocks`. -/
def report (s : RedBlackAllocator σ) : Except AllocFault Unit := do
  let _ ← blocksFrom s (turns s) (base s)
  pure ()

/-- `can_split` -/
def canSplit (s : RedBlackAllocator σ) (block size : ℕ) : Prop :=
  getSize s block ≥ sizeAdd (sizeAdd size blockMetadataSize) freeBlockMetadataSize

instance (s : RedBlackAllocator σ) (block size : ℕ) : Decidable (canSplit s block size) :=
  inferInstanceAs (Decidable (_ ≥ _))

/-- The free block `z` behind the block `taken`. -/
def splitBlock (s : RedBlackAllocator σ) (taken z : ℕ) : RedBlackAllocator σ :=
  let s := setForward s z (forward s taken)
  let s := setBack s z taken
  let s := setForward s taken z
  let s := if forward s z ≠ 0 then setBack s (forward s z) z else s
  let s := setOccupied s z false
  setParent s z 0

/-- `do_allocate_sm` -/
def allocate (s : RedBlackAllocator σ) (size : ℕ) : Except AllocFault (ℕ × RedBlackAllocator σ) := do
  let taken ← getFreeBlock s size
  if taken = 0 then throw .badAlloc
  else do
    let s ← rbTreeRemove s taken
    let s := setOccupied s taken true
    let s := setParent s taken s.trusted
    let s ← if canSplit s taken size then
        let z := taken + sizeAdd size blockMetadataSize
        rbTreeInsert (splitBlock s taken z) z
      else pure s
    report s
    pure (taken + blockMetadataSize, s)

/-! ### Deallocation -/

/-- The block becomes part of a free block before it. -/
def mergeBack (s : RedBlackAllocator σ) (block : ℕ) :
    Except AllocFault (ℕ × RedBlackAllocator σ) := do
  if back s block ≠ 0 ∧ ¬ occupied s (back s block) then
    let prev := back s block
    let s ← rbTreeRemove s prev
    let s := setForward s prev (forward s block)
    let s := if forward s prev ≠ 0 then setBack s (forward s prev) prev else s
    pure (prev, s)
  else pure (block, s)

/-- A free block behind the block becomes part of it. -/
def mergeForward (s : RedBlackAllocator σ) (block : ℕ) : Except AllocFault (RedBlackAllocator σ) := do
  if forward s block ≠ 0 ∧ ¬ occupied s (forward s block) then
    let fwd := forward s block
    let s ← rbTreeRemove s fwd
    let s := setForward s block (forward s fwd)
    pure (if forward s block ≠ 0 then setBack s (forward s block) block else s)
  else pure s

/-- `do_deallocate_sm` -/
def deallocate (s : RedBlackAllocator σ) (payload : ℕ) : Except AllocFault (RedBlackAllocator σ) := do
  let block := sizeSub payload blockMetadataSize
  if parent s block ≠ s.trusted then throw .logicError
  else do
    let s := setOccupied s block false
    let (block, s) ← mergeBack s block
    let s ← mergeForward s block
    let s ← rbTreeInsert s block
    report s
    pure s

/-- The operations as a client sees them. -/
def ops : AllocatorOps (RedBlackAllocator σ) FitMode where
  allocate := allocate
  deallocate := deallocate
  setMode s mode := { s with fitMode := mode }
  write s a v := { s with memory := HeaderMemory.write s.memory a v }
  writable p size a := p ≤ a ∧ a < p + size

end RedBlackAllocator

end MaiFaSp
