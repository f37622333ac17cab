import MaiFaSp.Allocator.FitMode
import MaiFaSp.Lib.AllocatorRun
import MaiFaSp.Lib.ByteMemory

/-!
# `allocator_boundary_tags` (`allocator_boundary_tags.cpp`)

Only occupied blocks have a header: 8 bytes each of size, next block, previous
block and `_trusted_memory`. The free space is what lies between them. The
allocator's own metadata, which lies below the first block, is kept in fields. A
null pointer is address 0. A loop that would not end is the fault `diverged`.
-/

namespace MaiFaSp

open Memory

structure BoundaryTags where
  trusted : ℕ
  fitMode : FitMode
  memSize : ℕ
  firstBlock : ℕ
  memory : Memory

namespace BoundaryTags

def allocatorMetadataSize : ℕ := 80

def blockMetadataSize : ℕ := 32

/-! ### Block headers -/

def getBlockSize (m : Memory) (block : ℕ) : ℕ := load64 m block

def getNext (m : Memory) (block : ℕ) : ℕ := load64 m (block + 8)

def getPrev (m : Memory) (block : ℕ) : ℕ := load64 m (block + 16)

def getTmPtr (m : Memory) (block : ℕ) : ℕ := load64 m (block + 24)

def setBlockSize (m : Memory) (block n : ℕ) : Memory := store64 m block n

def setNext (m : Memory) (block p : ℕ) : Memory := store64 m (block + 8) p

def setPrev (m : Memory) (block p : ℕ) : Memory := store64 m (block + 16) p

def setTmPtr (m : Memory) (block p : ℕ) : Memory := store64 m (block + 24) p

def blockEnd (m : Memory) (block : ℕ) : ℕ := block + blockMetadataSize + getBlockSize m block

def allocatorEnd (s : BoundaryTags) : ℕ := s.trusted + allocatorMetadataSize + s.memSize

/-- The constructor, on the region the parent allocator returned. -/
def construct (trusted spaceSize : ℕ) (mode : FitMode) (m : Memory) :
    Except AllocFault BoundaryTags :=
  if spaceSize < blockMetadataSize then throw .logicError
  else pure ⟨trusted, mode, spaceSize, 0, m⟩

/-- `get_next_free_block_size`: the free space behind a block, or before the first one. -/
def getNextFreeBlockSize (s : BoundaryTags) (block : ℕ) : ℕ :=
  if block = s.trusted then
    if s.firstBlock = 0 then s.memSize
    else sizeSub (sizeSub s.firstBlock s.trusted) allocatorMetadataSize
  else if getNext s.memory block = 0 then sizeSub (allocatorEnd s) (blockEnd s.memory block)
  else sizeSub (getNext s.memory block) (blockEnd s.memory block)

/-! ### Iterators -/

/-- `boundary_iterator`: on an occupied block, or on the free space behind it. -/
structure Iterator where
  occupiedPtr : ℕ
  occupied : Bool
  deriving DecidableEq

def begin (s : BoundaryTags) : Iterator :=
  let maybeFirstBlock := s.trusted + allocatorMetadataSize
  if maybeFirstBlock = s.firstBlock then ⟨maybeFirstBlock, true⟩ else ⟨s.trusted, false⟩

/-- The default constructor. -/
def noIterator : Iterator := ⟨0, false⟩

/-- `operator++`. -/
def Iterator.next (s : BoundaryTags) (it : Iterator) : Iterator :=
  let block := it.occupiedPtr
  if it.occupied then
    let nextBlockRightAfter := blockEnd s.memory block = getNext s.memory block
    let lastBlock := blockEnd s.memory block = allocatorEnd s
    if nextBlockRightAfter ∨ (getNext s.memory block = 0 ∧ lastBlock) then
      ⟨getNext s.memory block, true⟩
    else ⟨block, false⟩
  else ⟨if block = s.trusted then s.firstBlock else getNext s.memory block, true⟩

def Iterator.size (s : BoundaryTags) (it : Iterator) : ℕ :=
  if it.occupiedPtr = 0 then 0
  else if it.occupied then sizeAdd (getBlockSize s.memory it.occupiedPtr) blockMetadataSize
  else getNextFreeBlockSize s it.occupiedPtr

/-- `for (auto it = begin(); it != end(); ++it)`, with its body on what it collects. -/
def loop {α : Type} (s : BoundaryTags) (body : α → Iterator → ForInStep α) :
    ℕ → Iterator → α → Except AllocFault α
  | 0, it, r => if it.occupiedPtr = 0 then pure r else throw .diverged
  | n + 1, it, r =>
    if it.occupiedPtr = 0 then pure r
    else
      match body r it with
      | .done r => pure r
      | .yield r => loop s body n (it.next s) r

/-- The iterator advances by at least one byte, so this bounds the turns of the loops. -/
def turns (s : BoundaryTags) : ℕ := s.memSize + 1

def getAvailableMemory (s : BoundaryTags) : Except AllocFault ℕ :=
  loop s (fun available it => .yield (if it.occupied then available
    else sizeAdd available (it.size s))) (turns s) (begin s) 0

/-- `get_blocks_info_inner`. -/
def getBlocksInfo (s : BoundaryTags) : Except AllocFault (List (ℕ × Bool)) :=
  loop s (fun blocks it => .yield (blocks ++ [(it.size s, it.occupied)])) (turns s) (begin s) []

/-- `print_blocks` reads the first of the blocks without a check. -/
def printBlocks (s : BoundaryTags) : Except AllocFault Unit := do
  let blocks ← getBlocksInfo s
  if blocks = [] then throw .nullDereference else pure ()

/-- What is computed for the logger at the end of both operations. -/
def report (s : BoundaryTags) : Except AllocFault Unit := do
  let _ ← getAvailableMemory s
  printBlocks s

/-! ### Allocation -/

def getBlockFirstFit (s : BoundaryTags) (size : ℕ) : Except AllocFault ℕ :=
  loop s (fun result it =>
    if !it.occupied ∧ it.size s ≥ size then .done it.occupiedPtr else .yield result)
    (turns s) (begin s) 0

def getBlockBestFit (s : BoundaryTags) (size : ℕ) : Except AllocFault ℕ := do
  let result ← loop s (fun result it =>
    if !it.occupied ∧ it.size s ≥ size ∧
      (it.size s < result.size s ∨ result.occupiedPtr = 0) then .yield it else .yield result)
    (turns s) (begin s) noIterator
  pure result.occupiedPtr

def getBlockWorstFit (s : BoundaryTags) (size : ℕ) : Except AllocFault ℕ := do
  let result ← loop s (fun result it =>
    if !it.occupied ∧ it.size s ≥ size ∧ it.size s > result.size s then .yield it
    else .yield result)
    (turns s) (begin s) noIterator
  pure result.occupiedPtr

def getBlock (s : BoundaryTags) (size : ℕ) : Except AllocFault ℕ :=
  match s.fitMode with
  | .firstFit => getBlockFirstFit s size
  | .theBestFit => getBlockBestFit s size
  | .theWorstFit => getBlockWorstFit s size

/-- The new block behind `block`, with its header written and linked to both sides. -/
def occupy (s : BoundaryTags) (block totalSize : ℕ) : ℕ × BoundaryTags :=
  let freeBlock :=
    if block = s.trusted then s.trusted + allocatorMetadataSize else blockEnd s.memory block
  let m := setBlockSize s.memory freeBlock (sizeSub totalSize blockMetadataSize)
  let m := setPrev m freeBlock block
  let m := setNext m freeBlock (if block = s.trusted then s.firstBlock else getNext m block)
  let m := setTmPtr m freeBlock s.trusted
  let m :=
    if getNext m freeBlock ≠ 0 then setPrev m (getNext m freeBlock) freeBlock else m
  if block = s.trusted then (freeBlock, { s with memory := m, firstBlock := freeBlock })
  else (freeBlock, { s with memory := setNext m (getPrev m freeBlock) freeBlock })

/-- `do_allocate_sm`. -/
def allocate (s : BoundaryTags) (size : ℕ) : Except AllocFault (ℕ × BoundaryTags) := do
  let totalSize := sizeAdd size blockMetadataSize
  let block ← getBlock s totalSize
  if block = 0 then throw .badAlloc
  else do
    let freeBlockSize := getNextFreeBlockSize s block
    let totalSize :=
      if freeBlockSize < sizeAdd totalSize blockMetadataSize then freeBlockSize else totalSize
    let (freeBlock, s) := occupy s block totalSize
    report s
    pure (freeBlock + blockMetadataSize, s)

/-! ### Deallocation -/

/-- The two neighbours of `block` are linked to each other. -/
def release (s : BoundaryTags) (block : ℕ) : BoundaryTags :=
  let next := getNext s.memory block
  let s :=
    if getPrev s.memory block = s.trusted then { s with firstBlock := next }
    else { s with memory := setNext s.memory (getPrev s.memory block) next }
  let next := getNext s.memory block
  if next ≠ 0 then { s with memory := setPrev s.memory next (getPrev s.memory block) } else s

/-- `do_deallocate_sm`. -/
def deallocate (s : BoundaryTags) (payload : ℕ) : Except AllocFault BoundaryTags := do
  let block := sizeSub payload blockMetadataSize
  if getTmPtr s.memory block ≠ s.trusted then throw .logicError
  else do
    let s := release s block
    report s
    pure s

/-- The operations as a client sees them. A store by the client changes one byte. -/
def ops : AllocatorOps BoundaryTags FitMode where
  allocate := allocate
  deallocate := deallocate
  setMode s mode := { s with fitMode := mode }
  write s a v := { s with memory := Function.update s.memory a v }
  writable p size a := p ≤ a ∧ a < p + size

attribute [irreducible] allocate deallocate

end BoundaryTags

end MaiFaSp
