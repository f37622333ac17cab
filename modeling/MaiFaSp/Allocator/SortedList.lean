import MaiFaSp.Allocator.FitMode
import MaiFaSp.Lib.AllocatorRun
import MaiFaSp.Lib.ByteMemory
import MaiFaSp.Lib.Tiling

/-!
# `allocator_sorted_list` (`allocator_sorted_list.cpp`)

The blocks are bytes of memory: 8 bytes of size, 8 bytes of a pointer, then the
payload. The pointer is the next free block in a free block, and `_trusted_memory`
in an occupied one. The allocator's own metadata, which lies below the first
block, is kept in fields. A null pointer is address 0. A loop that would not
end is the fault `diverged`.
-/

namespace MaiFaSp

open Memory

structure SortedList where
  trusted : ℕ
  logger : Bool
  fitMode : FitMode
  spaceSize : ℕ
  firstFree : ℕ
  memory : Memory

namespace SortedList

def allocatorMetadataSize : ℕ := 76

def blockMetadataSize : ℕ := 16

/-! ### Block headers -/

def getNextPtr (m : Memory) (block : ℕ) : ℕ := if block = 0 then 0 else load64 m (block + 8)

def setNextPtr (m : Memory) (block p : ℕ) : Memory := store64 m (block + 8) p

def getSize (m : Memory) (block : ℕ) : ℕ := load64 m block

def setSize (m : Memory) (block n : ℕ) : Memory := store64 m block n

/-- The constructor, on the region the parent allocator returned. -/
def construct (trusted spaceSize : ℕ) (logger : Bool) (mode : FitMode) (m : Memory) : SortedList :=
  let first := trusted + allocatorMetadataSize
  ⟨trusted, logger, mode, spaceSize, first, setNextPtr (setSize m first spaceSize) first 0⟩

/-! ### Iterators -/

/-- `sorted_iterator`: the next free block not behind it and the current block. -/
structure Iterator where
  free : ℕ
  current : ℕ

def begin (s : SortedList) : Iterator := ⟨s.firstFree, s.trusted + allocatorMetadataSize⟩

/-- `operator++`. -/
def Iterator.next (s : SortedList) (it : Iterator) : Iterator :=
  let free := if it.current = it.free then getNextPtr s.memory it.free else it.free
  let newPtr := it.current + blockMetadataSize + getSize s.memory it.current
  ⟨free, if s.trusted + s.spaceSize + allocatorMetadataSize ≤ newPtr then 0 else newPtr⟩

def Iterator.occupied (it : Iterator) : Bool := it.current ≠ it.free

/-- `for (auto it = begin(); it != end(); ++it) info.emplace_back(it.size(), it.occupied());` -/
def blocksFrom (s : SortedList) : ℕ → Iterator → Except AllocFault (List (ℕ × Bool))
  | 0, it => if it.current = 0 then pure [] else throw .diverged
  | n + 1, it =>
    if it.current = 0 then pure []
    else do
      let rest ← blocksFrom s n (it.next s)
      pure ((getSize s.memory it.current, it.occupied) :: rest)

/-- A block has at least 16 bytes, so this bounds the turns of every loop over blocks. -/
def turns (s : SortedList) : ℕ := s.spaceSize + 1

def getBlocksInfo (s : SortedList) : Except AllocFault (List (ℕ × Bool)) :=
  blocksFrom s (turns s) (begin s)

/-- The blocks that a loop over `[free_begin(), free_end())` visits. -/
def freeBlocksFrom (m : Memory) : ℕ → ℕ → Except AllocFault (List ℕ)
  | 0, it => if it = 0 then pure [] else throw .diverged
  | n + 1, it =>
    if it = 0 then pure []
    else do
      let rest ← freeBlocksFrom m n (getNextPtr m it)
      pure (it :: rest)

def freeBlocks (s : SortedList) : Except AllocFault (List ℕ) :=
  freeBlocksFrom s.memory (turns s) s.firstFree

def getFreeMemoryCount (s : SortedList) : Except AllocFault ℕ := do
  let blocks ← freeBlocks s
  pure (blocks.foldl (fun res it => sizeAdd res (getSize s.memory it)) 0)

/-- What an attached logger is told at the end of both operations. -/
def report (s : SortedList) : Except AllocFault Unit := do
  if s.logger then
    let _ ← getFreeMemoryCount s
    let _ ← getBlocksInfo s

/-! ### Allocation -/

/-- `prev_free_block`, `result_block` and `best_size`. -/
structure Choice where
  prevFree : ℕ
  result : ℕ
  bestSize : ℕ
  deriving DecidableEq

def noChoice : Choice := ⟨0, 0, 0⟩

/-- Whether a block that is large enough replaces the choice so far. -/
def Choice.replacedBy (c : Choice) (mode : FitMode) (blockSize : ℕ) : Bool :=
  match mode with
  | .firstFit => true
  | .theBestFit => c.result = 0 ∨ blockSize < c.bestSize
  | .theWorstFit => c.result = 0 ∨ blockSize > c.bestSize

/-- The loop of `do_allocate_sm`, at `it` with `*prev_iter = prev`. -/
def fitLoop (m : Memory) (mode : FitMode) (size : ℕ) :
    ℕ → ℕ → ℕ → Choice → Except AllocFault Choice
  | 0, it, _, c => if it = 0 then pure c else throw .diverged
  | n + 1, it, prev, c =>
    if it = 0 then pure c
    else
      let blockSize := getSize m it
      if blockSize ≥ sizeAdd size blockMetadataSize ∧ c.replacedBy mode blockSize then
        if mode = .firstFit then pure ⟨prev, it, blockSize⟩
        else fitLoop m mode size n (getNextPtr m it) it ⟨prev, it, blockSize⟩
      else fitLoop m mode size n (getNextPtr m it) it c

/-- The header of the new free block above the chosen one. -/
def splitBlock (m : Memory) (result size remaining : ℕ) : Memory × ℕ :=
  if remaining ≥ blockMetadataSize + 1 then
    let newBlock := sizeAdd (result + blockMetadataSize) size
    let next := getNextPtr m result
    let m := setSize m newBlock (sizeSub remaining blockMetadataSize)
    let m := setNextPtr m newBlock next
    (setSize m result size, newBlock)
  else (m, 0)

/-- `do_allocate_sm`. -/
def allocate (s : SortedList) (size : ℕ) : Except AllocFault (ℕ × SortedList) := do
  let c ← fitLoop s.memory s.fitMode size (turns s) s.firstFree 0 noChoice
  if c.result = 0 then throw .badAlloc
  else do
    let (m, newBlock) := splitBlock s.memory c.result size (sizeSub c.bestSize size)
    let m :=
      if c.prevFree ≠ 0 then
        setNextPtr m c.prevFree (if newBlock ≠ 0 then newBlock else getNextPtr m c.result)
      else m
    let first :=
      if s.firstFree = c.result then
        (if newBlock ≠ 0 then newBlock else getNextPtr m c.result)
      else s.firstFree
    report { s with memory := m, firstFree := first }
    pure (c.result + blockMetadataSize,
      { s with memory := setNextPtr m c.result s.trusted, firstFree := first })

/-! ### Deallocation -/

/-- `try_merge`. -/
def tryMerge (m : Memory) (left right : ℕ) : Bool × Memory :=
  if left = 0 ∨ right = 0 then (false, m)
  else if left + blockMetadataSize + getSize m left = right then
    let newSize := sizeAdd (sizeAdd (getSize m left) (getSize m right)) blockMetadataSize
    let m := setSize m left newSize
    (true, setNextPtr m left (getNextPtr m right))
  else (false, m)

/-- The loop that looks for the last free block before `header`. -/
def prevFreeFrom (s : SortedList) (header : ℕ) : ℕ → Iterator → ℕ → Except AllocFault ℕ
  | 0, it, prev => if it.current = 0 then pure prev else throw .diverged
  | n + 1, it, prev =>
    if it.current = 0 ∨ it.current = header then pure prev
    else prevFreeFrom s header n (it.next s) (if it.occupied then prev else it.current)

/-- The returned block is linked between the free ones around it and merged with them. -/
def putBack (m : Memory) (prev header next : ℕ) : Memory :=
  let m := if prev ≠ 0 then setNextPtr m prev header else m
  let m := setNextPtr m header next
  let (merged, m) := tryMerge m prev header
  if merged then (tryMerge m prev next).2 else (tryMerge m header next).2

/-- `do_deallocate_sm`. -/
def deallocate (s : SortedList) (payload : ℕ) : Except AllocFault SortedList := do
  let header := sizeSub payload blockMetadataSize
  if getNextPtr s.memory header ≠ s.trusted ∧ s.logger then throw .badAlloc
  else do
    let prev ← prevFreeFrom s header (turns s) (begin s) 0
    let next := if prev ≠ 0 then getNextPtr s.memory prev else s.firstFree
    let first :=
      if (prev = 0 ∧ s.firstFree > header) ∨ s.firstFree = 0 then header else s.firstFree
    let s := { s with memory := putBack s.memory prev header next, firstFree := first }
    report s
    pure s

/-- The operations as a client sees them. A store by the client changes one byte. -/
def ops : AllocatorOps SortedList FitMode where
  allocate := allocate
  deallocate := deallocate
  setMode s mode := { s with fitMode := mode }
  write s a v := { s with memory := Function.update s.memory a v }
  writable p size a := p ≤ a ∧ a < p + size

attribute [irreducible] allocate deallocate

end SortedList

end MaiFaSp
