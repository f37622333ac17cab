import MaiFaSp.Allocator.FitMode
import MaiFaSp.Lib.AllocatorRun
import MaiFaSp.Lib.BuddyTree
import MaiFaSp.Lib.ByteMemory

/-!
# `allocator_buddies_system` (`allocator_buddies_system.cpp`, `allocator_buddies_system.h`)

A block starts with one byte, `occupied` in its lowest bit and `size_k` in the
other seven. An occupied block has a pointer to the trusted memory in the next 8
bytes and its payload above. The allocator's own metadata is kept in fields;
the pool starts 64 bytes above it.
-/

namespace MaiFaSp

open Memory

/-- `size_t` multiplication. -/
def sizeMul (a b : ℕ) : ℕ := a * b % 2 ^ 64

structure Buddies where
  trusted : ℕ
  fitMode : FitMode
  sizeK : ℕ
  memory : Memory

namespace Buddies

def allocatorMetadataSize : ℕ := 64

def occupiedBlockMetadataSize : ℕ := 9

/-- The loop of `nearest_greater_k_of_2` over the bits below `i`. -/
def scanBits (size : ℕ) : ℕ → ℕ → ℤ → ℕ × ℤ
  | 0, ones, index => (ones, index)
  | i + 1, ones, index =>
    if size.testBit i then scanBits size i (ones + 1) (if ones = 0 then i else index)
    else scanBits size i ones index

/-- `nearest_greater_k_of_2`; the `int` result becomes a `size_t`. -/
def nearestGreaterKOf2 (size : ℕ) : ℕ :=
  let (ones, index) := scanBits size 64 0 (-1)
  ((if ones ≤ 1 then index else index + 1) % 2 ^ 64).toNat

def minK : ℕ := nearestGreaterKOf2 occupiedBlockMetadataSize

theorem minK_eq : minK = 4 := by decide

/-! ### Block headers -/

def occupied (m : Memory) (block : ℕ) : Bool := (m block).toNat % 2 = 1

def blockSizeK (m : Memory) (block : ℕ) : ℕ := (m block).toNat / 2

def setOccupied (m : Memory) (block : ℕ) (occ : Bool) : Memory :=
  Function.update m block (UInt8.ofNat (2 * blockSizeK m block + occ.toNat))

def setSizeK (m : Memory) (block n : ℕ) : Memory :=
  Function.update m block (UInt8.ofNat (2 * (n % 128) + (m block).toNat % 2))

/-- `1 << (size_k + min_k)`, an `int`, so exact below `2^31`. -/
def blockSize (m : Memory) (block : ℕ) : ℕ := 2 ^ (blockSizeK m block + minK)

/-- The constructor, on the region the parent allocator returned. -/
def construct (trusted spaceSize : ℕ) (mode : FitMode) (m : Memory) : Except AllocFault Buddies :=
  let k := nearestGreaterKOf2 spaceSize
  if k < minK then throw .logicError
  else
    let first := trusted + allocatorMetadataSize
    pure ⟨trusted, mode, k % 256, setSizeK (setOccupied m first false) first (k - minK)⟩

/-- `metadata->size()`. -/
def size (s : Buddies) : ℕ := 2 ^ s.sizeK

/-- `get_buddy`. -/
def getBuddy (trusted : ℕ) (m : Memory) (block : ℕ) : ℕ :=
  let blockOffset := block - trusted - allocatorMetadataSize
  trusted + allocatorMetadataSize + (blockOffset ^^^ blockSize m block)

/-! ### Walking the blocks -/

/-- The blocks a loop over `[begin(), end())` visits, from `it` on. -/
def blocksFrom (m : Memory) (stop : ℕ) : ℕ → ℕ → Except AllocFault (List ℕ)
  | 0, it => if it = stop then pure [] else throw .diverged
  | n + 1, it =>
    if it = stop then pure []
    else do
      let rest ← blocksFrom m stop n (it + blockSize m it)
      pure (it :: rest)

/-- A block is not empty, so the pool's size bounds the turns. -/
def blocks (s : Buddies) : Except AllocFault (List ℕ) :=
  blocksFrom s.memory (s.trusted + allocatorMetadataSize + s.size) s.size
    (s.trusted + allocatorMetadataSize)

def getBlocksInfo (s : Buddies) : Except AllocFault (List (ℕ × Bool)) := do
  let bs ← blocks s
  pure (bs.map (fun it => (blockSize s.memory it, occupied s.memory it)))

def availableMemory (s : Buddies) : Except AllocFault ℕ := do
  let bs ← blocks s
  pure (bs.foldl
    (fun available it =>
      if occupied s.memory it then available else sizeAdd available (blockSize s.memory it)) 0)

/-- The arguments of the last log messages of both operations. -/
def report (s : Buddies) : Except AllocFault Unit := do
  let _ ← availableMemory s
  let _ ← getBlocksInfo s

/-! ### Allocation -/

/-- Whether a block is free and large enough. -/
def suits (m : Memory) (size it : ℕ) : Bool := !occupied m it && size ≤ blockSize m it

/-- `get_block_first_fit`, on the blocks of the pool; a null pointer is address 0. -/
def getBlockFirstFit (m : Memory) (size : ℕ) (bs : List ℕ) : ℕ :=
  (bs.find? (suits m size)).getD 0

def getBlockBestFit (m : Memory) (size : ℕ) (bs : List ℕ) : ℕ :=
  bs.foldl
    (fun best it =>
      if suits m size it ∧ (best = 0 ∨ blockSize m it < blockSize m best) then it else best) 0

def getBlockWorstFit (m : Memory) (size : ℕ) (bs : List ℕ) : ℕ :=
  bs.foldl (fun worst it => if suits m size it then it else worst) 0

def getBlock (mode : FitMode) (m : Memory) (size : ℕ) (bs : List ℕ) : ℕ :=
  match mode with
  | .firstFit => getBlockFirstFit m size bs
  | .theBestFit => getBlockBestFit m size bs
  | .theWorstFit => getBlockWorstFit m size bs

/-- One turn of the loop that halves the block. -/
def splitOnce (trusted : ℕ) (m : Memory) (block : ℕ) : Memory :=
  let m := setSizeK m block (blockSizeK m block - 1)
  let buddy := getBuddy trusted m block
  let m := setOccupied m buddy false
  setSizeK m buddy (blockSizeK m block)

/-- The loop; every turn lowers `size_k`, which bounds their number. -/
def splitLoop (trusted need : ℕ) : ℕ → Memory → ℕ → Memory
  | 0, m, _ => m
  | n + 1, m, block =>
    if blockSizeK m block > 0 ∧ blockSize m block ≥ sizeMul need 2 then
      splitLoop trusted need n (splitOnce trusted m block) block
    else m

/-- `do_allocate_sm`. It adds `sizeof(occupied_block_metadata_size)`, which is
`sizeof(size_t)`, and not the 9 bytes of the metadata. -/
def allocate (s : Buddies) (size : ℕ) : Except AllocFault (ℕ × Buddies) := do
  let sizeWithMetadata := sizeAdd size 8
  let bs ← blocks s
  let block := getBlock s.fitMode s.memory sizeWithMetadata bs
  if block = 0 then throw .badAlloc
  else do
    let m := splitLoop s.trusted sizeWithMetadata (blockSizeK s.memory block) s.memory block
    let m := setOccupied m block true
    let s := { s with memory := store64 m (block + 1) s.trusted }
    report s
    pure (block + occupiedBlockMetadataSize, s)

/-! ### Deallocation -/

/-- The loop that merges free buddies; every turn doubles the block. -/
def mergeLoop (s : Buddies) : ℕ → Memory → ℕ → ℕ → Except AllocFault Memory
  | 0, m, block, buddy =>
    if blockSize m block < s.size ∧ blockSize m block = blockSize m buddy ∧ ¬ occupied m buddy then
      throw .diverged
    else pure m
  | n + 1, m, block, buddy =>
    if blockSize m block < s.size ∧ blockSize m block = blockSize m buddy ∧ ¬ occupied m buddy then
      let block := if buddy < block then buddy else block
      let m := setSizeK m block (blockSizeK m block + 1)
      mergeLoop s n m block (getBuddy s.trusted m block)
    else pure m

/-- `do_deallocate_sm`. -/
def deallocate (s : Buddies) (payload : ℕ) : Except AllocFault Buddies := do
  let block := payload - occupiedBlockMetadataSize
  if load64 s.memory (block + 1) ≠ s.trusted then throw .logicError
  else do
    let m := setOccupied s.memory block false
    let m ← mergeLoop s s.sizeK m block (getBuddy s.trusted m block)
    let s := { s with memory := m }
    report s
    pure s

/-- The operations as a client sees them. The last byte of a grant may lie behind its
block, so a client keeps off it here. -/
def ops : AllocatorOps Buddies FitMode where
  allocate := allocate
  deallocate := deallocate
  setMode s mode := { s with fitMode := mode }
  write s a v := { s with memory := Function.update s.memory a v }
  writable p size a := p ≤ a ∧ a + 1 < p + size

-- their values are read through the equations, never by evaluation
attribute [irreducible] allocate deallocate

end Buddies

end MaiFaSp
