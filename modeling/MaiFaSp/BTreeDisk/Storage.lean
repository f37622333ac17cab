import MaiFaSp.Lib.BoundedVector
import MaiFaSp.Lib.ByteMemory

/-!
# The two files of `B_tree_disk`

`b_tree_disk.hpp:44-81` (the constants and the node), `659-736` (`serialize`,
`disk_write`, `deserialize`, `disk_read`). The tree file is a header and one slot of
`node_metadata_size` bytes for each node; the key-value file only grows. Reads stay
inside the files; a write behind the largest offset of a stream fails.
-/

namespace MaiFaSp.BTreeDisk

open BoundedVector

/-- `SIZE_MAX` -/
def sizeMax : ℕ := 2 ^ 64 - 1

/-- The largest offset of a stream. -/
def streamLimit : ℕ := 2 ^ 63 - 1

/-- `serialize` and `deserialize` of the keys and values: a pair is read back from any stream
that goes on with its bytes, and `serialize_size()` counts these. -/
structure Codec (κ υ : Type) where
  encode : κ × υ → List UInt8
  decode : (ℕ → UInt8) → κ × υ
  decode_encode : ∀ x stream, (∀ i (h : i < (encode x).length), stream i = (encode x)[i]) →
    decode stream = x

@[ext]
structure Node (κ υ : Type) where
  size : ℕ
  isLeaf : Bool
  positionInDisk : ℕ
  keys : List (κ × υ)
  pointers : List ℕ
  deriving Repr

structure DiskTree where
  fileForTree : Memory
  fileForKeyValue : Memory
  countOfNode : ℕ
  lastPosition : ℕ
  positionRoot : ℕ

def headerSize : ℕ := 24

def minimumKeysInNode (t : ℕ) : ℕ := t - 1

def maximumKeysInNode (t : ℕ) : ℕ := 2 * t - 1

def maximumPointersInNode (t : ℕ) : ℕ := maximumKeysInNode t + 1

/-- The bytes of a record with `k` keys. -/
def recordSize (t k : ℕ) : ℕ := 2 * 8 + 1 + 8 * maximumPointersInNode t + 8 * k

def nodeMetadataSize (t : ℕ) : ℕ := recordSize t (maximumKeysInNode t)

/-- The offset of a node's slot. -/
def slot (t position : ℕ) : ℕ := headerSize + position * nodeMetadataSize t

variable {κ υ : Type}

def paddedPointers (t : ℕ) (pointers : List ℕ) : List ℕ :=
  pointers.take (maximumPointersInNode t) ++
    List.replicate (maximumPointersInNode t - pointers.length) sizeMax

def Codec.bytes (codec : Codec κ υ) (keys : List (κ × υ)) : List UInt8 :=
  keys.flatMap codec.encode

/-- `positions_in_key_value_file` -/
def Codec.positions (codec : Codec κ υ) : ℕ → List (κ × υ) → List ℕ
  | _, [] => []
  | position, x :: xs => position :: codec.positions (position + (codec.encode x).length) xs

def serialize (t : ℕ) (codec : Codec κ υ) (st : DiskTree) (n : Node κ υ) (stream : ℕ) : DiskTree :=
  let file := st.fileForTree.store64 stream n.size
  let file := file.storeBytes (stream + 8) 1 (if n.isLeaf then 1 else 0)
  let file := file.store64 (stream + 9) n.positionInDisk
  let file := file.writeWords (stream + 17) (paddedPointers t n.pointers)
  let file := file.writeWords (stream + 17 + 8 * maximumPointersInNode t)
    (codec.positions st.lastPosition n.keys)
  { st with
    fileForTree := file
    fileForKeyValue := st.fileForKeyValue.storeList st.lastPosition (codec.bytes n.keys)
    lastPosition := st.lastPosition + (codec.bytes n.keys).length }

def diskWrite (t : ℕ) (codec : Codec κ υ) (st : DiskTree) (n : Node κ υ) :
    Except NodeFault DiskTree :=
  if streamLimit < slot t n.positionInDisk + recordSize t n.keys.length ∨
      streamLimit < st.lastPosition + (codec.bytes n.keys).length then throw .streamFailed
  else pure (serialize t codec st n (slot t n.positionInDisk))

/-- The pair that the key-value file holds at an offset. -/
def pairAt (codec : Codec κ υ) (file : Memory) (position : ℕ) : κ × υ :=
  codec.decode fun i => file (position + i)

def deserialize (t : ℕ) (codec : Codec κ υ) (st : DiskTree) (stream : ℕ) : Node κ υ :=
  let size := st.fileForTree.load64 stream
  let positions :=
    st.fileForTree.readWords (stream + 17 + 8 * maximumPointersInNode t) size
  { size := size
    isLeaf := st.fileForTree.loadBytes (stream + 8) 1 ≠ 0
    positionInDisk := st.fileForTree.load64 (stream + 9)
    keys := positions.map (pairAt codec st.fileForKeyValue)
    pointers := st.fileForTree.readWords (stream + 17) (maximumPointersInNode t) }

def diskRead (t : ℕ) (codec : Codec κ υ) (st : DiskTree) (position : ℕ) : Node κ υ :=
  if st.countOfNode ≤ position then ⟨0, true, sizeMax, [], []⟩
  else deserialize t codec st (slot t position)

/-- The fields are values of `size_t`. -/
structure Node.InRange (n : Node κ υ) : Prop where
  size : n.size ≤ sizeMax
  position : n.positionInDisk ≤ sizeMax
  pointers : ∀ p ∈ n.pointers, p ≤ sizeMax

section Records

variable {t : ℕ} {codec : Codec κ υ} {st st' : DiskTree} {n : Node κ υ} {stream : ℕ}

theorem lt_of_le_sizeMax {v : ℕ} (h : v ≤ sizeMax) : v < 2 ^ 64 := by
  unfold sizeMax at h
  omega

@[simp] theorem length_paddedPointers {pointers : List ℕ} :
    (paddedPointers t pointers).length = maximumPointersInNode t := by
  unfold paddedPointers
  rw [List.length_append, List.length_take, List.length_replicate]
  omega

theorem paddedPointers_le {pointers : List ℕ} (h : ∀ p ∈ pointers, p ≤ sizeMax) :
    ∀ p ∈ paddedPointers t pointers, p ≤ sizeMax := by
  intro p hp
  rcases List.mem_append.mp hp with hp | hp
  · exact h p (List.mem_of_mem_take hp)
  · exact (List.eq_of_mem_replicate hp).le

@[simp] theorem Codec.length_positions {position : ℕ} {keys : List (κ × υ)} :
    (codec.positions position keys).length = keys.length := by
  induction keys generalizing position with
  | nil => rfl
  | cons x xs ih =>
    show (codec.positions _ xs).length + 1 = xs.length + 1
    rw [ih]

theorem Codec.bytes_cons {x : κ × υ} {xs : List (κ × υ)} :
    codec.bytes (x :: xs) = codec.encode x ++ codec.bytes xs := rfl

theorem Codec.positions_le {position : ℕ} {keys : List (κ × υ)} :
    ∀ q ∈ codec.positions position keys, q ≤ position + (codec.bytes keys).length := by
  induction keys generalizing position with
  | nil =>
    intro q hq
    cases hq
  | cons x xs ih =>
    intro q hq
    rw [codec.bytes_cons, List.length_append]
    rcases List.mem_cons.mp hq with rfl | hq
    · omega
    · have h := ih q hq
      omega

/-- The pairs behind the positions, in any file that goes on with their bytes. -/
theorem Codec.map_pairAt_positions {file : Memory} {position : ℕ} {keys : List (κ × υ)}
    (h : ∀ i (hi : i < (codec.bytes keys).length), file (position + i) = (codec.bytes keys)[i]) :
    (codec.positions position keys).map (pairAt codec file) = keys := by
  induction keys generalizing position with
  | nil => rfl
  | cons x xs ih =>
    rw [codec.bytes_cons] at h
    show pairAt codec file position :: _ = x :: xs
    congr 1
    · apply codec.decode_encode
      intro i hi
      rw [h i (by rw [List.length_append]; omega), List.getElem_append_left hi]
    · apply ih
      intro i hi
      have hi' : (codec.encode x).length + i < (codec.encode x ++ codec.bytes xs).length := by
        rw [List.length_append]
        omega
      rw [Nat.add_assoc, h _ hi', List.getElem_append_right (by omega)]
      congr 1
      omega

theorem agreeOn_serialize {lo hi : ℕ}
    (h : hi ≤ stream ∨ stream + recordSize t n.keys.length ≤ lo) :
    Memory.AgreeOn (serialize t codec st n stream).fileForTree st.fileForTree lo hi := by
  unfold recordSize at h
  refine (Memory.agreeOn_writeWords _ _ _ ?_).trans ((Memory.agreeOn_writeWords _ _ _ ?_).trans
    ((Memory.agreeOn_store64 _ _ _ _ _ ?_).trans ((Memory.agreeOn_storeBytes _ _ _ _ _ _ ?_).trans
      (Memory.agreeOn_store64 _ _ _ _ _ ?_))))
  · rw [codec.length_positions]
    omega
  · rw [length_paddedPointers]
    omega
  · omega
  · omega
  · omega

theorem agreeOn_serialize_data {lo hi : ℕ} (h : hi ≤ st.lastPosition) :
    Memory.AgreeOn (serialize t codec st n stream).fileForKeyValue st.fileForKeyValue lo hi :=
  Memory.agreeOn_storeList _ _ _ (Or.inl h)

theorem serialize_positions
    (hdata : st.lastPosition + (codec.bytes n.keys).length ≤ sizeMax) :
    (serialize t codec st n stream).fileForTree.readWords
      (stream + 17 + 8 * maximumPointersInNode t) n.keys.length =
        codec.positions st.lastPosition n.keys := by
  have h := Memory.readWords_writeWords
    ((((st.fileForTree.store64 stream n.size).storeBytes (stream + 8) 1
      (if n.isLeaf then 1 else 0)).store64 (stream + 9) n.positionInDisk).writeWords (stream + 17)
        (paddedPointers t n.pointers)) (stream + 17 + 8 * maximumPointersInNode t)
    (codec.positions st.lastPosition n.keys)
    (fun v hv => lt_of_le_sizeMax ((codec.positions_le v hv).trans hdata))
  rw [codec.length_positions] at h
  exact h

theorem serialize_pointers (hn : n.InRange) :
    (serialize t codec st n stream).fileForTree.readWords (stream + 17)
      (maximumPointersInNode t) = paddedPointers t n.pointers := by
  have h := Memory.readWords_writeWords
    (((st.fileForTree.store64 stream n.size).storeBytes (stream + 8) 1
      (if n.isLeaf then 1 else 0)).store64 (stream + 9) n.positionInDisk) (stream + 17)
    (paddedPointers t n.pointers)
    (fun v hv => lt_of_le_sizeMax (paddedPointers_le hn.pointers v hv))
  rw [length_paddedPointers] at h
  refine Eq.trans (Memory.readWords_congr ?_) h
  exact Memory.agreeOn_writeWords _ _ _ (Or.inl le_rfl)

theorem serialize_position (hn : n.InRange) :
    (serialize t codec st n stream).fileForTree.load64 (stream + 9) = n.positionInDisk := by
  refine Eq.trans (Memory.load64_congr ?_)
    (Memory.load64_store64 ((st.fileForTree.store64 stream n.size).storeBytes (stream + 8) 1
      (if n.isLeaf then 1 else 0)) (stream + 9) _ (lt_of_le_sizeMax hn.position))
  exact (Memory.agreeOn_writeWords _ _ _ (Or.inl (by omega))).trans
    (Memory.agreeOn_writeWords _ _ _ (Or.inl (by omega)))

theorem serialize_isLeaf :
    (serialize t codec st n stream).fileForTree.loadBytes (stream + 8) 1 =
      if n.isLeaf then 1 else 0 := by
  refine Eq.trans (Memory.loadBytes_congr ?_) ((Memory.loadBytes_storeBytes
    (st.fileForTree.store64 stream n.size) (stream + 8) 1 (if n.isLeaf then 1 else 0)).trans ?_)
  · exact (Memory.agreeOn_writeWords _ _ _ (Or.inl (by omega))).trans
      ((Memory.agreeOn_writeWords _ _ _ (Or.inl (by omega))).trans
        (Memory.agreeOn_store64 _ _ _ _ _ (Or.inl (by omega))))
  · cases n.isLeaf with
    | true => rfl
    | false => rfl

theorem serialize_size (hn : n.InRange) :
    (serialize t codec st n stream).fileForTree.load64 stream = n.size := by
  refine Eq.trans (Memory.load64_congr ?_)
    (Memory.load64_store64 st.fileForTree stream _ (lt_of_le_sizeMax hn.size))
  exact (Memory.agreeOn_writeWords _ _ _ (Or.inl (by omega))).trans
    ((Memory.agreeOn_writeWords _ _ _ (Or.inl (by omega))).trans
      ((Memory.agreeOn_store64 _ _ _ _ _ (Or.inl (by omega))).trans
        (Memory.agreeOn_storeBytes _ _ _ _ _ _ (Or.inl (by omega)))))

end Records

end MaiFaSp.BTreeDisk
