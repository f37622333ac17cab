import MaiFaSp.BTreeDisk.Operations
import Mathlib.Data.List.GetD

/-!
# What one `disk_write` does to the other slots and to its own

A slot has room for `2t - 1` positions. `insert` writes a node with `2t` keys before it
splits it (`b_tree_disk.hpp:565-570`), and the last position then lies on the size field
of the next slot. The number of keys that `deserialize` reads is the field `size`
(`659-736`).
-/

namespace MaiFaSp.BTreeDisk

open BoundedVector

variable {κ υ : Type} {t : ℕ} {codec : Codec κ υ} {st st' : DiskTree} {n : Node κ υ} {p q : ℕ}

theorem slot_succ : slot t (p + 1) = slot t p + nodeMetadataSize t := by
  unfold slot
  ring

theorem slot_mono (h : p ≤ q) : slot t p ≤ slot t q := by
  unfold slot
  have := Nat.mul_le_mul_right (nodeMetadataSize t) h
  omega

theorem nodeMetadataSize_eq (t : ℕ) :
    nodeMetadataSize t = 17 + 8 * maximumPointersInNode t + 8 * maximumKeysInNode t := rfl

theorem diskWrite_eq_ok : diskWrite t codec st n = .ok st' ↔
    slot t n.positionInDisk + recordSize t n.keys.length ≤ streamLimit ∧
      st.lastPosition + (codec.bytes n.keys).length ≤ streamLimit ∧
      st' = serialize t codec st n (slot t n.positionInDisk) := by
  unfold diskWrite
  split
  case isTrue h =>
    constructor
    · intro he
      cases he
    · intro he
      omega
  case isFalse h =>
    constructor
    · intro he
      cases he
      exact ⟨by omega, by omega, rfl⟩
    · rintro ⟨-, -, rfl⟩
      rfl

theorem streamLimit_le : streamLimit ≤ sizeMax := by
  unfold streamLimit sizeMax
  omega

theorem diskRead_of_lt (h : p < st.countOfNode) :
    diskRead t codec st p = deserialize t codec st (slot t p) := if_neg (by omega)

section Fields

variable {a : ℕ}

theorem deserialize_size : (deserialize t codec st a).size = st.fileForTree.load64 a := rfl

theorem deserialize_isLeaf : (deserialize t codec st a).isLeaf =
    decide (st.fileForTree.loadBytes (a + 8) 1 ≠ 0) := rfl

theorem deserialize_position : (deserialize t codec st a).positionInDisk =
    st.fileForTree.load64 (a + 9) := rfl

theorem deserialize_pointers : (deserialize t codec st a).pointers =
    st.fileForTree.readWords (a + 17) (maximumPointersInNode t) := rfl

theorem deserialize_keys : (deserialize t codec st a).keys =
    (st.fileForTree.readWords (a + 17 + 8 * maximumPointersInNode t)
      (st.fileForTree.load64 a)).map (pairAt codec st.fileForKeyValue) := by
  simp only [deserialize]

end Fields

/-! ### The slot that is written -/

/-- The node that is read right after the write. -/
structure ReadBack (t : ℕ) (r n : Node κ υ) : Prop where
  size : r.size = n.size
  isLeaf : r.isLeaf = n.isLeaf
  position : r.positionInDisk = n.positionInDisk
  pointers : r.pointers = paddedPointers t n.pointers
  length : r.keys.length = n.size
  keys : n.size = n.keys.length → r.keys = n.keys

theorem diskRead_written (hn : n.InRange) (hpos : n.positionInDisk < st.countOfNode)
    (hw : diskWrite t codec st n = .ok st') :
    ReadBack t (diskRead t codec st' n.positionInDisk) n := by
  obtain ⟨-, hdata, rfl⟩ := diskWrite_eq_ok.mp hw
  have hread : diskRead t codec (serialize t codec st n (slot t n.positionInDisk))
      n.positionInDisk = deserialize t codec (serialize t codec st n (slot t n.positionInDisk))
        (slot t n.positionInDisk) := diskRead_of_lt hpos
  rw [hread]
  refine ⟨serialize_size hn, ?_, serialize_position hn, serialize_pointers hn, ?_, ?_⟩
  · rw [deserialize_isLeaf, serialize_isLeaf]
    cases n.isLeaf with
    | true => rfl
    | false => rfl
  · rw [deserialize_keys, List.length_map, Memory.length_readWords, serialize_size hn]
  · intro hsize
    rw [deserialize_keys, serialize_size hn, hsize, serialize_positions (hdata.trans streamLimit_le)]
    apply codec.map_pairAt_positions
    intro i hi
    exact Memory.storeList_getElem _ _ i hi

/-- The pointers are the same, when an entry that is not there counts as `SIZE_MAX`. -/
def SamePointers (read written : List ℕ) : Prop :=
  ∀ i, read.getD i sizeMax = written.getD i sizeMax

theorem getD_replicate_default {k i a : ℕ} : (List.replicate k a).getD i a = a := by
  rcases Nat.lt_or_ge i k with h | h
  · exact List.getD_replicate a h
  · exact List.getD_eq_default _ _ (by rw [List.length_replicate]; exact h)

theorem samePointers_padded {pointers : List ℕ} :
    SamePointers (paddedPointers t pointers) pointers ↔
      ∀ a ∈ pointers.drop (maximumPointersInNode t), a = sizeMax := by
  constructor
  · intro h a ha
    obtain ⟨i, hi, rfl⟩ := List.mem_iff_getElem.mp ha
    rw [List.length_drop] at hi
    have hi' := h (maximumPointersInNode t + i)
    rw [List.getD_eq_default _ _ (by rw [length_paddedPointers]; omega),
      List.getD_eq_getElem _ _ (show maximumPointersInNode t + i < pointers.length by omega)] at hi'
    rw [List.getElem_drop]
    exact hi'.symm
  · intro h i
    rcases Nat.lt_or_ge i (maximumPointersInNode t) with hi | hi
    · unfold paddedPointers
      rcases Nat.lt_or_ge i pointers.length with hlen | hlen
      · rw [List.getD_append _ _ _ _ (by rw [List.length_take]; omega), List.getD_eq_getElem?_getD,
          List.getElem?_take_of_lt hi, ← List.getD_eq_getElem?_getD]
      · rw [List.getD_append_right _ _ _ _ (by rw [List.length_take]; omega),
          getD_replicate_default, List.getD_eq_default _ _ hlen]
    · rw [List.getD_eq_default _ _ (by rw [length_paddedPointers]; omega)]
      rcases Nat.lt_or_ge i pointers.length with hlen | hlen
      · rw [List.getD_eq_getElem _ _ hlen]
        refine (h _ ?_).symm
        rw [List.mem_iff_getElem]
        refine ⟨i - maximumPointersInNode t, by rw [List.length_drop]; omega, ?_⟩
        rw [List.getElem_drop]
        congr 1
        omega
      · rw [List.getD_eq_default _ _ hlen]

/-- The round trip of a node: the same pairs, pointers and position. -/
def ReadsTheSame (r n : Node κ υ) : Prop :=
  r.keys = n.keys ∧ SamePointers r.pointers n.pointers ∧ r.positionInDisk = n.positionInDisk

/-- What `disk_read` returns right after `disk_write` is the node exactly when its field `size`
counts its keys and no pointer lies behind the first `2t`. -/
theorem round_trip_iff (t : ℕ) (codec : Codec κ υ) (st st' : DiskTree) (n : Node κ υ)
    (hn : n.InRange) (hpos : n.positionInDisk < st.countOfNode)
    (hw : diskWrite t codec st n = .ok st') :
    ReadsTheSame (diskRead t codec st' n.positionInDisk) n ↔
      n.size = n.keys.length ∧
        ∀ a ∈ n.pointers.drop (maximumPointersInNode t), a = sizeMax := by
  have h := diskRead_written hn hpos hw
  unfold ReadsTheSame
  rw [h.pointers, samePointers_padded]
  constructor
  · rintro ⟨hkeys, hpointers, -⟩
    refine ⟨?_, hpointers⟩
    rw [← h.length, hkeys]
  · rintro ⟨hsize, hpointers⟩
    exact ⟨h.keys hsize, hpointers, h.position⟩

instance neZeroBytes : NeZero 256 := ⟨by decide⟩

/-- Keys and values of one byte each. -/
def byteCodec : Codec (Fin 256) (Fin 256) where
  encode x := [UInt8.ofNat x.1, UInt8.ofNat x.2]
  decode stream := (Fin.ofNat 256 (stream 0).toNat, Fin.ofNat 256 (stream 1).toNat)
  decode_encode := by
    rintro ⟨a, b⟩ stream h
    have h₀ : stream 0 = UInt8.ofNat a := h 0 (by simp)
    have h₁ : stream 1 = UInt8.ofNat b := h 1 (by simp)
    rw [h₀, h₁]
    ext
    · simp
    · simp

/-- A new root with one pair. -/
def oneKey : Node (Fin 256) (Fin 256) := ⟨1, true, 0, [(10, 110)], [sizeMax]⟩

def oneSlot : DiskTree := { DiskTree.fresh with countOfNode := 1 }

theorem oneKey_inRange : oneKey.InRange := by
  refine ⟨by decide, by decide, ?_⟩
  intro p hp
  rw [List.mem_singleton.mp hp]

theorem round_trip_iff_oneKey :
    ReadsTheSame (diskRead 2 byteCodec (serialize 2 byteCodec oneSlot oneKey (slot 2 0)) 0) oneKey ↔
      oneKey.size = oneKey.keys.length ∧
        ∀ a ∈ oneKey.pointers.drop (maximumPointersInNode 2), a = sizeMax :=
  round_trip_iff 2 byteCodec oneSlot _ oneKey oneKey_inRange (by decide)
    (diskWrite_eq_ok.mpr ⟨by decide, by decide, rfl⟩)

/-- With `t = 2`, `erase(40)` after inserts of 10, 20, 30, 40 borrows from the left leaf and
writes it with the key 10 and the old size 2; it is read back with the keys 10 and 20. -/
theorem borrowLeft_reads_back :
    (do
      let st ← insertAll 2 9 byteCodec [(10, 110), (20, 120), (30, 130), (40, 140)] DiskTree.fresh
      let leftSibling := diskRead 2 byteCodec st 2
      let written ← eraseKey leftSibling 1
      let st ← borrowLeft 2 byteCodec st (diskRead 2 byteCodec st 3) (diskRead 2 byteCodec st 1)
        leftSibling 1 0
      pure (written.keys, (diskRead 2 byteCodec st 2).keys)).toOption =
        some ([(10, 110)], [(10, 110), (20, 120)]) := by
  decide +kernel

/-! ### The other slots -/

/-- The field `size` of a slot. -/
def slotSize (t : ℕ) (st : DiskTree) (p : ℕ) : ℕ := st.fileForTree.load64 (slot t p)

/-- The offset of the positions in a slot. -/
def slotPositions (t p : ℕ) : ℕ := slot t p + 17 + 8 * maximumPointersInNode t

/-- The record has at most one key more than its slot has room for, and its pairs are read from
the written part of the key-value file. -/
structure Sound (t : ℕ) (codec : Codec κ υ) (st : DiskTree) (p : ℕ) : Prop where
  size : slotSize t st p ≤ maximumKeysInNode t + 1
  data : ∀ a ∈ st.fileForTree.readWords (slotPositions t p) (slotSize t st p),
    ∀ file : Memory, file.AgreeOn st.fileForKeyValue 0 st.lastPosition →
      pairAt codec file a = pairAt codec st.fileForKeyValue a

theorem slotPositions_end :
    slotPositions t p + 8 * maximumKeysInNode t = slot t (p + 1) := by
  rw [slot_succ, nodeMetadataSize_eq, slotPositions]
  omega

/-- Two states whose bytes agree on a slot behind its size field, with the same size, read the
same node there, except for a key behind the end of the slot. -/
theorem deserialize_eq_iff (h : Sound t codec st p)
    (hsize : slotSize t st' p = slotSize t st p)
    (hfile : Memory.AgreeOn st'.fileForTree st.fileForTree (slot t p + 8) (slot t (p + 1)))
    (hdata : Memory.AgreeOn st'.fileForKeyValue st.fileForKeyValue 0 st.lastPosition) :
    deserialize t codec st' (slot t p) = deserialize t codec st (slot t p) ↔
      (slotSize t st p = maximumKeysInNode t + 1 →
        pairAt codec st'.fileForKeyValue (slotSize t st' (p + 1)) =
          pairAt codec st.fileForKeyValue (slotSize t st (p + 1))) := by
  have hend : slotPositions t p + 8 * maximumKeysInNode t = slot t (p + 1) := slotPositions_end
  have hinside : ∀ k ≤ maximumKeysInNode t,
      st'.fileForTree.readWords (slotPositions t p) k =
        st.fileForTree.readWords (slotPositions t p) k := by
    intro k hk
    apply Memory.readWords_congr
    exact hfile.mono (by unfold slotPositions; omega) (by omega)
  have hkeys : (deserialize t codec st' (slot t p)).keys = (deserialize t codec st (slot t p)).keys ↔
      (slotSize t st p = maximumKeysInNode t + 1 →
        pairAt codec st'.fileForKeyValue (slotSize t st' (p + 1)) =
          pairAt codec st.fileForKeyValue (slotSize t st (p + 1))) := by
    have hnew : (deserialize t codec st' (slot t p)).keys =
        (st'.fileForTree.readWords (slotPositions t p) (slotSize t st p)).map
          (pairAt codec st'.fileForKeyValue) := by
      rw [deserialize_keys, ← hsize, slotSize, slotPositions]
    have hold : (deserialize t codec st (slot t p)).keys =
        (st.fileForTree.readWords (slotPositions t p) (slotSize t st p)).map
          (pairAt codec st.fileForKeyValue) := by
      rw [deserialize_keys, slotSize, slotPositions]
    rw [hnew, hold]
    have hpairs := fun a ha => h.data a ha st'.fileForKeyValue hdata
    rcases Nat.lt_or_ge (maximumKeysInNode t) (slotSize t st p) with hlt | hle
    · have heq : slotSize t st p = maximumKeysInNode t + 1 := le_antisymm h.size hlt
      rw [heq, Memory.readWords_add] at hpairs
      have hfirst := List.map_congr_left fun a ha => hpairs a (List.mem_append_left _ ha)
      rw [heq, Memory.readWords_add, Memory.readWords_add, hinside _ le_rfl, hend, List.map_append,
        List.map_append, hfirst, List.append_cancel_left_eq]
      rw [Memory.readWords_one, Memory.readWords_one, List.map_singleton, List.map_singleton, List.singleton_inj]
      exact ⟨fun hp _ => hp, fun hp => hp rfl⟩
    · rw [hinside _ hle, List.map_congr_left hpairs]
      exact ⟨fun _ heq => by omega, fun _ => rfl⟩
  rw [← hkeys]
  constructor
  · intro heq
    rw [heq]
  · intro heq
    have hpointers := Memory.readWords_congr
      (hfile.mono (show slot t p + 8 ≤ slot t p + 17 by omega)
        (show slot t p + 17 + 8 * maximumPointersInNode t ≤ slot t (p + 1) by
          unfold slotPositions at hend; omega))
    have hposition := Memory.load64_congr
      (hfile.mono (show slot t p + 8 ≤ slot t p + 9 by omega)
        (show slot t p + 9 + 8 ≤ slot t (p + 1) by unfold slotPositions at hend; omega))
    have hleaf := Memory.loadBytes_congr
      (hfile.mono (show slot t p + 8 ≤ slot t p + 8 by omega)
        (show slot t p + 8 + 1 ≤ slot t (p + 1) by unfold slotPositions at hend; omega))
    have hload : st'.fileForTree.load64 (slot t p) = st.fileForTree.load64 (slot t p) := hsize
    apply Node.ext
    · rw [deserialize_size, deserialize_size, hload]
    · rw [deserialize_isLeaf, deserialize_isLeaf, hleaf]
    · rw [deserialize_position, deserialize_position, hposition]
    · exact heq
    · rw [deserialize_pointers, deserialize_pointers, hpointers]

/-- The write stays inside its slot, or no other slot is behind it, or the last position happens
to be the number that the size field of the next slot holds. -/
def StaysInSlot (t : ℕ) (codec : Codec κ υ) (st : DiskTree) (n : Node κ υ) : Prop :=
  n.keys.length ≤ maximumKeysInNode t ∨ st.countOfNode ≤ n.positionInDisk + 1 ∨
    slotSize t st (n.positionInDisk + 1) =
      st.lastPosition + (codec.bytes (n.keys.take (maximumKeysInNode t))).length

/-- The record before does not reach into the slot that is written, or its last key reads the
same with the new size as its position. -/
def RecordBeforeEnds (t : ℕ) (codec : Codec κ υ) (st : DiskTree) (n : Node κ υ) : Prop :=
  ∀ p, p + 1 = n.positionInDisk → slotSize t st p = maximumKeysInNode t + 1 →
    pairAt codec (st.fileForKeyValue.storeList st.lastPosition (codec.bytes n.keys)) n.size =
      pairAt codec st.fileForKeyValue (slotSize t st n.positionInDisk)

theorem Codec.positions_append (position : ℕ) (xs ys : List (κ × υ)) :
    codec.positions position (xs ++ ys) =
      codec.positions position xs ++ codec.positions (position + (codec.bytes xs).length) ys := by
  induction xs generalizing position with
  | nil => rfl
  | cons x xs ih =>
    show position :: codec.positions _ (xs ++ ys) = position :: (_ ++ _)
    rw [ih, codec.bytes_cons, List.length_append, Nat.add_assoc]

/-- A record with one key too many puts the last position on the next size field. -/
theorem slotSize_overwritten (hkeys : n.keys.length = maximumKeysInNode t + 1)
    (hdata : st.lastPosition + (codec.bytes n.keys).length ≤ sizeMax) :
    slotSize t (serialize t codec st n (slot t n.positionInDisk)) (n.positionInDisk + 1) =
      st.lastPosition + (codec.bytes (n.keys.take (maximumKeysInNode t))).length := by
  have hend : slotPositions t n.positionInDisk + 8 * maximumKeysInNode t =
    slot t (n.positionInDisk + 1) := slotPositions_end
  have hall : (serialize t codec st n (slot t n.positionInDisk)).fileForTree.readWords
      (slotPositions t n.positionInDisk) n.keys.length = codec.positions st.lastPosition n.keys :=
    serialize_positions hdata
  obtain ⟨x, hx⟩ : ∃ x, n.keys.drop (maximumKeysInNode t) = [x] := by
    rw [← List.length_eq_one_iff, List.length_drop, hkeys]
    omega
  have hsplit := codec.positions_append st.lastPosition (n.keys.take (maximumKeysInNode t))
    (n.keys.drop (maximumKeysInNode t))
  rw [List.take_append_drop, hx] at hsplit
  rw [hkeys, Memory.readWords_add, hsplit] at hall
  have hlast := (List.append_inj hall (by
    rw [Memory.length_readWords, codec.length_positions, List.length_take]
    omega)).2
  have hword := (List.cons.inj hlast).1
  unfold slotSize
  rw [← hend]
  exact hword

/-- The slots before the one that is written: only the last position of the slot just before it
may lie on the size field that changes. -/
theorem diskRead_before_iff (hn : n.InRange) (hpos : n.positionInDisk < st.countOfNode)
    (hs : Sound t codec st p) (hp : p < n.positionInDisk)
    (hw : diskWrite t codec st n = .ok st') :
    diskRead t codec st' p = diskRead t codec st p ↔
      (p + 1 = n.positionInDisk → slotSize t st p = maximumKeysInNode t + 1 →
        pairAt codec (st.fileForKeyValue.storeList st.lastPosition (codec.bytes n.keys)) n.size =
          pairAt codec st.fileForKeyValue (slotSize t st n.positionInDisk)) := by
  obtain ⟨-, -, rfl⟩ := diskWrite_eq_ok.mp hw
  set pos := n.positionInDisk
  set st' := serialize t codec st n (slot t pos)
  have hcount : p < st'.countOfNode := hp.trans hpos
  have hgrow : Memory.AgreeOn st'.fileForKeyValue st.fileForKeyValue 0 st.lastPosition :=
    agreeOn_serialize_data le_rfl
  have hle : slot t (p + 1) ≤ slot t pos := slot_mono hp
  have hfile : Memory.AgreeOn st'.fileForTree st.fileForTree (slot t p) (slot t (p + 1)) :=
    agreeOn_serialize (Or.inl hle)
  have hwide : slot t (p + 1) = slot t p + nodeMetadataSize t := slot_succ
  have hmeta := nodeMetadataSize_eq t
  have hsize : slotSize t st' p = slotSize t st p :=
    Memory.load64_congr (hfile.mono le_rfl (by omega))
  rw [diskRead_of_lt (hp.trans hpos), diskRead_of_lt hcount,
    deserialize_eq_iff hs hsize (hfile.mono (by omega) le_rfl) hgrow]
  rcases Nat.lt_or_ge (p + 1) pos with hlt | hge
  · have hfar : slotSize t st' (p + 1) = slotSize t st (p + 1) := by
      have hnext : slot t (p + 1 + 1) ≤ slot t pos := slot_mono hlt
      have hwide' : slot t (p + 1 + 1) = slot t (p + 1) + nodeMetadataSize t := slot_succ
      exact Memory.load64_congr (agreeOn_serialize (Or.inl (by omega)))
    constructor
    · intro _ heq
      omega
    · intro _ hover
      rw [hfar]
      refine hs.data _ ?_ _ hgrow
      rw [hover, Memory.readWords_add, slotPositions_end]
      exact List.mem_append_right _ (List.mem_singleton_self _)
  · have heq : p + 1 = pos := by omega
    have hnew : slotSize t st' pos = n.size := serialize_size hn
    rw [heq, hnew]
    exact ⟨fun h _ => h, fun h => h rfl⟩

/-- The slots behind: only the size field of the next one may be written. -/
theorem diskRead_after_iff (hkeys : n.keys.length ≤ maximumKeysInNode t + 1)
    (hs : Sound t codec st p) (hp : n.positionInDisk < p) (hcount : p < st.countOfNode)
    (hw : diskWrite t codec st n = .ok st') :
    diskRead t codec st' p = diskRead t codec st p ↔ slotSize t st' p = slotSize t st p := by
  obtain ⟨-, -, rfl⟩ := diskWrite_eq_ok.mp hw
  set pos := n.positionInDisk
  set st' := serialize t codec st n (slot t pos)
  have hcount' : p < st'.countOfNode := hcount
  have hgrow : Memory.AgreeOn st'.fileForKeyValue st.fileForKeyValue 0 st.lastPosition :=
    agreeOn_serialize_data le_rfl
  have hspan : recordSize t n.keys.length ≤ nodeMetadataSize t + 8 := by
    unfold nodeMetadataSize recordSize
    omega
  have hle : slot t (pos + 1) ≤ slot t p := slot_mono hp
  have hwide : slot t (pos + 1) = slot t pos + nodeMetadataSize t := slot_succ
  have hwide' : slot t (p + 1) = slot t p + nodeMetadataSize t := slot_succ
  have hmeta := nodeMetadataSize_eq t
  have hfile : Memory.AgreeOn st'.fileForTree st.fileForTree (slot t p + 8)
      (slot t (p + 1) + 8) := agreeOn_serialize (Or.inr (by omega))
  rw [diskRead_of_lt hcount, diskRead_of_lt hcount']
  constructor
  · intro heq
    have hsizes := congrArg Node.size heq
    exact hsizes
  · intro hsize
    rw [deserialize_eq_iff hs hsize (hfile.mono le_rfl (by omega)) hgrow]
    intro hover
    have hnext : slotSize t st' (p + 1) = slotSize t st (p + 1) :=
      Memory.load64_congr (hfile.mono (by omega) le_rfl)
    rw [hnext]
    refine hs.data _ ?_ _ hgrow
    rw [hover, Memory.readWords_add, slotPositions_end]
    exact List.mem_append_right _ (List.mem_singleton_self _)

theorem slotSize_after (hp : n.positionInDisk < p)
    (hkeys : n.keys.length ≤ maximumKeysInNode t ∨
      n.keys.length ≤ maximumKeysInNode t + 1 ∧ n.positionInDisk + 1 < p) :
    slotSize t (serialize t codec st n (slot t n.positionInDisk)) p = slotSize t st p := by
  have hle : slot t (n.positionInDisk + 1) ≤ slot t p := slot_mono hp
  have hwide : slot t (n.positionInDisk + 1) = slot t n.positionInDisk + nodeMetadataSize t :=
    slot_succ
  have hmeta := nodeMetadataSize_eq t
  refine Memory.load64_congr (agreeOn_serialize (Or.inr ?_))
  rcases hkeys with hfits | ⟨hover, hnext⟩
  · unfold recordSize
    omega
  · have hle' : slot t (n.positionInDisk + 1 + 1) ≤ slot t p := slot_mono hnext
    have hwide' : slot t (n.positionInDisk + 1 + 1) =
      slot t (n.positionInDisk + 1) + nodeMetadataSize t := slot_succ
    unfold recordSize
    omega

end MaiFaSp.BTreeDisk
