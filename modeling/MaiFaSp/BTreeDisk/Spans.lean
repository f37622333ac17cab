import MaiFaSp.BTreeDisk.Records

/-!
# Records of any length

A record with more keys than its slot has room for goes on over the slots behind. A write
keeps every record that it does not lie over (`b_tree_disk.hpp:659-736`).
-/

namespace MaiFaSp.BTreeDisk

open BoundedVector

variable {κ υ : Type} {t : ℕ} {codec : Codec κ υ} {st st' : DiskTree} {n m : Node κ υ} {p k : ℕ}

/-- The end of a record with `k` keys in the slot of `p`. -/
def recordEnd (t p k : ℕ) : ℕ := slot t p + recordSize t k

/-- The pairs at the positions are read from the written part of the key-value file. -/
def Written (codec : Codec κ υ) (st : DiskTree) (positions : List ℕ) : Prop :=
  ∀ a ∈ positions, ∀ file : Memory, file.AgreeOn st.fileForKeyValue 0 st.lastPosition →
    pairAt codec file a = pairAt codec st.fileForKeyValue a

/-- The slot of `p` is allocated and its record reads as `n`. -/
structure Recorded (t : ℕ) (codec : Codec κ υ) (st : DiskTree) (p : ℕ) (n : Node κ υ) : Prop where
  allocated : p < st.countOfNode
  read : deserialize t codec st (slot t p) = n
  written : Written codec st (st.fileForTree.readWords (slotPositions t p) n.size)

theorem recordEnd_eq (t p k : ℕ) : recordEnd t p k = slotPositions t p + 8 * k := by
  unfold recordEnd recordSize slotPositions
  omega

theorem recordEnd_mono {j : ℕ} (h : j ≤ k) : recordEnd t p j ≤ recordEnd t p k := by
  rw [recordEnd_eq, recordEnd_eq]
  omega

theorem recordEnd_le_slot (h : k ≤ maximumKeysInNode t) : recordEnd t p k ≤ slot t (p + 1) := by
  have hend : slotPositions t p + 8 * maximumKeysInNode t = slot t (p + 1) := slotPositions_end
  rw [recordEnd_eq]
  omega

theorem slot_lt_recordEnd : slot t p < recordEnd t p k := by
  unfold recordEnd recordSize
  omega

theorem lt_of_slot_lt {q : ℕ} (h : slot t p < slot t q) : p < q := by
  by_contra hge
  exact absurd (slot_mono (t := t) (Nat.le_of_not_lt hge)) (not_le.mpr h)

theorem Codec.positions_take (position k : ℕ) (keys : List (κ × υ)) :
    (codec.positions position keys).take k = codec.positions position (keys.take k) := by
  induction keys generalizing position k with
  | nil => rw [List.take_nil]; exact List.take_nil
  | cons x xs ih =>
    cases k with
    | zero => rfl
    | succ k =>
      show position :: (codec.positions _ xs).take k = _
      rw [ih]
      rfl

theorem Written.mono {positions : List ℕ} (h : Written codec st positions)
    (hfile : st'.fileForKeyValue.AgreeOn st.fileForKeyValue 0 st.lastPosition)
    (hlast : st.lastPosition ≤ st'.lastPosition) : Written codec st' positions := by
  intro a ha file hagree
  rw [h a ha file ((hagree.mono le_rfl hlast).trans hfile), h a ha _ hfile]

/-- The positions of pairs that were just written. -/
theorem written_positions {keys : List (κ × υ)} {position : ℕ}
    (hbytes : ∀ i (hi : i < (codec.bytes keys).length),
      st.fileForKeyValue (position + i) = (codec.bytes keys)[i])
    (hlast : position + (codec.bytes keys).length ≤ st.lastPosition) :
    Written codec st (codec.positions position keys) := by
  intro a ha file hfile
  have hmap := codec.map_pairAt_positions hbytes
  have hmap' : (codec.positions position keys).map (pairAt codec file) = keys := by
    apply codec.map_pairAt_positions
    intro i hi
    rw [hfile (position + i) (Nat.zero_le _) (by omega)]
    exact hbytes i hi
  exact List.map_inj_left.mp (hmap'.trans hmap.symm) a ha

namespace Recorded

theorem slotSize_eq (h : Recorded t codec st p n) : slotSize t st p = n.size :=
  congrArg Node.size h.read

theorem keys (h : Recorded t codec st p n) :
    n.keys = (st.fileForTree.readWords (slotPositions t p) n.size).map
      (pairAt codec st.fileForKeyValue) := by
  have hsize : st.fileForTree.load64 (slot t p) = n.size := h.slotSize_eq
  have hkeys := congrArg Node.keys h.read
  rw [deserialize_keys, hsize] at hkeys
  exact hkeys.symm

theorem length_keys (h : Recorded t codec st p n) : n.keys.length = n.size := by
  rw [h.keys, List.length_map, Memory.length_readWords]

theorem diskRead (h : Recorded t codec st p n) : diskRead t codec st p = n := by
  rw [diskRead_of_lt h.allocated, h.read]

/-- The record in a state whose bytes agree there. -/
theorem transfer (h : Recorded t codec st p n) (hp : p < st'.countOfNode)
    (hfile : st'.fileForTree.AgreeOn st.fileForTree (slot t p) (recordEnd t p n.size))
    (hdata : st'.fileForKeyValue.AgreeOn st.fileForKeyValue 0 st.lastPosition)
    (hlast : st.lastPosition ≤ st'.lastPosition) : Recorded t codec st' p n := by
  have hend := recordEnd_eq t p n.size
  have hwords : st'.fileForTree.readWords (slotPositions t p) n.size =
      st.fileForTree.readWords (slotPositions t p) n.size :=
    Memory.readWords_congr (hfile.mono (by unfold slotPositions; omega) (by omega))
  have hsize : st'.fileForTree.load64 (slot t p) = n.size :=
    (Memory.load64_congr (hfile.mono le_rfl (by unfold slotPositions at hend; omega))).trans h.slotSize_eq
  refine ⟨hp, ?_, hwords ▸ h.written.mono hdata hlast⟩
  rw [← h.read]
  apply Node.ext
  · exact hsize.trans h.slotSize_eq.symm
  · rw [deserialize_isLeaf, deserialize_isLeaf]
    exact congrArg (fun b : ℕ => decide (b ≠ 0))
      (Memory.loadBytes_congr (hfile.mono (by omega) (by unfold slotPositions at hend; omega)))
  · exact Memory.load64_congr (hfile.mono (by omega) (by unfold slotPositions at hend; omega))
  · have hold := h.keys
    rw [h.read, hold, deserialize_keys, hsize]
    change (st'.fileForTree.readWords (slotPositions t p) n.size).map _ = _
    rw [hwords]
    exact List.map_congr_left fun a ha => h.written a ha _ hdata
  · exact Memory.readWords_congr (hfile.mono (by omega) (by unfold slotPositions at hend; omega))

theorem shared (h : Recorded t codec st p n) {count last root : ℕ} (hcount : p < count)
    (hlast : st.lastPosition ≤ last) :
    Recorded t codec { st with countOfNode := count, lastPosition := last, positionRoot := root } p n := by
  refine h.transfer hcount ?_ ?_ hlast
  · exact fun _ _ _ => rfl
  · exact fun _ _ _ => rfl

/-- A write keeps a record that it does not lie over. -/
theorem kept (h : Recorded t codec st p m) (hw : diskWrite t codec st n = .ok st')
    (hapart : recordEnd t p m.size ≤ slot t n.positionInDisk ∨
      recordEnd t n.positionInDisk n.keys.length ≤ slot t p) : Recorded t codec st' p m := by
  obtain ⟨-, -, rfl⟩ := diskWrite_eq_ok.mp hw
  exact h.transfer h.allocated (agreeOn_serialize hapart) (agreeOn_serialize_data le_rfl)
    (Nat.le_add_right _ _)

/-- The slot after a write, by the positions that stand in it. -/
theorem deserialize_written (hn : n.InRange) (hpos : n.positionInDisk < st.countOfNode)
    (hw : diskWrite t codec st n = .ok st') {positions : List ℕ} {keys : List (κ × υ)}
    (hwords : st'.fileForTree.readWords (slotPositions t n.positionInDisk) n.size = positions)
    (hkeys : positions.map (pairAt codec st'.fileForKeyValue) = keys) :
    deserialize t codec st' (slot t n.positionInDisk) =
      { n with keys := keys, pointers := paddedPointers t n.pointers } := by
  have hback := diskRead_written hn hpos hw
  have hpos' : n.positionInDisk < st'.countOfNode := by
    obtain ⟨-, -, rfl⟩ := diskWrite_eq_ok.mp hw
    exact hpos
  rw [diskRead_of_lt hpos'] at hback
  have hsize : st'.fileForTree.load64 (slot t n.positionInDisk) = n.size := hback.size
  apply Node.ext
  · exact hback.size
  · exact hback.isLeaf
  · exact hback.position
  · rw [deserialize_keys, hsize]
    change (st'.fileForTree.readWords (slotPositions t n.positionInDisk) n.size).map _ = _
    rw [hwords, hkeys]
  · exact hback.pointers

/-- A record with at least as many keys as its field `size` says. -/
theorem own (hn : n.InRange) (hpos : n.positionInDisk < st.countOfNode)
    (hsize : n.size ≤ n.keys.length) (hw : diskWrite t codec st n = .ok st') :
    Recorded t codec st' n.positionInDisk { n with
      keys := n.keys.take n.size
      pointers := paddedPointers t n.pointers } := by
  obtain ⟨-, hdata, rfl⟩ := diskWrite_eq_ok.mp hw
  set st' := serialize t codec st n (slot t n.positionInDisk)
  have hwords : st'.fileForTree.readWords (slotPositions t n.positionInDisk) n.size =
      codec.positions st.lastPosition (n.keys.take n.size) := by
    have hall : st'.fileForTree.readWords (slotPositions t n.positionInDisk) n.keys.length =
        codec.positions st.lastPosition n.keys := serialize_positions (hdata.trans streamLimit_le)
    rw [← codec.positions_take, ← hall, show n.keys.length = n.size + (n.keys.length - n.size) by omega,
      Memory.readWords_add, List.take_left' (by rw [Memory.length_readWords])]
  have hbytes : ∀ i (hi : i < (codec.bytes (n.keys.take n.size)).length),
      st'.fileForKeyValue (st.lastPosition + i) = (codec.bytes (n.keys.take n.size))[i] := by
    intro i hi
    have hsplit : codec.bytes n.keys =
        codec.bytes (n.keys.take n.size) ++ codec.bytes (n.keys.drop n.size) := by
      unfold Codec.bytes
      rw [← List.flatMap_append, List.take_append_drop]
    have hi' : i < (codec.bytes n.keys).length := by
      rw [hsplit, List.length_append]
      omega
    refine (Memory.storeList_getElem st.fileForKeyValue st.lastPosition i hi').trans ?_
    simp only [hsplit]
    exact List.getElem_append_left hi
  refine ⟨hpos, deserialize_written hn hpos hw hwords (codec.map_pairAt_positions hbytes), ?_⟩
  dsimp only
  rw [hwords]
  refine written_positions hbytes ?_
  have hle : (codec.bytes (n.keys.take n.size)).length ≤ (codec.bytes n.keys).length := by
    nth_rewrite 2 [← List.take_append_drop n.size n.keys]
    unfold Codec.bytes
    rw [List.flatMap_append, List.length_append]
    exact Nat.le_add_right _ _
  exact Nat.add_le_add_left hle _

/-- A record written with fewer keys than its field `size` says: the old last keys are read
behind the new ones. -/
theorem overwritten (h : Recorded t codec st n.positionInDisk m) (hn : n.InRange)
    (hsize : n.size = m.size) (hkeys : n.keys.length ≤ m.size)
    (hw : diskWrite t codec st n = .ok st') :
    Recorded t codec st' n.positionInDisk { n with
      keys := n.keys ++ m.keys.drop n.keys.length
      pointers := paddedPointers t n.pointers } := by
  obtain ⟨-, hdata, rfl⟩ := diskWrite_eq_ok.mp hw
  set st' := serialize t codec st n (slot t n.positionInDisk)
  have hgrow : st'.fileForKeyValue.AgreeOn st.fileForKeyValue 0 st.lastPosition :=
    agreeOn_serialize_data le_rfl
  have hlast : st.lastPosition ≤ st'.lastPosition := Nat.le_add_right _ _
  have hsplit : n.size = n.keys.length + (n.size - n.keys.length) := by omega
  have hwords := h.keys
  have hsound := h.written
  rw [← hsize, hsplit, Memory.readWords_add] at hwords hsound
  set old := st.fileForTree.readWords (slotPositions t n.positionInDisk + 8 * n.keys.length)
    (n.size - n.keys.length)
  -- the positions behind the new ones are those of before
  have hold : st'.fileForTree.readWords (slotPositions t n.positionInDisk) n.size =
      codec.positions st.lastPosition n.keys ++ old := by
    rw [hsplit, Memory.readWords_add]
    congr 1
    · exact serialize_positions (hdata.trans streamLimit_le)
    · apply Memory.readWords_congr
      apply agreeOn_serialize
      right
      unfold slotPositions recordSize
      omega
  have hdrop : m.keys.drop n.keys.length = old.map (pairAt codec st.fileForKeyValue) := by
    rw [hwords, List.map_append]
    exact List.drop_left' (by rw [List.length_map, Memory.length_readWords])
  have hbytes : ∀ i (hi : i < (codec.bytes n.keys).length),
      st'.fileForKeyValue (st.lastPosition + i) = (codec.bytes n.keys)[i] :=
    fun i hi => Memory.storeList_getElem st.fileForKeyValue st.lastPosition i hi
  have hstale : Written codec st old := fun a ha => hsound a (List.mem_append_right _ ha)
  refine ⟨h.allocated, deserialize_written hn h.allocated hw hold ?_, ?_⟩
  · rw [List.map_append, codec.map_pairAt_positions hbytes, hdrop]
    exact congrArg _ (List.map_congr_left fun a ha => hstale a ha _ hgrow)
  · dsimp only
    rw [hold]
    intro a ha
    rcases List.mem_append.mp ha with ha | ha
    · exact written_positions hbytes le_rfl a ha
    · exact hstale.mono hgrow hlast a ha

end Recorded

end MaiFaSp.BTreeDisk
