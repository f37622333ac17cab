import MaiFaSp.BTreeDisk.Spans
import MaiFaSp.Lib.Interleave

/-!
# Slots that hold a node

What a slot holds after a write, and which slots a write keeps, for nodes that fit.
-/

namespace MaiFaSp.BTreeDisk

open BoundedVector

variable {κ υ : Type} {t : ℕ} {codec : Codec κ υ} {st st' : DiskTree} {n m : Node κ υ} {p : ℕ}

/-- The slot of `p` is allocated and reads as `n`, which fits into it. -/
structure Holds (t : ℕ) (codec : Codec κ υ) (st : DiskTree) (p : ℕ) (n : Node κ υ) : Prop where
  allocated : p < st.countOfNode
  valid : p < sizeMax
  read : diskRead t codec st p = n
  sound : Sound t codec st p
  fits : slotSize t st p ≤ maximumKeysInNode t

theorem position_le {k : ℕ} (h : slot t p + recordSize t k ≤ streamLimit) : p ≤ streamLimit := by
  have hp : p * 1 ≤ p * nodeMetadataSize t := by
    apply Nat.mul_le_mul_left
    unfold nodeMetadataSize recordSize
    omega
  unfold slot at h
  omega

theorem position_lt_sizeMax {k : ℕ} (h : slot t p + recordSize t k ≤ streamLimit) : p < sizeMax :=
  (position_le h).trans_lt (by unfold streamLimit sizeMax; omega)

theorem Holds.slotSize_eq (h : Holds t codec st p m) : slotSize t st p = m.size := by
  rw [← h.read, diskRead_of_lt h.allocated]
  rfl

theorem Holds.size_le (h : Holds t codec st p m) : m.size ≤ maximumKeysInNode t := by
  rw [← h.slotSize_eq]
  exact h.fits

theorem Holds.recorded (h : Holds t codec st p m) : Recorded t codec st p m := by
  refine ⟨h.allocated, ?_, ?_⟩
  · rw [← h.read, diskRead_of_lt h.allocated]
  · rw [← h.slotSize_eq]
    exact h.sound.data

theorem Recorded.holds (h : Recorded t codec st p m) (hvalid : p < sizeMax)
    (hfits : m.size ≤ maximumKeysInNode t) : Holds t codec st p m := by
  have hsize := h.slotSize_eq
  refine ⟨h.allocated, hvalid, h.diskRead, ⟨by omega, ?_⟩, hsize.trans_le hfits⟩
  rw [hsize]
  exact h.written

/-- A write of a node that fits, or that goes behind `p`, or that has one key too many and goes to
a slot that is not the one before, keeps the slot of `p`. -/
theorem Holds.kept (h : Holds t codec st p m) (hne : p ≠ n.positionInDisk)
    (hkeys : (n.keys.length ≤ maximumKeysInNode t ∨ p < n.positionInDisk) ∨
      n.keys.length ≤ maximumKeysInNode t + 1 ∧ n.positionInDisk + 1 ≠ p)
    (hw : diskWrite t codec st n = .ok st') : Holds t codec st' p m := by
  refine (h.recorded.kept hw ?_).holds h.valid h.size_le
  rcases Nat.lt_or_ge p n.positionInDisk with hlt | hge
  · exact Or.inl ((recordEnd_le_slot h.size_le).trans (slot_mono hlt))
  · have hnext : slot t (n.positionInDisk + 1) ≤ slot t p := slot_mono (by omega)
    rcases hkeys with (hfits | hlt) | ⟨hover, hfar⟩
    · exact Or.inr ((recordEnd_le_slot hfits).trans hnext)
    · exact absurd hlt (by omega)
    · have hafter : slot t (n.positionInDisk + 1 + 1) ≤ slot t p := slot_mono (by omega)
      have hwide : slot t (n.positionInDisk + 1 + 1) =
        slot t (n.positionInDisk + 1) + nodeMetadataSize t := slot_succ
      have hend : slotPositions t n.positionInDisk + 8 * maximumKeysInNode t =
        slot t (n.positionInDisk + 1) := slotPositions_end
      have hmeta := nodeMetadataSize_eq t
      right
      rw [recordEnd_eq]
      omega

theorem Holds.written (hn : n.InRange) (hpos : n.positionInDisk < st.countOfNode)
    (hsize : n.size = n.keys.length) (hfits : n.keys.length ≤ maximumKeysInNode t)
    (hw : diskWrite t codec st n = .ok st') :
    Holds t codec st' n.positionInDisk { n with pointers := paddedPointers t n.pointers } := by
  have hown := Recorded.own hn hpos hsize.le hw
  rw [hsize, List.take_length] at hown
  obtain ⟨hslot, -, -⟩ := diskWrite_eq_ok.mp hw
  have hholds := hown.holds (position_lt_sizeMax hslot) hfits
  rw [← hsize] at hholds
  exact hholds

theorem Holds.keys (h : Holds t codec st p m) :
    m.keys = (st.fileForTree.readWords (slotPositions t p) m.size).map
      (pairAt codec st.fileForKeyValue) := h.recorded.keys

/-- A record written with fewer keys than its field `size` says: the old last keys are read
behind the new ones. -/
theorem Holds.overwritten (h : Holds t codec st n.positionInDisk m) (hn : n.InRange)
    (hsize : n.size = m.size) (hkeys : n.keys.length ≤ m.size)
    (hw : diskWrite t codec st n = .ok st') :
    Holds t codec st' n.positionInDisk { n with
      keys := n.keys ++ m.keys.drop n.keys.length
      pointers := paddedPointers t n.pointers } :=
  (h.recorded.overwritten hn hsize hkeys hw).holds h.valid (hsize.trans_le h.size_le)

theorem Holds.shared (h : Holds t codec st p m) {count last root : ℕ}
    (hcount : st.countOfNode ≤ count) (hlast : st.lastPosition ≤ last) :
    Holds t codec { st with countOfNode := count, lastPosition := last, positionRoot := root } p m :=
  (h.recorded.shared (h.allocated.trans_le hcount) hlast).holds h.valid h.size_le

theorem Holds.allocate (h : Holds t codec st p m) {count root : ℕ} (hcount : st.countOfNode ≤ count) :
    Holds t codec { st with countOfNode := count, positionRoot := root } p m :=
  h.shared hcount le_rfl

/-- There is no node at `SIZE_MAX`. -/
theorem diskRead_sizeMax (h : st.countOfNode ≤ sizeMax) :
    diskRead t codec st sizeMax = ⟨0, true, sizeMax, [], []⟩ := if_pos h

end MaiFaSp.BTreeDisk

/-!
## Leaves and their parent on the disk

The walks of `insert` and `at` in a leaf and in a node above leaves, and the writes that
`insert` and `split_node` make of them.
-/

namespace MaiFaSp.BTreeDisk

open BoundedVector

variable {κ υ : Type} {t : ℕ} {codec : Codec κ υ} {st st' : DiskTree} {es : List (κ × υ)}
  {c i : ℕ} {d : κ × υ}

def leafNode (t c : ℕ) (es : List (κ × υ)) : Node κ υ :=
  ⟨es.length, true, c, es, paddedPointers t []⟩

def innerNode (t c : ℕ) (seps : List (κ × υ)) (cs : List ℕ) : Node κ υ :=
  ⟨seps.length, false, c, seps, paddedPointers t cs⟩

theorem paddedPointers_nil : paddedPointers t [] =
    List.replicate (maximumPointersInNode t) sizeMax := by
  unfold paddedPointers
  simp

theorem paddedPointers_append_null {cs : List ℕ} (h : cs.length ≤ maximumPointersInNode t) (k : ℕ) :
    paddedPointers t (cs ++ List.replicate k sizeMax) = paddedPointers t cs := by
  unfold paddedPointers
  rw [List.take_append, List.take_of_length_le h, List.take_replicate, List.length_append,
    List.length_replicate, List.append_assoc, List.replicate_append_replicate]
  congr 2
  omega

theorem paddedPointers_replicate (k : ℕ) :
    paddedPointers t (List.replicate k sizeMax) = paddedPointers t [] := by
  have h : paddedPointers t ([] ++ List.replicate k sizeMax) = paddedPointers t [] :=
    paddedPointers_append_null (Nat.zero_le _) k
  exact h

theorem paddedPointers_getElem? {cs : List ℕ} (h : cs.length ≤ maximumPointersInNode t)
    (hi : i < maximumPointersInNode t) :
    (paddedPointers t cs)[i]? = some (cs.getD i sizeMax) := by
  unfold paddedPointers
  rw [List.take_of_length_le h]
  rcases Nat.lt_or_ge i cs.length with hlt | hge
  · rw [List.getElem?_append_left hlt, List.getD_eq_getElem _ _ hlt, List.getElem?_eq_getElem hlt]
  · rw [List.getElem?_append_right hge, List.getElem?_replicate, if_pos (by omega),
      List.getD_eq_default _ _ hge]

theorem diskWrite_okUnless {n : Node κ υ} : OkUnless .streamFailed (diskWrite t codec st n)
    (fun st' => diskWrite t codec st n = .ok st') := by
  by_cases h : streamLimit < slot t n.positionInDisk + recordSize t n.keys.length ∨
      streamLimit < st.lastPosition + (codec.bytes n.keys).length
  · exact Or.inr (if_pos h)
  · have hw : diskWrite t codec st n = .ok (serialize t codec st n (slot t n.positionInDisk)) :=
      if_neg h
    exact Or.inl ⟨_, hw, hw⟩

theorem diskWrite_count {n : Node κ υ} (hw : diskWrite t codec st n = .ok st') :
    st'.countOfNode = st.countOfNode ∧ st'.positionRoot = st.positionRoot := by
  obtain ⟨-, -, rfl⟩ := diskWrite_eq_ok.mp hw
  exact ⟨rfl, rfl⟩

theorem inRange_of_write {n : Node κ υ} (hw : diskWrite t codec st n = .ok st')
    (hsize : n.size = n.keys.length) (hpointers : ∀ p ∈ n.pointers, p ≤ sizeMax) : n.InRange := by
  obtain ⟨hslot, -, -⟩ := diskWrite_eq_ok.mp hw
  refine ⟨?_, (position_lt_sizeMax hslot).le, hpointers⟩
  have hle := streamLimit_le
  unfold recordSize at hslot
  omega

/-- The write of a node that fits: its own slot, and all other slots as before. -/
theorem diskWrite_node {n : Node κ υ} (hw : diskWrite t codec st n = .ok st')
    (hpos : n.positionInDisk < st.countOfNode) (hsize : n.size = n.keys.length)
    (hfits : n.keys.length ≤ maximumKeysInNode t) (hpointers : ∀ p ∈ n.pointers, p ≤ sizeMax) :
    Holds t codec st' n.positionInDisk { n with pointers := paddedPointers t n.pointers } ∧
      ∀ p m, p ≠ n.positionInDisk → Holds t codec st p m → Holds t codec st' p m := by
  have hn := inRange_of_write hw hsize hpointers
  refine ⟨Holds.written hn hpos hsize hfits hw, fun p m hne h => ?_⟩
  exact h.kept hne (Or.inl (Or.inl hfits)) hw

/-- The write of a node with fewer keys than its field `size` says. -/
theorem diskWrite_short {n m : Node κ υ} (hw : diskWrite t codec st n = .ok st')
    (h : Holds t codec st n.positionInDisk m) (hsize : n.size = m.size)
    (hkeys : n.keys.length ≤ m.size) (hpointers : ∀ p ∈ n.pointers, p ≤ sizeMax) :
    Holds t codec st' n.positionInDisk { n with
      keys := n.keys ++ m.keys.drop n.keys.length
      pointers := paddedPointers t n.pointers } ∧
      ∀ p m, p ≠ n.positionInDisk → Holds t codec st p m → Holds t codec st' p m := by
  have hfits : m.size ≤ maximumKeysInNode t := h.size_le
  have hn : n.InRange := by
    obtain ⟨hslot, -, -⟩ := diskWrite_eq_ok.mp hw
    refine ⟨?_, (position_lt_sizeMax hslot).le, hpointers⟩
    have hle := streamLimit_le
    unfold recordSize maximumPointersInNode at hslot
    omega
  refine ⟨h.overwritten hn hsize hkeys hw, fun p m' hne h' => ?_⟩
  exact h'.kept hne (Or.inl (Or.inl (hkeys.trans hfits))) hw

theorem mem_replicate_le {k p : ℕ} (h : p ∈ List.replicate k sizeMax) : p ≤ sizeMax :=
  (List.eq_of_mem_replicate h).le

/-- The write of a leaf, with any number of null pointers in the copy. -/
theorem diskWrite_leaf {k : ℕ}
    (hw : diskWrite t codec st ⟨es.length, true, c, es, List.replicate k sizeMax⟩ = .ok st')
    (hpos : c < st.countOfNode) (hfits : es.length ≤ maximumKeysInNode t) :
    Holds t codec st' c (leafNode t c es) ∧
      ∀ p m, p ≠ c → Holds t codec st p m → Holds t codec st' p m := by
  obtain ⟨hown, hother⟩ := diskWrite_node hw hpos rfl hfits fun p hp => mem_replicate_le hp
  refine ⟨?_, hother⟩
  rw [show paddedPointers t (List.replicate k sizeMax) = paddedPointers t [] from
    paddedPointers_replicate k] at hown
  exact hown

section Walks

variable [LinearOrder κ] {key : κ} {seps : List (κ × υ)} {cs : List ℕ} {turns : ℕ}

theorem insertWalk_null {p : Place κ υ} {n : Node κ υ} (h : n.positionInDisk = sizeMax) :
    insertWalk t codec st key (turns + 1) n p = .ok (some p) := if_pos h

/-- The key that the trailing index points to is the one looked for just when the node's first
key is. -/
theorem trailing_key (key : κ) (hne : es ≠ []) :
    ∃ x, es[route es key - 1]? = some x ∧ (x.1 = key ↔ es.head?.map Prod.fst = some key) := by
  obtain ⟨e, rest, rfl⟩ := List.exists_cons_of_ne_nil hne
  rw [List.head?_cons, Option.map_some, Option.some.injEq]
  by_cases hlt : e.1 < key
  · have hroute : route (e :: rest) key = route rest key + 1 := by
      unfold route
      rw [List.map_cons, lowerIndex_cons, if_pos hlt]
    have hle := route_le rest key
    have hi : route rest key < (e :: rest).length := Nat.lt_succ_of_le hle
    have hmem : (e :: rest)[route rest key].1 ∈
        ((e :: rest).map Prod.fst).take (lowerIndex ((e :: rest).map Prod.fst) key) := by
      rw [show lowerIndex ((e :: rest).map Prod.fst) key = route rest key + 1 from hroute,
        ← List.map_take, List.take_succ_eq_append_getElem hi, List.map_append]
      exact List.mem_append_right _ (List.mem_singleton_self _)
    refine ⟨(e :: rest)[route rest key], ?_, iff_of_false (lt_of_mem_take hmem).ne hlt.ne⟩
    rw [hroute, Nat.add_sub_cancel]
    exact List.getElem?_eq_getElem hi
  · have hroute : route (e :: rest) key = 0 := by
      unfold route
      rw [List.map_cons, lowerIndex_cons, if_neg hlt]
    refine ⟨e, ?_, Iff.rfl⟩
    rw [hroute]
    rfl

omit [LinearOrder κ] in
theorem head_ne_of_not_mem (h : key ∉ es.map Prod.fst) : es.head?.map Prod.fst ≠ some key := by
  intro heq
  obtain ⟨e, he, rfl⟩ := Option.map_eq_some_iff.mp heq
  exact h (List.mem_map_of_mem (List.mem_of_head? he))

theorem insertWalk_found {p : Place κ υ} {n : Node κ υ} (hpos : n.positionInDisk ≠ sizeMax)
    (hkey : n.keys.head?.map Prod.fst = some key) :
    insertWalk t codec st key (turns + 1) n p = .ok none := by
  have hne : n.keys ≠ [] := by
    intro hnil
    rw [hnil] at hkey
    cases hkey
  obtain ⟨x, hx, hiff⟩ := trailing_key key hne
  rw [insertWalk, if_neg hpos]
  show (get n.keys (route n.keys key - 1) >>= fun curKey => if curKey.1 = key then _ else _) = _
  rw [get_eq_ok.mpr hx]
  exact if_pos (hiff.mpr hkey)

/-- One turn of the walk of `insert`. -/
theorem insertWalk_next {p : Place κ υ} {n : Node κ υ} {next : ℕ}
    (hpos : n.positionInDisk ≠ sizeMax) (hne : n.keys ≠ [])
    (hkey : n.keys.head?.map Prod.fst ≠ some key)
    (hnext : n.pointers[route n.keys key]? = some next) :
    insertWalk t codec st key (turns + 1) n p =
      insertWalk t codec st key turns (diskRead t codec st next)
        ⟨n, route n.keys key, (n.positionInDisk, route n.keys key - 1) :: p.path⟩ := by
  obtain ⟨x, hx, hiff⟩ := trailing_key key hne
  have hroute : lowerIndex n.keyList key = route n.keys key := rfl
  rw [insertWalk, if_neg hpos]
  dsimp only
  rw [hroute, get_eq_ok.mpr hx, hnext]
  exact if_neg fun heq => hkey (hiff.mp heq)

theorem paddedPointers_leaf (hfits : es.length ≤ maximumKeysInNode t) :
    (paddedPointers t [])[route es key]? = some sizeMax := by
  have hi := route_le es key
  have hlt : route es key < maximumPointersInNode t := by
    unfold maximumPointersInNode
    omega
  have h : (paddedPointers t [])[route es key]? = some ([].getD (route es key) sizeMax) :=
    paddedPointers_getElem? (Nat.zero_le _) hlt
  exact h

theorem paddedPointers_child (hlen : cs.length = seps.length + 1)
    (hfits : seps.length ≤ maximumKeysInNode t) (hi : route seps key < cs.length) :
    (paddedPointers t cs)[route seps key]? = some cs[route seps key] := by
  have hcs : cs.length ≤ maximumPointersInNode t := by
    unfold maximumPointersInNode
    omega
  have h := paddedPointers_getElem? hcs (hi.trans_le hcs)
  rw [List.getD_eq_getElem _ _ hi] at h
  exact h

/-- The walk of `insert` from a leaf to its end. -/
theorem insertWalk_leaf {p : Place κ υ} (hcount : st.countOfNode ≤ sizeMax) (hc : c ≠ sizeMax)
    (hne : es ≠ []) (hfits : es.length ≤ maximumKeysInNode t)
    (hkey : es.head?.map Prod.fst ≠ some key) :
    insertWalk t codec st key (turns + 2) (leafNode t c es) p =
      .ok (some ⟨leafNode t c es, route es key, (c, route es key - 1) :: p.path⟩) := by
  have hnext : (leafNode t c es).pointers[route es key]? = some sizeMax := paddedPointers_leaf hfits
  have hc' : (leafNode t c es).positionInDisk ≠ sizeMax := hc
  rw [insertWalk_next hc' hne hkey hnext, diskRead_sizeMax hcount, insertWalk_null rfl]
  rfl

theorem insert_found {v : υ} {n : Node κ υ} (hroot : diskRead t codec st st.positionRoot = n)
    (hpos : n.positionInDisk ≠ sizeMax)
    (hwalk : insertWalk t codec st key turns n ⟨n, 0, []⟩ = .ok none) :
    insert t turns codec st (key, v) = .ok (st, false) := by
  unfold insert
  rw [hroot]
  refine (if_neg hpos).trans ?_
  rw [hwalk]
  rfl

theorem atWalk_found {n : Node κ υ} {e : κ × υ} (hpos : n.positionInDisk ≠ sizeMax)
    (h : (n.keys[route n.keys key]?.filter fun e => e.1 = key) = some e) :
    atWalk t codec st key (turns + 1) n = .ok (some e.2) := by
  have hroute : lowerIndex n.keyList key = route n.keys key := rfl
  rw [atWalk, if_neg hpos]
  dsimp only
  rw [hroute, h]
  rfl

/-- One turn of `at`. -/
theorem atWalk_next {n : Node κ υ} {next : ℕ} (hpos : n.positionInDisk ≠ sizeMax)
    (h : (n.keys[route n.keys key]?.filter fun e => e.1 = key) = none)
    (hnext : n.pointers[route n.keys key]? = some next) :
    atWalk t codec st key (turns + 1) n =
      atWalk t codec st key turns (diskRead t codec st next) := by
  have hroute : lowerIndex n.keyList key = route n.keys key := rfl
  rw [atWalk, if_neg hpos]
  dsimp only
  rw [hroute, h, get_eq_ok.mpr hnext]
  rfl

/-- `at` in a leaf. -/
theorem atWalk_leaf {n : Node κ υ} (hcount : st.countOfNode ≤ sizeMax)
    (hpos : n.positionInDisk ≠ sizeMax) (hpointers : n.pointers = paddedPointers t [])
    (hs : Settled n.keys) (hfits : n.keys.length ≤ maximumKeysInNode t) :
    atWalk t codec st key (turns + 2) n = .ok (lookup n.keys key) := by
  rw [← hs.filter_getElem?_route]
  cases hat : n.keys[route n.keys key]?.filter fun e => decide (e.1 = key) with
  | some e => exact atWalk_found hpos hat
  | none =>
    have hnext : n.pointers[route n.keys key]? = some sizeMax := by
      rw [hpointers]
      exact paddedPointers_leaf hfits
    rw [atWalk_next hpos hat hnext, diskRead_sizeMax hcount]
    rfl

/-- `at` in a node with children, when it finds in the child what the child holds. -/
theorem atWalk_inner {n : Node κ υ} {parts : List (List (κ × υ))}
    (hpos : n.positionInDisk ≠ sizeMax) (hpointers : n.pointers = paddedPointers t cs)
    (hlen : cs.length = n.keys.length + 1) (hfits : n.keys.length ≤ maximumKeysInNode t)
    (hparts : parts.length = n.keys.length + 1) (hs : Settled (interleave parts n.keys))
    (hi : route n.keys key < cs.length) (hi' : route n.keys key < parts.length)
    (hchild : atWalk t codec st key turns (diskRead t codec st cs[route n.keys key]) =
      .ok (lookup parts[route n.keys key] key)) :
    atWalk t codec st key (turns + 1) n = .ok (lookup (interleave parts n.keys) key) := by
  have hseps := settled_separators hparts hs
  cases hat : n.keys[route n.keys key]?.filter fun e => decide (e.1 = key) with
  | some e =>
    have hmem := List.mem_of_getElem? (Option.filter_eq_some_iff.mp hat).1
    have hkey : e.1 = key := by simpa using (Option.filter_eq_some_iff.mp hat).2
    have hfound : lookup (interleave parts n.keys) key = some e.2 := by
      rw [hs.lookup_eq_some, ← hkey]
      exact mem_interleave_of_separator hmem hparts
    rw [hfound]
    exact atWalk_found hpos hat
  | none =>
    rw [lookup_interleave hparts hs (not_mem_of_filter_route hseps hat) hi']
    have hnext : n.pointers[route n.keys key]? = some cs[route n.keys key] := by
      rw [hpointers]
      exact paddedPointers_child hlen hfits hi
    rw [atWalk_next hpos hat hnext]
    exact hchild

end Walks

end MaiFaSp.BTreeDisk
