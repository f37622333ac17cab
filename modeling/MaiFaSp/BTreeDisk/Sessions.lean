import MaiFaSp.BTreeDisk.Objects
import MaiFaSp.BTreeDisk.TwinErase

/-!
# Trees that are closed and opened again (`b_tree_disk.hpp:767-818`)

The destructor writes the root and the two counters into the header, and the constructor reads them.
Nothing in between reads or writes the header, so that the calls of many objects, opened one after
another on one file, are those of a single one.
-/

namespace MaiFaSp.Memory

/-- The memory `h` below an address, and `m` from there on. -/
def splice (lo : ℕ) (h m : Memory) : Memory := fun a => if a < lo then h a else m a

variable {lo a k v : ℕ} {h m : Memory}

theorem splice_eq (heq : ∀ a, lo ≤ a → h a = m a) : splice lo h m = h := by
  funext a
  unfold splice
  split_ifs with ha
  · rfl
  · exact (heq a (not_lt.mp ha)).symm

theorem splice_self : splice lo m m = m := splice_eq fun _ _ => rfl

/-- The memory `h''` below an address takes the place of `h`. -/
theorem splice_splice {h'' : Memory} : splice lo h'' (splice lo h m) = splice lo h'' m := by
  funext a
  unfold splice
  split_ifs
  · rfl
  · rfl

theorem splice_agreeOn {hi : ℕ} (ha : lo ≤ a) : AgreeOn (splice lo h m) m a hi :=
  fun _ hx _ => if_neg (by omega)

theorem update_splice (ha : lo ≤ a) (b : UInt8) :
    Function.update (splice lo h m) a b = splice lo h (Function.update m a b) := by
  funext x
  by_cases hx : x = a
  · rw [hx, Function.update_self, splice, if_neg (Nat.not_lt.mpr ha), Function.update_self]
  · rw [Function.update_of_ne hx]
    unfold splice
    rw [Function.update_of_ne hx]

theorem storeBytes_splice (ha : lo ≤ a) :
    (splice lo h m).storeBytes a k v = splice lo h (m.storeBytes a k v) := by
  induction k generalizing m a v with
  | zero => rfl
  | succ k ih => rw [storeBytes, storeBytes, update_splice ha, ih (Nat.le_succ_of_le ha)]

theorem writeWords_splice (ha : lo ≤ a) (vs : List ℕ) :
    (splice lo h m).writeWords a vs = splice lo h (m.writeWords a vs) := by
  induction vs generalizing m a with
  | nil => rfl
  | cons v vs ih =>
    rw [writeWords, writeWords, store64, store64, storeBytes_splice ha, ih (Nat.le_add_right_of_le ha)]

end MaiFaSp.Memory

namespace MaiFaSp.BTreeDisk

open BoundedVector Memory

variable {κ υ : Type} {t turns : ℕ} {codec : Codec κ υ} {h : Memory} {st : DiskTree}

/-- The tree over a file with another header. -/
def reheaded (h : Memory) (st : DiskTree) : DiskTree :=
  { st with fileForTree := splice headerSize h st.fileForTree }

@[simp] theorem reheaded_data : (reheaded h st).fileForKeyValue = st.fileForKeyValue := rfl

@[simp] theorem reheaded_count : (reheaded h st).countOfNode = st.countOfNode := rfl

@[simp] theorem reheaded_last : (reheaded h st).lastPosition = st.lastPosition := rfl

@[simp] theorem reheaded_root : (reheaded h st).positionRoot = st.positionRoot := rfl

@[simp] theorem mk_reheaded {data : Memory} {count last root : ℕ} :
    (⟨(reheaded h st).fileForTree, data, count, last, root⟩ : DiskTree) =
      reheaded h ⟨st.fileForTree, data, count, last, root⟩ := rfl

theorem headerSize_le_slot (t p : ℕ) : headerSize ≤ slot t p := Nat.le_add_right _ _

@[simp] theorem diskRead_reheaded {p : ℕ} : diskRead t codec (reheaded h st) p = diskRead t codec st p := by
  have hslot := headerSize_le_slot t p
  unfold diskRead deserialize
  simp only [reheaded_count, reheaded_data]
  unfold reheaded
  simp only [load64_congr (splice_agreeOn hslot), load64_congr (splice_agreeOn (Nat.le_add_right_of_le hslot)),
    loadBytes_congr (splice_agreeOn (Nat.le_add_right_of_le hslot)),
    readWords_congr (splice_agreeOn (Nat.le_add_right_of_le hslot)),
    readWords_congr (splice_agreeOn (Nat.le_add_right_of_le (Nat.le_add_right_of_le hslot)))]

theorem serialize_reheaded {n : Node κ υ} {stream : ℕ} (hslot : headerSize ≤ stream) :
    serialize t codec (reheaded h st) n stream = reheaded h (serialize t codec st n stream) := by
  unfold serialize
  simp only [reheaded_last, reheaded_data]
  unfold reheaded
  simp only [store64, storeBytes_splice hslot, storeBytes_splice (Nat.le_add_right_of_le hslot),
    writeWords_splice (Nat.le_add_right_of_le hslot),
    writeWords_splice (Nat.le_add_right_of_le (Nat.le_add_right_of_le hslot))]

@[simp] theorem diskWrite_reheaded {n : Node κ υ} :
    diskWrite t codec (reheaded h st) n = reheaded h <$> diskWrite t codec st n := by
  unfold diskWrite
  rw [serialize_reheaded (headerSize_le_slot t _), reheaded_last]
  split_ifs <;> rfl

/-- The state with the other header, and the rest of the result. -/
def reheadedWith {α : Type} (h : Memory) (r : DiskTree × α) : DiskTree × α := (reheaded h r.1, r.2)

@[simp] theorem map_ok {α β : Type} {f : α → β} {a : α} :
    f <$> (Except.ok a : Except NodeFault α) = .ok (f a) := rfl

@[simp] theorem map_throw {α β : Type} {f : α → β} {e : NodeFault} :
    f <$> (throw e : Except NodeFault α) = throw e := rfl

section Erase

variable {left right parent n curNode leftSibling rightSibling : Node κ υ} {i index : ℕ} {sizes : ℕ × ℕ}
  {path : List (ℕ × ℕ)}

@[simp] theorem checkIfLeaf_reheaded :
    checkIfLeaf t codec (reheaded h st) n index = checkIfLeaf t codec st n index := by
  simp only [checkIfLeaf, diskRead_reheaded]

@[simp] theorem merge_reheaded : merge t codec (reheaded h st) left right parent i =
    reheadedWith h <$> merge t codec st left right parent i := by
  unfold merge
  simp only [reheaded_data, reheaded_count, reheaded_last, reheaded_root, mk_reheaded, diskWrite_reheaded,
    bind_map_left, map_bind, map_pure]
  rfl

@[simp] theorem borrowLeft_reheaded : borrowLeft t codec (reheaded h st) n parent leftSibling i index =
    reheaded h <$> borrowLeft t codec st n parent leftSibling i index := by
  unfold borrowLeft
  simp only [diskWrite_reheaded, bind_map_left, map_bind]

@[simp] theorem borrowRight_reheaded : borrowRight t codec (reheaded h st) n parent rightSibling i index =
    reheaded h <$> borrowRight t codec st n parent rightSibling i index := by
  unfold borrowRight
  simp only [diskWrite_reheaded, bind_map_left, map_bind]

@[simp] theorem mergeWithSibling_reheaded :
    mergeWithSibling t codec (reheaded h st) curNode parent leftSibling rightSibling i sizes =
      Option.map (reheadedWith h) <$>
        mergeWithSibling t codec st curNode parent leftSibling rightSibling i sizes := by
  unfold mergeWithSibling
  simp only [merge_reheaded, bind_map_left]
  split_ifs <;> simp only [map_bind, map_pure, Option.map_some, Option.map_none]

@[simp] theorem mergeLoop_reheaded :
    mergeLoop t codec (reheaded h st) parent leftSibling rightSibling sizes path =
      reheadedWith h <$> mergeLoop t codec st parent leftSibling rightSibling sizes path := by
  induction path generalizing st parent leftSibling rightSibling sizes with
  | nil => rfl
  | cons top path ih =>
    unfold mergeLoop
    by_cases hfew : parent.keys.length < minimumKeysInNode t
    · rw [if_pos hfew, if_pos hfew]
      by_cases hi : 0 < top.2
      · simp only [if_pos hi, diskRead_reheaded, mergeWithSibling_reheaded, bind_map_left, map_bind]
        refine bind_congr fun p => bind_congr fun sizeLeft => bind_congr fun left => bind_congr fun right =>
          bind_congr fun merged => ?_
        cases merged with
        | none => rfl
        | some result => exact ih
      · simp only [if_neg hi, diskRead_reheaded, mergeWithSibling_reheaded, bind_map_left, map_bind]
        refine bind_congr fun sizeLeft => bind_congr fun left => bind_congr fun right =>
          bind_congr fun merged => ?_
        cases merged with
        | none => rfl
        | some result => exact ih
    · rw [if_neg hfew, if_neg hfew]
      rfl

theorem dropEmptyRoot_reheaded : dropEmptyRoot (reheaded h st) n = reheaded h (dropEmptyRoot st n) := by
  unfold dropEmptyRoot
  split_ifs
  · split <;> rfl
  · rfl

@[simp] theorem deleteFromRoot_reheaded : deleteFromRoot t codec (reheaded h st) n index =
    reheaded h <$> deleteFromRoot t codec st n index := by
  unfold deleteFromRoot
  by_cases hkeys : 1 < n.keys.length
  · simp only [if_pos hkeys, diskWrite_reheaded, map_bind]
  · rw [if_neg hkeys, if_neg hkeys, ← diskWrite_reheaded]
    cases n.pointers with
    | nil => rfl
    | cons a rest =>
      dsimp only
      rw [diskRead_reheaded]
      split <;> rfl

/-- The writes after a merge that may not have been made. -/
theorem merged_reheaded (merged : Option (DiskTree × Node κ υ)) (parent : Node κ υ) :
    (Option.map (reheadedWith h) merged).getD (reheaded h st, parent) =
      reheadedWith h (merged.getD (st, parent)) := by
  cases merged with
  | none => rfl
  | some result => rfl

@[simp] theorem deleteKeyFromLeaf_reheaded : deleteKeyFromLeaf t codec (reheaded h st) index n path =
    reheaded h <$> deleteKeyFromLeaf t codec st index n path := by
  unfold deleteKeyFromLeaf
  by_cases hmany : minimumKeysInNode t < n.keys.length
  · simp only [if_pos hmany, diskWrite_reheaded, map_bind]
  · rw [if_neg hmany, if_neg hmany]
    match path with
    | [] => rfl
    | [top] => simp only [diskRead_reheaded, deleteFromRoot_reheaded]
    | top :: above :: path =>
      simp only [diskRead_reheaded, deleteFromRoot_reheaded, borrowLeft_reheaded, borrowRight_reheaded,
        mergeWithSibling_reheaded, bind_map_left, merged_reheaded, reheadedWith, diskWrite_reheaded,
        mergeLoop_reheaded, dropEmptyRoot_reheaded]
      generalize hleft : BTreeDisk.diskRead t codec st above.1 = parent
      by_cases hroot : parent.positionInDisk = sizeMax
      · rw [if_pos hroot, if_pos hroot]
      · rw [if_neg hroot, if_neg hroot]
        simp only [map_bind]
        refine bind_congr fun left => bind_congr fun right => ?_
        generalize (if (BTreeDisk.diskRead t codec st left).positionInDisk ≠ sizeMax then
          (BTreeDisk.diskRead t codec st left).keys.length else 0) = sizeLeft
        generalize (if (BTreeDisk.diskRead t codec st right).positionInDisk ≠ sizeMax then
          (BTreeDisk.diskRead t codec st right).keys.length else 0) = sizeRight
        by_cases hl : minimumKeysInNode t < sizeLeft
        · rw [if_pos hl, if_pos hl]
        · rw [if_neg hl, if_neg hl]
          by_cases hr : minimumKeysInNode t < sizeRight
          · rw [if_pos hr, if_pos hr]
          · rw [if_neg hr, if_neg hr]
            simp only [map_bind, map_pure]

@[simp] theorem rightmost_reheaded : rightmost t codec (reheaded h st) turns n path =
    rightmost t codec st turns n path := by
  induction turns generalizing n path with
  | zero => rfl
  | succ turns ih => simp only [rightmost, diskRead_reheaded, ih]

@[simp] theorem writeParts_reheaded {m : Node κ υ} {data : κ × υ} :
    writeParts t codec (reheaded h st) n m i data = reheaded h <$> writeParts t codec st n m i data := by
  unfold writeParts
  simp only [reheaded_data, reheaded_count, reheaded_last, reheaded_root, mk_reheaded, diskWrite_reheaded,
    bind_map_left, map_bind]

end Erase

section Walks

variable [LinearOrder κ] {n : Node κ υ} {key : κ} {data : κ × υ} {p : Place κ υ} {index : ℕ}
  {path : List (ℕ × ℕ)}

@[simp] theorem atWalk_reheaded : atWalk t codec (reheaded h st) key turns n =
    atWalk t codec st key turns n := by
  induction turns generalizing n with
  | zero => rfl
  | succ turns ih => simp only [atWalk, diskRead_reheaded, ih]

@[simp] theorem insertWalk_reheaded : insertWalk t codec (reheaded h st) key turns n p =
    insertWalk t codec st key turns n p := by
  induction turns generalizing n p with
  | zero => rfl
  | succ turns ih => simp only [insertWalk, diskRead_reheaded, ih]

@[simp] theorem eraseWalk_reheaded : eraseWalk t codec (reheaded h st) key turns n index path =
    eraseWalk t codec st key turns n index path := by
  induction turns generalizing n index path with
  | zero => rfl
  | succ turns ih => simp only [eraseWalk, diskRead_reheaded, ih]

@[simp] theorem updateWalk_reheaded : updateWalk t codec (reheaded h st) data turns n =
    reheadedWith h <$> updateWalk t codec st data turns n := by
  induction turns generalizing n with
  | zero => rfl
  | succ turns ih =>
    unfold updateWalk
    simp only [diskRead_reheaded, diskWrite_reheaded, bind_map_left, ih]
    split_ifs
    · rfl
    · simp only [map_bind]
      refine bind_congr fun curKey => ?_
      split_ifs
      · simp only [map_bind, map_pure]
        rfl
      · rfl

theorem splitTarget_reheaded : splitTarget (reheaded h st) n key = reheadedWith h (splitTarget st n key) := by
  unfold splitTarget
  split_ifs <;> rfl

@[simp] theorem splitNode_reheaded : splitNode t codec (reheaded h st) path =
    reheaded h <$> splitNode t codec st path := by
  cases path with
  | nil => rfl
  | cons top path =>
    unfold splitNode
    simp only [diskRead_reheaded, splitTarget_reheaded, reheadedWith, writeParts_reheaded, map_bind]
    refine bind_congr fun middle => ?_
    split_ifs <;> rfl

theorem insert_reheaded : insert t turns codec (reheaded h st) data =
    reheadedWith h <$> insert t turns codec st data := by
  unfold insert
  simp only [diskRead_reheaded, reheaded_data, reheaded_count, reheaded_last, reheaded_root, mk_reheaded,
    diskWrite_reheaded, insertWalk_reheaded, splitNode_reheaded, bind_map_left]
  split_ifs
  · simp only [map_bind, map_pure]
    rfl
  · simp only [map_bind]
    refine bind_congr fun found => ?_
    cases found with
    | none => rfl
    | some p =>
      simp only [map_bind]
      refine bind_congr fun prev => ?_
      refine bind_congr fun st₁ => ?_
      split_ifs
      · simp only [map_bind, map_pure]
        rfl
      · rfl

theorem update_reheaded : update t turns codec (reheaded h st) data =
    reheadedWith h <$> update t turns codec st data := by
  unfold update
  simp only [diskRead_reheaded, reheaded_root, updateWalk_reheaded, map_bind]

theorem erase_reheaded : erase t turns codec (reheaded h st) key =
    reheadedWith h <$> erase t turns codec st key := by
  unfold erase
  simp only [diskRead_reheaded, reheaded_root, eraseWalk_reheaded, map_bind]
  refine bind_congr fun found => ?_
  cases found with
  | none => rfl
  | some p =>
    simp only [checkIfLeaf_reheaded, diskWrite_reheaded, rightmost_reheaded, deleteKeyFromLeaf_reheaded,
      bind_map_left]
    split_ifs
    · simp only [map_bind, map_pure]
      rfl
    · simp only [map_bind, map_pure]
      rfl

theorem atKey_reheaded : atKey t turns codec (reheaded h st) key = atKey t turns codec st key := by
  simp only [atKey, diskRead_reheaded, reheaded_root, atWalk_reheaded]

/-- No call looks at the header or writes to it. -/
theorem Call.apply_reheaded (c : Call κ υ) : c.apply t turns codec (reheaded h st) =
    reheadedWith h <$> c.apply t turns codec st := by
  cases c with
  | insert data =>
    simp only [Call.apply, insert_reheaded, bind_map_left, map_bind, map_pure]
    rfl
  | update data =>
    simp only [Call.apply, update_reheaded, bind_map_left, map_bind, map_pure]
    rfl
  | erase key =>
    simp only [Call.apply, erase_reheaded, bind_map_left, map_bind, map_pure]
    rfl
  | «at» key =>
    simp only [Call.apply, atKey_reheaded, map_bind, map_pure]
    rfl

end Walks

/-- The members are values of `size_t`. -/
structure MembersFit (st : DiskTree) : Prop where
  count : st.countOfNode ≤ sizeMax
  last : st.lastPosition ≤ sizeMax
  root : st.positionRoot ≤ sizeMax

/-- No node is given back, and the members stay in range. -/
structure Advances (st st' : DiskTree) : Prop where
  count : st.countOfNode ≤ st'.countOfNode
  fits : MembersFit st → MembersFit st'

theorem Advances.refl : Advances st st := ⟨le_rfl, id⟩

theorem Advances.trans {st' st'' : DiskTree} (h : Advances st st') (h' : Advances st' st'') : Advances st st'' :=
  ⟨h.count.trans h'.count, h'.fits ∘ h.fits⟩

theorem Advances.rooted {st' : DiskTree} {p : ℕ} (h : Advances st st') (hp : p ≤ sizeMax) :
    Advances st { st' with positionRoot := p } :=
  ⟨h.count, fun hfits => ⟨(h.fits hfits).count, (h.fits hfits).last, hp⟩⟩

/-- The pointers are values of `size_t`. -/
def PointersFit (n : Node κ υ) : Prop := ∀ p ∈ n.pointers, p ≤ sizeMax

theorem diskRead_pointersFit {p : ℕ} : PointersFit (diskRead t codec st p) := by
  intro q hq
  unfold diskRead at hq
  split_ifs at hq
  · cases hq
  · exact Nat.le_sub_one_of_lt (readWords_lt q hq)

/-- A write leaves the root and the count, and ends before the largest offset. -/
theorem diskWrite_members {n : Node κ υ} : Ensures (diskWrite t codec st n) fun st' =>
    st'.countOfNode = st.countOfNode ∧ st'.positionRoot = st.positionRoot ∧ st'.lastPosition ≤ sizeMax ∧
      n.positionInDisk < sizeMax := by
  intro st' hw
  obtain ⟨hslot, hlast, rfl⟩ := diskWrite_eq_ok.mp hw
  exact ⟨rfl, rfl, hlast.trans streamLimit_le, position_lt_sizeMax hslot⟩

theorem advances_diskWrite {n : Node κ υ} : Ensures (diskWrite t codec st n) (Advances st) :=
  diskWrite_members.mono fun _ ⟨hcount, hroot, hlast, _⟩ =>
    ⟨hcount.ge, fun hfits => ⟨hcount ▸ hfits.count, hlast, hroot ▸ hfits.root⟩⟩

theorem all_setOrAppend {α : Type} {P : α → Prop} {xs : List α} {i : ℕ} {a : α} (h : ∀ x ∈ xs, P x)
    (ha : P a) : ∀ x ∈ (if i < xs.length then xs.set i a else xs ++ [a]), P x := by
  intro x hx
  split_ifs at hx
  · rcases List.mem_or_eq_of_mem_set hx with hx | rfl
    · exact h x hx
    · exact ha
  · rcases List.mem_append.mp hx with hx | hx
    · exact h x hx
    · rw [List.mem_singleton.mp hx]
      exact ha

section Advances

variable {left right parent n curNode leftSibling rightSibling : Node κ υ} {i index : ℕ} {sizes : ℕ × ℕ}
  {path : List (ℕ × ℕ)}

theorem eraseAt_pointersFit {pointers : List ℕ} (h : ∀ p ∈ pointers, p ≤ sizeMax) :
    Ensures (eraseAt pointers i) fun pointers' => ∀ p ∈ pointers', p ≤ sizeMax := by
  unfold eraseAt
  split_ifs
  · exact .pure fun p hp => h p (List.mem_of_mem_eraseIdx hp)
  · exact .throw

/-- A merge takes one new node, and puts its position into the parent's copy. -/
theorem advances_merge (hparent : PointersFit parent) : Ensures (merge t codec st left right parent i)
    fun r => Advances st r.1 ∧ PointersFit r.2 := by
  unfold merge
  refine .after fun separator => .after fun keys => ?_
  refine .bind (eraseAt_pointersFit hparent) fun pointers hpointers => ?_
  refine .bind diskWrite_members fun st₁ ⟨hcount₁, hroot₁, _, _⟩ => ?_
  refine .bind diskWrite_members fun st₂ ⟨hcount₂, hroot₂, hlast₂, hnew⟩ => .pure ?_
  have hcount : st₂.countOfNode = st.countOfNode + 1 := hcount₂.trans hcount₁
  have hnew : st.countOfNode < sizeMax := hnew
  refine ⟨⟨hcount ▸ Nat.le_succ _, fun hfits => ⟨hcount ▸ hnew, hlast₂, ?_⟩⟩, ?_⟩
  · exact (hroot₂.trans hroot₁).trans_le hfits.root
  · exact all_setOrAppend (all_setOrAppend hpointers hnew.le) le_rfl

theorem advances_borrowLeft :
    Ensures (borrowLeft t codec st n parent leftSibling i index) (Advances st) := by
  unfold borrowLeft
  refine .after fun _ => .after fun _ => .after fun _ => .after fun _ => .after fun _ => ?_
  refine .bind advances_diskWrite fun _ h₁ => .bind advances_diskWrite fun _ h₂ => ?_
  exact advances_diskWrite.mono fun _ h₃ => (h₁.trans h₂).trans h₃

theorem advances_borrowRight :
    Ensures (borrowRight t codec st n parent rightSibling i index) (Advances st) := by
  unfold borrowRight
  refine .after fun _ => .after fun _ => .after fun _ => .after fun _ => .after fun _ => ?_
  refine .bind advances_diskWrite fun _ h₁ => .bind advances_diskWrite fun _ h₂ => ?_
  exact advances_diskWrite.mono fun _ h₃ => (h₁.trans h₂).trans h₃

theorem advances_mergeWithSibling (hparent : PointersFit parent) :
    Ensures (mergeWithSibling t codec st curNode parent leftSibling rightSibling i sizes)
      fun merged => Advances st (merged.getD (st, parent)).1 ∧ PointersFit (merged.getD (st, parent)).2 := by
  unfold mergeWithSibling
  split_ifs
  · exact .bind (P := fun _ => False) .throw fun _ => False.elim
  · exact .bind (advances_merge hparent) fun _ h => .pure h
  · exact .bind (advances_merge hparent) fun _ h => .pure h
  · exact .pure ⟨.refl, hparent⟩

theorem advances_mergeLoop (hparent : PointersFit parent) :
    Ensures (mergeLoop t codec st parent leftSibling rightSibling sizes path)
      fun r => Advances st r.1 ∧ PointersFit r.2 := by
  induction path generalizing st parent leftSibling rightSibling sizes with
  | nil => exact .pure ⟨.refl, hparent⟩
  | cons top path ih =>
    unfold mergeLoop
    by_cases hfew : parent.keys.length < minimumKeysInNode t
    · have hturn : ∀ sizes' : ℕ × ℕ, Ensures
          (mergeTurn t codec st parent (BTreeDisk.diskRead t codec st top.1) top.2 sizes' path)
          fun r => Advances st r.1 ∧ PointersFit r.2 := by
        intro sizes'
        unfold mergeTurn
        refine .after fun _ => .after fun _ => ?_
        refine .bind (advances_mergeWithSibling diskRead_pointersFit) fun merged hmerged => ?_
        cases merged with
        | none => exact .throw
        | some result => exact (ih hmerged.2).mono fun _ h => ⟨hmerged.1.trans h.1, h.2⟩
      rw [if_pos hfew]
      dsimp only
      by_cases hi : 0 < top.2
      · rw [if_pos hi]
        exact .after fun _ => .after fun _ => hturn _
      · rw [if_neg hi]
        exact .after fun _ => hturn _
    · rw [if_neg hfew]
      exact .pure ⟨.refl, hparent⟩

theorem advances_dropEmptyRoot (hn : PointersFit n) : Advances st (dropEmptyRoot st n) := by
  unfold dropEmptyRoot
  split_ifs
  · cases hpointers : n.pointers with
    | nil => exact Advances.refl.rooted le_rfl
    | cons a rest =>
      have ha : a ≤ sizeMax := hn a (hpointers ▸ List.mem_cons_self)
      cases rest with
      | nil => exact Advances.refl.rooted ha
      | cons b rest =>
        refine Advances.refl.rooted ?_
        split_ifs
        · exact ha
        · exact hn b (hpointers ▸ List.mem_cons_of_mem a List.mem_cons_self)
  · exact .refl

theorem advances_deleteFromRoot (hn : PointersFit n) :
    Ensures (deleteFromRoot t codec st n index) (Advances st) := by
  unfold deleteFromRoot
  split_ifs
  · exact .after fun _ => advances_diskWrite
  · refine advances_diskWrite.mono fun _ h => Advances.trans ?_ h
    cases hpointers : n.pointers with
    | nil => exact .refl
    | cons a rest =>
      dsimp only
      split_ifs
      · exact Advances.refl.rooted (hn a (hpointers ▸ List.mem_cons_self))
      · refine Advances.refl.rooted ?_
        cases rest with
        | nil => exact le_rfl
        | cons b rest => exact hn b (hpointers ▸ List.mem_cons_of_mem a List.mem_cons_self)

theorem advances_deleteKeyFromLeaf : Ensures (deleteKeyFromLeaf t codec st index n path) (Advances st) := by
  unfold deleteKeyFromLeaf
  by_cases hmany : minimumKeysInNode t < n.keys.length
  · rw [if_pos hmany]
    exact .after fun _ => advances_diskWrite
  · rw [if_neg hmany]
    match path with
    | [] => exact .throw
    | [top] => exact advances_deleteFromRoot diskRead_pointersFit
    | top :: above :: path =>
      dsimp only
      by_cases hroot : (BTreeDisk.diskRead t codec st above.1).positionInDisk = sizeMax
      · rw [if_pos hroot]
        exact advances_deleteFromRoot diskRead_pointersFit
      · rw [if_neg hroot]
        refine .after fun left => .after fun right => ?_
        generalize (if (BTreeDisk.diskRead t codec st left).positionInDisk ≠ sizeMax then
          (BTreeDisk.diskRead t codec st left).keys.length else 0) = sizeLeft
        generalize (if (BTreeDisk.diskRead t codec st right).positionInDisk ≠ sizeMax then
          (BTreeDisk.diskRead t codec st right).keys.length else 0) = sizeRight
        split_ifs
        · exact advances_borrowLeft
        · exact advances_borrowRight
        · refine .after fun n => ?_
          refine .bind (advances_mergeWithSibling diskRead_pointersFit) fun merged hmerged => ?_
          refine .bind advances_diskWrite fun _ hwrite => ?_
          refine .bind (advances_mergeLoop hmerged.2) fun _ hloop => .pure ?_
          exact ((hmerged.1.trans hwrite).trans hloop.1).trans (advances_dropEmptyRoot hloop.2)

/-- The two parts take the next two positions. -/
theorem writeParts_members {m : Node κ υ} {data : κ × υ} : Ensures (writeParts t codec st n m i data)
    fun st' => st'.countOfNode = st.countOfNode + 2 ∧ st'.positionRoot = st.positionRoot ∧
      st'.lastPosition ≤ sizeMax ∧ st.countOfNode + 1 < sizeMax := by
  unfold writeParts
  refine .after fun _ => .bind diskWrite_members fun _ ⟨hcount₁, hroot₁, _, _⟩ => ?_
  refine .bind diskWrite_members fun _ ⟨hcount₂, hroot₂, _, hright⟩ => ?_
  refine diskWrite_members.mono fun _ ⟨hcount₃, hroot₃, hlast₃, _⟩ => ?_
  exact ⟨hcount₃.trans (hcount₂.trans hcount₁), hroot₃.trans (hroot₂.trans hroot₁), hlast₃, hright⟩

section Walks

variable [LinearOrder κ] {key : κ} {data : κ × υ}

theorem advances_splitNode : Ensures (splitNode t codec st path) (Advances st) := by
  cases path with
  | nil => exact .pure .refl
  | cons top path =>
    unfold splitNode
    refine .after fun middle => ?_
    dsimp only
    generalize BTreeDisk.diskRead t codec st ((path.head?.map Prod.fst).getD sizeMax) = parentNode
    by_cases hfew : (BTreeDisk.diskRead t codec st top.1).pointers.length < middleInd t + 1
    · rw [if_pos hfew]
      exact .throw
    · rw [if_neg hfew]
      refine writeParts_members.mono fun st' ⟨hcount, hroot, hlast, hlt⟩ => ?_
      unfold splitTarget at hcount hroot hlt
      split_ifs at hcount hroot hlt
      all_goals dsimp only at hcount hroot hlt
      · exact ⟨by omega, fun hfits => ⟨by omega, hlast, hroot.trans_le hfits.count⟩⟩
      · exact ⟨by omega, fun hfits => ⟨by omega, hlast, hroot.trans_le hfits.root⟩⟩

theorem advances_insert : Ensures (insert t turns codec st data) fun r => Advances st r.1 := by
  unfold insert
  dsimp only
  split_ifs
  · refine .bind diskWrite_members fun st' ⟨hcount, hroot, hlast, hnew⟩ => .pure ?_
    have hcount : st'.countOfNode = st.countOfNode + 1 := hcount
    exact ⟨hcount ▸ Nat.le_succ _, fun _ => ⟨hcount ▸ hnew, hlast, hroot.trans_le hnew.le⟩⟩
  · refine .after fun found => ?_
    cases found with
    | none => exact .pure .refl
    | some p =>
      refine .after fun _ => .bind advances_diskWrite fun _ hwrite => ?_
      split_ifs
      · exact .bind advances_splitNode fun _ hsplit => .pure (hwrite.trans hsplit)
      · exact .pure hwrite

theorem advances_updateWalk : Ensures (updateWalk t codec st data turns n) fun r => Advances st r.1 := by
  induction turns generalizing n with
  | zero => exact .throw
  | succ turns ih =>
    unfold updateWalk
    split_ifs
    · exact .pure .refl
    · refine .after fun curKey => ?_
      split_ifs
      · exact .after fun _ => .bind advances_diskWrite fun _ hwrite => .pure hwrite
      · exact ih

theorem advances_erase : Ensures (erase t turns codec st key) fun r => Advances st r.1 := by
  unfold erase
  refine .after fun found => ?_
  cases found with
  | none => exact .pure .refl
  | some p =>
    dsimp only
    split_ifs
    · exact .bind advances_deleteKeyFromLeaf fun _ hdelete => .pure hdelete
    · refine .after fun _ => .after fun _ => .after fun _ => .after fun _ => ?_
      refine .bind advances_diskWrite fun _ hwrite => ?_
      exact .bind advances_deleteKeyFromLeaf fun _ hdelete => .pure (hwrite.trans hdelete)

theorem Call.advances (c : Call κ υ) : Ensures (c.apply t turns codec st) fun r => Advances st r.1 := by
  cases c with
  | insert data => exact .bind advances_insert fun _ h => .pure h
  | update data => exact .bind (.after fun _ => advances_updateWalk) fun _ h => .pure h
  | erase key => exact .bind advances_erase fun _ h => .pure h
  | «at» key => exact .after fun _ => .pure .refl

/-- A file without nodes gets one from an `insert`, and is left as it is by the other calls. -/
theorem Call.apply_empty (c : Call κ υ) (hempty : st.countOfNode = 0) :
    Ensures (c.apply t turns codec st) fun r => r.1 = st ∨ 0 < r.1.countOfNode := by
  have hread : ∀ p, BTreeDisk.diskRead t codec st p = ⟨0, true, sizeMax, [], []⟩ := fun p =>
    if_pos (hempty ▸ Nat.zero_le p)
  cases c with
  | insert data =>
    refine .bind (P := fun r => 0 < r.1.countOfNode) ?_ fun _ h => .pure (Or.inr h)
    unfold BTreeDisk.insert
    dsimp only
    rw [hread, if_pos rfl]
    refine .bind diskWrite_members fun st' ⟨hcount, _⟩ => .pure ?_
    exact hcount ▸ Nat.succ_pos _
  | update data =>
    refine .bind (P := fun _ => False) ?_ fun _ => False.elim
    unfold BTreeDisk.update
    rw [hread]
    exact .bind (P := fun _ => False) .throw fun _ => False.elim
  | erase key =>
    refine .bind (P := fun r => r.1 = st) ?_ fun _ h => .pure (Or.inl h)
    unfold BTreeDisk.erase
    rw [hread]
    refine .bind (P := fun found => found = none) ?_ fun found hfound => ?_
    · cases turns with
      | zero => exact .throw
      | succ turns => exact .pure rfl
    · rw [hfound]
      exact .pure rfl
  | «at» key => exact .after fun _ => .pure (Or.inl rfl)

end Walks

end Advances

/-- The header of a tree file. -/
def writeHeader (m : Memory) (root count last : ℕ) : Memory :=
  ((m.store64 0 root).store64 8 count).store64 16 last

/-- The destructor writes the members into the header. Of the size a constructor asks only whether there is more
than a header, which is so from the first node on. -/
def closeTree (t size : ℕ) (st : DiskTree) : Files where
  fileForTree := writeHeader st.fileForTree st.positionRoot st.countOfNode st.lastPosition
  fileForKeyValue := st.fileForKeyValue
  size := max size (slot t st.countOfNode)

section Header

variable {m : Memory} {root count last size : ℕ}

theorem writeHeader_behind {a : ℕ} (ha : headerSize ≤ a) : writeHeader m root count last a = m a := by
  unfold headerSize at ha
  unfold writeHeader store64
  rw [storeBytes_frame _ 16 _ _ _ (by omega), storeBytes_frame _ 8 _ _ _ (by omega),
    storeBytes_frame _ 0 _ _ _ (by omega)]

theorem load64_writeHeader_root (h : root ≤ sizeMax) : (writeHeader m root count last).load64 0 = root := by
  unfold writeHeader
  rw [load64_store64_of_disjoint _ _ _ _ (by omega), load64_store64_of_disjoint _ _ _ _ (by omega),
    load64_store64 _ _ _ (lt_of_le_sizeMax h)]

theorem load64_writeHeader_count (h : count ≤ sizeMax) : (writeHeader m root count last).load64 8 = count := by
  unfold writeHeader
  rw [load64_store64_of_disjoint _ _ _ _ (by omega), load64_store64 _ _ _ (lt_of_le_sizeMax h)]

theorem load64_writeHeader_last (h : last ≤ sizeMax) : (writeHeader m root count last).load64 16 = last :=
  load64_store64 _ _ _ (lt_of_le_sizeMax h)

theorem load64_le_sizeMax {a : ℕ} : m.load64 a ≤ sizeMax := Nat.le_sub_one_of_lt (load64_lt m a)

/-- What holds of the members from a constructor to the destructor, over a file that had the size `size`. -/
structure Reopens (size : ℕ) (st : DiskTree) : Prop where
  fits : MembersFit st
  empty : size ≤ headerSize → st.countOfNode = 0 → st.positionRoot = sizeMax ∧ st.lastPosition = 0

theorem openTree_reopens {files : Files} : Reopens files.size (openTree files) := by
  unfold openTree
  split_ifs with hsize
  · exact ⟨⟨load64_le_sizeMax, load64_le_sizeMax, load64_le_sizeMax⟩, fun hle => absurd hsize hle.not_gt⟩
  · exact ⟨⟨Nat.zero_le _, Nat.zero_le _, le_rfl⟩, fun _ _ => ⟨rfl, rfl⟩⟩

/-- A tree that was closed is opened with the members that it had. -/
theorem reopened (h : Reopens size st) : ∃ h', openTree (closeTree t size st) = reheaded h' st := by
  obtain ⟨fileForTree, fileForKeyValue, countOfNode, lastPosition, positionRoot⟩ := st
  by_cases hsize : headerSize < (closeTree t size
      ⟨fileForTree, fileForKeyValue, countOfNode, lastPosition, positionRoot⟩).size
  · refine ⟨writeHeader fileForTree positionRoot countOfNode lastPosition, ?_⟩
    unfold openTree
    rw [if_pos hsize]
    unfold closeTree reheaded
    rw [splice_eq fun a => writeHeader_behind, load64_writeHeader_root h.fits.root,
      load64_writeHeader_count h.fits.count, load64_writeHeader_last h.fits.last]
  · obtain ⟨hle, hslot⟩ := max_le_iff.mp (not_lt.mp hsize)
    have hcount : countOfNode = 0 := by
      by_contra hne
      have hfirst : slot t 1 ≤ headerSize := (slot_mono (Nat.pos_of_ne_zero hne)).trans hslot
      unfold slot nodeMetadataSize recordSize at hfirst
      omega
    subst hcount
    obtain ⟨hroot, hlast⟩ := h.empty hle rfl
    refine ⟨writeHeader (writeHeader fileForTree positionRoot 0 lastPosition) sizeMax 0 0, ?_⟩
    unfold openTree
    rw [if_neg hsize]
    unfold reheaded
    rw [splice_eq fun a ha => (writeHeader_behind ha).trans (writeHeader_behind ha)]
    cases hroot
    cases hlast
    rfl

end Header

section Runs

variable [LinearOrder κ]

/-- Calls one after another, and what they return. -/
def calls (t turns : ℕ) (codec : Codec κ υ) :
    List (Call κ υ) → DiskTree → Except NodeFault (DiskTree × List (Answer υ))
  | [], st => pure (st, [])
  | c :: cs, st => do
    let first ← c.apply t turns codec st
    let rest ← calls t turns codec cs first.1
    pure (rest.1, first.2 :: rest.2)

/-- The life of an object over two files: a constructor, calls and the destructor. -/
def session (t turns : ℕ) (codec : Codec κ υ) (files : Files) (cs : List (Call κ υ)) :
    Except NodeFault (Files × List (Answer υ)) := do
  let result ← calls t turns codec cs (openTree files)
  pure (closeTree t files.size result.1, result.2)

/-- Objects one after another, each over the files of one name. A constructor sets the static members, and
nothing of an earlier object is left. -/
def sessions {ι : Type} [DecidableEq ι] (t turns : ℕ) (codec : Codec κ υ) :
    List (ι × List (Call κ υ)) → (ι → Files) →
      Except NodeFault ((ι → Files) × List (ι × List (Answer υ)))
  | [], disk => pure (disk, [])
  | (i, cs) :: ss, disk => do
    let first ← session t turns codec (disk i) cs
    let rest ← sessions t turns codec ss (Function.update disk i first.1)
    pure (rest.1, (i, first.2) :: rest.2)

/-- The entries of all sessions of one name. -/
def entriesOf {ι α : Type} [DecidableEq ι] (i : ι) (ss : List (ι × List α)) : List α :=
  (ss.filter fun s => s.1 = i).flatMap Prod.snd

variable {c : Call κ υ} {cs ds : List (Call κ υ)} {size : ℕ}

theorem calls_cons : calls t turns codec (c :: cs) st = (do
    let first ← c.apply t turns codec st
    let rest ← calls t turns codec cs first.1
    pure (rest.1, first.2 :: rest.2)) := rfl

theorem calls_reheaded : calls t turns codec cs (reheaded h st) =
    reheadedWith h <$> calls t turns codec cs st := by
  induction cs generalizing st with
  | nil => rfl
  | cons c cs ih =>
    simp only [calls_cons, Call.apply_reheaded, bind_map_left, map_bind, map_pure, reheadedWith, ih]

theorem calls_append : calls t turns codec (cs ++ ds) st = (do
    let first ← calls t turns codec cs st
    let rest ← calls t turns codec ds first.1
    pure (rest.1, first.2 ++ rest.2)) := by
  induction cs generalizing st with
  | nil => exact (bind_pure (calls t turns codec ds st)).symm
  | cons c cs ih => simp only [List.cons_append, calls_cons, ih, bind_assoc, pure_bind]

theorem Reopens.call (hopens : Reopens size st) : Ensures (c.apply t turns codec st) fun r => Reopens size r.1 := by
  intro r happly
  have hadvances := c.advances r happly
  refine ⟨hadvances.fits hopens.fits, fun hsize hcount => ?_⟩
  have hempty : st.countOfNode = 0 := Nat.le_zero.mp (hcount ▸ hadvances.count)
  rcases c.apply_empty hempty r happly with hsame | hpos
  · rw [hsame]
    exact hopens.empty hsize hempty
  · omega

theorem Reopens.calls (hopens : Reopens size st) : Ensures (calls t turns codec cs st) fun r => Reopens size r.1 := by
  induction cs generalizing st with
  | nil => exact .pure hopens
  | cons c cs ih => exact .bind hopens.call fun first hfirst => .bind (ih hfirst) fun rest hrest => .pure hrest

theorem reheaded_reheaded {h' : Memory} : reheaded h' (reheaded h st) = reheaded h' st := by
  unfold reheaded
  rw [splice_splice]

theorem Call.answer_reheaded : c.answer t turns codec (reheaded h st) = c.answer t turns codec st := by
  unfold Call.answer
  rw [Call.apply_reheaded, bind_map_left]
  rfl

/-- What the files of a session hold is what its calls leave. -/
theorem session_eq_ok {files files' : Files} {answers : List (Answer υ)}
    (hrun : session t turns codec files cs = .ok (files', answers)) :
    ∃ st h', calls t turns codec cs (openTree files) = .ok (st, answers) ∧ openTree files' = reheaded h' st := by
  obtain ⟨⟨st, answers⟩, hcalls, hclose⟩ := bind_eq_ok.mp hrun
  cases hclose
  obtain ⟨h', hopen⟩ := reopened (t := t) (openTree_reopens.calls _ hcalls)
  exact ⟨st, h', hcalls, hopen⟩

variable {ι : Type} [DecidableEq ι] {ss : List (ι × List (Call κ υ))} {disk : ι → Files} {i : ι}

theorem entriesOf_cons_self {α : Type} {xs : List α} {ys : List (ι × List α)} :
    entriesOf i ((i, xs) :: ys) = xs ++ entriesOf i ys := by
  unfold entriesOf
  rw [List.filter_cons_of_pos (by simp), List.flatMap_cons]

theorem entriesOf_cons_other {α : Type} {j : ι} {xs : List α} {ys : List (ι × List α)} (hne : j ≠ i) :
    entriesOf i ((j, xs) :: ys) = entriesOf i ys := by
  unfold entriesOf
  rw [List.filter_cons_of_neg (by simpa using hne)]

/-- The sessions of one name are the calls of one object. -/
theorem sessions_calls {disk' : ι → Files} {answers : List (ι × List (Answer υ))}
    (hrun : sessions t turns codec ss disk = .ok (disk', answers)) (i : ι) :
    ∃ st h', calls t turns codec (entriesOf i ss) (openTree (disk i)) = .ok (st, entriesOf i answers) ∧
      openTree (disk' i) = reheaded h' st := by
  induction ss generalizing disk disk' answers with
  | nil =>
    cases hrun
    refine ⟨_, (openTree (disk i)).fileForTree, rfl, ?_⟩
    unfold reheaded
    rw [splice_self]
  | cons s ss ih =>
    obtain ⟨j, cs⟩ := s
    obtain ⟨⟨files, first⟩, hfirst, hrun⟩ := bind_eq_ok.mp hrun
    obtain ⟨⟨disk₁, rest⟩, hrest, hdone⟩ := bind_eq_ok.mp hrun
    cases hdone
    obtain ⟨st, h', hcalls, hopen⟩ := ih hrest
    by_cases hji : j = i
    · subst hji
      obtain ⟨st₁, h₁, hcalls₁, hopen₁⟩ := session_eq_ok hfirst
      rw [Function.update_self, hopen₁, calls_reheaded] at hcalls
      cases hcalls₂ : calls t turns codec (entriesOf j ss) st₁ with
      | error e =>
        rw [hcalls₂] at hcalls
        cases hcalls
      | ok r =>
        rw [hcalls₂] at hcalls
        obtain ⟨hst, hanswers⟩ := Prod.mk.inj (Except.ok.inj hcalls)
        refine ⟨r.1, h', ?_, hopen.trans (hst ▸ reheaded_reheaded)⟩
        rw [entriesOf_cons_self, entriesOf_cons_self, calls_append, hcalls₁, ok_bind, hcalls₂, ← hanswers]
        rfl
    · rw [Function.update_of_ne (Ne.symm hji)] at hcalls
      rw [entriesOf_cons_other hji, entriesOf_cons_other hji]
      exact ⟨st, h', hcalls, hopen⟩

/-- The sessions return if the calls of each one object do. -/
theorem sessions_return
    (hcalls : ∀ i, ∃ result, calls t turns codec (entriesOf i ss) (openTree (disk i)) = .ok result) :
    ∃ result, sessions t turns codec ss disk = .ok result := by
  induction ss generalizing disk with
  | nil => exact ⟨(disk, []), rfl⟩
  | cons s ss ih =>
    obtain ⟨j, cs⟩ := s
    obtain ⟨r, hr⟩ := hcalls j
    rw [entriesOf_cons_self, calls_append] at hr
    obtain ⟨first, hfirst, hr⟩ := bind_eq_ok.mp hr
    obtain ⟨rest, hrest, -⟩ := bind_eq_ok.mp hr
    have hsession : session t turns codec (disk j) cs = .ok (closeTree t (disk j).size first.1, first.2) := by
      unfold session
      rw [hfirst]
      rfl
    obtain ⟨h', hopen⟩ := reopened (t := t) (openTree_reopens.calls _ hfirst)
    have hrest : ∀ i, ∃ result, calls t turns codec (entriesOf i ss)
        (openTree (Function.update disk j (closeTree t (disk j).size first.1) i)) = .ok result := by
      intro i
      by_cases hij : i = j
      · subst hij
        rw [Function.update_self, hopen, calls_reheaded, hrest]
        exact ⟨_, rfl⟩
      · obtain ⟨r, hr⟩ := hcalls i
        rw [entriesOf_cons_other (Ne.symm hij)] at hr
        rw [Function.update_of_ne hij]
        exact ⟨r, hr⟩
    obtain ⟨result, hresult⟩ := ih hrest
    refine ⟨(result.1, (j, first.2) :: result.2), ?_⟩
    unfold sessions
    rw [hsession, ok_bind, hresult]
    rfl

end Runs

/-- Two objects over the same new files. -/
def inTwoSessions : List (Unit × List (Call (Fin 256) (Fin 256))) :=
  [((), [.insert (10, 110)]), ((), [.at 10, .insert (10, 111)])]

end MaiFaSp.BTreeDisk
