import MaiFaSp.BTreeDisk.EraseWalk

/-!
# A key taken out of a leaf

`delete_key_from_leaf` when the leaf has a key to spare, when it is the root, and when a
sibling gives a key away. The sibling keeps its field `size`, so its last key is read twice
or comes back.
-/

namespace MaiFaSp.BTreeDisk

open BoundedVector

variable {κ υ : Type} {t : ℕ} {codec : Codec κ υ} {st st' : DiskTree}

theorem paddedPointers_padded (cs : List ℕ) :
    paddedPointers t (paddedPointers t cs) = paddedPointers t cs := by
  nth_rewrite 1 [paddedPointers]
  rw [length_paddedPointers, Nat.sub_self, List.replicate_zero, List.append_nil,
    List.take_of_length_le (by rw [length_paddedPointers])]

/-- The children of a node that is written again are padded already. -/
theorem holds_of_padded {height : ℕ} {X : Tree κ υ height} {keys : List (κ × υ)}
    (h : Holds t codec st X.position
      { X.node t with keys := keys, pointers := paddedPointers t (X.node t).pointers }) :
    Holds t codec st X.position { X.node t with keys := keys } := by
  have hslot : Holds t codec st X.position ⟨X.keys.length, X.isLeaf, X.position, keys,
      paddedPointers t (paddedPointers t X.childPositions)⟩ := h
  rw [paddedPointers_padded] at hslot
  exact hslot

theorem mem_paddedPointers_nil {p : ℕ} (h : p ∈ paddedPointers t []) : p ≤ sizeMax := by
  rw [paddedPointers_nil] at h
  exact mem_replicate_le h

theorem getBefore_eq_ok {α : Type} {xs : List α} {i : ℕ} {x : α} (h : xs[i]? = some x) :
    getBefore xs (i + 1) = .ok x := by
  show (if i + 1 = 0 then _ else get xs i) = _
  rw [if_neg (Nat.succ_ne_zero i), get_eq_ok.mpr h]

theorem eraseKey_eq_ok {n : Node κ υ} {i : ℕ} (h : i < n.keys.length) (h' : i < n.pointers.length) :
    eraseKey n i = .ok { n with keys := n.keys.eraseIdx i, pointers := n.pointers.eraseIdx i } := by
  rw [eraseKey, eraseAt_eq_ok h, eraseAt_eq_ok h']
  rfl

theorem padded_eraseIdx {i : ℕ} (hi : i < maximumPointersInNode t) :
    (paddedPointers t []).eraseIdx i = List.replicate (maximumPointersInNode t - 1) sizeMax := by
  rw [paddedPointers_nil, List.eraseIdx_replicate, if_pos hi]

/-- The writes of a borrow: the leaf, the parent, and the sibling with a size that is too large. -/
theorem borrow_writes {leaf parent sibling : Node κ υ} (old : Node κ υ)
    (hleaf : leaf.positionInDisk < st.countOfNode) (hleafSize : leaf.size = leaf.keys.length)
    (hleafFits : leaf.keys.length ≤ maximumKeysInNode t) (hleafNull : ∀ p ∈ leaf.pointers, p ≤ sizeMax)
    (hparent : parent.positionInDisk < st.countOfNode)
    (hparentSize : parent.size = parent.keys.length)
    (hparentFits : parent.keys.length ≤ maximumKeysInNode t)
    (hparentNull : ∀ p ∈ parent.pointers, p ≤ sizeMax)
    (hold : Holds t codec st sibling.positionInDisk old) (hsiblingSize : sibling.size = old.size)
    (hshort : sibling.keys.length ≤ old.size) (hsiblingNull : ∀ p ∈ sibling.pointers, p ≤ sizeMax)
    (h₁ : leaf.positionInDisk ≠ parent.positionInDisk)
    (h₂ : leaf.positionInDisk ≠ sibling.positionInDisk)
    (h₃ : parent.positionInDisk ≠ sibling.positionInDisk) :
    OkUnless .streamFailed (diskWrite t codec st leaf >>= fun st => diskWrite t codec st parent >>=
      fun st => diskWrite t codec st sibling) fun st' =>
        (st'.countOfNode = st.countOfNode ∧ st'.positionRoot = st.positionRoot) ∧
        Holds t codec st' leaf.positionInDisk
          { leaf with pointers := paddedPointers t leaf.pointers } ∧
        Holds t codec st' parent.positionInDisk
          { parent with pointers := paddedPointers t parent.pointers } ∧
        Holds t codec st' sibling.positionInDisk { sibling with
          keys := sibling.keys ++ old.keys.drop sibling.keys.length
          pointers := paddedPointers t sibling.pointers } ∧
        ∀ p m, p ≠ leaf.positionInDisk → p ≠ parent.positionInDisk →
          p ≠ sibling.positionInDisk → Holds t codec st p m → Holds t codec st' p m := by
  refine diskWrite_okUnless.bind fun st₁ hw₁ => ?_
  obtain ⟨hown₁, hkept₁⟩ := diskWrite_node hw₁ hleaf hleafSize hleafFits hleafNull
  obtain ⟨hcount₁, hroot₁⟩ := diskWrite_count hw₁
  refine diskWrite_okUnless.bind fun st₂ hw₂ => ?_
  obtain ⟨hown₂, hkept₂⟩ := diskWrite_node hw₂ (hcount₁ ▸ hparent) hparentSize hparentFits hparentNull
  obtain ⟨hcount₂, hroot₂⟩ := diskWrite_count hw₂
  refine diskWrite_okUnless.mono fun st₃ hw₃ => ?_
  have hold₂ := hkept₂ _ _ h₃.symm (hkept₁ _ _ h₂.symm hold)
  obtain ⟨hown₃, hkept₃⟩ := diskWrite_short hw₃ hold₂ hsiblingSize hshort hsiblingNull
  obtain ⟨hcount₃, hroot₃⟩ := diskWrite_count hw₃
  refine ⟨⟨by rw [hcount₃, hcount₂, hcount₁], by rw [hroot₃, hroot₂, hroot₁]⟩, ?_, ?_, hown₃, ?_⟩
  · exact hkept₃ _ _ h₂ (hkept₂ _ _ h₁ hown₁)
  · exact hkept₃ _ _ h₃ hown₂
  · intro p m hp₁ hp₂ hp₃ h
    exact hkept₃ p m hp₃ (hkept₂ p m hp₂ (hkept₁ p m hp₁ h))

namespace Tree

variable {top : ℕ} {T : Tree κ υ top} {S : Tree κ υ 0} {index i j : ℕ}
  {family : Option (ℕ × List (Tree κ υ 0))} {path : List (ℕ × ℕ)} {before after : List (κ × υ)}

/-- A leaf with other keys. -/
def withKeys (S : Tree κ υ 0) (es : List (κ × υ)) : Tree κ υ 0 := ⟨S.isLeaf, S.position, es, S.children⟩

/-- The disk holds a tree in the place of `T`, with these pairs, of which one may stand twice. -/
def HoldsInstead (t : ℕ) (codec : Codec κ υ) (st : DiskTree) (T : Tree κ υ top)
    (es : List (κ × υ)) : Prop :=
  ∃ T' : Tree κ υ top, T'.Stored t codec st ∧ T'.Tidy ∧ T'.position = T.position ∧
    (T'.keys = [] → T.keys = []) ∧ Doubled es T'.contents

/-- The outcome of a call that only writes allocated nodes. -/
def Rewrites (t : ℕ) (codec : Codec κ υ) (st : DiskTree) (T : Tree κ υ top) (es : List (κ × υ))
    (st' : DiskTree) : Prop :=
  (st'.countOfNode = st.countOfNode ∧ st'.positionRoot = st.positionRoot) ∧
    HoldsInstead t codec st' T es

theorem withKeys_node (es : List (κ × υ)) :
    (S.withKeys es).node t = ⟨es.length, S.isLeaf, S.position, es, paddedPointers t []⟩ := rfl

theorem write_shorter (h : Reaches T S family path before after) (hstored : T.Stored t codec st)
    (htidy : T.Tidy) (hnodup : T.positions.Nodup) (hindex : index < S.keys.length)
    (hsome : 1 < S.keys.length) :
    OkUnless .streamFailed (diskWrite t codec st { S.node t with
      keys := S.keys.eraseIdx index, size := decrement S.keys.length })
      (Rewrites t codec st T (before ++ S.keys.eraseIdx index ++ after)) := by
  refine diskWrite_okUnless.mono fun st' hw => ?_
  have hlen := List.length_eraseIdx_of_lt hindex
  have hS := h.stored hstored
  have hfits := hS.keys_length_le
  have hsize : decrement S.keys.length = (S.keys.eraseIdx index).length := by
    rw [hlen]
    exact if_neg (by omega)
  obtain ⟨hown, hkept⟩ := diskWrite_node hw hS.holds.allocated hsize (by show _ ≤ _; rw [hlen]; omega)
    fun p hp => mem_paddedPointers_nil hp
  have hown' : (S.withKeys (S.keys.eraseIdx index)).Stored t codec st' := by
    show Holds t codec st' S.position _
    rw [withKeys_node, ← hsize, ← paddedPointers_padded]
    exact hown
  have hne : S.keys.eraseIdx index ≠ [] := List.ne_nil_of_length_pos (by omega)
  obtain ⟨T', family', hreach, hT', htidy', hpos, hkeys, -⟩ := h.replace hstored htidy hnodup
    (S.withKeys (S.keys.eraseIdx index)) rfl hown' trivial (fun hnil => absurd hnil hne)
    fun p m hp hnot hold => hkept p m (fun heq => hnot (heq ▸ S.position_mem)) hold
  refine ⟨diskWrite_count hw, T', hT', htidy', hpos, hkeys, ?_⟩
  rw [hreach.contents htidy']
  exact Doubled.refl _

section Window

variable {P : Tree κ υ 1} {a b : Tree κ υ 0} {l r : List (Tree κ υ 0)} {k k' : κ × υ}
  {kl kr : List (κ × υ)}

theorem positions_above_leaves (P : Tree κ υ 1) :
    P.positions = P.position :: P.subtrees.map Cell.position := by
  show P.position :: P.subtrees.flatMap positions = _
  rw [List.flatMap_def]
  congr 1
  induction P.subtrees with
  | nil => rfl
  | cons c cs ih =>
    show [c.position] ++ _ = _
    rw [ih]
    rfl

theorem positions_apart (hnodup : P.positions.Nodup) (hsub : P.subtrees = l ++ a :: b :: r) :
    P.position ≠ a.position ∧ P.position ≠ b.position ∧ a.position ≠ b.position ∧
      ∀ c, c ∈ l ∨ c ∈ r → c.position ≠ a.position ∧ c.position ≠ b.position ∧
        c.position ≠ P.position := by
  rw [positions_above_leaves, hsub] at hnodup
  simp only [List.map_append, List.map_cons, List.nodup_cons, List.nodup_append, List.mem_append,
    List.mem_cons, List.mem_map, not_or, not_exists, not_and] at hnodup
  obtain ⟨⟨hl, ha, hb, hr⟩, -, ⟨⟨hab, har⟩, hbr, -⟩, hcross⟩ := hnodup
  refine ⟨ha, hb, hab, ?_⟩
  rintro c (hc | hc)
  · exact ⟨hcross _ ⟨c, hc, rfl⟩ _ (Or.inl rfl), hcross _ ⟨c, hc, rfl⟩ _ (Or.inr (Or.inl rfl)),
      hl c hc⟩
  · exact ⟨har c hc, hbr c hc, hr c hc⟩

/-- A node above leaves with two neighbouring leaves and the key between them replaced. -/
theorem replace_window {familyP : Option (ℕ × List (Tree κ υ 1))}
    (h : Reaches T P familyP path before after) (hstored : T.Stored t codec st)
    (htidy : T.Tidy) (hnodup : T.positions.Nodup) (hsub : P.subtrees = l ++ a :: b :: r)
    (hkeys : P.keys = kl ++ k :: kr) (hlen : l.length = kl.length) (a' b' : Tree κ υ 0)
    (ha : a'.position = a.position) (hb : b'.position = b.position)
    (hstored_a : a'.Stored t codec st') (hstored_b : b'.Stored t codec st')
    (hnode : Holds t codec st' P.position { P.node t with keys := kl ++ k' :: kr })
    (hkept : ∀ p m, p ≠ a.position → p ≠ b.position → p ≠ P.position → Holds t codec st p m →
      Holds t codec st' p m) :
    ∃ T' : Tree κ υ top, T'.Stored t codec st' ∧ T'.Tidy ∧ T'.position = T.position ∧
      (T'.keys = [] → T.keys = []) ∧
        T'.contents = before ++ (interleaveBefore (l.map contents) kl ++
          (a'.contents ++ k' :: b'.contents) ++ interleaveAfter kr (r.map contents)) ++ after := by
  have hP := h.stored hstored
  have hPtidy := h.tidy htidy
  have hPlen := hPtidy.1
  rw [hsub, hkeys] at hPlen
  simp only [List.length_append, List.length_cons] at hPlen
  obtain ⟨-, -, -, hapart⟩ := positions_apart (hnodup.sublist h.positions_sublist) hsub
  let P' : Tree κ υ 1 := ⟨P.isLeaf, P.position, kl ++ k' :: kr, l ++ a' :: b' :: r⟩
  have hpositions : (l ++ a' :: b' :: r).map Cell.position = P.subtrees.map Cell.position := by
    rw [hsub]
    simp [ha, hb]
  have hlength : (kl ++ k' :: kr).length = P.keys.length := by
    rw [hkeys]
    simp
  have hP' : P'.Stored t codec st' := by
    constructor
    · have heq : P'.node t = { P.node t with keys := kl ++ k' :: kr } := by
        show (⟨(kl ++ k' :: kr).length, P.isLeaf, P.position, kl ++ k' :: kr,
          paddedPointers t ((l ++ a' :: b' :: r).map Cell.position)⟩ : Node κ υ) = _
        rw [hpositions, hlength]
        rfl
      rw [heq]
      exact hnode
    · intro c hc
      have hold : ∀ c, c ∈ l ∨ c ∈ r → c.Stored t codec st' := by
        intro c hc
        have hmem : c ∈ P.subtrees := by
          rw [hsub]
          rcases hc with hc | hc
          · exact List.mem_append_left _ hc
          · exact List.mem_append_right _ (List.mem_cons_of_mem _ (List.mem_cons_of_mem _ hc))
        obtain ⟨h₁, h₂, h₃⟩ := hapart c hc
        exact hkept _ _ h₁ h₂ h₃ (hP.2 c hmem)
      rcases List.mem_append.mp hc with hc | hc
      · exact hold c (Or.inl hc)
      · rcases List.mem_cons.mp hc with rfl | hc
        · exact hstored_a
        · rcases List.mem_cons.mp hc with rfl | hc
          · exact hstored_b
          · exact hold c (Or.inr hc)
  have hP'tidy : P'.Tidy := by
    refine ⟨?_, fun _ _ => trivial⟩
    show (l ++ a' :: b' :: r).length = (kl ++ k' :: kr).length + 1
    simp only [List.length_append, List.length_cons]
    omega
  have hkeysP : P'.keys = [] → P.keys = [] := fun hnil =>
    absurd hnil (List.append_ne_nil_of_right_ne_nil _ (List.cons_ne_nil _ _))
  obtain ⟨T', familyP', hreach, hT', htidy', hpos, hkeys', -⟩ := h.replace hstored htidy hnodup P' rfl hP'
    hP'tidy hkeysP fun p m _ hnot hold => by
      rw [positions_above_leaves, hsub] at hnot
      simp only [List.map_append, List.map_cons, List.mem_cons, List.mem_append, not_or] at hnot
      exact hkept p m hnot.2.2.1 hnot.2.2.2.1 hnot.1 hold
  refine ⟨T', hT', htidy', hpos, hkeys', ?_⟩
  rw [hreach.contents htidy']
  congr 2
  show interleave ((l ++ a' :: b' :: r).map contents) (kl ++ k' :: kr) = _
  rw [List.map_append, List.map_cons, List.map_cons]
  refine interleave_window ?_ ?_
  · rw [List.length_map, hlen]
  · rw [List.length_map]
    omega

theorem pointers_after_borrow (hindex : index < maximumPointersInNode t) :
    (paddedPointers t []).eraseIdx index ++ [sizeMax] = paddedPointers t [] := by
  rw [padded_eraseIdx hindex, paddedPointers_nil, ← List.replicate_succ']
  rfl

theorem borrowLeft_eq {x : κ × υ} {es : List (κ × υ)} (hindex : index < b.keys.length)
    (hfits : b.keys.length ≤ maximumKeysInNode t) (hkeys : P.keys = kl ++ k :: kr)
    (hi : i = kl.length) (ha : a.keys = es ++ [x]) (hafits : a.keys.length ≤ maximumKeysInNode t) :
    borrowLeft t codec st (b.node t) (P.node t) (a.node t) (i + 1) index =
      diskWrite t codec st { b.node t with
        keys := k :: b.keys.eraseIdx index, pointers := paddedPointers t [] } >>= fun st =>
      diskWrite t codec st { P.node t with keys := kl ++ x :: kr } >>= fun st =>
      diskWrite t codec st { a.node t with
        keys := es, pointers := List.replicate (maximumPointersInNode t - 1) sizeMax } := by
  have hlen : a.keys.length = es.length + 1 := by rw [ha, List.length_append, List.length_singleton]
  have hmax : maximumPointersInNode t = maximumKeysInNode t + 1 := rfl
  have herase : eraseKey (b.node t) index = .ok { b.node t with
      keys := b.keys.eraseIdx index, pointers := (paddedPointers t []).eraseIdx index } :=
    eraseKey_eq_ok hindex (by show index < (paddedPointers t []).length; rw [length_paddedPointers]; omega)
  have hsep : getBefore (P.node t).keys (i + 1) = .ok k := by
    apply getBefore_eq_ok
    show P.keys[i]? = some k
    rw [hkeys, hi]
    simp
  have hlast : getBefore (a.node t).keys (a.node t).keys.length = .ok x := by
    show getBefore a.keys a.keys.length = .ok x
    rw [hlen]
    apply getBefore_eq_ok
    rw [ha]
    simp
  have hset : setAt (P.node t).keys (i + 1 - 1) x = .ok (kl ++ x :: kr) := by
    show setAt P.keys i x = _
    rw [setAt_eq_ok (by rw [hkeys, hi]; simp), hkeys, hi]
    simp
  have herase' : eraseKey (a.node t) (a.keys.length - 1) = .ok { a.node t with
      keys := es, pointers := List.replicate (maximumPointersInNode t - 1) sizeMax } := by
    rw [eraseKey_eq_ok (show a.keys.length - 1 < a.keys.length by omega)
      (show a.keys.length - 1 < (paddedPointers t []).length by rw [length_paddedPointers]; omega)]
    have hkeys' : (a.node t).keys.eraseIdx (a.keys.length - 1) = es := by
      show a.keys.eraseIdx (a.keys.length - 1) = es
      rw [hlen, ha, Nat.add_sub_cancel, List.eraseIdx_append_of_length_le le_rfl]
      simp
    have hpointers : (a.node t).pointers.eraseIdx (a.keys.length - 1) =
        List.replicate (maximumPointersInNode t - 1) sizeMax := padded_eraseIdx (by omega)
    rw [hkeys', hpointers]
  rw [borrowLeft, herase]
  show (getBefore (P.node t).keys (i + 1) >>= fun separator => _) = _
  rw [hsep]
  show (getBefore (a.node t).keys (a.node t).keys.length >>= fun last => _) = _
  rw [hlast]
  show (setAt (P.node t).keys (i + 1 - 1) x >>= fun parentKeys => _) = _
  rw [hset]
  show (eraseKey (a.node t) (a.keys.length - 1) >>= fun leftSibling => diskWrite t codec st
    { b.node t with keys := k :: b.keys.eraseIdx index,
                    pointers := (paddedPointers t []).eraseIdx index ++ [sizeMax] } >>= _) = _
  rw [herase', pointers_after_borrow (by omega)]
  rfl

theorem borrowRight_eq {x : κ × υ} {es : List (κ × υ)} (hindex : index < a.keys.length)
    (hfits : a.keys.length ≤ maximumKeysInNode t) (hkeys : P.keys = kl ++ k :: kr)
    (hi : i = kl.length) (hb : b.keys = x :: es) :
    borrowRight t codec st (a.node t) (P.node t) (b.node t) i index =
      diskWrite t codec st { a.node t with
        keys := a.keys.eraseIdx index ++ [k], pointers := paddedPointers t [] } >>= fun st =>
      diskWrite t codec st { P.node t with keys := kl ++ x :: kr } >>= fun st =>
      diskWrite t codec st { b.node t with
        keys := es, pointers := List.replicate (maximumPointersInNode t - 1) sizeMax } := by
  have hmax : maximumPointersInNode t = maximumKeysInNode t + 1 := rfl
  have herase : eraseKey (a.node t) index = .ok { a.node t with
      keys := a.keys.eraseIdx index, pointers := (paddedPointers t []).eraseIdx index } :=
    eraseKey_eq_ok hindex (by show index < (paddedPointers t []).length; rw [length_paddedPointers]; omega)
  have hsep : get (P.node t).keys i = .ok k := by
    rw [get_eq_ok]
    show P.keys[i]? = some k
    rw [hkeys, hi]
    simp
  have hfirst : get (b.node t).keys 0 = .ok x := by
    rw [get_eq_ok]
    show b.keys[0]? = some x
    rw [hb]
    rfl
  have hset : setAt (P.node t).keys i x = .ok (kl ++ x :: kr) := by
    show setAt P.keys i x = _
    rw [setAt_eq_ok (by rw [hkeys, hi]; simp), hkeys, hi]
    simp
  have herase' : eraseKey (b.node t) 0 = .ok { b.node t with
      keys := es, pointers := List.replicate (maximumPointersInNode t - 1) sizeMax } := by
    rw [eraseKey_eq_ok (show 0 < b.keys.length by rw [hb]; exact Nat.succ_pos _)
      (show 0 < (paddedPointers t []).length by rw [length_paddedPointers]; omega)]
    have hkeys' : (b.node t).keys.eraseIdx 0 = es := by
      show b.keys.eraseIdx 0 = es
      rw [hb]
      rfl
    have hpointers : (b.node t).pointers.eraseIdx 0 =
        List.replicate (maximumPointersInNode t - 1) sizeMax := padded_eraseIdx (by omega)
    rw [hkeys', hpointers]
  rw [borrowRight, herase]
  show (get (P.node t).keys i >>= fun separator => _) = _
  rw [hsep]
  show (get (b.node t).keys 0 >>= fun first => _) = _
  rw [hfirst]
  show (setAt (P.node t).keys i x >>= fun parentKeys => _) = _
  rw [hset]
  show (eraseKey (b.node t) 0 >>= fun rightSibling => diskWrite t codec st
    { a.node t with keys := a.keys.eraseIdx index ++ [k],
                    pointers := (paddedPointers t []).eraseIdx index ++ [sizeMax] } >>= _) = _
  rw [herase', pointers_after_borrow (by omega)]
  rfl

theorem window_left (hsub : P.subtrees = l ++ a :: b :: r) (hkeys : P.keys = kl ++ k :: kr)
    (hlen : l.length = kl.length) :
    interleaveBefore ((P.subtrees.take l.length).map contents) (P.keys.take l.length) =
        interleaveBefore (l.map contents) kl ∧
      interleaveAfter (P.keys.drop l.length) ((P.subtrees.drop (l.length + 1)).map contents) =
        k :: (b.keys ++ interleaveAfter kr (r.map contents)) := by
  constructor
  · rw [hsub, hkeys, List.take_left, hlen, List.take_left]
  · have hsub' : P.subtrees = (l ++ [a]) ++ b :: r := by rw [hsub, List.append_assoc]; rfl
    have hdrop : P.subtrees.drop (l.length + 1) = b :: r := by
      rw [hsub']
      exact List.drop_left' (by simp)
    rw [hdrop, hkeys, hlen, List.drop_left]
    rfl

theorem window_right (hsub : P.subtrees = l ++ a :: b :: r) (hkeys : P.keys = kl ++ k :: kr)
    (hlen : l.length = kl.length) :
    interleaveBefore ((P.subtrees.take (l.length + 1)).map contents) (P.keys.take (l.length + 1)) =
        interleaveBefore (l.map contents) kl ++ (a.keys ++ [k]) ∧
      interleaveAfter (P.keys.drop (l.length + 1)) ((P.subtrees.drop (l.length + 1 + 1)).map contents) =
        interleaveAfter kr (r.map contents) := by
  have hsub' : P.subtrees = (l ++ [a]) ++ b :: r := by rw [hsub, List.append_assoc]; rfl
  have hsub'' : P.subtrees = (l ++ [a, b]) ++ r := by rw [hsub, List.append_assoc]; rfl
  have hkeys' : P.keys = (kl ++ [k]) ++ kr := by rw [hkeys, List.append_assoc]; rfl
  have htake : P.subtrees.take (l.length + 1) = l ++ [a] := by
    rw [hsub']
    exact List.take_left' (by simp)
  have hdrop : P.subtrees.drop (l.length + 1 + 1) = r := by
    rw [hsub'']
    exact List.drop_left' (by simp)
  have htake' : P.keys.take (l.length + 1) = kl ++ [k] := by
    rw [hkeys']
    exact List.take_left' (by simp [hlen])
  have hdrop' : P.keys.drop (l.length + 1) = kr := by
    rw [hkeys']
    exact List.drop_left' (by simp [hlen])
  rw [htake, hdrop, htake', hdrop', List.map_append]
  refine ⟨interleaveBefore_append_singleton ?_, rfl⟩
  rw [List.length_map, hlen]

variable {familyP : Option (ℕ × List (Tree κ υ 1))}

theorem pointers_node_le (hP : P.Stored t codec st) : ∀ p ∈ (P.node t).pointers, p ≤ sizeMax := by
  apply paddedPointers_le
  intro p hp
  obtain ⟨c, hc, rfl⟩ := List.mem_map.mp hp
  have hlt : c.position < sizeMax := (hP.2 c hc).holds.valid
  exact hlt.le

/-- The left sibling gives its last key to the parent and keeps a copy of it. -/
theorem borrowLeft_rewrites (h : Reaches T P familyP path before after)
    (hstored : T.Stored t codec st) (htidy : T.Tidy) (hnodup : T.positions.Nodup)
    (hsub : P.subtrees = l ++ a :: b :: r) (hkeys : P.keys = kl ++ k :: kr)
    (hlen : l.length = kl.length) (hindex : index < b.keys.length) (hne : a.keys ≠ []) :
    OkUnless .streamFailed
      (borrowLeft t codec st (b.node t) (P.node t) (a.node t) (l.length + 1) index)
      (Rewrites t codec st T (before ++ (interleaveBefore (l.map contents) kl ++ (a.keys ++ [k])) ++
        b.keys.eraseIdx index ++ (interleaveAfter kr (r.map contents) ++ after))) := by
  obtain ⟨es, x, hes⟩ : ∃ es x, a.keys = es ++ [x] :=
    ⟨a.keys.dropLast, a.keys.getLast hne, (List.dropLast_concat_getLast hne).symm⟩
  have hP := h.stored hstored
  have ha : a.Stored t codec st := hP.2 a (by rw [hsub]; simp)
  have hb : b.Stored t codec st := hP.2 b (by rw [hsub]; simp)
  have hafits := ha.keys_length_le
  have hbfits := hb.keys_length_le
  have hPfits := hP.keys_length_le
  obtain ⟨hPa, hPb, hab, -⟩ := positions_apart (hnodup.sublist h.positions_sublist) hsub
  have herased := List.length_eraseIdx_of_lt hindex
  have halen : a.keys.length = es.length + 1 := by rw [hes, List.length_append, List.length_singleton]
  have hPlen : P.keys.length = kl.length + (kr.length + 1) := by
    rw [hkeys, List.length_append, List.length_cons]
  rw [borrowLeft_eq hindex hbfits hkeys hlen hes hafits]
  refine OkUnless.mono (borrow_writes (a.node t) hb.holds.allocated ?_ ?_ ?_
    hP.holds.allocated ?_ ?_ ?_ ha.holds rfl ?_ ?_ hPb.symm hab.symm hPa) ?_
  · show b.keys.length = (k :: b.keys.eraseIdx index).length
    rw [List.length_cons, herased]
    omega
  · show (k :: b.keys.eraseIdx index).length ≤ _
    rw [List.length_cons, herased]
    omega
  · intro p hp
    exact mem_paddedPointers_nil hp
  · show P.keys.length = (kl ++ x :: kr).length
    rw [hPlen, List.length_append, List.length_cons]
  · show (kl ++ x :: kr).length ≤ _
    rw [List.length_append, List.length_cons]
    omega
  · exact pointers_node_le hP
  · show es.length ≤ a.keys.length
    omega
  · intro p hp
    exact mem_replicate_le hp
  · rintro st' ⟨hcount, hown_b, hown_P, hown_a, hkept⟩
    refine ⟨hcount, ?_⟩
    have hkeys_a : es ++ a.keys.drop es.length = a.keys := by
      rw [hes, List.drop_left]
    have hsize_b : b.keys.length = (k :: b.keys.eraseIdx index).length := by
      rw [List.length_cons, herased]
      omega
    have hstored_a : a.Stored t codec st' := by
      have hslot : Holds t codec st' a.position ⟨a.keys.length, a.isLeaf, a.position,
          es ++ a.keys.drop es.length, paddedPointers t (List.replicate _ sizeMax)⟩ := hown_a
      rw [hkeys_a, paddedPointers_replicate] at hslot
      exact hslot
    have hstored_b : (b.withKeys (k :: b.keys.eraseIdx index)).Stored t codec st' := by
      have hslot : Holds t codec st' b.position ⟨b.keys.length, b.isLeaf, b.position,
          k :: b.keys.eraseIdx index, paddedPointers t (paddedPointers t [])⟩ := hown_b
      rw [hsize_b, paddedPointers_padded] at hslot
      exact hslot
    have hnode : Holds t codec st' P.position { P.node t with keys := kl ++ x :: kr } :=
      holds_of_padded hown_P
    obtain ⟨T', hT', htidy', hpos, hkeys', hcontents⟩ := replace_window h hstored htidy hnodup hsub
      hkeys hlen a (b.withKeys (k :: b.keys.eraseIdx index)) rfl rfl hstored_a hstored_b hnode
      fun p m h₁ h₂ h₃ hold => hkept p m h₂ h₃ h₁ hold
    refine ⟨T', hT', htidy', hpos, hkeys', Or.inr ⟨before ++ interleaveBefore (l.map contents) kl ++ es,
      x, k :: (b.keys.eraseIdx index ++ interleaveAfter kr (r.map contents) ++ after), ?_, ?_⟩⟩
    · rw [hes]
      simp only [List.append_assoc, List.cons_append, List.nil_append]
    · rw [hcontents]
      show before ++ (_ ++ (a.keys ++ x :: (k :: b.keys.eraseIdx index)) ++ _) ++ after = _
      rw [hes]
      simp only [List.append_assoc, List.cons_append, List.nil_append]

/-- The right sibling gives its first key to the parent and reads its last key twice. -/
theorem borrowRight_rewrites (h : Reaches T P familyP path before after)
    (hstored : T.Stored t codec st) (htidy : T.Tidy) (hnodup : T.positions.Nodup)
    (hsub : P.subtrees = l ++ a :: b :: r) (hkeys : P.keys = kl ++ k :: kr)
    (hlen : l.length = kl.length) (hindex : index < a.keys.length) (hmore : 1 < b.keys.length) :
    OkUnless .streamFailed
      (borrowRight t codec st (a.node t) (P.node t) (b.node t) l.length index)
      (Rewrites t codec st T (before ++ interleaveBefore (l.map contents) kl ++
        a.keys.eraseIdx index ++ (k :: (b.keys ++ interleaveAfter kr (r.map contents)) ++ after))) := by
  obtain ⟨x, es, hes⟩ := List.exists_cons_of_ne_nil (List.ne_nil_of_length_pos (Nat.zero_lt_of_lt hmore))
  have hne : es ≠ [] := by
    rintro rfl
    rw [hes] at hmore
    exact absurd hmore (lt_irrefl 1)
  obtain ⟨es', y, rfl⟩ : ∃ es' y, es = es' ++ [y] :=
    ⟨es.dropLast, es.getLast hne, (List.dropLast_concat_getLast hne).symm⟩
  have hP := h.stored hstored
  have ha : a.Stored t codec st := hP.2 a (by rw [hsub]; simp)
  have hb : b.Stored t codec st := hP.2 b (by rw [hsub]; simp)
  have hafits := ha.keys_length_le
  have hbfits := hb.keys_length_le
  have hPfits := hP.keys_length_le
  obtain ⟨hPa, hPb, hab, -⟩ := positions_apart (hnodup.sublist h.positions_sublist) hsub
  have herased := List.length_eraseIdx_of_lt hindex
  have hblen : b.keys.length = (es' ++ [y]).length + 1 := by rw [hes, List.length_cons]
  have hPlen : P.keys.length = kl.length + (kr.length + 1) := by
    rw [hkeys, List.length_append, List.length_cons]
  have hsize_a : a.keys.length = (a.keys.eraseIdx index ++ [k]).length := by
    rw [List.length_append, List.length_singleton, herased]
    omega
  rw [borrowRight_eq hindex hafits hkeys hlen hes]
  refine OkUnless.mono (borrow_writes (b.node t) ha.holds.allocated hsize_a ?_ ?_
    hP.holds.allocated ?_ ?_ ?_ hb.holds rfl ?_ ?_ hPa.symm hab hPb) ?_
  · exact hsize_a ▸ hafits
  · intro p hp
    exact mem_paddedPointers_nil hp
  · show P.keys.length = (kl ++ x :: kr).length
    rw [hPlen, List.length_append, List.length_cons]
  · show (kl ++ x :: kr).length ≤ _
    rw [List.length_append, List.length_cons]
    omega
  · exact pointers_node_le hP
  · show (es' ++ [y]).length ≤ b.keys.length
    omega
  · intro p hp
    exact mem_replicate_le hp
  · rintro st' ⟨hcount, hown_a, hown_P, hown_b, hkept⟩
    refine ⟨hcount, ?_⟩
    have hkeys_b : es' ++ [y] ++ b.keys.drop (es' ++ [y]).length = es' ++ [y, y] := by
      have hcut : b.keys = (x :: es') ++ [y] := hes
      rw [hcut, List.drop_left' (by simp), List.append_assoc]
      rfl
    have hsize_b : b.keys.length = (es' ++ [y, y]).length := by
      rw [hblen]
      simp
    have hstored_a : (a.withKeys (a.keys.eraseIdx index ++ [k])).Stored t codec st' := by
      have hslot : Holds t codec st' a.position ⟨a.keys.length, a.isLeaf, a.position,
          a.keys.eraseIdx index ++ [k], paddedPointers t (paddedPointers t [])⟩ := hown_a
      rw [hsize_a, paddedPointers_padded] at hslot
      exact hslot
    have hstored_b : (b.withKeys (es' ++ [y, y])).Stored t codec st' := by
      have hslot : Holds t codec st' b.position ⟨b.keys.length, b.isLeaf, b.position,
          es' ++ [y] ++ b.keys.drop (es' ++ [y]).length, paddedPointers t (List.replicate _ sizeMax)⟩ :=
        hown_b
      rw [hkeys_b, paddedPointers_replicate, hsize_b] at hslot
      exact hslot
    have hnode : Holds t codec st' P.position { P.node t with keys := kl ++ x :: kr } :=
      holds_of_padded hown_P
    obtain ⟨T', hT', htidy', hpos, hkeys', hcontents⟩ := replace_window h hstored htidy hnodup hsub
      hkeys hlen (a.withKeys (a.keys.eraseIdx index ++ [k])) (b.withKeys (es' ++ [y, y])) rfl rfl
      hstored_a hstored_b hnode
      fun p m h₁ h₂ h₃ hold => hkept p m h₁ h₃ h₂ hold
    refine ⟨T', hT', htidy', hpos, hkeys', Or.inr ⟨before ++ interleaveBefore (l.map contents) kl ++
      a.keys.eraseIdx index ++ k :: x :: es', y, interleaveAfter kr (r.map contents) ++ after, ?_, ?_⟩⟩
    · rw [hes]
      simp only [List.append_assoc, List.cons_append, List.nil_append]
    · rw [hcontents]
      show before ++ (_ ++ ((a.keys.eraseIdx index ++ [k]) ++ x :: (es' ++ [y, y])) ++ _) ++ after = _
      simp only [List.append_assoc, List.cons_append, List.nil_append]

end Window

section Siblings

variable {height : ℕ} {P : Tree κ υ (height + 1)} {C : Tree κ υ height}

/-- The copy of the sibling that `delete_key_from_leaf` reads, a null node if there is none. -/
def siblingNode (t : ℕ) (codec : Codec κ υ) (st : DiskTree) (P : Tree κ υ (height + 1)) (j : ℕ) :
    Node κ υ := diskRead t codec st (P.childPositions.getD j sizeMax)

theorem childPositions_getElem? {j : ℕ} (hP : P.Stored t codec st) (htidy : P.Tidy)
    (hj : j < maximumPointersInNode t) :
    (P.node t).pointers[j]? = some (P.childPositions.getD j sizeMax) := by
  apply paddedPointers_getElem? _ hj
  have hlen : P.childPositions.length = P.keys.length + 1 := (List.length_map _).trans htidy.1
  rw [hlen]
  exact Nat.succ_le_succ hP.keys_length_le

theorem siblingNode_some {j : ℕ} (hP : P.Stored t codec st) (hc : P.subtrees[j]? = some C) :
    siblingNode t codec st P j = C.node t := by
  have hat : (P.subtrees.map Cell.position)[j]? = some C.position := by
    rw [List.getElem?_map, hc]
    rfl
  have hpos : P.childPositions.getD j sizeMax = C.position := by
    rw [List.getD_eq_getElem?_getD]
    exact congrArg (fun o => Option.getD o sizeMax) hat
  rw [siblingNode, hpos]
  exact (hP.2 C (List.mem_of_getElem? hc)).holds.read

theorem siblingNode_none {j : ℕ} (hcount : st.countOfNode ≤ sizeMax) (hc : P.subtrees[j]? = none) :
    siblingNode t codec st P j = ⟨0, true, sizeMax, [], []⟩ := by
  have hpos : P.childPositions.getD j sizeMax = sizeMax := by
    rw [List.getD_eq_default]
    show (P.subtrees.map Cell.position).length ≤ j
    rw [List.length_map]
    exact List.getElem?_eq_none_iff.mp hc
  rw [siblingNode, hpos]
  exact diskRead_sizeMax hcount

/-- The size of a sibling that `delete_key_from_leaf` works with. -/
theorem siblingNode_size {j : ℕ} (hP : P.Stored t codec st) (hcount : st.countOfNode ≤ sizeMax) :
    (if (siblingNode t codec st P j).positionInDisk ≠ sizeMax then
      (siblingNode t codec st P j).keys.length else 0) = siblingSize P.subtrees j := by
  unfold siblingSize
  cases hc : P.subtrees[j]? with
  | none =>
    rw [siblingNode_none hcount hc]
    exact if_neg (fun h => h rfl)
  | some C =>
    rw [siblingNode_some hP hc]
    exact if_pos (hP.2 C (List.mem_of_getElem? hc)).holds.valid.ne

/-- A leaf without a key to spare that has a parent, and pointers on both sides. -/
theorem deleteKeyFromLeaf_child {i' : ℕ} (hP : P.Stored t codec st) (htidy : P.Tidy)
    (hcount : st.countOfNode ≤ sizeMax) (hfew : ¬ minimumKeysInNode t < C.keys.length)
    (hi : i + 2 < maximumPointersInNode t) :
    deleteKeyFromLeaf t codec st index (C.node t) ((C.position, i + 1) :: (P.position, i') :: path) =
      if minimumKeysInNode t < siblingSize P.subtrees i then
        borrowLeft t codec st (C.node t) (P.node t) (siblingNode t codec st P i) (i + 1) index
      else if minimumKeysInNode t < siblingSize P.subtrees (i + 2) then
        borrowRight t codec st (C.node t) (P.node t) (siblingNode t codec st P (i + 2)) (i + 1) index
      else (do
        let node ← eraseKey (C.node t) index
        let node := { node with size := decrement node.size }
        let merged ← mergeWithSibling t codec st (diskRead t codec st C.position) (P.node t)
          (siblingNode t codec st P i) (siblingNode t codec st P (i + 2)) (i + 1)
          (siblingSize P.subtrees i, siblingSize P.subtrees (i + 2))
        let merged := merged.getD (st, P.node t)
        let st' ← diskWrite t codec merged.1 node
        let result ← mergeLoop t codec st' merged.2 (siblingNode t codec st P i)
          (siblingNode t codec st P (i + 2)) (siblingSize P.subtrees i, siblingSize P.subtrees (i + 2))
          path
        pure (dropEmptyRoot result.1 result.2)) := by
  have hread : diskRead t codec st P.position = P.node t := hP.holds.read
  have hvalid : (P.node t).positionInDisk ≠ sizeMax := hP.holds.valid.ne
  have hleft : getBefore (P.node t).pointers (i + 1) = .ok (P.childPositions.getD i sizeMax) :=
    getBefore_eq_ok (childPositions_getElem? hP htidy (by omega))
  have hright : get (P.node t).pointers (i + 1 + 1) = .ok (P.childPositions.getD (i + 2) sizeMax) :=
    get_eq_ok.mpr (childPositions_getElem? hP htidy hi)
  rw [deleteKeyFromLeaf]
  refine (if_neg hfew).trans ?_
  show (if (diskRead t codec st P.position).positionInDisk = sizeMax then _ else _) = _
  rw [hread, if_neg hvalid]
  show (getBefore (P.node t).pointers (i + 1) >>= fun left => _) = _
  rw [hleft]
  show (get (P.node t).pointers (i + 1 + 1) >>= fun right => _) = _
  rw [hright, ← siblingNode_size hP hcount, ← siblingNode_size hP hcount]
  rfl

end Siblings

theorem Reaches.path_eq {height : ℕ} {S : Tree κ υ height} {path : List (ℕ × ℕ)}
    {family : Option (ℕ × List (Tree κ υ height))} (h : Reaches T S family path before after) :
    ∃ i rest, path = (S.position, i) :: rest := by
  cases h with
  | root => exact ⟨0, [], rfl⟩
  | child hP hc => exact ⟨_, _, rfl⟩

theorem split_one {α : Type} {xs : List α} {i : ℕ} (h : i < xs.length) :
    ∃ l x r, xs = l ++ x :: r ∧ l.length = i := by
  refine ⟨xs.take i, xs[i], xs.drop (i + 1), ?_, List.length_take_of_le h.le⟩
  rw [← List.drop_eq_getElem_cons h, List.take_append_drop]

theorem split_two {α : Type} {xs : List α} {i : ℕ} {a b : α} (ha : xs[i]? = some a)
    (hb : xs[i + 1]? = some b) : ∃ l r, xs = l ++ a :: b :: r ∧ l.length = i := by
  obtain ⟨hi, hai⟩ := List.getElem?_eq_some_iff.mp ha
  obtain ⟨hi', hbi⟩ := List.getElem?_eq_some_iff.mp hb
  refine ⟨xs.take i, xs.drop (i + 2), ?_, List.length_take_of_le hi.le⟩
  rw [← hai, ← hbi, ← List.drop_eq_getElem_cons hi', ← List.drop_eq_getElem_cons hi,
    List.take_append_drop]

theorem siblingSize_eq {height j : ℕ} {cs : List (Tree κ υ height)} {n : ℕ} (h : n < siblingSize cs j) :
    ∃ c, cs[j]? = some c ∧ n < c.keys.length := by
  unfold siblingSize at h
  cases hc : cs[j]? with
  | none =>
    rw [hc] at h
    exact absurd h (Nat.not_lt_zero n)
  | some c =>
    rw [hc] at h
    exact ⟨c, rfl, h⟩

theorem deleteKeyFromLeaf_rewrites (h : Reaches T S family path before after)
    (hstored : T.Stored t codec st) (htidy : T.Tidy) (hnodup : T.positions.Nodup)
    (hcount : st.countOfNode ≤ sizeMax) (ht : 2 ≤ t) (hspare : Spare t family S)
    (hindex : index < S.keys.length) :
    OkUnless .streamFailed (deleteKeyFromLeaf t codec st index (S.node t) path)
      (Rewrites t codec st T (before ++ S.keys.eraseIdx index ++ after)) := by
  have hmin : 1 ≤ minimumKeysInNode t := by
    unfold minimumKeysInNode
    omega
  have herase : eraseAt S.keys index = .ok (S.keys.eraseIdx index) := eraseAt_eq_ok hindex
  by_cases hmany : minimumKeysInNode t < S.keys.length
  · have hcall : deleteKeyFromLeaf t codec st index (S.node t) path =
        diskWrite t codec st { S.node t with
          keys := S.keys.eraseIdx index, size := decrement S.keys.length } := by
      rw [deleteKeyFromLeaf.eq_def]
      refine (if_pos hmany).trans ?_
      show (eraseAt S.keys index >>= fun keys => _) = _
      rw [herase]
      rfl
    rw [hcall]
    exact write_shorter h hstored htidy hnodup hindex (by omega)
  · cases h with
    | root =>
      have hsome : 1 < S.keys.length := hspare
      have hcall : deleteKeyFromLeaf t codec st index (S.node t) [(S.position, 0)] =
          diskWrite t codec st { S.node t with
            keys := S.keys.eraseIdx index, size := decrement S.keys.length } := by
        rw [deleteKeyFromLeaf]
        refine (if_neg hmany).trans ?_
        show deleteFromRoot t codec st (diskRead t codec st S.position) index = _
        rw [hstored.holds.read, deleteFromRoot]
        refine (if_pos hsome).trans ?_
        show (eraseAt S.keys index >>= fun keys => _) = _
        rw [herase]
        rfl
      rw [hcall]
      exact write_shorter Reaches.root hstored htidy hnodup hindex hsome
    | @child _ P _ familyP pathP beforeP afterP i hP hc =>
      rcases hspare with hspare | ⟨hi, hi', hsize⟩
      · exact absurd hspare hmany
      · obtain ⟨j, rfl⟩ : ∃ j, i = j + 1 := Nat.exists_eq_add_of_le' hi
        obtain ⟨i', rest, rfl⟩ := hP.path_eq
        have hPstored := hP.stored hstored
        have hPtidy := hP.tidy htidy
        have hPlen := hPtidy.1
        have hbound := (List.getElem?_eq_some_iff.mp hc).1
        rw [deleteKeyFromLeaf_child hPstored hPtidy hcount hmany hi']
        by_cases hleft : minimumKeysInNode t < siblingSize P.subtrees j
        · rw [if_pos hleft]
          obtain ⟨a, ha, halen⟩ := siblingSize_eq hleft
          obtain ⟨l, r, hsub, hl⟩ := split_two ha hc
          obtain ⟨kl, k, kr, hkeys, hkl⟩ := split_one (show j < P.keys.length by omega)
          have hlen : l.length = kl.length := hl.trans hkl.symm
          obtain ⟨hbefore, hafter⟩ := window_right hsub hkeys hlen
          rw [siblingNode_some hPstored ha, ← hl, hbefore, hafter]
          exact borrowLeft_rewrites hP hstored htidy hnodup hsub hkeys hlen hindex
            (List.ne_nil_of_length_pos (Nat.zero_lt_of_lt halen))
        · have hright : minimumKeysInNode t < siblingSize P.subtrees (j + 2) := hsize.resolve_left hleft
          rw [if_neg hleft, if_pos hright]
          obtain ⟨b, hb, hblen⟩ := siblingSize_eq hright
          obtain ⟨l, r, hsub, hl⟩ := split_two hc hb
          have hbound' := (List.getElem?_eq_some_iff.mp hb).1
          obtain ⟨kl, k, kr, hkeys, hkl⟩ := split_one (show j + 1 < P.keys.length by omega)
          have hlen : l.length = kl.length := hl.trans hkl.symm
          obtain ⟨hbefore, hafter⟩ := window_left hsub hkeys hlen
          rw [siblingNode_some hPstored hb, ← hl, hbefore, hafter]
          exact borrowRight_rewrites hP hstored htidy hnodup hsub hkeys hlen hindex (by omega)

end Tree

end MaiFaSp.BTreeDisk
