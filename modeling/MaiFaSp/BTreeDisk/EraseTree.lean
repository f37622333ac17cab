import MaiFaSp.BTreeDisk.EraseLeaf

/-!
# `erase` in a tree of any height

The call from the root: the walk to the key, the replacement of a key of an inner node, and
what `at` finds afterwards.
-/

namespace MaiFaSp.BTreeDisk

open BoundedVector

variable {κ υ : Type} {t : ℕ} {codec : Codec κ υ} {st st' : DiskTree}

namespace Tree

variable {top height : ℕ} {T : Tree κ υ top} {index i turns : ℕ} {path : List (ℕ × ℕ)}
  {before after : List (κ × υ)}

theorem checkIfLeaf_leaf {S : Tree κ υ 0} (hcount : st.countOfNode ≤ sizeMax)
    (hstored : S.Stored t codec st) (hindex : index < S.keys.length) :
    checkIfLeaf t codec st (S.node t) index = true := by
  have hfits := hstored.keys_length_le
  have hlt : index + 1 < maximumPointersInNode t := Nat.succ_lt_succ (hindex.trans_le hfits)
  have hnext : (S.node t).pointers.getD (index + 1) 0 = sizeMax := by
    have hat : (paddedPointers t [])[index + 1]? = some ([].getD (index + 1) sizeMax) :=
      paddedPointers_getElem? (Nat.zero_le _) hlt
    rw [List.getD_eq_getElem?_getD]
    exact congrArg (fun o => Option.getD o 0) hat
  have hlen : index + 1 < (S.node t).pointers.length := hlt.trans_eq length_paddedPointers.symm
  rw [checkIfLeaf]
  refine (if_pos hlen).trans ?_
  show decide ((diskRead t codec st ((S.node t).pointers.getD (index + 1) 0)).positionInDisk =
    sizeMax) = true
  rw [hnext, diskRead_sizeMax hcount]
  exact decide_eq_true rfl

theorem checkIfLeaf_inner {X : Tree κ υ (height + 1)} (hstored : X.Stored t codec st)
    (htidy : X.Tidy) (hindex : index < X.keys.length) :
    checkIfLeaf t codec st (X.node t) index = false := by
  have hfits := hstored.keys_length_le
  have hlt : index + 1 < maximumPointersInNode t := Nat.succ_lt_succ (hindex.trans_le hfits)
  have hi : index + 1 < X.subtrees.length := by
    have hlen := htidy.1
    omega
  have hmem : X.subtrees[index + 1] ∈ X.subtrees := List.getElem_mem hi
  have hchild : siblingNode t codec st X (index + 1) = X.subtrees[index + 1].node t :=
    siblingNode_some hstored (List.getElem?_eq_getElem hi)
  have hnext : (X.node t).pointers.getD (index + 1) 0 = X.childPositions.getD (index + 1) sizeMax := by
    rw [List.getD_eq_getElem?_getD, childPositions_getElem? hstored htidy hlt]
    rfl
  have hlen : index + 1 < (X.node t).pointers.length := hlt.trans_eq length_paddedPointers.symm
  rw [checkIfLeaf]
  refine (if_pos hlen).trans ?_
  show decide ((diskRead t codec st ((X.node t).pointers.getD (index + 1) 0)).positionInDisk =
    sizeMax) = false
  rw [hnext]
  change decide ((siblingNode t codec st X (index + 1)).positionInDisk = sizeMax) = false
  rw [hchild]
  exact decide_eq_false (hstored.2 _ hmem).holds.valid.ne

theorem getLastD_leaf (ht : 1 ≤ maximumPointersInNode t) :
    (paddedPointers t []).getLastD sizeMax = sizeMax := by
  rw [paddedPointers_nil]
  obtain ⟨k, hk⟩ := Nat.exists_eq_add_of_le' ht
  rw [hk, List.replicate_succ', List.getLastD_concat]

theorem getLastD_full {X : Tree κ υ (height + 1)} {c : Tree κ υ height} (htidy : X.Tidy)
    (hfull : X.keys.length = maximumKeysInNode t) (hc : X.subtrees.getLast? = some c) :
    (X.node t).pointers.getLastD sizeMax = c.position := by
  obtain ⟨init, hinit⟩ : ∃ init, X.subtrees = init ++ [c] := List.getLast?_eq_some_iff.mp hc
  have hlen : (X.subtrees.map Cell.position).length = maximumPointersInNode t := by
    rw [List.length_map, htidy.1, hfull]
    rfl
  have hpointers : (X.node t).pointers = X.subtrees.map Cell.position := by
    show paddedPointers t (X.subtrees.map Cell.position) = _
    unfold paddedPointers
    rw [hlen, Nat.sub_self, List.replicate_zero, List.append_nil, List.take_of_length_le hlen.le]
  rw [hpointers, hinit, List.map_append, List.map_singleton, List.getLastD_concat]

/-- The walk along the last pointers of full nodes ends at the last leaf. -/
theorem rightmost_spec {c : Tree κ υ height} {family : Option (ℕ × List (Tree κ υ height))}
    (hstored : c.Stored t codec st) (htidy : c.Tidy) (hspare : LastSpare t family c index)
    (hturns : height + 1 ≤ turns) :
    ∃ (n : Tree κ υ 0) (family' : Option (ℕ × List (Tree κ υ 0))) (below : List (ℕ × ℕ))
      (mid : List (κ × υ)),
      (∀ path, rightmost t codec st turns (c.node t) path = .ok (n.node t, below ++ path)) ∧
      n.keys.length = index + 1 ∧ Spare t family' n ∧ c.contents = mid ++ n.keys ∧
      ∀ {top : ℕ} (T : Tree κ υ top) path before after, Reaches T c family path before after →
        Reaches T n family' (below ++ path) (before ++ mid) after := by
  have hmax : 1 ≤ maximumPointersInNode t := Nat.succ_le_succ (Nat.zero_le _)
  induction height generalizing turns with
  | zero =>
    obtain ⟨turns, rfl⟩ := Nat.exists_eq_add_of_le' hturns
    refine ⟨c, family, [], [], fun path => ?_, hspare.1, hspare.2, rfl, fun T path before after h => ?_⟩
    · have hlast : (c.node t).pointers.getLastD sizeMax = sizeMax := getLastD_leaf hmax
      rw [rightmost]
      refine (if_neg ?_)
      exact fun hne => hne hlast
    · rw [List.append_nil]
      exact h
  | succ height ih =>
    obtain ⟨turns, rfl⟩ := Nat.exists_eq_add_of_le' hturns
    obtain ⟨hfull, hlast⟩ := hspare
    have hlen := htidy.1
    have hne : c.subtrees ≠ [] := List.ne_nil_of_length_pos (by omega)
    obtain ⟨d, hd⟩ : ∃ d, c.subtrees.getLast? = some d := ⟨_, List.getLast?_eq_getLast_of_ne_nil hne⟩
    have hmem : d ∈ c.subtrees := List.mem_of_getLast? hd
    have hat : c.subtrees[c.keys.length]? = some d := by
      rw [List.getLast?_eq_getElem?, hlen] at hd
      exact hd
    obtain ⟨n, family', below, mid, hwalk, hkeys, hspare', hcontents, hreach⟩ :=
      ih (hstored.2 d hmem) (htidy.2 d hmem) (hlast d hd) (show height + 1 ≤ turns + (height + 1) by omega)
    have hchild := contents_child htidy hat
    have hdrop : c.keys.drop c.keys.length = [] := List.drop_length
    rw [hdrop] at hchild
    refine ⟨n, family', below ++ [(d.position, c.keys.length)],
      interleaveBefore ((c.subtrees.take c.keys.length).map contents)
        (c.keys.take c.keys.length) ++ mid, fun path => ?_, hkeys, hspare', ?_, ?_⟩
    · have hnext : (c.node t).pointers.getLastD sizeMax = d.position := getLastD_full htidy hfull hd
      have hvalid : (c.node t).pointers.getLastD sizeMax ≠ sizeMax := by
        rw [hnext]
        exact (hstored.2 d hmem).holds.valid.ne
      have hindex : (c.node t).pointers.length - 1 = c.keys.length := by
        rw [hfull]
        show (paddedPointers t c.childPositions).length - 1 = _
        rw [length_paddedPointers]
        rfl
      show rightmost t codec st (turns + (height + 1) + 1) (c.node t) path = _
      rw [rightmost]
      refine (if_pos hvalid).trans ?_
      show rightmost t codec st (turns + (height + 1))
        (diskRead t codec st ((c.node t).pointers.getLastD sizeMax))
        (((diskRead t codec st ((c.node t).pointers.getLastD sizeMax)).positionInDisk,
          (c.node t).pointers.length - 1) :: path) = _
      rw [hnext, (hstored.2 d hmem).holds.read, hindex, hwalk, List.append_assoc]
      rfl
    · rw [hchild, hcontents]
      simp only [interleaveAfter, List.zipWith_nil_left, List.flatten_nil, List.append_nil,
        List.append_assoc]
    · intro top T path before after h
      have hnew := hreach T _ _ _ (h.child hat)
      rw [hdrop] at hnew
      rw [List.append_assoc, ← List.append_assoc before]
      exact hnew

/-- A pair of a node replaced by another one. -/
def setKey (X : Tree κ υ height) (index : ℕ) (x : κ × υ) : Tree κ υ height :=
  ⟨X.isLeaf, X.position, X.keys.set index x, X.children⟩

theorem childPositions_le {X : Tree κ υ height} (hX : X.Stored t codec st) :
    ∀ p ∈ X.childPositions, p ≤ sizeMax := by
  cases height with
  | zero =>
    intro p hp
    cases hp
  | succ height =>
    intro p hp
    obtain ⟨c, hc, rfl⟩ := List.mem_map.mp hp
    have hlt : c.position < sizeMax := (hX.2 c hc).holds.valid
    exact hlt.le

theorem setKey_childPositions (X : Tree κ υ height) (index : ℕ) (x : κ × υ) :
    (X.setKey index x).childPositions = X.childPositions := by
  cases height with
  | zero => rfl
  | succ height => rfl

theorem setKey_stored {X : Tree κ υ height} {x : κ × υ} (hX : X.Stored t codec st)
    (hnodup : X.positions.Nodup)
    (hown : Holds t codec st' X.position ((X.setKey index x).node t))
    (hkept : ∀ p m, p ≠ X.position → Holds t codec st p m → Holds t codec st' p m) :
    (X.setKey index x).Stored t codec st' := by
  cases height with
  | zero => exact hown
  | succ height =>
    refine ⟨hown, fun c hc => ?_⟩
    obtain ⟨j, hj⟩ := List.mem_iff_getElem?.mp hc
    refine (hX.2 c hc).kept fun p m hp hold => hkept p m ?_ hold
    intro heq
    exact root_not_mem_child hnodup hj (heq ▸ hp)

theorem setKey_tidy {X : Tree κ υ height} {x : κ × υ} (hX : X.Tidy) :
    (X.setKey index x).Tidy := by
  cases height with
  | zero => trivial
  | succ height => exact ⟨hX.1.trans (congrArg Nat.succ List.length_set.symm), hX.2⟩

theorem setKey_positions {X : Tree κ υ height} {x : κ × υ} :
    (X.setKey index x).positions = X.positions := by
  cases height with
  | zero => rfl
  | succ height => rfl

theorem replace_pair {X : Tree κ υ height} {x : κ × υ}
    {family : Option (ℕ × List (Tree κ υ height))}
    (h : Reaches T X family path before after) (hstored : T.Stored t codec st) (htidy : T.Tidy)
    (hnodup : T.positions.Nodup)
    (hw : diskWrite t codec st { X.node t with keys := X.keys.set index x } = .ok st') :
    ∃ (T' : Tree κ υ top) (family' : Option (ℕ × List (Tree κ υ height))),
      Reaches T' (X.setKey index x) family' path before after ∧ T'.Stored t codec st' ∧ T'.Tidy ∧
        T'.position = T.position ∧ (T'.keys = [] → T.keys = []) ∧ T'.positions = T.positions := by
  have hX := h.stored hstored
  have hlen : (X.keys.set index x).length = X.keys.length := List.length_set
  obtain ⟨hown, hkept⟩ := diskWrite_node hw hX.holds.allocated hlen.symm
    (hlen.trans_le hX.keys_length_le) (paddedPointers_le (childPositions_le hX))
  have hslot : Holds t codec st' X.position ⟨X.keys.length, X.isLeaf, X.position,
      X.keys.set index x, paddedPointers t X.childPositions⟩ := holds_of_padded hown
  rw [← hlen, ← setKey_childPositions X index x] at hslot
  have hkeys : (X.setKey index x).keys = [] → X.keys = [] := fun hnil =>
    List.eq_nil_of_length_eq_zero (hlen.symm.trans (congrArg List.length hnil))
  obtain ⟨T', family', hreach, hT', htidy', hpos, hkeys', hpositions⟩ :=
    h.replace hstored htidy hnodup (X.setKey index x) rfl
      (setKey_stored hX (hnodup.sublist h.positions_sublist) hslot hkept)
      (setKey_tidy (h.tidy htidy)) hkeys fun p m _ hnot hold => by
        refine hkept p m (fun heq => hnot ?_) hold
        have heq' : p = X.position := heq
        exact heq' ▸ X.position_mem
  exact ⟨T', family', hreach, hT', htidy', hpos, hkeys', hpositions setKey_positions⟩

section Call

variable [LinearOrder κ] {key : κ}

/-- A B-tree on the disk: every node but the root has at least `t - 1` keys, all leaves are on
one level, the keys are in order, and every node has its own slot. -/
structure WellFormed (t : ℕ) (codec : Codec κ υ) (st : DiskTree) (T : Tree κ υ top) : Prop where
  root : st.positionRoot = T.position
  stored : T.Stored t codec st
  tidy : T.Tidy
  filled : T.Filled t 1
  distinct : T.positions.Nodup
  sorted : Sorted T.contents
  count : st.countOfNode ≤ sizeMax

/-- `at` in the tree that the disk holds. -/
theorem atKey_stored (hroot : st.positionRoot = T.position) (hstored : T.Stored t codec st)
    (htidy : T.Tidy) (hs : Settled T.contents) (hne : T.keys ≠ []) (hcount : st.countOfNode ≤ sizeMax)
    (hturns : top + 2 ≤ turns) : atKey t turns codec st key = .ok (lookup T.contents key) := by
  obtain ⟨k, rest, hkeys⟩ := List.exists_cons_of_ne_nil hne
  have hfirst : get (T.node t).keys 0 = .ok k := by
    rw [get_eq_ok]
    show T.keys[0]? = some k
    rw [hkeys]
    rfl
  rw [atKey, hroot, hstored.holds.read]
  show (get (T.node t).keys 0 >>= fun _ => atWalk t codec st key turns (T.node t)) = _
  rw [hfirst]
  exact hstored.atWalk htidy hs hcount hturns

theorem WellFormed.atKey (h : T.WellFormed t codec st) (hturns : top + 2 ≤ turns) :
    atKey t turns codec st key = .ok (lookup T.contents key) :=
  atKey_stored h.root h.stored h.tidy h.sorted.settled
    (List.ne_nil_of_length_pos h.filled.least_le) h.count hturns

/-- What the caller of `erase` expects of the result. -/
def ErasedFrom (t turns : ℕ) (codec : Codec κ υ) (st : DiskTree) (key : κ)
    (result : DiskTree × Bool) : Prop :=
  (result.2 = true ↔ ∃ v, BTreeDisk.atKey t turns codec st key = .ok (some v)) ∧
    BTreeDisk.atKey t turns codec result.1 key = .ok none ∧
      ∀ j ≠ key, BTreeDisk.atKey t turns codec result.1 j = BTreeDisk.atKey t turns codec st j

theorem lookup_without {l r es : List (κ × υ)} {x : κ × υ} (hs : Sorted (l ++ x :: r))
    (hd : Doubled (l ++ r) es) (j : κ) :
    lookup es j = if j = x.1 then none else lookup (l ++ x :: r) j := by
  have hsub : Sorted (l ++ r) := hs.sublist ((List.sublist_cons_self x r).append_left l)
  have hes := hd.settled hsub.settled
  by_cases hj : j = x.1
  · rw [if_pos hj, lookup_eq_none, hj]
    intro hm
    obtain ⟨y, hy, heq⟩ := List.mem_map.mp hm
    rw [hd.mem_iff, List.mem_append] at hy
    obtain ⟨-, hxr, hcross⟩ := sorted_append.mp hs
    rcases hy with hy | hy
    · exact (hcross y hy x List.mem_cons_self).ne heq
    · exact ((sorted_cons.mp hxr).1 y hy).ne' heq
  · rw [if_neg hj]
    refine lookup_congr hes hs.settled fun v => ?_
    have hne : (j, v) ≠ x := fun heq => hj (congrArg Prod.fst heq)
    rw [hd.mem_iff, List.mem_append, List.mem_append, List.mem_cons]
    tauto

theorem Rewrites.erasedFrom {l r : List (κ × υ)} {x : κ × υ} (h : T.WellFormed t codec st)
    (hcontents : T.contents = l ++ x :: r) (hnew : Rewrites t codec st T (l ++ r) st')
    (hturns : top + 2 ≤ turns) : ErasedFrom t turns codec st x.1 (st', true) := by
  obtain ⟨⟨hcount, hroot⟩, T', hT', htidy', hpos, hkeys, hdoubled⟩ := hnew
  have hs := h.sorted
  rw [hcontents] at hs
  have hsub : Sorted (l ++ r) := hs.sublist ((List.sublist_cons_self x r).append_left l)
  have hne : T'.keys ≠ [] := fun hnil =>
    List.ne_nil_of_length_pos h.filled.least_le (hkeys hnil)
  have hat : ∀ j, BTreeDisk.atKey t turns codec st' j = .ok (lookup T'.contents j) := fun j =>
    atKey_stored (hroot.trans (h.root.trans hpos.symm)) hT' htidy' (hdoubled.settled hsub.settled)
      hne (hcount.trans_le h.count) hturns
  refine ⟨⟨fun _ => ⟨x.2, ?_⟩, fun _ => rfl⟩, ?_, fun j hj => ?_⟩
  · rw [h.atKey hturns, hcontents]
    congr 1
    rw [lookup_eq_some hs]
    exact List.mem_append_right _ List.mem_cons_self
  · rw [hat, lookup_without hs hdoubled, if_pos rfl]
  · rw [hat, h.atKey hturns, hcontents, lookup_without hs hdoubled, if_neg hj]

theorem route_split {X : Tree κ υ height} (hs : Sorted X.keys) (hkey : key ∈ X.keys.map Prod.fst) :
    ∃ l x r, X.keys = l ++ x :: r ∧ l.length = route X.keys key ∧ x.1 = key := by
  have hat := (getElem?_lowerIndex hs).mpr hkey
  rw [List.getElem?_map, Option.map_eq_some_iff] at hat
  obtain ⟨x, hx, hxkey⟩ := hat
  obtain ⟨hi, hget⟩ := List.getElem?_eq_some_iff.mp hx
  obtain ⟨l, y, r, hsplit, hlen⟩ := split_one hi
  refine ⟨l, y, r, hsplit, hlen, ?_⟩
  have hy : X.keys[lowerIndex (X.keys.map Prod.fst) key]? = some y := by
    rw [← hlen, hsplit]
    simp
  have heq : some y = some x := hy.symm.trans hx
  rw [Option.some.inj heq]
  exact hxkey

theorem Reaches.sorted {S : Tree κ υ height} {family : Option (ℕ × List (Tree κ υ height))}
    (h : Reaches T S family path before after) (htidy : T.Tidy) (hs : Sorted T.contents) :
    Sorted S.contents := by
  rw [h.contents htidy] at hs
  exact (sorted_append.mp (sorted_append.mp hs).1).2.1

section Place

variable {X : Tree κ υ height} {family : Option (ℕ × List (Tree κ υ height))}

theorem erase_at (hroot : st.positionRoot = T.position) (hstored : T.Stored t codec st)
    (hends : EndsAt t codec st key T X family path before after
      (eraseWalk t codec st key turns (T.node t) 0 [])) :
    erase t turns codec st key =
      if checkIfLeaf t codec st (X.node t) (route X.keys key) then
        deleteKeyFromLeaf t codec st (route X.keys key) (X.node t) path >>= fun st => .ok (st, true)
      else
        get (X.node t).pointers (route X.keys key) >>= fun pointer =>
        rightmost t codec st turns (diskRead t codec st pointer)
          (((diskRead t codec st pointer).positionInDisk, route X.keys key) :: path) >>= fun found =>
        getBefore found.1.keys found.1.keys.length >>= fun newData =>
        setAt X.keys (found.1.keys.length - 1) newData >>= fun keys =>
        diskWrite t codec st { X.node t with keys := keys } >>= fun st =>
        deleteKeyFromLeaf t codec st (found.1.keys.length - 1) found.1 found.2 >>= fun st =>
          .ok (st, true) := by
  rw [erase, hroot, hstored.holds.read, hends.result_eq]
  rfl

theorem erase_leaf {X : Tree κ υ 0} {family : Option (ℕ × List (Tree κ υ 0))}
    (h : T.WellFormed t codec st) (ht : 2 ≤ t) (hturns : top + 2 ≤ turns)
    (hends : EndsAt t codec st key T X family path before after
      (eraseWalk t codec st key turns (T.node t) 0 []))
    (herasable : Erasable t family X key) :
    OkUnless .streamFailed (erase t turns codec st key) (ErasedFrom t turns codec st key) := by
  have hX := hends.reaches.stored h.stored
  obtain ⟨l, x, r, hkeys, hlen, rfl⟩ :=
    route_split (hends.reaches.sorted h.tidy h.sorted) hends.key_mem
  have hindex : route X.keys x.1 < X.keys.length := by
    rw [← hlen, hkeys, List.length_append, List.length_cons]
    omega
  have herased : X.keys.eraseIdx (route X.keys x.1) = l ++ r := by
    rw [← hlen, hkeys, List.eraseIdx_append_of_length_le le_rfl]
    simp
  have hcontents : T.contents = (before ++ l) ++ x :: (r ++ after) := by
    have hall := hends.reaches.contents h.tidy
    rw [hall]
    show before ++ X.keys ++ after = _
    rw [hkeys]
    simp only [List.append_assoc, List.cons_append]
  have hleaf : checkIfLeaf t codec st (X.node t) (route X.keys x.1) = true :=
    checkIfLeaf_leaf h.count hX hindex
  rw [erase_at h.root h.stored hends, hleaf]
  refine (deleteKeyFromLeaf_rewrites hends.reaches h.stored h.tidy h.distinct h.count ht
    (herasable hends.key_mem) hindex).bind fun st' hnew => OkUnless.ok ?_
  rw [herased, List.append_assoc, List.append_assoc, ← List.append_assoc before] at hnew
  exact hnew.erasedFrom h hcontents hturns

/-- A key in an inner node whose place has the index of the last key of the last leaf before it. -/
theorem erase_inner {X : Tree κ υ (height + 1)} {family : Option (ℕ × List (Tree κ υ (height + 1)))}
    (h : T.WellFormed t codec st) (ht : 2 ≤ t) (hturns : top + 2 ≤ turns)
    (hends : EndsAt t codec st key T X family path before after
      (eraseWalk t codec st key turns (T.node t) 0 []))
    (herasable : Erasable t family X key) :
    OkUnless .streamFailed (erase t turns codec st key) (ErasedFrom t turns codec st key) := by
  have hX := hends.reaches.stored h.stored
  have hXtidy := hends.reaches.tidy h.tidy
  have hXsorted := hends.reaches.sorted h.tidy h.sorted
  have hseps : Sorted X.keys := hXsorted.sublist (keys_sublist hXtidy)
  obtain ⟨l, x, r, hkeys, hlen, rfl⟩ := route_split hseps hends.key_mem
  set index := route X.keys x.1
  have hindex : index < X.keys.length := by
    rw [← hlen, hkeys, List.length_append, List.length_cons]
    omega
  obtain ⟨c, hc⟩ : ∃ c, X.subtrees[index]? = some c :=
    ⟨_, List.getElem?_eq_getElem (by have hlen' := hXtidy.1; omega)⟩
  have hspare : LastSpare t (some (index, X.subtrees)) c index := by
    have hall := herasable c hc
    rw [if_pos hends.key_mem] at hall
    exact hall
  have hmem := List.mem_of_getElem? hc
  have hheight := hends.reaches.height_le
  obtain ⟨n, family', below, mid, hwalk, hnkeys, hnspare, hccontents, hreach⟩ :=
    rightmost_spec (hX.2 c hmem) (hXtidy.2 c hmem) hspare (show height + 1 ≤ turns by omega)
  obtain ⟨es, d, hes⟩ : ∃ es d, n.keys = es ++ [d] := by
    have hne : n.keys ≠ [] := List.ne_nil_of_length_pos (by omega)
    exact ⟨n.keys.dropLast, n.keys.getLast hne, (List.dropLast_concat_getLast hne).symm⟩
  have heslen : es.length = index := by
    rw [hes, List.length_append, List.length_singleton] at hnkeys
    omega
  have hset : X.keys.set index d = l ++ d :: r := by
    rw [hkeys, ← hlen]
    simp
  -- the call up to the write of the inner node
  have hpointer : get (X.node t).pointers index = .ok c.position := by
    have hat : (X.subtrees.map Cell.position)[index]? = some c.position := by
      rw [List.getElem?_map, hc]
      rfl
    have hpos : X.childPositions.getD index sizeMax = c.position := by
      rw [List.getD_eq_getElem?_getD]
      exact congrArg (fun o => Option.getD o sizeMax) hat
    rw [get_eq_ok, childPositions_getElem? hX hXtidy (Nat.lt_succ_of_lt (hindex.trans_le hX.keys_length_le)),
      hpos]
  have hread : diskRead t codec st c.position = c.node t := (hX.2 c hmem).holds.read
  have hlast : getBefore (n.node t).keys (n.node t).keys.length = .ok d := by
    show getBefore n.keys n.keys.length = .ok d
    rw [hnkeys]
    apply getBefore_eq_ok
    rw [hes, ← heslen]
    simp
  have hsetAt : setAt X.keys ((n.node t).keys.length - 1) d = .ok (X.keys.set index d) := by
    show setAt X.keys (n.keys.length - 1) d = _
    rw [hnkeys]
    exact setAt_eq_ok hindex
  have hcall : erase t turns codec st x.1 =
      (diskWrite t codec st { X.node t with keys := X.keys.set index d } >>= fun st =>
        deleteKeyFromLeaf t codec st index (n.node t) (below ++ (c.position, index) :: path) >>= fun st =>
          .ok (st, true)) := by
    rw [erase_at h.root h.stored hends, checkIfLeaf_inner hX hXtidy hindex]
    show (get (X.node t).pointers index >>= fun pointer => _) = _
    rw [hpointer]
    show (rightmost t codec st turns (diskRead t codec st c.position)
      (((diskRead t codec st c.position).positionInDisk, index) :: path) >>= fun found => _) = _
    rw [hread]
    show (rightmost t codec st turns (c.node t) ((c.position, index) :: path) >>= fun found => _) = _
    rw [hwalk]
    show (getBefore (n.node t).keys (n.node t).keys.length >>= fun newData => _) = _
    rw [hlast]
    show (setAt X.keys ((n.node t).keys.length - 1) d >>= fun keys => _) = _
    rw [hsetAt]
    show (diskWrite t codec st { X.node t with keys := X.keys.set index d } >>= fun st =>
      deleteKeyFromLeaf t codec st (n.keys.length - 1) _ _ >>= _) = _
    rw [hnkeys]
    rfl
  rw [hcall]
  refine diskWrite_okUnless.bind fun st₁ hw => ?_
  obtain ⟨hcount₁, hroot₁⟩ := diskWrite_count hw
  obtain ⟨T₁, family₁, hreach₁, hstored₁, htidy₁, hpos₁, hkeys₁, hpositions₁⟩ :=
    replace_pair hends.reaches h.stored h.tidy h.distinct hw
  have hleaf := hreach _ _ _ _ (hends.reaches.child hc)
  have hleaf₁ := hreach _ _ _ _ (hreach₁.child (show (_ : List (Tree κ υ height))[index]? = some c from hc))
  have hnindex : index < n.keys.length := by omega
  refine (deleteKeyFromLeaf_rewrites hleaf₁ hstored₁ htidy₁ (hpositions₁ ▸ h.distinct)
    (hcount₁.trans_le h.count) ht hnspare hnindex).bind fun st₂ hnew => OkUnless.ok ?_
  -- the pairs around the key, and the pairs that are left
  obtain ⟨c', cs, hcs⟩ : ∃ c' cs, X.subtrees.drop (index + 1) = c' :: cs := by
    refine List.exists_cons_of_ne_nil fun hnil => ?_
    have hlen' := hXtidy.1
    rw [List.drop_eq_nil_iff] at hnil
    omega
  have hdrop : X.keys.drop index = x :: r := by rw [hkeys, ← hlen, List.drop_left]
  have hdrop' : (X.keys.set index d).drop index = d :: r := by rw [hset, ← hlen, List.drop_left]
  have htake : X.keys.take index = l := by rw [hkeys, ← hlen, List.take_left]
  have htake' : (X.keys.set index d).take index = l := by rw [hset, ← hlen, List.take_left]
  have herased : n.keys.eraseIdx index = es := by
    rw [hes, ← heslen, List.eraseIdx_append_of_length_le le_rfl]
    simp
  have hcontents := hleaf.contents h.tidy
  rw [hdrop, hcs, htake, List.map_cons, interleaveAfter_cons] at hcontents
  change T.contents = _ ++ n.keys ++ _ at hcontents
  set middle := interleaveBefore ((X.subtrees.take index).map contents) l
  have hcontents' : T.contents = (before ++ middle ++ mid ++ es ++ [d]) ++
      x :: (c'.contents ++ interleaveAfter r (cs.map contents) ++ after) := by
    rw [hcontents, hes]
    simp only [List.append_assoc, List.cons_append, List.nil_append]
  have hnew' : Rewrites t codec st T ((before ++ middle ++ mid ++ es ++ [d]) ++
      (c'.contents ++ interleaveAfter r (cs.map contents) ++ after)) st₂ := by
    obtain ⟨⟨hcount₂, hroot₂⟩, T₂, hstored₂, htidy₂, hpos₂, hkeys₂, hdoubled⟩ := hnew
    refine ⟨⟨hcount₂.trans hcount₁, hroot₂.trans hroot₁⟩, T₂, hstored₂, htidy₂, hpos₂.trans hpos₁,
      fun hnil => hkeys₁ (hkeys₂ hnil), ?_⟩
    change Doubled (before ++ interleaveBefore ((X.subtrees.take index).map contents)
      ((X.keys.set index d).take index) ++ mid ++ n.keys.eraseIdx index ++
        (interleaveAfter ((X.keys.set index d).drop index) ((X.subtrees.drop (index + 1)).map contents) ++
          after)) T₂.contents at hdoubled
    rw [hdrop', hcs, htake', herased, List.map_cons, interleaveAfter_cons] at hdoubled
    simp only [List.append_assoc, List.cons_append, List.nil_append] at hdoubled ⊢
    exact hdoubled
  exact hnew'.erasedFrom h hcontents' hturns

end Place

theorem erase_absent (h : T.WellFormed t codec st) (hkey : key ∉ T.contents.map Prod.fst)
    (hwalk : eraseWalk t codec st key turns (T.node t) 0 [] = .ok none) (hturns : top + 2 ≤ turns) :
    OkUnless .streamFailed (erase t turns codec st key) (ErasedFrom t turns codec st key) := by
  have hcall : erase t turns codec st key = .ok (st, false) := by
    rw [erase, h.root, h.stored.holds.read, hwalk]
    rfl
  have hat : BTreeDisk.atKey t turns codec st key = .ok none := by
    rw [h.atKey hturns, lookup_eq_none.mpr hkey]
  rw [hcall]
  refine OkUnless.ok ⟨⟨fun hfalse => absurd hfalse Bool.false_ne_true, ?_⟩, hat, fun j _ => rfl⟩
  rintro ⟨v, hv⟩
  rw [hat] at hv
  cases hv

/-- `erase` of a key that is not there or that can be taken out. -/
theorem erase_erasable (h : T.WellFormed t codec st) (ht : 2 ≤ t) (hturns : top + 2 ≤ turns)
    (herasable : Erasable t none T key) :
    OkUnless .streamFailed (erase t turns codec st key) (ErasedFrom t turns codec st key) := by
  rcases eraseWalk_spec Reaches.root h.stored h.tidy h.sorted h.count hturns with
    ⟨hkey, -, hwalk⟩ | ⟨height, X, family, path, before, after, hends, hiff⟩
  · exact erase_absent h hkey hwalk hturns
  · rw [hiff] at herasable
    cases height with
    | zero => exact erase_leaf h ht hturns hends herasable
    | succ height => exact erase_inner h ht hturns hends herasable

end Call

end Tree

end MaiFaSp.BTreeDisk

/-!
## When `erase` does what its caller expects
-/

namespace MaiFaSp.BTreeDisk

open BoundedVector

namespace Tree

/-- With `t = 2`, the root `30` at position 0 above a leaf with the given keys and the leaf `40`. -/
def aboveTwo (es : List (Fin 256 × Fin 256)) : Tree (Fin 256) (Fin 256) 1 :=
  let left : Tree (Fin 256) (Fin 256) 0 := ⟨true, 1, es, []⟩
  let right : Tree (Fin 256) (Fin 256) 0 := ⟨true, 2, [(40, 140)], []⟩
  ⟨false, 0, [(30, 130)], [left, right]⟩

/-- The disk with this tree. -/
def diskAboveTwo (es : List (Fin 256 × Fin 256)) : DiskTree :=
  let st := { DiskTree.fresh with countOfNode := 3, positionRoot := 0 }
  let st := serialize 2 byteCodec st ⟨es.length, true, 1, es, []⟩ (slot 2 1)
  let st := serialize 2 byteCodec st ⟨1, true, 2, [(40, 140)], []⟩ (slot 2 2)
  serialize 2 byteCodec st ⟨1, false, 0, [(30, 130)], [1, 2]⟩ (slot 2 0)

theorem length_byteCodec (es : List (Fin 256 × Fin 256)) :
    (byteCodec.bytes es).length = 2 * es.length := by
  induction es with
  | nil => rfl
  | cons e es ih =>
    rw [byteCodec.bytes_cons, List.length_append, ih, List.length_cons]
    show 2 + 2 * es.length = _
    ring

theorem aboveTwo_wellFormed {es : List (Fin 256 × Fin 256)} (hne : es ≠ []) (hlen : es.length ≤ 3)
    (hs : Sorted (es ++ [(30, 130), (40, 140)])) :
    (aboveTwo es).WellFormed 2 byteCodec (diskAboveTwo es) := by
  have hpos := List.length_pos_of_ne_nil hne
  have hbytes := length_byteCodec es
  set st₀ : DiskTree := { DiskTree.fresh with countOfNode := 3, positionRoot := 0 }
  set st₁ := serialize 2 byteCodec st₀ ⟨es.length, true, 1, es, []⟩ (slot 2 1)
  set st₂ := serialize 2 byteCodec st₁ ⟨1, true, 2, [(40, 140)], []⟩ (slot 2 2)
  have hslot : slot 2 1 + recordSize 2 es.length ≤ streamLimit := by
    have hfixed : slot 2 1 + recordSize 2 0 ≤ 1000 := by decide
    unfold recordSize at hfixed ⊢
    unfold streamLimit
    omega
  have hlast₁ : st₁.lastPosition = 2 * es.length := by
    show 0 + (byteCodec.bytes es).length = _
    rw [hbytes, Nat.zero_add]
  have hlast₂ : st₂.lastPosition = 2 * es.length + 2 := by
    show st₁.lastPosition + 2 = _
    rw [hlast₁]
  have hw₁ : diskWrite 2 byteCodec st₀ ⟨es.length, true, 1, es, []⟩ = .ok st₁ := by
    refine diskWrite_eq_ok.mpr ⟨hslot, ?_, rfl⟩
    show 0 + (byteCodec.bytes es).length ≤ streamLimit
    unfold streamLimit
    omega
  have hw₂ : diskWrite 2 byteCodec st₁ ⟨1, true, 2, [(40, 140)], []⟩ = .ok st₂ := by
    refine diskWrite_eq_ok.mpr ⟨by decide, ?_, rfl⟩
    show st₁.lastPosition + 2 ≤ streamLimit
    unfold streamLimit
    omega
  have hw₃ : diskWrite 2 byteCodec st₂ ⟨1, false, 0, [(30, 130)], [1, 2]⟩ =
      .ok (diskAboveTwo es) := by
    refine diskWrite_eq_ok.mpr ⟨by decide, ?_, rfl⟩
    show st₂.lastPosition + 2 ≤ streamLimit
    unfold streamLimit
    omega
  obtain ⟨hown₁, -⟩ := diskWrite_node hw₁ (show 1 < 3 by decide) rfl (show es.length ≤ 3 from hlen)
    (fun p hp => absurd hp List.not_mem_nil)
  obtain ⟨hown₂, hkept₂⟩ := diskWrite_node hw₂ (show 2 < 3 by decide) rfl (show 1 ≤ 3 by decide)
    (fun p hp => absurd hp List.not_mem_nil)
  obtain ⟨hown₃, hkept₃⟩ := diskWrite_node hw₃ (show 0 < 3 by decide) rfl (show 1 ≤ 3 by decide)
    (by decide)
  refine ⟨rfl, ⟨hown₃, ?_⟩, ⟨rfl, fun _ _ => trivial⟩, ⟨⟨le_rfl, show 1 ≤ 3 by decide⟩, ?_⟩, ?_,
    ?_, show 3 ≤ sizeMax by decide⟩
  · intro c hc
    rcases List.mem_cons.mp hc with rfl | hc
    · exact hkept₃ 1 _ (by decide) (hkept₂ 1 _ (by decide) hown₁)
    · rw [List.mem_singleton.mp hc]
      exact hkept₃ 2 _ (by decide) hown₂
  · intro c hc
    rcases List.mem_cons.mp hc with rfl | hc
    · exact ⟨hpos, hlen⟩
    · rw [List.mem_singleton.mp hc]
      exact ⟨le_rfl, show 1 ≤ 3 by decide⟩
  · exact show [0, 1, 2].Nodup by decide
  · exact hs

end Tree

section

variable {κ υ : Type} [LinearOrder κ]

end

end MaiFaSp.BTreeDisk
