import MaiFaSp.BTreeDisk.Splits

/-!
# What an insert makes of a leaf, and of a root above leaves

The nodes and their pairs after a call of `insert`, whatever the order of the keys in the tree.
-/

namespace MaiFaSp.BTreeDisk

open BoundedVector

variable {κ υ : Type}

/-- The root is a leaf. -/
structure OneLeaf (t : ℕ) (codec : Codec κ υ) (st : DiskTree) (es : List (κ × υ)) : Prop where
  root : st.positionRoot = 0
  count : st.countOfNode = 1
  leaf : Holds t codec st 0 (leafNode t 0 es)
  nonempty : es ≠ []

/-- The root is at position 1 and its children are leaves, the last one in the last slot. -/
structure RootAbove (t : ℕ) (codec : Codec κ υ) (st : DiskTree) (seps : List (κ × υ))
    (cs : List ℕ) (parts : List (List (κ × υ))) : Prop where
  root : st.positionRoot = 1
  top : Holds t codec st 1 (innerNode t 1 seps cs)
  leaves : List.Forall₂ (fun c es => Holds t codec st c (leafNode t c es) ∧ es ≠ []) cs parts
  length : cs.length = seps.length + 1
  separators : seps ≠ []
  distinct : (1 :: cs).Nodup
  last : ∃ init, cs = init ++ [st.countOfNode - 1]

variable {t turns : ℕ} {codec : Codec κ υ} {st st' : DiskTree} {es seps : List (κ × υ)}
  {cs : List ℕ} {parts : List (List (κ × υ))} {d : κ × υ} {key : κ}

namespace OneLeaf

theorem read_root (h : OneLeaf t codec st es) :
    diskRead t codec st st.positionRoot = leafNode t 0 es := by
  rw [h.root]
  exact h.leaf.read

theorem count_le (h : OneLeaf t codec st es) : st.countOfNode ≤ sizeMax := by
  rw [h.count]
  exact h.leaf.valid

end OneLeaf

namespace RootAbove

theorem parts_length (h : RootAbove t codec st seps cs parts) :
    parts.length = seps.length + 1 := h.leaves.length_eq.symm.trans h.length

theorem leaf (h : RootAbove t codec st seps cs parts) {i : ℕ} (hi : i < cs.length)
    (hi' : i < parts.length) :
    Holds t codec st cs[i] (leafNode t cs[i] parts[i]) ∧ parts[i] ≠ [] := h.leaves.get hi hi'

theorem count_le (h : RootAbove t codec st seps cs parts) : st.countOfNode ≤ sizeMax := by
  obtain ⟨init, hcs⟩ := h.last
  have hi : init.length < cs.length := by
    rw [hcs, List.length_append, List.length_singleton]
    exact Nat.lt_succ_self _
  have hvalid := (h.leaf hi (h.leaves.length_eq ▸ hi)).1.valid
  have hlast : cs[init.length] = st.countOfNode - 1 := by
    simp only [hcs, List.getElem_append_right le_rfl, Nat.sub_self, List.getElem_cons_zero]
  omega

theorem read_root (h : RootAbove t codec st seps cs parts) :
    diskRead t codec st st.positionRoot = innerNode t 1 seps cs := by
  rw [h.root]
  exact h.top.read

end RootAbove

variable [LinearOrder κ]

/-- The leaf that takes the key has room, or it is the root, or the last child of a root that
has room. -/
def SplitsLast (t : ℕ) (codec : Codec κ υ) (st : DiskTree) (key : κ) : Prop :=
  let root := diskRead t codec st st.positionRoot
  let child := diskRead t codec st (root.pointers.getD (route root.keys key) sizeMax)
  child.positionInDisk = sizeMax ∨ child.keys.length < maximumKeysInNode t ∨
    route root.keys key = root.keys.length ∧ root.keys.length < maximumKeysInNode t

instance (t : ℕ) (codec : Codec κ υ) (st : DiskTree) (key : κ) :
    Decidable (SplitsLast t codec st key) :=
  inferInstanceAs (Decidable (_ ∨ _ ∨ _))

/-! ### The copy that the walk ends with -/

/-- The leaf's copy with the new pair. -/
def grownLeaf (t c : ℕ) (es : List (κ × υ)) (d : κ × υ) : Node κ υ :=
  ⟨(es.insertIdx (route es d.1) d).length, true, c, es.insertIdx (route es d.1) d,
    List.replicate (maximumPointersInNode t + 1) sizeMax⟩

theorem length_grown : (es.insertIdx (route es d.1) d).length = es.length + 1 :=
  List.length_insertIdx_of_le_length (route_le es d.1) d

theorem withPair_leaf {c : ℕ} (hfits : es.length ≤ maximumKeysInNode t) :
    withPair (leafNode t c es) (route es d.1) d = .ok (grownLeaf t c es d) := by
  have hi := route_le es d.1
  have hkeys : vectorInsert es (route es d.1) d = .ok (es.insertIdx (route es d.1) d) :=
    if_neg (by omega)
  have hpointers : vectorInsert (paddedPointers t []) (route es d.1) sizeMax =
      .ok (List.replicate (maximumPointersInNode t + 1) sizeMax) := by
    rw [paddedPointers_nil, vectorInsert, List.length_replicate,
      if_neg (by unfold maximumPointersInNode; omega),
      replicate_insertIdx (by unfold maximumPointersInNode; omega)]
    rfl
  show (vectorInsert es (route es d.1) d >>= fun keys =>
    vectorInsert (paddedPointers t []) (route es d.1) sizeMax >>= fun pointers => _) = _
  rw [hkeys]
  show (vectorInsert (paddedPointers t []) (route es d.1) sizeMax >>= fun pointers => _) = _
  rw [hpointers, grownLeaf, length_grown]
  rfl

theorem grown_cut (ht : 2 ≤ t) (hfull : es.length = maximumKeysInNode t) :
    ∃ l mid r, es.insertIdx (route es d.1) d = l ++ mid :: r ∧ l.length = t ∧
      r.length = t - 1 := by
  have hlen : (es.insertIdx (route es d.1) d).length = 2 * t := by
    rw [length_grown, hfull]
    unfold maximumKeysInNode
    omega
  set new := es.insertIdx (route es d.1) d
  refine ⟨new.take t, new[t], new.drop (t + 1), ?_, ?_, ?_⟩
  · rw [← List.drop_eq_getElem_cons, List.take_append_drop]
  · rw [List.length_take]
    omega
  · rw [List.length_drop]
    omega

/-- What the slot of an overfull leaf reads as, and the slots before it. -/
theorem diskWrite_grown {c : ℕ} (hpos : c < st.countOfNode)
    (hw : diskWrite t codec st (grownLeaf t c es d) = .ok st') :
    diskRead t codec st' c = leafNode t c (es.insertIdx (route es d.1) d) ∧
      ∀ p m, p < c → Holds t codec st p m → Holds t codec st' p m := by
  have hn : (grownLeaf t c es d).InRange :=
    inRange_of_write hw rfl fun p hp => mem_replicate_le hp
  constructor
  · have hback := diskRead_written hn hpos hw
    apply Node.ext
    · exact hback.size
    · exact hback.isLeaf
    · exact hback.position
    · exact hback.keys rfl
    · exact hback.pointers.trans (paddedPointers_replicate _)
  · intro p m hp h
    exact h.kept hp.ne (Or.inl (Or.inr hp)) hw

/-! ### One insert -/

theorem splitNode_leaf {c : ℕ} {l r : List (κ × υ)} {mid : κ × υ} {top : ℕ × ℕ}
    {path : List (ℕ × ℕ)} (ht : 2 ≤ t) (hl : l.length = t)
    (hread : diskRead t codec st top.1 = leafNode t c (l ++ mid :: r)) :
    splitNode t codec st (top :: path) =
      writeParts t codec
        (splitTarget st (diskRead t codec st ((path.head?.map Prod.fst).getD sizeMax)) mid.1).1
        (leafNode t c (l ++ mid :: r))
        (splitTarget st (diskRead t codec st ((path.head?.map Prod.fst).getD sizeMax)) mid.1).2.1
        (splitTarget st (diskRead t codec st ((path.head?.map Prod.fst).getD sizeMax)) mid.1).2.2
        mid := by
  have hget : get (l ++ mid :: r) (middleInd t) = .ok mid := by
    rw [get_eq_ok, middleInd_eq ht, ← hl, List.getElem?_append_right le_rfl]
    simp
  have hlen : ¬ (leafNode t c (l ++ mid :: r)).pointers.length < middleInd t + 1 := by
    show ¬ (paddedPointers t []).length < _
    rw [length_paddedPointers, middleInd_eq ht]
    unfold maximumPointersInNode maximumKeysInNode
    omega
  show (get (diskRead t codec st top.1).keys (middleInd t) >>= fun middle =>
    if (diskRead t codec st top.1).pointers.length < middleInd t + 1 then _ else
      writeParts t codec _ (diskRead t codec st top.1) _ _ middle) = _
  rw [hread]
  show (get (l ++ mid :: r) (middleInd t) >>= fun middle => _) = _
  rw [hget]
  exact if_neg hlen

theorem splitNode_root {c j : ℕ} {l r : List (κ × υ)} {mid : κ × υ} (ht : 2 ≤ t)
    (hl : l.length = t) (hread : diskRead t codec st c = leafNode t c (l ++ mid :: r))
    (hcount : st.countOfNode ≤ sizeMax) :
    splitNode t codec st [(c, j)] =
      writeParts t codec { st with countOfNode := st.countOfNode + 1, positionRoot := st.countOfNode }
        (leafNode t c (l ++ mid :: r)) ⟨0, false, st.countOfNode, [], []⟩ 0 mid := by
  have htarget : splitTarget st (diskRead t codec st sizeMax) mid.1 =
      ({ st with countOfNode := st.countOfNode + 1, positionRoot := st.countOfNode },
        ⟨0, false, st.countOfNode, [], []⟩, 0) := by
    rw [diskRead_sizeMax hcount]
    exact if_pos rfl
  have hsplit : splitNode t codec st [(c, j)] = _ := splitNode_leaf ht hl hread
  rw [show ((([] : List (ℕ × ℕ)).head?.map Prod.fst).getD sizeMax) = sizeMax from rfl,
    htarget] at hsplit
  exact hsplit

theorem splitNode_child {c j q j' : ℕ} {path : List (ℕ × ℕ)} {parent : Node κ υ}
    {l r : List (κ × υ)} {mid : κ × υ} (ht : 2 ≤ t) (hl : l.length = t)
    (hread : diskRead t codec st c = leafNode t c (l ++ mid :: r))
    (hparent : diskRead t codec st q = parent) (hvalid : parent.positionInDisk ≠ sizeMax) :
    splitNode t codec st ((c, j) :: (q, j') :: path) =
      writeParts t codec st (leafNode t c (l ++ mid :: r)) parent (route parent.keys mid.1) mid := by
  have htarget : splitTarget st (diskRead t codec st q) mid.1 =
      (st, parent, route parent.keys mid.1) := by
    rw [hparent]
    exact if_neg hvalid
  have hsplit : splitNode t codec st ((c, j) :: (q, j') :: path) = _ := splitNode_leaf ht hl hread
  rw [show ((((q, j') :: path).head?.map Prod.fst).getD sizeMax) = q from rfl, htarget] at hsplit
  exact hsplit

theorem insert_at_leaf {c : ℕ} {path : List (ℕ × ℕ)}
    (hroot : (diskRead t codec st st.positionRoot).positionInDisk ≠ sizeMax)
    (hwalk : insertWalk t codec st d.1 turns (diskRead t codec st st.positionRoot)
      ⟨diskRead t codec st st.positionRoot, 0, []⟩ =
        .ok (some ⟨leafNode t c es, route es d.1, path⟩))
    (hfits : es.length ≤ maximumKeysInNode t) :
    insert t turns codec st d = diskWrite t codec st (grownLeaf t c es d) >>= fun st =>
      if es.length = maximumKeysInNode t then
        splitNode t codec st path >>= fun st => .ok (st, true)
      else .ok (st, true) := by
  rw [insert]
  show (if _ then _ else _) = _
  rw [if_neg hroot, hwalk]
  show (withPair (leafNode t c es) (route es d.1) d >>= fun prev => _) = _
  rw [withPair_leaf hfits]
  rfl

/-! ### From a leaf -/

theorem insert_fresh_leaf (ht : 2 ≤ t) :
    OkUnless .streamFailed (insert t turns codec DiskTree.fresh d)
      fun result => OneLeaf t codec result.1 [d] := by
  have hroot : (diskRead t codec DiskTree.fresh DiskTree.fresh.positionRoot).positionInDisk =
      sizeMax := rfl
  rw [insert]
  show OkUnless _ (if _ then _ else _) _
  rw [if_pos hroot]
  refine diskWrite_okUnless.bind fun st hw => OkUnless.ok ?_
  obtain ⟨hcount, hposition⟩ := diskWrite_count hw
  have hw' : diskWrite t codec { DiskTree.fresh with countOfNode := 1, positionRoot := 0 }
      ⟨[d].length, true, 0, [d], List.replicate 1 sizeMax⟩ = .ok st := hw
  obtain ⟨hleaf, -⟩ := diskWrite_leaf hw' Nat.one_pos
    (by unfold maximumKeysInNode; rw [List.length_singleton]; omega)
  exact ⟨hposition, hcount, hleaf, List.cons_ne_nil d []⟩

namespace OneLeaf

theorem insert (h : OneLeaf t codec st es) (hkey : es.head?.map Prod.fst ≠ some d.1) (ht : 2 ≤ t)
    (hturns : 2 ≤ turns) : OkUnless .streamFailed (insert t turns codec st d) fun result =>
      OneLeaf t codec result.1 (es.insertIdx (route es d.1) d) ∨
      ∃ l mid r, es.insertIdx (route es d.1) d = l ++ mid :: r ∧ r.length = t - 1 ∧
        RootAbove t codec result.1 [mid] [2, 3] [l, r] := by
  obtain ⟨turns, rfl⟩ := Nat.exists_eq_add_of_le' hturns
  have hread := h.read_root
  have hfits : es.length ≤ maximumKeysInNode t := h.leaf.size_le
  have hvalid : (0 : ℕ) ≠ sizeMax := h.leaf.valid.ne
  have hwalk : insertWalk t codec st d.1 (turns + 2) (diskRead t codec st st.positionRoot)
      ⟨diskRead t codec st st.positionRoot, 0, []⟩ =
        .ok (some ⟨leafNode t 0 es, route es d.1, [(0, route es d.1 - 1)]⟩) := by
    rw [hread]
    exact insertWalk_leaf h.count_le hvalid h.nonempty hfits hkey
  have hroot : (diskRead t codec st st.positionRoot).positionInDisk ≠ sizeMax := by
    rw [hread]
    exact hvalid
  rw [insert_at_leaf hroot hwalk hfits]
  refine diskWrite_okUnless.bind fun st₁ hw => ?_
  obtain ⟨hcount₁, hroot₁⟩ := diskWrite_count hw
  by_cases hfull : es.length = maximumKeysInNode t
  · rw [if_pos hfull]
    obtain ⟨l, mid, r, hcut, hl, hr⟩ := grown_cut (d := d) ht hfull
    obtain ⟨hover, -⟩ := diskWrite_grown (h.count ▸ Nat.one_pos) hw
    rw [hcut] at hover
    have hone : st₁.countOfNode = 1 := hcount₁.trans h.count
    rw [splitNode_root ht hl hover (hcount₁ ▸ h.count_le), hone]
    have hadopt : adoptParts (⟨0, false, 1, [], []⟩ : Node κ υ) 0 mid 2 3 =
        .ok ⟨[mid].length, false, 1, [mid], [2, 3] ++ List.replicate 0 sizeMax⟩ :=
      adoptParts_root 2 3
    refine (writeParts_leaf ht hl hr (Nat.lt_succ_self 1) hadopt ?_ ?_ ?_).bind
      fun st₂ hparts => OkUnless.ok (Or.inr ⟨l, mid, r, hcut, hr, ?_⟩)
    · intro a ha
      simp only [List.mem_cons, List.not_mem_nil, or_false] at ha
      rcases ha with rfl | rfl
      · exact Or.inl rfl
      · exact Or.inr (Or.inl rfl)
    · unfold maximumKeysInNode
      rw [List.length_singleton]
      omega
    · unfold maximumPointersInNode maximumKeysInNode
      simp only [List.length_cons, List.length_nil]
      omega
    · obtain ⟨⟨hcount₂, hroot₂⟩, hleft, hright, htop, -⟩ := hparts
      refine ⟨hroot₂, htop, ?_, rfl, List.cons_ne_nil _ _, by decide, ⟨[2], ?_⟩⟩
      · refine List.Forall₂.cons ⟨hleft, ?_⟩ (List.Forall₂.cons ⟨hright, ?_⟩ List.Forall₂.nil)
        · exact List.ne_nil_of_length_pos (by omega)
        · exact List.ne_nil_of_length_pos (by omega)
      · rw [hcount₂]
        rfl
  · rw [if_neg hfull]
    have hlt : es.length < maximumKeysInNode t := lt_of_le_of_ne hfits hfull
    obtain ⟨hleaf, -⟩ := diskWrite_leaf hw (h.count ▸ Nat.one_pos) (by rw [length_grown]; omega)
    refine OkUnless.ok (Or.inl ⟨hroot₁.trans h.root, hcount₁.trans h.count, hleaf, ?_⟩)
    exact List.ne_nil_of_length_pos (by rw [length_grown]; omega)

end OneLeaf

/-! ### From a root above leaves -/

namespace RootAbove

theorem route_lt (h : RootAbove t codec st seps cs parts) (key : κ) :
    route seps key < cs.length ∧ route seps key < parts.length := by
  have hle := route_le seps key
  have hlen := h.length
  have hparts := h.parts_length
  omega

theorem next (h : RootAbove t codec st seps cs parts) (hi : route seps key < cs.length) :
    (innerNode t 1 seps cs).pointers[route seps key]? = some cs[route seps key] :=
  paddedPointers_child h.length h.top.size_le hi

/-- The walk of `insert` through the root into a leaf. -/
theorem walk (h : RootAbove t codec st seps cs parts) (hi : route seps key < cs.length)
    (hi' : route seps key < parts.length) (hfirst : seps.head?.map Prod.fst ≠ some key)
    (hleaf : parts[route seps key].head?.map Prod.fst ≠ some key) :
    insertWalk t codec st key (turns + 3) (innerNode t 1 seps cs) ⟨innerNode t 1 seps cs, 0, []⟩ =
      .ok (some ⟨leafNode t cs[route seps key] parts[route seps key],
        route parts[route seps key] key,
        [(cs[route seps key], route parts[route seps key] key - 1), (1, route seps key - 1)]⟩) := by
  obtain ⟨hholds, hne⟩ := h.leaf hi hi'
  have hvalid : (innerNode t 1 seps cs).positionInDisk ≠ sizeMax := h.top.valid.ne
  rw [insertWalk_next hvalid h.separators hfirst (h.next hi), hholds.read]
  exact insertWalk_leaf h.count_le hholds.valid.ne hne hholds.size_le hleaf

omit [LinearOrder κ] in
theorem leaves_set (h : RootAbove t codec st seps cs parts) {i : ℕ} {new : List (κ × υ)}
    (hi : i < cs.length)
    (hnew : Holds t codec st' cs[i] (leafNode t cs[i] new)) (hne : new ≠ [])
    (hother : ∀ p m, p ≠ cs[i] → Holds t codec st p m → Holds t codec st' p m) :
    List.Forall₂ (fun c es => Holds t codec st' c (leafNode t c es) ∧ es ≠ []) cs
      (parts.set i new) := by
  rw [List.forall₂_iff_get]
  refine ⟨by rw [List.length_set, h.leaves.length_eq], fun j hj hj' => ?_⟩
  rw [List.length_set] at hj'
  show Holds t codec st' cs[j] (leafNode t cs[j] (parts.set i new)[j]) ∧ (parts.set i new)[j] ≠ []
  by_cases heq : i = j
  · subst heq
    rw [List.getElem_set_self]
    exact ⟨hnew, hne⟩
  · rw [List.getElem_set_ne heq]
    obtain ⟨hold, hold'⟩ := h.leaf hj hj'
    refine ⟨hother _ _ ?_ hold, hold'⟩
    intro hc
    exact heq ((List.nodup_cons.mp h.distinct).2.getElem_inj_iff.mp hc.symm)

theorem room (h : RootAbove t codec st seps cs parts) {i : ℕ} (hi : i < cs.length)
    (hi' : i < parts.length) (hroom : parts[i].length < maximumKeysInNode t)
    (hw : diskWrite t codec st (grownLeaf t cs[i] parts[i] d) = .ok st') :
    RootAbove t codec st' seps cs
      (parts.set i (parts[i].insertIdx (route parts[i] d.1) d)) := by
  obtain ⟨hleaf, -⟩ := h.leaf hi hi'
  obtain ⟨hcount, hroot⟩ := diskWrite_count hw
  obtain ⟨hown, hother⟩ := diskWrite_leaf hw hleaf.allocated (by rw [length_grown]; omega)
  have hne : (1 : ℕ) ≠ cs[i] := by
    intro heq
    exact (List.nodup_cons.mp h.distinct).1 (heq ▸ List.getElem_mem hi)
  refine ⟨hroot.trans h.root, hother _ _ hne h.top, h.leaves_set hi hown ?_ hother, h.length,
    h.separators, h.distinct, hcount ▸ h.last⟩
  exact List.ne_nil_of_length_pos (by rw [length_grown]; omega)

end RootAbove

/-- The last child and the children before it. -/
structure LastChild (t : ℕ) (codec : Codec κ υ) (st : DiskTree) (seps : List (κ × υ))
    (init : List ℕ) (c : ℕ) (pinit : List (List (κ × υ))) (es : List (κ × υ)) : Prop where
  tree : RootAbove t codec st seps (init ++ [c]) (pinit ++ [es])
  count : st.countOfNode = c + 1
  root : 1 < c
  init_length : init.length = seps.length
  pinit_length : pinit.length = seps.length
  before : ∀ a ∈ init, a < c

omit [LinearOrder κ] in
theorem RootAbove.lastChild (h : RootAbove t codec st seps cs parts) :
    ∃ init c pinit es, cs = init ++ [c] ∧ parts = pinit ++ [es] ∧
      LastChild t codec st seps init c pinit es := by
  obtain ⟨init, hcs⟩ := h.last
  have hlen := h.length
  have hplen := h.parts_length
  obtain ⟨pinit, es, hparts⟩ := (List.eq_nil_or_concat' parts).resolve_left
    (List.ne_nil_of_length_pos (by omega))
  subst hcs
  subst hparts
  rw [List.length_append, List.length_singleton] at hlen hplen
  have hdistinct := h.distinct
  rw [List.nodup_cons, List.nodup_append] at hdistinct
  have hcount := h.top.allocated
  have hne : (1 : ℕ) ≠ st.countOfNode - 1 := by
    intro heq
    exact hdistinct.1 (List.mem_append_right _ (heq ▸ List.mem_singleton_self _))
  refine ⟨init, st.countOfNode - 1, pinit, es, rfl, rfl, h, by omega, by omega, by omega, by omega,
    fun a ha => ?_⟩
  obtain ⟨k, hk, rfl⟩ := List.mem_iff_getElem.mp ha
  have hk' : k < (init ++ [st.countOfNode - 1]).length := by
    rw [List.length_append]
    omega
  have hlt := (h.leaf hk' (h.leaves.length_eq ▸ hk')).1.allocated
  rw [List.getElem_append_left hk] at hlt
  have hne' := hdistinct.2.2.2 _ ha (st.countOfNode - 1) (List.mem_singleton_self _)
  omega

/-- The parts of the last leaf under a root that has room, when the middle key is behind all keys
of the root. -/
theorem LastChild.split {init : List ℕ} {pinit : List (List (κ × υ))} {c j j' : ℕ}
    {l r : List (κ × υ)} {mid : κ × υ} (h : LastChild t codec st seps init c pinit es) (ht : 2 ≤ t)
    (hroom : seps.length < maximumKeysInNode t)
    (hcut : es.insertIdx (route es d.1) d = l ++ mid :: r) (hl : l.length = t)
    (hr : r.length = t - 1) (hmid : ∀ k ∈ seps, k.1 < mid.1)
    (hw : diskWrite t codec st (grownLeaf t c es d) = .ok st') :
    OkUnless .streamFailed (splitNode t codec st' [(c, j), (1, j')])
      fun st'' => ∃ cs, RootAbove t codec st'' (seps ++ [mid]) cs (pinit ++ [l, r]) := by
  obtain ⟨hcount, hroot⟩ := diskWrite_count hw
  have hcount' : st'.countOfNode = c + 1 := hcount.trans h.count
  obtain ⟨hover, hbefore⟩ := diskWrite_grown (h.count ▸ Nat.lt_succ_self c) hw
  rw [hcut] at hover
  have hmiddle : route (innerNode t 1 seps (init ++ [c])).keys mid.1 = seps.length := by
    have hall : ∀ k ∈ seps.map Prod.fst, k < mid.1 := by
      intro k hk
      obtain ⟨e, he, rfl⟩ := List.mem_map.mp hk
      exact hmid e he
    exact (lowerIndex_eq_length hall).trans (List.length_map _)
  have htop := hbefore 1 _ h.root h.tree.top
  obtain ⟨k, hadopt⟩ := adoptParts_last (p := 1) (c := c) mid (c + 1) (c + 1 + 1) h.init_length hroom
  rw [splitNode_child ht hl hover htop.read htop.valid.ne, hmiddle]
  rw [← hcount'] at hadopt
  refine (writeParts_leaf ht hl hr htop.allocated hadopt ?_ ?_ ?_).mono fun st'' hparts => ?_
  · intro a ha
    rcases List.mem_append.mp ha with ha | ha
    · have hlt := h.before a ha
      have hvalid := position_lt_sizeMax (diskWrite_eq_ok.mp hw).1
      exact Or.inr (Or.inr (hlt.trans hvalid))
    · simp only [List.mem_cons, List.not_mem_nil, or_false] at ha
      rcases ha with rfl | rfl
      · exact Or.inl rfl
      · exact Or.inr (Or.inl rfl)
  · rw [List.length_append, List.length_singleton]
    exact hroom
  · rw [List.length_append, h.init_length]
    exact Nat.succ_le_succ hroom
  · obtain ⟨⟨hcount₂, hroot₂⟩, hleft, hright, htop₂, hother⟩ := hparts
    have hdistinct := h.tree.distinct
    rw [List.nodup_cons, List.nodup_append] at hdistinct
    have hinit : List.Forall₂ (fun a es => Holds t codec st'' a (leafNode t a es) ∧ es ≠ [])
        init pinit := by
      rw [List.forall₂_iff_get]
      refine ⟨h.init_length.trans h.pinit_length.symm, fun k hk hk' => ?_⟩
      have hold := h.tree.leaf (i := k) (by rw [List.length_append]; omega)
        (by rw [List.length_append]; omega)
      rw [List.getElem_append_left hk, List.getElem_append_left hk'] at hold
      have hmem' : init[k] ∈ init := List.getElem_mem hk
      refine ⟨hother _ _ ?_ (hbefore _ _ (h.before _ hmem') hold.1), hold.2⟩
      intro heq
      exact hdistinct.1 (List.mem_append_left _ (heq ▸ hmem'))
    refine ⟨init ++ [st'.countOfNode, st'.countOfNode + 1], hroot₂.trans (hroot.trans h.tree.root),
      htop₂, List.rel_append hinit ?_, ?_, by simp, ?_, ⟨init ++ [st'.countOfNode], ?_⟩⟩
    · refine List.Forall₂.cons ⟨hleft, ?_⟩ (List.Forall₂.cons ⟨hright, ?_⟩ List.Forall₂.nil)
      · exact List.ne_nil_of_length_pos (by omega)
      · exact List.ne_nil_of_length_pos (by omega)
    · rw [List.length_append, List.length_append, h.init_length]
      rfl
    · have hroot' := h.root
      rw [List.nodup_cons, List.nodup_append]
      refine ⟨?_, hdistinct.2.1, by simp, ?_⟩
      · intro hone
        rcases List.mem_append.mp hone with hone | hone
        · exact hdistinct.1 (List.mem_append_left _ hone)
        · simp only [List.mem_cons, List.not_mem_nil, or_false] at hone
          omega
      · intro a ha b hb
        have hlt := h.before a ha
        simp only [List.mem_cons, List.not_mem_nil, or_false] at hb
        omega
    · rw [hcount₂]
      simp

/-- One more pair in one of the leaves, or the last leaf in two parts. -/
theorem RootAbove.insert (h : RootAbove t codec st seps cs parts)
    (hfirst : seps.head?.map Prod.fst ≠ some d.1)
    (hleaf : ∀ part ∈ parts[route seps d.1]?, part.head?.map Prod.fst ≠ some d.1)
    (hfit : SplitsLast t codec st d.1) (ht : 2 ≤ t) (hturns : 3 ≤ turns)
    (hmid : ∀ es l mid r, parts[seps.length]? = some es → es.insertIdx (route es d.1) d = l ++ mid :: r →
      route seps d.1 = seps.length → l.length = t → ∀ k ∈ seps, k.1 < mid.1) :
    OkUnless .streamFailed (insert t turns codec st d) fun result =>
      (∃ part, parts[route seps d.1]? = some part ∧ RootAbove t codec result.1 seps cs
        (parts.set (route seps d.1) (part.insertIdx (route part d.1) d))) ∨
      ∃ pinit es l mid r cs', parts = pinit ++ [es] ∧ route seps d.1 = seps.length ∧
        es.insertIdx (route es d.1) d = l ++ mid :: r ∧ l.length = t ∧ r.length = t - 1 ∧
          RootAbove t codec result.1 (seps ++ [mid]) cs' (pinit ++ [l, r]) := by
  obtain ⟨turns, rfl⟩ := Nat.exists_eq_add_of_le' hturns
  obtain ⟨hi, hi'⟩ := h.route_lt d.1
  obtain ⟨hholds, -⟩ := h.leaf hi hi'
  have hpart : parts[route seps d.1]? = some parts[route seps d.1] := List.getElem?_eq_getElem hi'
  have hroot : (diskRead t codec st st.positionRoot).positionInDisk ≠ sizeMax := by
    rw [h.read_root]
    exact h.top.valid.ne
  have hwalk : insertWalk t codec st d.1 (turns + 3) (innerNode t 1 seps cs)
      ⟨innerNode t 1 seps cs, 0, []⟩ = _ := h.walk hi hi' hfirst (hleaf _ hpart)
  rw [← h.read_root] at hwalk
  rw [insert_at_leaf hroot hwalk hholds.size_le]
  refine diskWrite_okUnless.bind fun st' hw => ?_
  by_cases hfull : parts[route seps d.1].length = maximumKeysInNode t
  · rw [if_pos hfull]
    have hchild : (innerNode t 1 seps cs).pointers.getD (route seps d.1) sizeMax =
        cs[route seps d.1] := by
      rw [List.getD_eq_getElem?_getD, h.next hi]
      rfl
    have hsplit : route seps d.1 = seps.length ∧ seps.length < maximumKeysInNode t := by
      unfold SplitsLast at hfit
      rw [h.read_root] at hfit
      change (diskRead t codec st ((innerNode t 1 seps cs).pointers.getD (route seps d.1) sizeMax)).positionInDisk
        = sizeMax ∨ _ at hfit
      rw [show route (innerNode t 1 seps cs).keys d.1 = route seps d.1 from rfl, hchild,
        hholds.read] at hfit
      rcases hfit with hnull | hroom | hlast
      · exact absurd hnull hholds.valid.ne
      · exact absurd hroom hfull.not_lt
      · exact hlast
    obtain ⟨init, c, pinit, es, rfl, rfl, hlast⟩ := h.lastChild
    have hc : (init ++ [c])[route seps d.1] = c := by
      simp only [hsplit.1, ← hlast.init_length, List.getElem_append_right le_rfl, Nat.sub_self,
        List.getElem_cons_zero]
    have hes : (pinit ++ [es])[route seps d.1] = es := by
      simp only [hsplit.1, ← hlast.pinit_length, List.getElem_append_right le_rfl, Nat.sub_self,
        List.getElem_cons_zero]
    rw [hc, hes] at hw
    rw [hes] at hfull hpart
    rw [hc]
    obtain ⟨l, mid, r, hcut, hl, hr⟩ := grown_cut (d := d) ht hfull
    have hbehind := hmid es l mid r (hsplit.1 ▸ hpart) hcut hsplit.1 hl
    refine (hlast.split ht hsplit.2 hcut hl hr hbehind hw).bind fun st'' hnew => OkUnless.ok ?_
    obtain ⟨cs', hcs'⟩ := hnew
    exact Or.inr ⟨pinit, es, l, mid, r, cs', rfl, hsplit.1, hcut, hl, hr, hcs'⟩
  · rw [if_neg hfull]
    have hroom : parts[route seps d.1].length < maximumKeysInNode t :=
      lt_of_le_of_ne hholds.size_le hfull
    exact OkUnless.ok (Or.inl ⟨_, hpart, h.room hi hi' hroom hw⟩)

end MaiFaSp.BTreeDisk
