import MaiFaSp.BTreeDisk.EraseTree

/-!
# Whether `at`, `update` and `insert` find the same keys

`at` compares the key with the one at the place where the search in the node stops,
`update` and `insert` with the one at the trailing index `prev_i`
(`b_tree_disk.hpp:492-582`), which is the key only where it is the first of its node.
-/

namespace MaiFaSp.BTreeDisk

open BoundedVector

variable {κ υ : Type} [LinearOrder κ]

/-- `update` returns true and `insert` returns false for a key that `at` finds, and only then;
that `insert` changes nothing, and `update` the value of the key. -/
structure PresenceAgrees (t turns : ℕ) (codec : Codec κ υ) (st : DiskTree) (key : κ) (v : υ) :
    Prop where
  update_iff : OkUnless .streamFailed (update t turns codec st (key, v)) (fun r => r.2 = true) ↔
    ∃ w, atKey t turns codec st key = .ok (some w)
  insert_iff : (∃ st', insert t turns codec st (key, v) = .ok (st', false)) ↔
    ∃ w, atKey t turns codec st key = .ok (some w)
  insert_keeps : ∀ st', insert t turns codec st (key, v) = .ok (st', false) →
    ∀ j, atKey t turns codec st' j = atKey t turns codec st j
  update_sets : ∀ st', update t turns codec st (key, v) = .ok (st', true) →
    atKey t turns codec st' key = .ok (some v) ∧
      ∀ j ≠ key, atKey t turns codec st' j = atKey t turns codec st j

variable {t turns : ℕ} {codec : Codec κ υ} {st st' : DiskTree} {key : κ} {v : υ}

/-! ### The walk of `update` -/

theorem updateWalk_null {n : Node κ υ} (h : n.positionInDisk = sizeMax) :
    updateWalk t codec st (key, v) (turns + 1) n = .ok (st, false) := if_pos h

theorem updateWalk_found {n : Node κ υ} (hpos : n.positionInDisk ≠ sizeMax)
    (hkey : n.keys.head?.map Prod.fst = some key) :
    updateWalk t codec st (key, v) (turns + 1) n =
      diskWrite t codec st { n with keys := n.keys.set 0 (key, v) } >>= fun st => .ok (st, true) := by
  obtain ⟨x, hx, rfl⟩ := Option.map_eq_some_iff.mp hkey
  obtain ⟨rest, hkeys⟩ := List.head?_eq_some_iff.mp hx
  have hroute : route n.keys x.1 = 0 := by
    refine lowerIndex_eq_zero fun k hk => ?_
    rw [List.head?_map, hx] at hk
    cases hk
    exact lt_irrefl _
  have hget : get n.keys (route n.keys x.1 - 1) = .ok x := by
    rw [get_eq_ok, hroute, hkeys]
    rfl
  have hset : setAt n.keys (route n.keys x.1 - 1) (x.1, v) = .ok (n.keys.set 0 (x.1, v)) := by
    rw [hroute]
    exact setAt_eq_ok (by rw [hkeys]; exact Nat.succ_pos _)
  rw [updateWalk, if_neg hpos]
  show (get n.keys (route n.keys x.1 - 1) >>= fun curKey => if curKey.1 = x.1 then
    setAt n.keys (route n.keys x.1 - 1) (curKey.1, v) >>= fun keys => _ else _) = _
  rw [hget]
  show (if x.1 = x.1 then setAt n.keys (route n.keys x.1 - 1) (x.1, v) >>= fun keys => _ else _) = _
  rw [if_pos rfl, hset]
  rfl

/-- One turn of the walk of `update`. -/
theorem updateWalk_next {n : Node κ υ} {next : ℕ} (hpos : n.positionInDisk ≠ sizeMax)
    (hne : n.keys ≠ []) (hkey : n.keys.head?.map Prod.fst ≠ some key)
    (hnext : n.pointers[route n.keys key]? = some next) :
    updateWalk t codec st (key, v) (turns + 1) n =
      updateWalk t codec st (key, v) turns (diskRead t codec st next) := by
  obtain ⟨x, hx, hiff⟩ := trailing_key key hne
  have hroute : lowerIndex n.keyList key = route n.keys key := rfl
  rw [updateWalk, if_neg hpos]
  dsimp only
  rw [hroute, get_eq_ok.mpr hx, hnext]
  exact if_neg fun heq => hkey (hiff.mp heq)

/-! ### Both walks in a tree -/

namespace Tree

variable {top height : ℕ} {T : Tree κ υ top} {S : Tree κ υ height}
  {family : Option (ℕ × List (Tree κ υ height))} {path : List (ℕ × ℕ)}
  {before after : List (κ × υ)}

/-- The key is the first of the node in which the search finds it, or it is not found. -/
def FirstWhereFound : {height : ℕ} → Tree κ υ height → κ → Prop
  | 0, S, key => key ∈ S.keys.map Prod.fst → S.keys.head?.map Prod.fst = some key
  | _ + 1, S, key => ∀ c ∈ S.subtrees[route S.keys key]?,
      if key ∈ S.keys.map Prod.fst then S.keys.head?.map Prod.fst = some key
      else FirstWhereFound c key

instance decidableFirstWhereFound : {height : ℕ} → (S : Tree κ υ height) → (key : κ) →
    Decidable (FirstWhereFound S key)
  | 0, S, key =>
    inferInstanceAs (Decidable (key ∈ S.keys.map Prod.fst → S.keys.head?.map Prod.fst = some key))
  | height + 1, S, key =>
    have : ∀ c : Tree κ υ height, Decidable (FirstWhereFound c key) :=
      fun c => decidableFirstWhereFound c key
    inferInstanceAs (Decidable (∀ c ∈ S.subtrees[route S.keys key]?,
      if key ∈ S.keys.map Prod.fst then S.keys.head?.map Prod.fst = some key
      else FirstWhereFound c key))

omit [LinearOrder κ] in
theorem mem_of_first (h : S.keys.head?.map Prod.fst = some key) : key ∈ S.keys.map Prod.fst := by
  obtain ⟨e, he, rfl⟩ := Option.map_eq_some_iff.mp h
  exact List.mem_map_of_mem (List.mem_of_head? he)

section Children

variable {P : Tree κ υ (height + 1)} {c : Tree κ υ height}

theorem not_mem_child_of_key (htidy : P.Tidy) (hs : Sorted P.contents)
    (hkey : key ∈ P.keys.map Prod.fst) (hc : P.subtrees[route P.keys key]? = some c) :
    key ∉ c.contents.map Prod.fst := by
  obtain ⟨l, x, r, hkeys, hlen, rfl⟩ := route_split (hs.sublist (keys_sublist htidy)) hkey
  have hsplit := contents_child htidy hc
  have hdrop : P.keys.drop (route P.keys x.1) = x :: r := by
    rw [← hlen]
    nth_rewrite 1 [hkeys]
    exact List.drop_left
  obtain ⟨d, ds, hds⟩ : ∃ d ds, P.subtrees.drop (route P.keys x.1 + 1) = d :: ds := by
    refine List.exists_cons_of_ne_nil fun hnil => ?_
    have hwhole := htidy.1
    rw [List.drop_eq_nil_iff, ← hlen, hwhole, hkeys, List.length_append, List.length_cons] at hnil
    omega
  rw [hdrop, hds, List.map_cons, interleaveAfter_cons] at hsplit
  rw [hsplit] at hs
  intro hm
  obtain ⟨y, hy, heq⟩ := List.mem_map.mp hm
  exact ((sorted_append.mp hs).2.2 y (List.mem_append_right _ hy) x List.mem_cons_self).ne heq

theorem walks_turn (turns : ℕ) (hstored : P.Stored t codec st) (htidy : P.Tidy) (hne : P.keys ≠ [])
    (hfirst : P.keys.head?.map Prod.fst ≠ some key)
    (hc : P.subtrees[route P.keys key]? = some c) :
    updateWalk t codec st (key, v) (turns + 1) (P.node t) =
      updateWalk t codec st (key, v) turns (c.node t) ∧
    ∀ p, insertWalk t codec st key (turns + 1) (P.node t) p =
      insertWalk t codec st key turns (c.node t)
        ⟨P.node t, route P.keys key, (P.position, route P.keys key - 1) :: p.path⟩ := by
  obtain ⟨hi, hci⟩ := List.getElem?_eq_some_iff.mp hc
  have hpos : (P.node t).positionInDisk ≠ sizeMax := hstored.holds.valid.ne
  have hi' : route P.keys key < (P.subtrees.map Cell.position).length := by
    rw [List.length_map]
    exact hi
  have hnext : (P.node t).pointers[route P.keys key]? = some c.position := by
    have hat : (P.node t).pointers[route P.keys key]? = some _ :=
      paddedPointers_child ((List.length_map _).trans htidy.1) hstored.keys_length_le hi'
    rwa [List.getElem_map, hci] at hat
  have hread := (hstored.2 c (List.mem_of_getElem? hc)).holds.read
  constructor
  · rw [updateWalk_next hpos hne hfirst hnext, hread]
  · intro p
    rw [insertWalk_next hpos hne hfirst hnext, hread]
    rfl

end Children

/-- The walks end at a node whose first key is the key. -/
structure StopsAt (t turns : ℕ) (codec : Codec κ υ) (st : DiskTree) (T : Tree κ υ top)
    (S : Tree κ υ height) (key : κ) (v : υ) {height' : ℕ} (X : Tree κ υ height')
    (family : Option (ℕ × List (Tree κ υ height'))) (path : List (ℕ × ℕ))
    (before after : List (κ × υ)) : Prop where
  reaches : Reaches T X family path before after
  first : X.keys.head?.map Prod.fst = some key
  update_eq : updateWalk t codec st (key, v) turns (S.node t) =
    diskWrite t codec st { X.node t with keys := X.keys.set 0 (key, v) } >>= fun st => .ok (st, true)
  insert_eq : ∀ p, insertWalk t codec st key turns (S.node t) p = .ok none

/-- The walks end below a leaf. -/
structure PassesBy (t turns : ℕ) (codec : Codec κ υ) (st : DiskTree) (S : Tree κ υ height)
    (key : κ) (v : υ) : Prop where
  update_eq : updateWalk t codec st (key, v) turns (S.node t) = .ok (st, false)
  insert_eq : ∀ p, ∃ q, insertWalk t codec st key turns (S.node t) p = .ok (some q)

theorem stopsAt_first (h : Reaches T S family path before after) (hstored : S.Stored t codec st)
    (hfirst : S.keys.head?.map Prod.fst = some key) :
    StopsAt t (turns + 1) codec st T S key v S family path before after := by
  have hpos : (S.node t).positionInDisk ≠ sizeMax := hstored.holds.valid.ne
  exact ⟨h, hfirst, updateWalk_found hpos hfirst, fun p => insertWalk_found hpos hfirst⟩

/-- The walks stop at the key where it is the first of its node, and nowhere else. -/
theorem walks_spec {least : ℕ} (h : Reaches T S family path before after)
    (hstored : S.Stored t codec st) (htidy : S.Tidy) (hfilled : S.Filled t least)
    (hleast : 1 ≤ least) (ht : 2 ≤ t) (hs : Sorted S.contents) (hcount : st.countOfNode ≤ sizeMax)
    (hturns : height + 2 ≤ turns) :
    (FirstWhereFound S key ∧ key ∈ S.contents.map Prod.fst ∧
      ∃ (height' : ℕ) (X : Tree κ υ height') (family' : Option (ℕ × List (Tree κ υ height')))
        (path' : List (ℕ × ℕ)) (before' after' : List (κ × υ)),
        StopsAt t turns codec st T S key v X family' path' before' after') ∨
    (FirstWhereFound S key ↔ key ∉ S.contents.map Prod.fst) ∧
      PassesBy t turns codec st S key v := by
  induction height generalizing path before after turns least with
  | zero =>
    obtain ⟨turns, rfl⟩ := Nat.exists_eq_add_of_le' hturns
    have hne : S.keys ≠ [] := List.ne_nil_of_length_pos (hleast.trans hfilled.least_le)
    by_cases hfirst : S.keys.head?.map Prod.fst = some key
    · exact Or.inl ⟨fun _ => hfirst, mem_of_first hfirst, 0, S, family, path, before, after,
        stopsAt_first h hstored hfirst⟩
    · have hpos : (S.node t).positionInDisk ≠ sizeMax := hstored.holds.valid.ne
      have hnext : (S.node t).pointers[route (S.node t).keys key]? = some sizeMax :=
        paddedPointers_leaf hstored.keys_length_le
      refine Or.inr ⟨⟨fun hf hm => hfirst (hf hm), fun hm hk => absurd hk hm⟩, ?_, fun p => ?_⟩
      · rw [updateWalk_next hpos hne hfirst hnext, diskRead_sizeMax hcount]
        exact updateWalk_null rfl
      · rw [insertWalk_next hpos hne hfirst hnext, diskRead_sizeMax hcount]
        exact ⟨_, insertWalk_null rfl⟩
  | succ height ih =>
    obtain ⟨turns, rfl⟩ := Nat.exists_eq_add_of_le' hturns
    have hne : S.keys ≠ [] := List.ne_nil_of_length_pos (hleast.trans hfilled.least_le)
    have hi : route S.keys key < S.subtrees.length := by
      have hle := route_le S.keys key
      have hlen := htidy.1
      omega
    obtain ⟨c, hc⟩ : ∃ c, S.subtrees[route S.keys key]? = some c :=
      ⟨_, List.getElem?_eq_getElem hi⟩
    have hmem := List.mem_of_getElem? hc
    by_cases hfirst : S.keys.head?.map Prod.fst = some key
    · refine Or.inl ⟨fun c _ => ?_, ?_, _, S, family, path, before, after,
        stopsAt_first h hstored hfirst⟩
      · rw [if_pos (mem_of_first hfirst)]
        exact hfirst
      · exact ((keys_sublist htidy).map Prod.fst).subset (mem_of_first hfirst)
    · have hpart : Sorted c.contents := by
        rw [contents_child htidy hc] at hs
        exact (sorted_append.mp (sorted_append.mp hs).1).2.1
      obtain ⟨hupdate, hinsert⟩ :=
        walks_turn (v := v) (turns + (height + 2)) hstored htidy hne hfirst hc
      have hbelow := ih (h.child hc) (hstored.2 c hmem) (htidy.2 c hmem) (hfilled.2 c hmem)
        (show 1 ≤ t - 1 by omega) hpart (show height + 2 ≤ turns + (height + 2) by omega)
      have hpasses : PassesBy t (turns + (height + 2)) codec st c key v →
          PassesBy t (turns + (height + 2) + 1) codec st S key v := fun hp =>
        ⟨hupdate.trans hp.update_eq, fun p => (hinsert p).symm ▸ hp.insert_eq _⟩
      rw [show turns + (height + 1 + 2) = turns + (height + 2) + 1 by omega]
      by_cases hkey : key ∈ S.keys.map Prod.fst
      · have hnot := not_mem_child_of_key htidy hs hkey hc
        have hin := ((keys_sublist htidy).map Prod.fst).subset hkey
        rcases hbelow with ⟨-, hm, -⟩ | ⟨-, hp⟩
        · exact absurd hm hnot
        · refine Or.inr ⟨⟨fun hf => ?_, fun hnotin => absurd hin hnotin⟩, hpasses hp⟩
          have hf' := hf c hc
          rw [if_pos hkey] at hf'
          exact absurd hf' hfirst
      · have hfound : FirstWhereFound S key ↔ FirstWhereFound c key := by
          show (∀ c ∈ S.subtrees[route S.keys key]?, _) ↔ _
          rw [hc]
          simp only [Option.mem_some_iff, forall_eq', if_neg hkey]
        rw [hfound, mem_child_iff htidy hs hkey hc]
        rcases hbelow with ⟨hf, hm, height', X, family', path', before', after', hX⟩ | ⟨hf, hp⟩
        · exact Or.inl ⟨hf, hm, height', X, family', path', before', after', hX.reaches, hX.first,
            hupdate.trans hX.update_eq, fun p => (hinsert p).trans (hX.insert_eq _)⟩
        · exact Or.inr ⟨hf, hpasses hp⟩

/-! ### The calls -/

omit [LinearOrder κ] in
/-- The pair that `setKey` replaces, in the contents. -/
theorem contents_setKey {X : Tree κ υ height} {x : κ × υ} {rest : List (κ × υ)} (htidy : X.Tidy)
    (hkeys : X.keys = x :: rest) :
    ∃ l r, X.contents = l ++ x :: r ∧ ∀ y, (X.setKey 0 y).contents = l ++ y :: r := by
  cases height with
  | zero =>
    refine ⟨[], rest, hkeys, fun y => ?_⟩
    show X.keys.set 0 y = _
    rw [hkeys]
    rfl
  | succ height =>
    obtain ⟨c, cs, hcs⟩ := List.exists_cons_of_length_eq_add_one htidy.1
    refine ⟨c.contents, interleave (cs.map contents) rest, ?_, fun y => ?_⟩
    · show interleave (X.subtrees.map contents) X.keys = _
      rw [hcs, hkeys]
      rfl
    · show interleave (X.subtrees.map contents) (X.keys.set 0 y) = _
      rw [hcs, hkeys]
      rfl

theorem WellFormed.found_iff (h : T.WellFormed t codec st) (hturns : top + 2 ≤ turns) :
    (∃ w, BTreeDisk.atKey t turns codec st key = .ok (some w)) ↔ key ∈ T.contents.map Prod.fst := by
  rw [h.atKey hturns]
  constructor
  · rintro ⟨w, hw⟩
    have hsome : lookup T.contents key = some w := Except.ok.inj hw
    rw [lookup_eq_some h.sorted] at hsome
    exact List.mem_map_of_mem hsome
  · intro hm
    obtain ⟨w, hw⟩ := Option.ne_none_iff_exists'.mp fun hnone => lookup_eq_none.mp hnone hm
    exact ⟨w, congrArg Except.ok hw⟩

theorem WellFormed.update_eq (h : T.WellFormed t codec st) :
    update t turns codec st (key, v) = updateWalk t codec st (key, v) turns (T.node t) := by
  obtain ⟨x, rest, hkeys⟩ :=
    List.exists_cons_of_ne_nil (List.ne_nil_of_length_pos h.filled.least_le)
  have hfirst : get (T.node t).keys 0 = .ok x := by
    rw [get_eq_ok]
    show T.keys[0]? = some x
    rw [hkeys]
    rfl
  rw [update, h.root, h.stored.holds.read]
  show (get (T.node t).keys 0 >>= fun _ => _) = _
  rw [hfirst]
  rfl

theorem insert_place {n : Node κ υ} {p : Place κ υ}
    (hroot : diskRead t codec st st.positionRoot = n) (hpos : n.positionInDisk ≠ sizeMax)
    (hwalk : insertWalk t codec st key turns n ⟨n, 0, []⟩ = .ok (some p)) :
    insert t turns codec st (key, v) ≠ .ok (st', false) := by
  intro hinsert
  unfold insert at hinsert
  rw [hroot] at hinsert
  obtain ⟨place, hplace, hinsert⟩ := bind_eq_ok.mp ((if_neg hpos).symm.trans hinsert)
  cases hwalk.symm.trans hplace
  obtain ⟨prev, -, hinsert⟩ := bind_eq_ok.mp hinsert
  obtain ⟨st₁, -, hinsert⟩ := bind_eq_ok.mp hinsert
  by_cases hfull : p.prev.keys.length = maximumKeysInNode t
  · obtain ⟨st₂, -, hinsert⟩ := bind_eq_ok.mp ((if_pos hfull).symm.trans hinsert)
    cases hinsert
  · cases (if_neg hfull).symm.trans hinsert

theorem StopsAt.agrees {X : Tree κ υ height} {family : Option (ℕ × List (Tree κ υ height))}
    (hX : StopsAt t turns codec st T T key v X family path before after)
    (h : T.WellFormed t codec st) (hturns : top + 2 ≤ turns)
    (hm : key ∈ T.contents.map Prod.fst) : PresenceAgrees t turns codec st key v := by
  have hat := (h.found_iff hturns).mpr hm
  have hpos : (T.node t).positionInDisk ≠ sizeMax := h.stored.holds.valid.ne
  have hroot : diskRead t codec st st.positionRoot = T.node t := by
    rw [h.root]
    exact h.stored.holds.read
  have hinsert : insert t turns codec st (key, v) = .ok (st, false) :=
    insert_found hroot hpos (hX.insert_eq _)
  have hupdate := h.update_eq.trans hX.update_eq
  refine ⟨iff_of_true ?_ hat, iff_of_true ⟨st, hinsert⟩ hat, fun st' hst j => ?_, fun st' hst => ?_⟩
  · rw [hupdate]
    exact diskWrite_okUnless.bind fun st' _ => OkUnless.ok rfl
  · rw [hinsert] at hst
    cases hst
    rfl
  · rw [hupdate] at hst
    obtain ⟨st₁, hw, hst⟩ := bind_eq_ok.mp hst
    cases hst
    obtain ⟨x, hx, rfl⟩ := Option.map_eq_some_iff.mp hX.first
    obtain ⟨rest, hkeys⟩ := List.head?_eq_some_iff.mp hx
    obtain ⟨l, r, hcontents, hset⟩ := contents_setKey (hX.reaches.tidy h.tidy) hkeys
    obtain ⟨hcount, hroot'⟩ := diskWrite_count hw
    obtain ⟨T', family', hreach, hstored, htidy, hpos', hkeys', -⟩ :=
      replace_pair hX.reaches h.stored h.tidy h.distinct hw
    have hold : T.contents = (before ++ l) ++ x :: (r ++ after) := by
      rw [hX.reaches.contents h.tidy, hcontents]
      simp only [List.append_assoc, List.cons_append]
    have hnew : T'.contents = (before ++ l) ++ (x.1, v) :: (r ++ after) := by
      rw [hreach.contents htidy, hset]
      simp only [List.append_assoc, List.cons_append]
    have hs := h.sorted
    rw [hold] at hs
    have hs' : Sorted T'.contents := hnew ▸ sorted_replaced hs v
    have hne : T'.keys ≠ [] := fun hnil =>
      List.ne_nil_of_length_pos h.filled.least_le (hkeys' hnil)
    have hfind : ∀ j, BTreeDisk.atKey t turns codec st' j =
        .ok (if j = x.1 then some v else lookup T.contents j) := by
      intro j
      rw [atKey_stored (hroot'.trans (h.root.trans hpos'.symm)) hstored htidy hs'.settled hne
        (hcount.trans_le h.count) hturns, hnew, hold, lookup_replaced hs]
    refine ⟨?_, fun j hj => ?_⟩
    · rw [hfind, if_pos rfl]
    · rw [hfind, if_neg hj, h.atKey hturns]

theorem PassesBy.agrees_iff (hT : PassesBy t turns codec st T key v) (h : T.WellFormed t codec st)
    (hturns : top + 2 ≤ turns) :
    PresenceAgrees t turns codec st key v ↔ key ∉ T.contents.map Prod.fst := by
  have hpos : (T.node t).positionInDisk ≠ sizeMax := h.stored.holds.valid.ne
  have hroot : diskRead t codec st st.positionRoot = T.node t := by
    rw [h.root]
    exact h.stored.holds.read
  have hupdate := h.update_eq.trans hT.update_eq
  obtain ⟨p, hp⟩ := hT.insert_eq ⟨T.node t, 0, []⟩
  have hinsert : ∀ st', insert t turns codec st (key, v) ≠ .ok (st', false) :=
    fun st' => insert_place hroot hpos hp
  constructor
  · intro hagrees hm
    obtain ⟨st', hst⟩ := hagrees.insert_iff.mpr ((h.found_iff hturns).mpr hm)
    exact hinsert st' hst
  · intro hm
    have hat : ¬ ∃ w, BTreeDisk.atKey t turns codec st key = .ok (some w) := fun hw =>
      hm ((h.found_iff hturns).mp hw)
    refine ⟨iff_of_false ?_ hat, iff_of_false (fun hst => hst.elim hinsert) hat,
      fun st' hst => absurd hst (hinsert st'), fun st' hst => ?_⟩
    · rw [hupdate]
      rintro (⟨r, hr, hr'⟩ | hr)
      · cases hr
        cases hr'
      · cases hr
    · rw [hupdate] at hst
      cases hst

end Tree

/-- In a well-formed tree, `update` and `insert` find a key like `at` just when the key is not
there or is the first of its node. -/
theorem presenceAgrees_iff (t turns top : ℕ) (codec : Codec κ υ) (st : DiskTree) (T : Tree κ υ top)
    (key : κ) (v : υ) (ht : 2 ≤ t) (hturns : top + 2 ≤ turns) (h : T.WellFormed t codec st) :
    PresenceAgrees t turns codec st key v ↔ T.FirstWhereFound key := by
  rcases Tree.walks_spec (v := v) Tree.Reaches.root h.stored h.tidy h.filled le_rfl ht h.sorted
    h.count hturns with ⟨hfirst, hm, _, _, _, _, _, _, hX⟩ | ⟨hfirst, hpasses⟩
  · exact iff_of_true (hX.agrees h hturns hm) hfirst
  · rw [hfirst]
    exact hpasses.agrees_iff h hturns

/-- The key 10 is the first of its leaf. -/
theorem presenceAgrees_ten :
    PresenceAgrees 2 3 byteCodec (Tree.diskAboveTwo [(10, 110), (20, 120)]) 10 111 :=
  (presenceAgrees_iff 2 3 1 byteCodec _ (Tree.aboveTwo [(10, 110), (20, 120)]) 10 111 (by decide)
    (by decide) (Tree.aboveTwo_wellFormed (by decide) (by decide) (by unfold Sorted; decide))).mpr
      (by decide)

/-- The key 20 is the second of its leaf: `at` finds it, `update` does not, and `insert` puts it
there again. -/
theorem twenty_found_by_at_only :
    (Tree.aboveTwo [(10, 110), (20, 120)]).WellFormed 2 byteCodec
      (Tree.diskAboveTwo [(10, 110), (20, 120)]) ∧
    atKey 2 3 byteCodec (Tree.diskAboveTwo [(10, 110), (20, 120)]) 20 = .ok (some 120) ∧
    (update 2 3 byteCodec (Tree.diskAboveTwo [(10, 110), (20, 120)]) (20, 121)).map Prod.snd =
      .ok false ∧
    (insert 2 3 byteCodec (Tree.diskAboveTwo [(10, 110), (20, 120)]) (20, 121)).map Prod.snd =
      .ok true :=
  ⟨Tree.aboveTwo_wellFormed (by decide) (by decide) (by unfold Sorted; decide),
    by decide +kernel, by decide +kernel, by decide +kernel⟩

end MaiFaSp.BTreeDisk
