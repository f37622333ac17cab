import MaiFaSp.BTreeDisk.InsertShape

/-!
# Runs of `insert`, and `at` after them

The tree is a leaf, or a root above leaves, as long as only the root leaf or the last
leaf is split and the root has room for the key that goes up.
-/

namespace MaiFaSp.BTreeDisk

open BoundedVector

variable {κ υ : Type} [LinearOrder κ]

/-- The root is a leaf. -/
structure Sole (t : ℕ) (codec : Codec κ υ) (st : DiskTree) (es : List (κ × υ)) : Prop where
  root : st.positionRoot = 0
  count : st.countOfNode = 1
  leaf : Holds t codec st 0 (leafNode t 0 es)
  nonempty : es ≠ []
  sorted : Sorted es

/-- The root is at position 1 and its children are leaves, the last one in the last slot. -/
structure TwoLevels (t : ℕ) (codec : Codec κ υ) (st : DiskTree) (seps : List (κ × υ))
    (cs : List ℕ) (parts : List (List (κ × υ))) : Prop where
  root : st.positionRoot = 1
  top : Holds t codec st 1 (innerNode t 1 seps cs)
  leaves : List.Forall₂ (fun c es => Holds t codec st c (leafNode t c es) ∧ es ≠ []) cs parts
  length : cs.length = seps.length + 1
  separators : seps ≠ []
  distinct : (1 :: cs).Nodup
  last : ∃ init, cs = init ++ [st.countOfNode - 1]
  sorted : Sorted (interleave parts seps)

/-- The contents of the tree after inserts. -/
def Contents (t : ℕ) (codec : Codec κ υ) (st : DiskTree) (es : List (κ × υ)) : Prop :=
  Sole t codec st es ∨ ∃ seps cs parts, TwoLevels t codec st seps cs parts ∧
    es = interleave parts seps

/-- A run of inserts in which each one meets this. -/
def FittingRun (t turns : ℕ) (codec : Codec κ υ) : List (κ × υ) → DiskTree → Prop
  | [], _ => True
  | d :: rest, st => SplitsLast t codec st d.1 ∧
      ∀ st' inserted, insert t turns codec st d = .ok (st', inserted) →
        FittingRun t turns codec rest st'

instance decidableFittingRun (t turns : ℕ) (codec : Codec κ υ) :
    (data : List (κ × υ)) → (st : DiskTree) → Decidable (FittingRun t turns codec data st)
  | [], _ => isTrue trivial
  | d :: rest, st =>
    match h : insert t turns codec st d with
    | .ok result =>
      have := decidableFittingRun t turns codec rest result.1
      decidable_of_iff (SplitsLast t codec st d.1 ∧ FittingRun t turns codec rest result.1)
        (and_congr_right fun _ =>
          ⟨fun hr st' b hins => by rw [h] at hins; cases hins; exact hr,
            fun hall => hall result.1 result.2 h⟩)
    | .error _ =>
      decidable_of_iff (SplitsLast t codec st d.1)
        ⟨fun hs => ⟨hs, fun st' b hins => by rw [h] at hins; cases hins⟩, And.left⟩

variable {t turns : ℕ} {codec : Codec κ υ} {st st' : DiskTree} {es seps : List (κ × υ)}
  {cs : List ℕ} {parts : List (List (κ × υ))} {d : κ × υ} {key : κ}

/-- The result of an insert holds the new pair besides the old ones. -/
def Gains (t : ℕ) (codec : Codec κ υ) (es : List (κ × υ)) (d : κ × υ) (st : DiskTree) : Prop :=
  ∃ es', Contents t codec st es' ∧ ∀ x, x ∈ es' ↔ x = d ∨ x ∈ es

theorem Sole.oneLeaf (h : Sole t codec st es) : OneLeaf t codec st es :=
  ⟨h.root, h.count, h.leaf, h.nonempty⟩

theorem OneLeaf.sole (h : OneLeaf t codec st es) (hs : Sorted es) : Sole t codec st es :=
  ⟨h.root, h.count, h.leaf, h.nonempty, hs⟩

theorem TwoLevels.rootAbove (h : TwoLevels t codec st seps cs parts) :
    RootAbove t codec st seps cs parts :=
  ⟨h.root, h.top, h.leaves, h.length, h.separators, h.distinct, h.last⟩

theorem RootAbove.twoLevels (h : RootAbove t codec st seps cs parts)
    (hs : Sorted (interleave parts seps)) : TwoLevels t codec st seps cs parts :=
  ⟨h.root, h.top, h.leaves, h.length, h.separators, h.distinct, h.last, hs⟩

/-! ### One insert -/

theorem insert_fresh (ht : 2 ≤ t) :
    OkUnless .streamFailed (insert t turns codec DiskTree.fresh d)
      fun result => Gains t codec [] d result.1 := by
  refine (insert_fresh_leaf ht).mono fun result hleaf => ?_
  refine ⟨[d], Or.inl (hleaf.sole (List.pairwise_singleton _ _)), fun x => ?_⟩
  simp

theorem sorted_grown (hs : Sorted es) (hkey : d.1 ∉ es.map Prod.fst) :
    Sorted (es.insertIdx (route es d.1) d) := by
  unfold Sorted
  rw [List.map_insertIdx]
  exact pairwise_insertIdx hs hkey

theorem insert_sole (h : Sole t codec st es) (hkey : d.1 ∉ es.map Prod.fst) (ht : 2 ≤ t)
    (hturns : 2 ≤ turns) : OkUnless .streamFailed (insert t turns codec st d)
      fun result => Gains t codec es d result.1 := by
  have hsorted := sorted_grown h.sorted hkey
  have hmem : ∀ x, x ∈ es.insertIdx (route es d.1) d ↔ x = d ∨ x ∈ es :=
    fun x => List.mem_insertIdx (route_le es d.1)
  refine (h.oneLeaf.insert (head_ne_of_not_mem hkey) ht hturns).mono fun result hnew => ?_
  rcases hnew with hleaf | ⟨l, mid, r, hcut, -, habove⟩
  · exact ⟨_, Or.inl (hleaf.sole hsorted), hmem⟩
  · have hcontents : interleave [l, r] [mid] = l ++ mid :: r := by simp [interleave]
    rw [hcut] at hsorted hmem
    rw [← hcontents] at hsorted hmem
    exact ⟨_, Or.inr ⟨_, _, _, habove.twoLevels hsorted, rfl⟩, hmem⟩

/-- The contents with the last leaf grown, as the two parts with the middle key hold them. -/
theorem interleave_grown_last {pinit : List (List (κ × υ))} {l r : List (κ × υ)} {mid : κ × υ}
    (hlen : pinit.length = seps.length) (hcut : es.insertIdx (route es d.1) d = l ++ mid :: r)
    (hlast : route seps d.1 = seps.length) (hi : route seps d.1 < (pinit ++ [es]).length) :
    interleave ((pinit ++ [es]).set (route seps d.1)
      ((pinit ++ [es])[route seps d.1].insertIdx (route (pinit ++ [es])[route seps d.1] d.1) d)) seps =
        interleave (pinit ++ [l, r]) (seps ++ [mid]) := by
  have hes : (pinit ++ [es])[route seps d.1] = es := by
    simp only [hlast, ← hlen, List.getElem_append_right le_rfl, Nat.sub_self,
      List.getElem_cons_zero]
  rw [hes, hcut, hlast, ← hlen, List.set_append_right _ _ le_rfl, Nat.sub_self, interleave_cut hlen]
  rfl

theorem insert_two (h : TwoLevels t codec st seps cs parts)
    (hkey : d.1 ∉ (interleave parts seps).map Prod.fst) (hfit : SplitsLast t codec st d.1)
    (ht : 2 ≤ t) (hturns : 3 ≤ turns) : OkUnless .streamFailed (insert t turns codec st d)
      fun result => Gains t codec (interleave parts seps) d result.1 := by
  have habove := h.rootAbove
  have hplen := habove.parts_length
  obtain ⟨-, hi'⟩ := habove.route_lt d.1
  have hsorted := sorted_interleave_insert hplen h.sorted hkey hi'
  have hmem := fun x => mem_interleave_insert (y := x) hplen hi'
  have hseps : d.1 ∉ seps.map Prod.fst := by
    intro hm
    obtain ⟨e, he, heq⟩ := List.mem_map.mp hm
    exact hkey (heq ▸ List.mem_map_of_mem (mem_interleave_of_separator he hplen))
  have hparts : ∀ part ∈ parts[route seps d.1]?, part.head?.map Prod.fst ≠ some d.1 := by
    intro part hpart
    refine head_ne_of_not_mem fun hm => ?_
    obtain ⟨e, he, heq⟩ := List.mem_map.mp hm
    exact hkey (heq ▸ List.mem_map_of_mem (mem_interleave_of_part (List.mem_of_getElem? hpart) he))
  have hpinit : ∀ {pinit es}, parts = pinit ++ [es] → pinit.length = seps.length := by
    rintro pinit es rfl
    rw [List.length_append, List.length_singleton] at hplen
    omega
  refine (habove.insert (head_ne_of_not_mem hseps) hparts hfit ht hturns ?_).mono
    fun result hnew => ?_
  · -- the middle key is behind the separators, as the grown contents are sorted
    intro es l mid r hes hcut hlast _ k hk
    obtain ⟨pinit, es', rfl⟩ := (List.eq_nil_or_concat' parts).resolve_left
      (List.ne_nil_of_length_pos (by omega))
    have hlen := hpinit rfl
    rw [← hlen, List.getElem?_append_right le_rfl, Nat.sub_self] at hes
    cases hes
    rw [interleave_grown_last hlen hcut hlast hi'] at hsorted
    have hlen' : (pinit ++ [l, r]).length = (seps ++ [mid]).length + 1 := by
      rw [List.length_append, List.length_append, hlen]
      rfl
    exact (sorted_append.mp (sorted_separators hlen' hsorted)).2.2 k hk mid
      (List.mem_singleton_self mid)
  · rcases hnew with ⟨part, hpart, hnew⟩ | ⟨pinit, es, l, mid, r, cs', rfl, hlast, hcut, -, -, hnew⟩
    · obtain ⟨_, rfl⟩ := List.getElem?_eq_some_iff.mp hpart
      exact ⟨_, Or.inr ⟨_, _, _, hnew.twoLevels hsorted, rfl⟩, hmem⟩
    · have hcontents := interleave_grown_last (hpinit rfl) hcut hlast hi'
      rw [hcontents] at hsorted
      simp only [hcontents] at hmem
      exact ⟨_, Or.inr ⟨_, _, _, hnew.twoLevels hsorted, rfl⟩, hmem⟩

theorem insert_contents (h : Contents t codec st es) (hkey : d.1 ∉ es.map Prod.fst)
    (hfit : SplitsLast t codec st d.1) (ht : 2 ≤ t) (hturns : 3 ≤ turns) :
    OkUnless .streamFailed (insert t turns codec st d)
      fun result => Gains t codec es d result.1 := by
  rcases h with hsole | ⟨seps, cs, parts, htwo, rfl⟩
  · exact insert_sole hsole hkey ht (by omega)
  · exact insert_two htwo hkey hfit ht hturns

/-! ### Runs and lookups -/

theorem Contents.sorted (h : Contents t codec st es) : Sorted es := by
  rcases h with hsole | ⟨seps, cs, parts, htwo, rfl⟩
  · exact hsole.sorted
  · exact htwo.sorted

theorem insertAll_contents {data : List (κ × υ)} (h : Contents t codec st es)
    (hdistinct : ((es ++ data).map Prod.fst).Nodup) (hfit : FittingRun t turns codec data st)
    (ht : 2 ≤ t) (hturns : 3 ≤ turns) :
    OkUnless .streamFailed (insertAll t turns codec data st)
      fun st' => ∃ es', Contents t codec st' es' ∧ ∀ x, x ∈ es' ↔ x ∈ es ++ data := by
  induction data generalizing st es with
  | nil => exact OkUnless.ok ⟨es, h, fun x => by rw [List.append_nil]⟩
  | cons d data ih =>
    rw [List.map_append, List.map_cons, List.nodup_append, List.nodup_cons] at hdistinct
    obtain ⟨hes, ⟨hd, hdata⟩, hcross⟩ := hdistinct
    have hkey : d.1 ∉ es.map Prod.fst := fun hm => hcross _ hm _ List.mem_cons_self rfl
    refine OkUnless.bind (P := fun result =>
      Gains t codec es d result.1 ∧ FittingRun t turns codec data result.1) ?_ ?_
    · rcases insert_contents h hkey hfit.1 ht hturns with ⟨⟨st', b⟩, hins, hgain⟩ | hfail
      · exact Or.inl ⟨(st', b), hins, hgain, hfit.2 st' b hins⟩
      · exact Or.inr hfail
    · rintro ⟨st', b⟩ ⟨⟨es', hcontents, hmem⟩, hrest⟩
      have hkeys : ∀ k, k ∈ es'.map Prod.fst ↔ k = d.1 ∨ k ∈ es.map Prod.fst := by
        intro k
        simp only [List.mem_map, hmem]
        constructor
        · rintro ⟨x, rfl | hx, rfl⟩
          · exact Or.inl rfl
          · exact Or.inr ⟨x, hx, rfl⟩
        · rintro (rfl | ⟨x, hx, rfl⟩)
          · exact ⟨d, Or.inl rfl, rfl⟩
          · exact ⟨x, Or.inr hx, rfl⟩
      refine (ih hcontents ?_ hrest).mono ?_
      · rw [List.map_append, List.nodup_append]
        refine ⟨hcontents.sorted.imp fun hlt => hlt.ne, hdata, ?_⟩
        intro k hk k' hk' heq
        rcases (hkeys k).mp hk with rfl | hold
        · exact hd (heq ▸ hk')
        · exact hcross k hold k' (List.mem_cons_of_mem _ hk') heq
      · rintro st'' ⟨es'', hcontents'', hmem''⟩
        refine ⟨es'', hcontents'', fun x => ?_⟩
        rw [hmem'', List.mem_append, List.mem_append, List.mem_cons, hmem]
        tauto

/-- `at` returns what the contents hold. -/
theorem atKey_contents (h : Contents t codec st es) (hturns : 3 ≤ turns) :
    atKey t turns codec st key = .ok (lookup es key) := by
  obtain ⟨turns, rfl⟩ := Nat.exists_eq_add_of_le' hturns
  rcases h with hsole | ⟨seps, cs, parts, htwo, rfl⟩
  · obtain ⟨e, rest, rfl⟩ := List.exists_cons_of_ne_nil hsole.nonempty
    have hcount := hsole.oneLeaf.count_le
    rw [atKey, hsole.oneLeaf.read_root]
    have hwalk : atWalk t codec st key (turns + 1 + 2) (leafNode t 0 (e :: rest)) = _ :=
      atWalk_leaf hcount hsole.leaf.valid.ne rfl hsole.sorted.settled
        hsole.leaf.size_le
    exact hwalk
  · obtain ⟨hi, hi'⟩ := htwo.rootAbove.route_lt key
    obtain ⟨hleaf, -⟩ := htwo.rootAbove.leaf hi hi'
    have hpart : Sorted parts[route seps key] := by
      have hs := htwo.sorted
      rw [interleave_at htwo.rootAbove.parts_length hi'] at hs
      exact (sorted_append.mp (sorted_append.mp hs).1).2.1
    obtain ⟨k, rest, hseps⟩ := List.exists_cons_of_ne_nil htwo.separators
    have hfirst : get (innerNode t 1 seps cs).keys 0 = .ok k := by
      rw [get_eq_ok]
      show seps[0]? = some k
      rw [hseps]
      rfl
    have hchild : atWalk t codec st key (turns + 2) (diskRead t codec st cs[route seps key]) =
        .ok (lookup parts[route seps key] key) := by
      rw [hleaf.read]
      exact atWalk_leaf (n := leafNode t _ _) htwo.rootAbove.count_le hleaf.valid.ne rfl hpart.settled
        hleaf.size_le
    rw [atKey, htwo.rootAbove.read_root]
    show (get (innerNode t 1 seps cs).keys 0 >>= fun _ =>
      atWalk t codec st key (turns + 3) (innerNode t 1 seps cs)) = _
    rw [hfirst]
    exact atWalk_inner (n := innerNode t 1 seps cs) htwo.top.valid.ne rfl htwo.length
      htwo.top.size_le htwo.rootAbove.parts_length htwo.sorted.settled hi hi' hchild

/-- After inserts of distinct keys, at least one, each of which splits no leaf but the root leaf
or the last leaf of a root with room, `at` returns the inserted values. -/
theorem insertAll_at_agree (t turns : ℕ) (codec : Codec κ υ) (data : List (κ × υ)) (ht : 2 ≤ t)
    (hturns : 3 ≤ turns) (hdistinct : (data.map Prod.fst).Nodup) (hsome : data ≠ [])
    (hfit : FittingRun t turns codec data DiskTree.fresh) :
    OkUnless .streamFailed (insertAll t turns codec data DiskTree.fresh) fun st => ∀ key,
      (∀ v, (key, v) ∈ data → atKey t turns codec st key = .ok (some v)) ∧
      (key ∉ data.map Prod.fst → atKey t turns codec st key = .ok none) := by
  obtain ⟨d, data, rfl⟩ := List.exists_cons_of_ne_nil hsome
  have hrun : OkUnless .streamFailed (insertAll t turns codec (d :: data) DiskTree.fresh)
      fun st => ∃ es, Contents t codec st es ∧ ∀ x, x ∈ es ↔ x ∈ d :: data := by
    refine OkUnless.bind (P := fun result =>
      Gains t codec [] d result.1 ∧ FittingRun t turns codec data result.1) ?_ ?_
    · have hfirst : OkUnless .streamFailed (insert t turns codec DiskTree.fresh d) _ :=
        insert_fresh ht
      rcases hfirst with ⟨⟨st', b⟩, hins, hgain⟩ | hfail
      · exact Or.inl ⟨(st', b), hins, hgain, hfit.2 st' b hins⟩
      · exact Or.inr hfail
    · rintro ⟨st', b⟩ ⟨⟨es, hcontents, hmem⟩, hrest⟩
      rw [List.map_cons, List.nodup_cons] at hdistinct
      have hnodup : ((es ++ data).map Prod.fst).Nodup := by
        rw [List.map_append, List.nodup_append]
        refine ⟨hcontents.sorted.imp fun hlt => hlt.ne, hdistinct.2, ?_⟩
        intro k hk k' hk' heq
        obtain ⟨e, he, rfl⟩ := List.mem_map.mp hk
        rcases (hmem e).mp he with rfl | hnil
        · exact hdistinct.1 (heq ▸ hk')
        · cases hnil
      refine (insertAll_contents hcontents hnodup hrest ht hturns).mono ?_
      rintro st'' ⟨es', hcontents', hmem'⟩
      refine ⟨es', hcontents', fun x => ?_⟩
      rw [hmem', List.mem_append, hmem, List.mem_cons]
      simp
  refine hrun.mono ?_
  rintro st ⟨es, hcontents, hmem⟩ key
  rw [atKey_contents hcontents hturns]
  constructor
  · intro v hv
    rw [(lookup_eq_some hcontents.sorted).mpr ((hmem _).mpr hv)]
  · intro hkey
    have hnone : lookup es key = none := by
      rw [lookup_eq_none]
      intro hm
      obtain ⟨e, he, rfl⟩ := List.mem_map.mp hm
      exact hkey (List.mem_map_of_mem ((hmem e).mp he))
    rw [hnone]

theorem insertAll_at_agree_five :
    OkUnless .streamFailed (insertAll 2 3 byteCodec
      [(10, 110), (20, 120), (30, 130), (40, 140), (5, 105)] DiskTree.fresh)
      fun st => ∀ key,
        (∀ v, (key, v) ∈ [(10, 110), (20, 120), (30, 130), (40, 140), (5, 105)] →
          atKey 2 3 byteCodec st key = .ok (some v)) ∧
        (key ∉ [10, 20, 30, 40, 5] → atKey 2 3 byteCodec st key = .ok none) :=
  insertAll_at_agree 2 3 byteCodec [(10, 110), (20, 120), (30, 130), (40, 140), (5, 105)]
    (by decide) (by decide) (by decide) (by decide) (by decide +kernel)

/-- The leaf of 5, 6, 10, 20 is split and the leaf of 40 loses its place in the root. -/
theorem insertAll_at_lost :
    (insertAll 2 3 byteCodec [(10, 110), (20, 120), (30, 130), (40, 140), (5, 105), (6, 106)]
      DiskTree.fresh >>= fun st => atKey 2 3 byteCodec st 40) = .error .outOfRange := by
  decide +kernel

end MaiFaSp.BTreeDisk
