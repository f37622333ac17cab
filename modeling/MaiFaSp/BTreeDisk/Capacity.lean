import MaiFaSp.BTreeDisk.InsertShape

/-!
# The number of keys and children of every node after inserts

The nodes that are reached from the root over valid pointers (`b_tree_disk.hpp:521-657`). A key
may be in the tree more than once, as `insert` finds it only where it comes first in a node.
-/

namespace MaiFaSp.BTreeDisk

open BoundedVector

variable {κ υ : Type}

/-- The pointers of a node behind which there is a node. -/
def validChildren (t : ℕ) (codec : Codec κ υ) (st : DiskTree) (n : Node κ υ) : List ℕ :=
  n.pointers.filter fun p => (diskRead t codec st p).positionInDisk ≠ sizeMax

/-- The positions in the tree, with their depth. -/
inductive InTree (t : ℕ) (codec : Codec κ υ) (st : DiskTree) : ℕ → ℕ → Prop
  | root : (diskRead t codec st st.positionRoot).positionInDisk ≠ sizeMax →
      InTree t codec st st.positionRoot 0
  | child {p q depth : ℕ} : InTree t codec st p depth →
      q ∈ validChildren t codec st (diskRead t codec st p) → InTree t codec st q (depth + 1)

/-- Every node fits into its slot, an inner node has one more child than keys, and all leaves are
on one level. -/
structure Capacity (t : ℕ) (codec : Codec κ υ) (st : DiskTree) : Prop where
  keys_le : ∀ p depth, InTree t codec st p depth →
    (diskRead t codec st p).keys.length ≤ maximumKeysInNode t
  children : ∀ p depth, InTree t codec st p depth →
    validChildren t codec st (diskRead t codec st p) ≠ [] →
      (validChildren t codec st (diskRead t codec st p)).length =
        (diskRead t codec st p).keys.length + 1
  leaves : ∃ height, ∀ p depth, InTree t codec st p depth →
    validChildren t codec st (diskRead t codec st p) = [] → depth = height

variable {t turns : ℕ} {codec : Codec κ υ} {st st' : DiskTree} {es seps : List (κ × υ)}
  {cs : List ℕ} {parts pinit : List (List (κ × υ))} {d : κ × υ} {key : κ}

theorem capacity_null (hroot : (diskRead t codec st st.positionRoot).positionInDisk = sizeMax) :
    Capacity t codec st := by
  have hnone : ∀ p depth, ¬ InTree t codec st p depth := by
    intro p depth h
    induction h with
    | root hvalid => exact hvalid hroot
    | child _ _ ih => exact ih
  exact ⟨fun p depth h => absurd h (hnone p depth), fun p depth h => absurd h (hnone p depth), 0,
    fun p depth h => absurd h (hnone p depth)⟩

theorem validChildren_leaf {c : ℕ} (hcount : st.countOfNode ≤ sizeMax) :
    validChildren t codec st (leafNode t c es) = [] := by
  refine List.filter_eq_nil_iff.mpr fun p hp => ?_
  have hnull : p = sizeMax := by
    rw [show (leafNode t c es).pointers = paddedPointers t [] from rfl, paddedPointers_nil] at hp
    exact List.eq_of_mem_replicate hp
  rw [hnull, diskRead_sizeMax hcount]
  simp

theorem validChildren_inner {p : ℕ} (hcount : st.countOfNode ≤ sizeMax)
    (hlen : cs.length ≤ maximumPointersInNode t)
    (hvalid : ∀ c ∈ cs, (diskRead t codec st c).positionInDisk ≠ sizeMax) :
    validChildren t codec st (innerNode t p seps cs) = cs := by
  show (paddedPointers t cs).filter _ = cs
  unfold paddedPointers
  rw [List.take_of_length_le hlen, List.filter_append, List.filter_eq_self.mpr,
    List.filter_eq_nil_iff.mpr, List.append_nil]
  · intro q hq
    rw [List.eq_of_mem_replicate hq, diskRead_sizeMax hcount]
    simp
  · intro c hc
    simpa using hvalid c hc

theorem OneLeaf.capacity (h : OneLeaf t codec st es) : Capacity t codec st := by
  have hin : ∀ p depth, InTree t codec st p depth → p = 0 ∧ depth = 0 := by
    intro p depth hp
    induction hp with
    | root => exact ⟨h.root, rfl⟩
    | child _ hq ih =>
      rw [ih.1, h.leaf.read, validChildren_leaf h.count_le] at hq
      cases hq
  refine ⟨fun p depth hp => ?_, fun p depth hp hne => ?_, 0, fun p depth hp _ => (hin p depth hp).2⟩
  · rw [(hin p depth hp).1, h.leaf.read]
    exact h.leaf.size_le
  · rw [(hin p depth hp).1, h.leaf.read, validChildren_leaf h.count_le] at hne
    exact absurd rfl hne

namespace RootAbove

theorem leaf_of_mem (h : RootAbove t codec st seps cs parts) {c : ℕ} (hc : c ∈ cs) :
    ∃ es, Holds t codec st c (leafNode t c es) := by
  obtain ⟨i, hi, rfl⟩ := List.mem_iff_getElem.mp hc
  exact ⟨_, (h.leaf hi (h.leaves.length_eq ▸ hi)).1⟩

theorem children (h : RootAbove t codec st seps cs parts) :
    validChildren t codec st (innerNode t 1 seps cs) = cs := by
  have hsize : seps.length ≤ maximumKeysInNode t := h.top.size_le
  refine validChildren_inner h.count_le (h.length.trans_le (Nat.succ_le_succ hsize)) fun c hc => ?_
  obtain ⟨es, hes⟩ := h.leaf_of_mem hc
  rw [hes.read]
  exact hes.valid.ne

theorem capacity (h : RootAbove t codec st seps cs parts) : Capacity t codec st := by
  have hin : ∀ p depth, InTree t codec st p depth →
      p = 1 ∧ depth = 0 ∨ p ∈ cs ∧ depth = 1 := by
    intro p depth hp
    induction hp with
    | root => exact Or.inl ⟨h.root, rfl⟩
    | child _ hq ih =>
      rcases ih with ⟨rfl, rfl⟩ | ⟨hc, -⟩
      · rw [h.top.read, h.children] at hq
        exact Or.inr ⟨hq, rfl⟩
      · obtain ⟨es, hes⟩ := h.leaf_of_mem hc
        rw [hes.read, validChildren_leaf h.count_le] at hq
        cases hq
  have hne : cs ≠ [] := List.ne_nil_of_length_pos (h.length ▸ Nat.succ_pos _)
  refine ⟨fun p depth hp => ?_, fun p depth hp hsome => ?_, 1, fun p depth hp hnone => ?_⟩
  · rcases hin p depth hp with ⟨rfl, -⟩ | ⟨hc, -⟩
    · rw [h.top.read]
      exact h.top.size_le
    · obtain ⟨es, hes⟩ := h.leaf_of_mem hc
      rw [hes.read]
      exact hes.size_le
  · rcases hin p depth hp with ⟨rfl, -⟩ | ⟨hc, -⟩
    · rw [h.top.read, h.children]
      exact h.length
    · obtain ⟨es, hes⟩ := h.leaf_of_mem hc
      rw [hes.read, validChildren_leaf h.count_le] at hsome
      exact absurd rfl hsome
  · rcases hin p depth hp with ⟨rfl, -⟩ | ⟨-, rfl⟩
    · rw [h.top.read, h.children] at hnone
      exact absurd hnone hne
    · rfl

end RootAbove

/-! ### The trees that inserts build -/

variable [LinearOrder κ]

/-- No key is greater than a later one. -/
def WeaklySorted (es : List (κ × υ)) : Prop := (es.map Prod.fst).Pairwise (· ≤ ·)

/-- Not behind all separators. -/
def notBehind (seps : List (κ × υ)) (x : κ × υ) : Bool := seps.any fun k => x.1 ≤ k.1

/-- The empty tree, a leaf, or a root above leaves. Of the last leaf's pairs, which are in order,
fewer than `t` are not behind all keys of the root. -/
inductive Grown (t : ℕ) (codec : Codec κ υ) : DiskTree → Prop
  | fresh : Grown t codec DiskTree.fresh
  | leaf {st : DiskTree} {es : List (κ × υ)} : OneLeaf t codec st es → WeaklySorted es →
      Grown t codec st
  | above {st : DiskTree} {seps : List (κ × υ)} {cs : List ℕ} {pinit : List (List (κ × υ))}
      {es : List (κ × υ)} : RootAbove t codec st seps cs (pinit ++ [es]) → WeaklySorted es →
      es.countP (notBehind seps) ≤ t - 1 → Grown t codec st

theorem Grown.capacity (h : Grown t codec st) : Capacity t codec st := by
  cases h with
  | fresh => exact capacity_null rfl
  | leaf hleaf => exact hleaf.capacity
  | above habove => exact habove.capacity

theorem WeaklySorted.grown (hs : WeaklySorted es) :
    WeaklySorted (es.insertIdx (route es d.1) d) := by
  unfold WeaklySorted
  rw [List.map_insertIdx]
  exact pairwise_le_insertIdx hs

theorem weaklySorted_append {es' : List (κ × υ)} : WeaklySorted (es ++ es') ↔
    WeaklySorted es ∧ WeaklySorted es' ∧ ∀ x ∈ es, ∀ y ∈ es', x.1 ≤ y.1 := by
  unfold WeaklySorted
  rw [List.map_append, List.pairwise_append]
  simp

theorem notBehind_eq_true {x : κ × υ} : notBehind seps x = true ↔ ∃ k ∈ seps, x.1 ≤ k.1 := by
  unfold notBehind
  simp

/-- A pair that is searched for behind all separators does not count. -/
theorem countP_grown (hlast : route seps d.1 = seps.length) :
    (es.insertIdx (route es d.1) d).countP (notBehind seps) = es.countP (notBehind seps) := by
  have hbehind : ∀ k ∈ seps, k.1 < d.1 := by
    intro k hk
    have hmem : k.1 ∈ (seps.map Prod.fst).take (lowerIndex (seps.map Prod.fst) d.1) := by
      rw [show lowerIndex (seps.map Prod.fst) d.1 = seps.length from hlast, ← List.map_take,
        List.take_length]
      exact List.mem_map_of_mem hk
    exact lt_of_mem_take hmem
  have hd : ¬ notBehind seps d = true := by
    rw [notBehind_eq_true]
    rintro ⟨k, hk, hle⟩
    exact absurd (hbehind k hk) hle.not_gt
  rw [(List.perm_insertIdx d es (route_le es d.1)).countP_eq, List.countP_cons_of_neg hd]

/-- The key that goes up from the last leaf is behind all keys of the root. -/
theorem middle_behind {l r : List (κ × υ)} {mid : κ × υ} (hs : WeaklySorted (l ++ mid :: r))
    (hcount : (l ++ mid :: r).countP (notBehind seps) ≤ t - 1) (hl : l.length = t) (ht : 2 ≤ t) :
    ∀ k ∈ seps, k.1 < mid.1 := by
  intro k hk
  by_contra hnot
  have hall : ∀ x ∈ l, notBehind seps x = true := by
    intro x hx
    rw [notBehind_eq_true]
    have hle := (weaklySorted_append.mp hs).2.2 x hx mid List.mem_cons_self
    exact ⟨k, hk, hle.trans (not_lt.mp hnot)⟩
  have hlen : l.countP (notBehind seps) = l.length := List.countP_eq_length.mpr hall
  rw [List.countP_append, hlen] at hcount
  omega

/-! ### Runs -/

/-- `insert` finds the key as the first one of the root or of the child that the search enters,
or the leaf that takes it has room or is the root or the last child of a root that has room. -/
def InsertFits (t : ℕ) (codec : Codec κ υ) (st : DiskTree) (key : κ) : Prop :=
  let root := diskRead t codec st st.positionRoot
  let child := diskRead t codec st (root.pointers.getD (route root.keys key) sizeMax)
  root.keys.head?.map Prod.fst = some key ∨ child.keys.head?.map Prod.fst = some key ∨
    SplitsLast t codec st key

/-- A run of inserts whose calls all meet a condition. -/
def CallsMeet (cond : DiskTree → κ → Prop) (t turns : ℕ) (codec : Codec κ υ) :
    List (κ × υ) → DiskTree → Prop
  | [], _ => True
  | d :: rest, st => cond st d.1 ∧ ∀ result, insert t turns codec st d = .ok result →
      CallsMeet cond t turns codec rest result.1

instance (t : ℕ) (codec : Codec κ υ) (st : DiskTree) (key : κ) :
    Decidable (InsertFits t codec st key) :=
  inferInstanceAs (Decidable (_ ∨ _ ∨ _))

instance decidableCallsMeet (cond : DiskTree → κ → Prop) [∀ st key, Decidable (cond st key)]
    (t turns : ℕ) (codec : Codec κ υ) : (data : List (κ × υ)) → (st : DiskTree) →
    Decidable (CallsMeet cond t turns codec data st)
  | [], _ => isTrue trivial
  | d :: rest, st =>
    have := decidableCallsMeet cond t turns codec rest
    match h : insert t turns codec st d with
    | .ok result =>
      decidable_of_iff (cond st d.1 ∧ CallsMeet cond t turns codec rest result.1)
        (and_congr_right fun _ =>
          ⟨fun hr result' hins => Except.ok.inj (h.symm.trans hins) ▸ hr, fun hall => hall result h⟩)
    | .error _ =>
      decidable_of_iff (cond st d.1)
        ⟨fun hc => ⟨hc, fun result' hins => by cases h.symm.trans hins⟩, And.left⟩

theorem insert_grown_leaf (h : OneLeaf t codec st es) (hs : WeaklySorted es) (ht : 2 ≤ t)
    (hturns : 2 ≤ turns) : OkUnless .streamFailed (insert t turns codec st d)
      fun result => Grown t codec result.1 := by
  by_cases hfirst : es.head?.map Prod.fst = some d.1
  · obtain ⟨turns, rfl⟩ := Nat.exists_eq_add_of_le' hturns
    have hinsert : insert t (turns + 2) codec st d = .ok (st, false) :=
      insert_found h.read_root h.leaf.valid.ne (insertWalk_found h.leaf.valid.ne hfirst)
    rw [hinsert]
    exact OkUnless.ok (Grown.leaf h hs)
  · refine (h.insert hfirst ht hturns).mono fun result hnew => ?_
    have hgrown := hs.grown (d := d)
    rcases hnew with hleaf | ⟨l, mid, r, hcut, hr, habove⟩
    · exact Grown.leaf hleaf hgrown
    · rw [hcut] at hgrown
      have habove' : RootAbove t codec result.1 [mid] [2, 3] ([l] ++ [r]) := habove
      exact Grown.above habove' (weaklySorted_append.mp hgrown).2.1.of_cons
        (hr ▸ List.countP_le_length)

theorem insert_grown_above (h : RootAbove t codec st seps cs (pinit ++ [es]))
    (hs : WeaklySorted es) (hcount : es.countP (notBehind seps) ≤ t - 1)
    (hfit : InsertFits t codec st d.1) (ht : 2 ≤ t) (hturns : 3 ≤ turns) :
    OkUnless .streamFailed (insert t turns codec st d) fun result => Grown t codec result.1 := by
  have hvalid : (innerNode t 1 seps cs).positionInDisk ≠ sizeMax := h.top.valid.ne
  obtain ⟨hi, hi'⟩ := h.route_lt d.1
  obtain ⟨hholds, -⟩ := h.leaf hi hi'
  have hpinit : pinit.length = seps.length := by
    have hplen := h.parts_length
    rw [List.length_append, List.length_singleton] at hplen
    omega
  have hread := hholds.read
  by_cases hfirst : seps.head?.map Prod.fst = some d.1
  · obtain ⟨turns, rfl⟩ := Nat.exists_eq_add_of_le' hturns
    have hinsert : insert t (turns + 3) codec st d = .ok (st, false) :=
      insert_found h.read_root hvalid (insertWalk_found hvalid hfirst)
    rw [hinsert]
    exact OkUnless.ok (Grown.above h hs hcount)
  by_cases hleaf : (pinit ++ [es])[route seps d.1].head?.map Prod.fst = some d.1
  · obtain ⟨turns, rfl⟩ := Nat.exists_eq_add_of_le' hturns
    have hwalk : insertWalk t codec st d.1 (turns + 3) (innerNode t 1 seps cs)
        ⟨innerNode t 1 seps cs, 0, []⟩ = .ok none := by
      rw [insertWalk_next hvalid h.separators hfirst (h.next hi), hread]
      exact insertWalk_found hholds.valid.ne hleaf
    have hinsert : insert t (turns + 3) codec st d = .ok (st, false) :=
      insert_found h.read_root hvalid hwalk
    rw [hinsert]
    exact OkUnless.ok (Grown.above h hs hcount)
  have hsplits : SplitsLast t codec st d.1 := by
    have hchild : (innerNode t 1 seps cs).pointers.getD (route seps d.1) sizeMax =
        cs[route seps d.1] := by
      rw [List.getD_eq_getElem?_getD, h.next hi]
      rfl
    unfold InsertFits at hfit
    rw [h.read_root] at hfit
    rcases hfit with hin | hin | hin
    · exact absurd hin hfirst
    · change (diskRead t codec st ((innerNode t 1 seps cs).pointers.getD (route seps d.1)
        sizeMax)).keys.head?.map Prod.fst = some d.1 at hin
      rw [hchild, hread] at hin
      exact absurd hin hleaf
    · exact hin
  have hparts : ∀ part ∈ (pinit ++ [es])[route seps d.1]?, part.head?.map Prod.fst ≠ some d.1 := by
    intro part hpart
    obtain ⟨_, rfl⟩ := List.getElem?_eq_some_iff.mp hpart
    exact hleaf
  refine (h.insert hfirst hparts hsplits ht hturns ?_).mono fun result hnew => ?_
  · intro last l mid r hlast hcut hroute hl
    rw [← hpinit, List.getElem?_append_right le_rfl, Nat.sub_self] at hlast
    cases hlast
    have hgrown := hs.grown (d := d)
    rw [← countP_grown hroute, hcut] at hcount
    exact middle_behind (hcut ▸ hgrown) hcount hl ht
  · rcases hnew with ⟨part, hpart, hnew⟩ | ⟨pinit', es', l, mid, r, cs', heq, -, hcut, -, hr, hnew⟩
    · by_cases hroute : route seps d.1 = seps.length
      · rw [hroute, ← hpinit, List.getElem?_append_right le_rfl, Nat.sub_self] at hpart
        cases hpart
        rw [hroute, ← hpinit, List.set_append_right _ _ le_rfl, Nat.sub_self] at hnew
        exact Grown.above hnew hs.grown ((countP_grown hroute).trans_le hcount)
      · have hlt : route seps d.1 < pinit.length := by
          have hle := route_le seps d.1
          omega
        rw [List.set_append_left _ _ hlt] at hnew
        exact Grown.above hnew hs hcount
    · obtain ⟨rfl, hlast⟩ := List.append_inj' heq rfl
      cases hlast
      have hgrown := hs.grown (d := d)
      rw [hcut] at hgrown
      rw [show pinit ++ [l, r] = (pinit ++ [l]) ++ [r] by simp] at hnew
      exact Grown.above hnew (weaklySorted_append.mp hgrown).2.1.of_cons
        (hr ▸ List.countP_le_length)

theorem insert_grown (h : Grown t codec st) (hfit : InsertFits t codec st d.1) (ht : 2 ≤ t)
    (hturns : 3 ≤ turns) :
    OkUnless .streamFailed (insert t turns codec st d) fun result => Grown t codec result.1 := by
  cases h with
  | fresh =>
    refine (insert_fresh_leaf ht).mono fun result hleaf => ?_
    exact Grown.leaf hleaf (List.pairwise_singleton _ _)
  | leaf hleaf hs => exact insert_grown_leaf hleaf hs ht (by omega)
  | above habove hs hcount => exact insert_grown_above habove hs hcount hfit ht hturns

theorem insertAll_grown {data : List (κ × υ)} (h : Grown t codec st)
    (hfit : CallsMeet (InsertFits t codec) t turns codec data st) (ht : 2 ≤ t)
    (hturns : 3 ≤ turns) :
    OkUnless .streamFailed (insertAll t turns codec data st) (Grown t codec) := by
  induction data generalizing st with
  | nil => exact OkUnless.ok h
  | cons d data ih =>
    obtain ⟨hfirst, hrest⟩ := hfit
    rcases insert_grown h hfirst ht hturns with ⟨result, hins, hnew⟩ | hfail
    · show OkUnless _ (insert t turns codec st d >>= _) _
      rw [hins]
      exact ih hnew (hrest result hins)
    · refine Or.inr ?_
      show (insert t turns codec st d >>= _) = _
      rw [hfail]
      rfl

/-- After every run of inserts that split no leaf but the root leaf or the last leaf of a root
with room, every node fits into its slot, the root has one more child than keys, and all leaves
are on one level. -/
theorem insertAll_capacity (t turns : ℕ) (codec : Codec κ υ) (data : List (κ × υ)) (ht : 2 ≤ t)
    (hturns : 3 ≤ turns) (hfit : CallsMeet (InsertFits t codec) t turns codec data DiskTree.fresh) :
    OkUnless .streamFailed (insertAll t turns codec data DiskTree.fresh) (Capacity t codec) :=
  (insertAll_grown Grown.fresh hfit ht hturns).mono fun _ h => h.capacity

/-- The key 10 comes twice, and the second 20 is put into the tree again. -/
theorem insertAll_capacity_six :
    OkUnless .streamFailed (insertAll 2 3 byteCodec
      [(10, 110), (20, 120), (10, 111), (20, 121), (30, 130), (40, 140)] DiskTree.fresh)
        (Capacity 2 byteCodec) :=
  insertAll_capacity 2 3 byteCodec
    [(10, 110), (20, 120), (10, 111), (20, 121), (30, 130), (40, 140)] (by decide) (by decide)
    (by decide +kernel)

/-- The leaf 5, 6, 10, 20 stays below the root beside its two parts. -/
theorem insertAll_overfull :
    ¬ OkUnless .streamFailed (insertAll 2 3 byteCodec
      [(10, 110), (20, 120), (30, 130), (40, 140), (5, 105), (6, 106)] DiskTree.fresh)
        (Capacity 2 byteCodec) := by
  have hrun : (insertAll 2 3 byteCodec
      [(10, 110), (20, 120), (30, 130), (40, 140), (5, 105), (6, 106)] DiskTree.fresh).map (fun st =>
        let root := diskRead 2 byteCodec st st.positionRoot
        (decide (root.positionInDisk = sizeMax), validChildren 2 byteCodec st root,
          (diskRead 2 byteCodec st 2).keys.length)) = .ok (false, [4, 5, 2], 4) := by
    decide +kernel
  rintro (⟨st, hst, hcapacity⟩ | hfail)
  · rw [hst] at hrun
    obtain ⟨hroot, hchildren, hkeys⟩ : _ = false ∧ _ = [4, 5, 2] ∧ _ = 4 := by
      simpa only [Prod.mk.injEq] using Except.ok.inj hrun
    have hin : InTree 2 byteCodec st 2 1 := by
      refine InTree.child (InTree.root (of_decide_eq_false hroot)) ?_
      rw [hchildren]
      decide
    have hle := hcapacity.keys_le 2 1 hin
    rw [hkeys] at hle
    exact absurd hle (by decide)
  · rw [hfail] at hrun
    cases hrun

end MaiFaSp.BTreeDisk
