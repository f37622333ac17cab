import MaiFaSp.BTree.Nodes

/-!
# Inserts that no split follows

Up to `2t - 1` keys the tree is its root alone. `split` gives the left part as many
pointers as keys (`b_tree.h:1417-1419`), and a key that repeats the key at a position
`i > 0` is compared with the key before it (`1450-1455`).
-/

namespace MaiFaSp.BTree

open BoundedVector

variable {κ υ : Type} [LinearOrder κ]

/-- The tree is empty, or a root without children that holds `es`. -/
structure Sole (t : ℕ) (tree : Tree κ υ) (es : List (κ × υ)) : Prop where
  fresh : 0 < tree.fresh
  size : tree.size = es.length
  sorted : Sorted es
  root : tree.root = 0 ∧ es = [] ∨ Subtree t tree.node 0 1 tree.root es

/-- A key that comes again is the least of the keys so far. -/
def RepeatsOnlyLeast (keys : List κ) : Prop :=
  ∀ before key after, keys = before ++ key :: after → key ∈ before → ∀ k ∈ before, key ≤ k

variable {t turns : ℕ} {tree : Tree κ υ} {es data : List (κ × υ)} {d : κ × υ} {key : κ}

theorem sole_empty : Sole t (Tree.empty : Tree κ υ) [] :=
  ⟨Nat.one_pos, rfl, List.Pairwise.nil, Or.inl ⟨rfl, rfl⟩⟩

theorem Sole.shape (h : Sole t tree es) : Shape t tree 0 es := by
  refine ⟨h.sorted, ?_⟩
  rcases h.root with hroot | ⟨hne, hnode, -, hmax⟩
  · exact Or.inl hroot
  · exact Or.inr ⟨hne, hnode, Nat.zero_le _, hmax⟩

/-- The walk of `insert` in a root without children. -/
theorem insertWalk_root {least : ℕ} (key : κ)
    (hsub : Subtree t tree.node 0 (least + 1) tree.root es) :
    ∃ e ∈ es, es[lowerIndex (es.map Prod.fst) key - 1]? = some e ∧
      ∀ turns, insertWalk tree key (turns + 2) tree.root ⟨0, 0, 0, 0, []⟩ =
        if e.1 = key then .ok none
        else .ok (some ⟨tree.root, 0, lowerIndex (es.map Prod.fst) key,
          lowerIndex (es.map Prod.fst) key - 1,
          [(tree.root, lowerIndex (es.map Prod.fst) key - 1)]⟩) := by
  obtain ⟨hne, hnode, hleast, -⟩ := hsub
  have hi := lowerIndex_le_length es key
  have hlt : lowerIndex (es.map Prod.fst) key - 1 < es.length := by omega
  refine ⟨es[lowerIndex (es.map Prod.fst) key - 1], List.getElem_mem hlt,
    List.getElem?_eq_getElem hlt, fun turns => ?_⟩
  have hget := get_eq_ok.mpr (List.getElem?_eq_getElem hlt)
  have hnull : (List.replicate (es.length + 1) 0).getD (lowerIndex (es.map Prod.fst) key) 0 = 0 := by
    rw [List.getD_eq_getElem?_getD, List.getElem?_replicate]
    split
    · rfl
    · rfl
  rw [insertWalk, if_neg hne, hnode]
  show (get es (lowerIndex (es.map Prod.fst) key - 1) >>= _) = _
  rw [hget]
  show (if _ then _ else insertWalk tree key (turns + 1)
    ((List.replicate (es.length + 1) 0).getD (lowerIndex (es.map Prod.fst) key) 0) _) = _
  rw [hnull]
  rfl

theorem insert_new (h : Sole t tree es) (hroom : es.length + 1 ≤ maximumKeysInNode t)
    (hkey : d.1 ∉ es.map Prod.fst) (hturns : 2 ≤ turns) :
    ∃ tree' it, insert t turns tree d = .ok (tree', it, true) ∧
      Sole t tree' (es.insertIdx (lowerIndex (es.map Prod.fst) d.1) d) := by
  rcases h.root with ⟨hroot, rfl⟩ | hsub
  · refine ⟨_, _, if_pos hroot, Nat.succ_pos _, ?_, List.pairwise_singleton _ _, Or.inr ?_⟩
    · show tree.size + 1 = 1
      rw [h.size]
      rfl
    · refine ⟨h.fresh.ne', ?_, le_rfl, hroom⟩
      exact Tree.setNode_node_self tree tree.fresh ⟨[d], [0, 0]⟩
  · obtain ⟨e, he, -, hwalk⟩ := insertWalk_root d.1 hsub
    obtain ⟨turns, rfl⟩ := Nat.exists_eq_add_of_le' hturns
    obtain ⟨hne, hnode, -, -⟩ := hsub
    have hi := lowerIndex_le_length es d.1
    have hne' : e.1 ≠ d.1 := by
      intro heq
      exact hkey (heq ▸ List.mem_map_of_mem he)
    set i := lowerIndex (es.map Prod.fst) d.1 with hidef
    set new : Node κ υ := ⟨es.insertIdx i d, List.replicate (es.length + 2) 0⟩ with hnew
    have hkeys : insertAt (keysCapacity t) es i d = .ok (es.insertIdx i d) := by
      rw [insertAt_eq_ok]
      exact ⟨hi, by unfold keysCapacity; omega, rfl⟩
    have hpointers : insertAt (pointersCapacity t) (List.replicate (es.length + 1) 0) i 0 =
        .ok (List.replicate (es.length + 2) 0) := by
      rw [insertAt_eq_ok, List.length_replicate]
      refine ⟨by omega, by unfold pointersCapacity; omega, ?_⟩
      rw [replicate_insertIdx (by omega)]
    have hinto : insertInto t tree tree.root i d = .ok (tree.setNode tree.root new) := by
      rw [insertInto, Tree.deref_of_ne hne, hnode]
      show (insertAt (keysCapacity t) es i d >>= _) = _
      rw [hkeys]
      show (insertAt (pointersCapacity t) (List.replicate (es.length + 1) 0) i 0 >>= _) = _
      rw [hpointers]
      rfl
    refine ⟨{ tree.setNode tree.root new with size := tree.size + 1 },
      ⟨[(tree.root, i - 1)], i - 1⟩, ?_, h.fresh, ?_, ?_, Or.inr ?_⟩
    · rw [insert, if_neg hne, hwalk, if_neg hne']
      show (insertInto t tree tree.root i d >>= _) = _
      rw [hinto, hnode]
      show (if es.length = maximumKeysInNode t then _ else _) = _
      rw [if_neg (by omega)]
      rfl
    · show tree.size + 1 = _
      rw [h.size, List.length_insertIdx_of_le_length hi]
    · show ((es.insertIdx i d).map Prod.fst).Pairwise (· < ·)
      rw [List.map_insertIdx]
      exact pairwise_insertIdx h.sorted hkey
    · have hlen := List.length_insertIdx_of_le_length hi d
      refine ⟨hne, ?_, ?_, ?_⟩
      · show (tree.setNode tree.root new).node tree.root = _
        rw [Tree.setNode_node_self, hlen]
      · omega
      · omega

theorem insert_least (h : Sole t tree es) (hkey : d.1 ∈ es.map Prod.fst)
    (hleast : ∀ k ∈ es.map Prod.fst, d.1 ≤ k) (hturns : 2 ≤ turns) :
    ∃ it, insert t turns tree d = .ok (tree, it, false) := by
  rcases h.root with ⟨-, rfl⟩ | hsub
  · cases hkey
  · obtain ⟨e, he, hat, hwalk⟩ := insertWalk_root d.1 hsub
    obtain ⟨turns, rfl⟩ := Nat.exists_eq_add_of_le' hturns
    obtain ⟨hne, -, -, -⟩ := hsub
    have hzero : lowerIndex (es.map Prod.fst) d.1 = 0 := by
      apply lowerIndex_eq_zero
      intro k hk
      exact (hleast k (List.mem_of_mem_head? hk)).not_gt
    have heq : e.1 = d.1 := by
      apply le_antisymm
      · obtain ⟨e', he', hd⟩ := List.mem_map.mp hkey
        rw [hzero] at hat
        cases es with
        | nil => cases he'
        | cons e₀ es =>
          cases hat
          rcases List.mem_cons.mp he' with rfl | he'
          · exact hd.le
          · have hlt := (List.pairwise_cons.mp h.sorted).1 e'.1 (List.mem_map_of_mem he')
            exact hlt.le.trans hd.le
      · exact hleast e.1 (List.mem_map_of_mem he)
    refine ⟨tree.endIterator, ?_⟩
    rw [insert, if_neg hne, hwalk, if_pos heq]
    rfl

theorem insertAll_append {t turns : ℕ} {l₁ l₂ : List (κ × υ)} {tree : Tree κ υ} :
    insertAll t turns (l₁ ++ l₂) tree = (insertAll t turns l₁ tree >>= insertAll t turns l₂) := by
  induction l₁ generalizing tree with
  | nil => rfl
  | cons d l ih =>
    show (insert t turns tree d >>= fun r => insertAll t turns (l ++ l₂) r.1) = _
    cases hins : insert t turns tree d with
    | error e =>
      rw [insertAll, hins]
      rfl
    | ok r =>
      rw [insertAll, hins]
      exact ih

theorem insertAll_sole (hrepeat : RepeatsOnlyLeast (data.map Prod.fst))
    (hfew : (data.map Prod.fst).toFinset.card ≤ maximumKeysInNode t) (hturns : 2 ≤ turns) :
    ∃ tree es, insertAll t turns data Tree.empty = .ok tree ∧ Sole t tree es ∧
      (∀ e ∈ es, e ∈ data) ∧ ∀ k, k ∈ es.map Prod.fst ↔ k ∈ data.map Prod.fst := by
  induction data using List.reverseRecOn with
  | nil => exact ⟨Tree.empty, [], rfl, sole_empty, fun e he => he, fun k => Iff.rfl⟩
  | append_singleton data d ih =>
    rw [List.map_append] at hrepeat hfew
    have hprefix : RepeatsOnlyLeast (data.map Prod.fst) := by
      intro before key after heq hmem
      refine hrepeat before key (after ++ [d.1]) ?_ hmem
      rw [heq]
      simp
    have hsub : (data.map Prod.fst).toFinset ⊆ (data.map Prod.fst ++ [d.1]).toFinset := by
      intro k hk
      simp only [List.mem_toFinset] at hk ⊢
      exact List.mem_append_left _ hk
    obtain ⟨tree, es, hall, hsole, hfrom, hkeys⟩ := ih hprefix ((Finset.card_le_card hsub).trans hfew)
    have hrun : insertAll t turns (data ++ [d]) Tree.empty =
        (insert t turns tree d >>= fun r => .ok r.1) := by
      rw [insertAll_append, hall]
      rfl
    by_cases hd : d.1 ∈ es.map Prod.fst
    · have hleast : ∀ k ∈ es.map Prod.fst, d.1 ≤ k := by
        intro k hk
        exact hrepeat (data.map Prod.fst) d.1 [] rfl ((hkeys _).mp hd) k ((hkeys k).mp hk)
      obtain ⟨it, hins⟩ := insert_least hsole hd hleast hturns
      refine ⟨tree, es, by rw [hrun, hins]; rfl, hsole, ?_, ?_⟩
      · intro e he
        exact List.mem_append_left _ (hfrom e he)
      · intro k
        rw [List.map_append, List.mem_append, ← hkeys k]
        constructor
        · exact Or.inl
        · rintro (hk | hk)
          · exact hk
          · rw [List.mem_singleton.mp hk]
            exact hd
    · have hroom : es.length + 1 ≤ maximumKeysInNode t := by
        have hnodup : (d.1 :: es.map Prod.fst).Nodup :=
          List.nodup_cons.mpr ⟨hd, hsole.sorted.imp (fun h => h.ne)⟩
        have hcard := List.toFinset_card_of_nodup hnodup
        rw [List.length_cons, List.length_map] at hcard
        rw [← hcard]
        refine (Finset.card_le_card fun k hk => ?_).trans hfew
        rw [List.mem_toFinset, List.mem_cons] at hk
        rw [List.mem_toFinset, List.mem_append]
        rcases hk with rfl | hk
        · exact Or.inr (List.mem_singleton_self _)
        · exact Or.inl ((hkeys k).mp hk)
      obtain ⟨tree', it, hins, hsole'⟩ := insert_new hsole hroom hd hturns
      have hi := lowerIndex_le_length es d.1
      refine ⟨tree', _, by rw [hrun, hins]; rfl, hsole', ?_, ?_⟩
      · intro e he
        rw [List.mem_insertIdx hi] at he
        rcases he with rfl | he
        · simp
        · exact List.mem_append_left _ (hfrom e he)
      · intro k
        rw [List.map_insertIdx, List.mem_insertIdx (by rw [List.length_map]; exact hi),
          List.map_append, List.mem_append, ← hkeys k, List.map_singleton, List.mem_singleton]
        exact Or.comm

/-- `find` in a root without children. -/
theorem find_sole (key : κ) (h : Sole t tree es) (hne : es ≠ []) (hturns : 2 ≤ turns) :
    ∃ it, find turns tree key = .ok it ∧
      (∀ e ∈ es, e.1 = key → ∃ e', tree.entry it = some e' ∧ e' ∈ es ∧ e'.1 = key) ∧
      (key ∉ es.map Prod.fst → it = tree.endIterator) := by
  rcases h.root with ⟨-, rfl⟩ | hsub
  · exact absurd rfl hne
  · have hfind : find turns tree key =
        (searchWalk tree key turns tree.root 0 [(tree.root, 0)] >>= fun found =>
          .ok (found.getD tree.endIterator)) := by
      obtain ⟨e, es', rfl⟩ := List.exists_cons_of_ne_nil hne
      rw [find, Tree.deref_of_ne hsub.1, hsub.2.1]
      rfl
    by_cases hkey : key ∈ es.map Prod.fst
    · obtain ⟨turns, rfl⟩ := Nat.exists_eq_add_of_le' (show 1 ≤ turns by omega)
      have hlist : (tree.node tree.root).keyList = es.map Prod.fst := by
        rw [hsub.2.1]
        rfl
      have hat : (tree.node tree.root).keyList[lowerIndex (tree.node tree.root).keyList key]? =
          some key := by
        rw [hlist]
        exact (getElem?_lowerIndex h.sorted).mpr hkey
      have hwalk : searchWalk tree key (turns + 1) tree.root 0 [(tree.root, 0)] =
          .ok (some ⟨[(tree.root, 0), (tree.root, 0)],
            lowerIndex (tree.node tree.root).keyList key⟩) := by
        rw [searchWalk, if_neg hsub.1]
        exact if_pos hat
      refine ⟨_, by rw [hfind, hwalk]; rfl, fun _ _ _ => ?_, fun h => absurd hkey h⟩
      rw [Node.keyList, List.getElem?_map, Option.map_eq_some_iff] at hat
      obtain ⟨e, he, hek⟩ := hat
      refine ⟨e, he, ?_, hek⟩
      have hm := List.mem_of_getElem? he
      rw [hsub.2.1] at hm
      exact hm
    · refine ⟨tree.endIterator, ?_, fun e he hek => ?_, fun _ => rfl⟩
      · rw [hfind, searchWalk_absent hsub hkey hturns]
        rfl
      · exact absurd (hek ▸ List.mem_map_of_mem he) hkey

/-- Between one insert and `2t - 1` inserts of distinct keys, `find` returns the inserted pairs
and `end()` for every other key. -/
theorem insertAll_find_agree (t turns : ℕ) (data : List (κ × υ)) (hturns : 2 ≤ turns)
    (hdistinct : (data.map Prod.fst).Nodup) (hsome : 1 ≤ data.length)
    (hfew : data.length ≤ maximumKeysInNode t) :
    ∃ tree, insertAll t turns data Tree.empty = .ok tree ∧
      ∀ key, ∃ it, find turns tree key = .ok it ∧
        (∀ v, (key, v) ∈ data → tree.entry it = some (key, v)) ∧
        (key ∉ data.map Prod.fst → it = tree.endIterator) := by
  have hrepeat : RepeatsOnlyLeast (data.map Prod.fst) := by
    intro before key after heq hmem
    rw [heq] at hdistinct
    exact absurd (List.mem_cons_self ..) (List.disjoint_of_nodup_append hdistinct hmem)
  have hcard : (data.map Prod.fst).toFinset.card ≤ maximumKeysInNode t := by
    rw [List.toFinset_card_of_nodup hdistinct, List.length_map]
    exact hfew
  obtain ⟨tree, es, hrun, hsole, hfrom, hkeys⟩ := insertAll_sole hrepeat hcard hturns
  refine ⟨tree, hrun, fun key => ?_⟩
  have hne : es ≠ [] := by
    rintro rfl
    obtain ⟨d, data', rfl⟩ := List.exists_cons_of_length_pos hsome
    exact absurd ((hkeys d.1).mpr (by simp)) (by simp)
  obtain ⟨it, hit, hfound, hend⟩ := find_sole key hsole hne hturns
  refine ⟨it, hit, fun v hv => ?_, fun hk => hend (fun hk' => hk ((hkeys key).mp hk'))⟩
  obtain ⟨e, he, hek⟩ := List.mem_map.mp ((hkeys key).mpr (List.mem_map_of_mem hv))
  obtain ⟨e', hentry, he', hek'⟩ := hfound e he hek
  rw [hentry]
  have heq : e' = (key, v) :=
    List.inj_on_of_nodup_map hdistinct (hfrom e' he') hv hek'
  rw [heq]

theorem insertAll_find_agree_three :
    ∃ tree, insertAll 2 2 [(20, 'b'), (10, 'a'), (30, 'c')] Tree.empty = .ok tree ∧
      ∀ key, ∃ it, find 2 tree key = .ok it ∧
        (∀ v, (key, v) ∈ [(20, 'b'), (10, 'a'), (30, 'c')] → tree.entry it = some (key, v)) ∧
        (key ∉ [(20, 'b'), (10, 'a'), (30, 'c')].map Prod.fst → it = tree.endIterator) :=
  insertAll_find_agree 2 2 [(20, 'b'), (10, 'a'), (30, 'c')] (by decide) (by decide) (by decide)
    (by decide)

/-- With `t = 2` the fourth insert splits the root, and the left part has two pointers for its
two keys: the search for 25 reads `_pointers[2]`. -/
theorem find_past_pointers :
    (insertAll 2 2 [(10, 'a'), (20, 'b'), (30, 'c'), (40, 'd')] Tree.empty >>=
        fun tree => find 2 tree 25) = .error .outOfRange ∧
      ¬ ∃ turns it, (insertAll 2 turns [(10, 'a'), (20, 'b'), (30, 'c'), (40, 'd')] Tree.empty >>=
        fun tree => find turns tree 25) = .ok it := by
  refine ⟨rfl, ?_⟩
  rintro ⟨turns, it, h⟩
  match turns with
  | 0 => cases h
  | 1 => cases h
  | turns + 2 =>
    have hfault : (.error .outOfRange : Except NodeFault Iterator) = .ok it := h
    cases hfault

/-- The shape after inserts whose distinct keys fit into one node, when only the least key is
given again. -/
theorem insertAll_shape (t turns : ℕ) (data : List (κ × υ)) (hturns : 2 ≤ turns)
    (hrepeat : RepeatsOnlyLeast (data.map Prod.fst))
    (hfew : (data.map Prod.fst).toFinset.card ≤ maximumKeysInNode t) :
    ∃ tree es, insertAll t turns data Tree.empty = .ok tree ∧ Shape t tree 0 es := by
  obtain ⟨tree, es, hrun, hsole, -, -⟩ := insertAll_sole hrepeat hfew hturns
  exact ⟨tree, es, hrun, hsole.shape⟩

theorem insertAll_shape_three :
    ∃ tree es, insertAll 2 2 [(20, 'b'), (10, 'a'), (30, 'c')] Tree.empty = .ok tree ∧
      Shape 2 tree 0 es := by
  refine insertAll_shape 2 2 [(20, 'b'), (10, 'a'), (30, 'c')] (by decide) ?_ (by decide)
  intro before key after heq hmem
  have hnodup : ([(20, 'b'), (10, 'a'), (30, 'c')].map Prod.fst).Nodup := by decide
  rw [heq] at hnodup
  exact absurd (List.mem_cons_self ..) (List.disjoint_of_nodup_append hnodup hmem)

/-- The split at the fourth insert leaves a node with as many pointers as keys. -/
theorem insertAll_shape_lost :
    (∃ tree, insertAll 2 2 [(10, 'a'), (20, 'b'), (30, 'c'), (40, 'd')] Tree.empty = .ok tree) ∧
      ¬ ∃ turns tree height es,
        insertAll 2 turns [(10, 'a'), (20, 'b'), (30, 'c'), (40, 'd')] Tree.empty = .ok tree ∧
          Shape 2 tree height es := by
  refine ⟨⟨_, rfl⟩, ?_⟩
  rintro ⟨turns, tree, height, es, h, -, hshape⟩
  have hnodes : tree.root = 2 ∧ tree.node 2 = ⟨[(30, 'c')], [3, 4]⟩ ∧
      tree.node 3 = ⟨[(10, 'a'), (20, 'b')], [0, 0]⟩ := by
    match turns with
    | 0 => cases h
    | 1 => cases h
    | turns + 2 =>
      cases h
      exact ⟨rfl, rfl, rfl⟩
  obtain ⟨hroot, htop, hleft⟩ := hnodes
  rw [hroot] at hshape
  rcases hshape with ⟨hnull, -⟩ | hsub
  · cases hnull
  · cases height with
    | zero =>
      obtain ⟨-, hnode, -, -⟩ := hsub
      rw [htop] at hnode
      cases hnode
    | succ height =>
      obtain ⟨-, -, -, -, parts, hparts, -⟩ := hsub
      rw [htop] at hparts
      obtain ⟨p, parts, hp, -, rfl⟩ := List.forall₂_cons_left_iff.mp hparts
      cases height with
      | zero =>
        obtain ⟨-, hnode, -, -⟩ := hp
        rw [hleft] at hnode
        cases hnode
      | succ height =>
        obtain ⟨-, hlen, -⟩ := hp
        rw [hleft] at hlen
        cases hlen

end MaiFaSp.BTree
