import MaiFaSp.BPlusTree.Shape

/-!
# One `insert` into a tree with leaves right below the root
-/

namespace MaiFaSp.BPlusTree

open BoundedVector LinkedChain CopiedSeparators

variable {κ υ : Type} [LinearOrder κ] {t turns : ℕ} {tree : Tree κ υ} {keys kb ka : List κ}
  {leaves lb la : List ℕ} {parts before after : List (List (κ × υ))} {a next : ℕ}
  {part es : List (κ × υ)} {data : κ × υ} {path : List (ℕ × ℕ)}

/-! ### The leaf that the walk comes to -/

/-- The leaf where the search for a key ends, with the leaves on both sides. -/
theorem Forest.around (h : Forest t tree keys leaves parts) (key : κ) :
    ∃ kb ka lb a la before part after, keys = kb ++ ka ∧ leaves = lb ++ a :: la ∧
      parts = before ++ part :: after ∧ lb.length = before.length ∧
      tree.cell a = some (la.headD 0, part) ∧ Around key kb ka before part after := by
  obtain ⟨kb, ka, before, part, after, rfl, rfl, haround⟩ :=
    exists_around h.separates h.sorted key
  have hlen := h.chain.length_eq
  rw [List.length_append, List.length_cons] at hlen
  have hi : before.length < leaves.length := by omega
  have hleaves : leaves = leaves.take before.length ++
      leaves[before.length] :: leaves.drop (before.length + 1) := by
    rw [← List.drop_eq_getElem_cons hi, List.take_append_drop]
  have htake : (leaves.take before.length).length = before.length := by
    rw [List.length_take, min_eq_left hi.le]
  refine ⟨kb, ka, _, _, _, before, part, after, rfl, hleaves, rfl, htake, ?_, haround⟩
  have hchain := h.chain
  rw [hleaves] at hchain
  exact ((chain_append htake).mp hchain).2.1

theorem insertWalk_leaf {parentNode : ℕ} (ha : tree.cell a = some (next, part)) (key : κ) :
    insertWalk tree key (turns + 1) ⟨a, parentNode, path⟩ = .ok (some ⟨a, parentNode, path⟩) := by
  rw [insertWalk]
  unfold Tree.deref
  rw [cell_eq_some.mp ha]
  rfl

theorem insertWalk_middle {b child parentNode : ℕ} {curKey key : κ}
    (hb : tree.node b = some (.middle ⟨false, keys, leaves⟩))
    (hkey : keys[lowerIndex keys key - 1]? = some curKey) (hne : curKey ≠ key)
    (hchild : leaves[lowerIndex keys key]? = some child) :
    insertWalk tree key (turns + 1) ⟨b, parentNode, path⟩ =
      insertWalk tree key turns ⟨child, b, (child, lowerIndex keys key - 1) :: path⟩ := by
  rw [insertWalk]
  unfold Tree.deref
  rw [hb]
  show (get keys (lowerIndex keys key - 1) >>= fun curKey => if curKey = key then pure none else
    get leaves (lowerIndex keys key) >>= fun next => _) = _
  rw [get_eq_ok.mpr hkey]
  show (if curKey = key then _ else _) = _
  rw [if_neg hne, get_eq_ok.mpr hchild]
  rfl

theorem Forest.insertWalk_eq (h : Forest t tree (kb ++ ka) (lb ++ a :: la) (before ++ part :: after))
    {key : κ} (hlen : lb.length = before.length) (hcell : tree.cell a = some (la.headD 0, part))
    (haround : Around key kb ka before part after)
    (hkey : key ∉ keyList (before ++ part :: after).flatten) (hturns : 2 ≤ turns) :
    insertWalk tree key turns ⟨tree.root, 0, []⟩ =
      .ok (some ⟨a, tree.root, [(a, before.length - 1)]⟩) := by
  obtain ⟨turns, rfl⟩ := Nat.exists_eq_add_of_le' (show 1 ≤ turns by omega)
  obtain ⟨turns, rfl⟩ := Nat.exists_eq_add_of_le' (show 1 ≤ turns by omega)
  have hindex := haround.index
  have hlt : lowerIndex (kb ++ ka) key - 1 < (kb ++ ka).length := by
    have hle : lowerIndex (kb ++ ka) key ≤ (kb ++ ka).length := lowerIndex_le
    have hpos : 0 < (kb ++ ka).length := List.length_pos_of_ne_nil h.keys_ne
    omega
  have hne : (kb ++ ka)[lowerIndex (kb ++ ka) key - 1] ≠ key := by
    intro heq
    obtain ⟨x, hx, hxkey⟩ := h.separates.mem (List.getElem_mem hlt)
    rw [heq] at hxkey
    exact hkey (List.mem_map.mpr ⟨x, hx, hxkey⟩)
  have hchild : (lb ++ a :: la)[lowerIndex (kb ++ ka) key]? = some a := by
    rw [hindex, ← hlen, List.getElem?_append_right le_rfl, Nat.sub_self]
    rfl
  rw [insertWalk_middle h.root_node (List.getElem?_eq_getElem hlt) hne hchild,
    insertWalk_leaf hcell, hindex]

/-! ### A leaf with room -/

/-- A part with its new entry. -/
def withEntry (part : List (κ × υ)) (data : κ × υ) : List (κ × υ) :=
  part.insertIdx (lowerIndex (keyList part) data.1) data

theorem length_withEntry : (withEntry part data).length = part.length + 1 :=
  List.length_insertIdx_of_le_length (lowerIndex_le.trans (List.length_map _).le) _

theorem insertAt_withEntry (h : part.length ≤ maximumKeysInNode t) :
    insertAt (keysCapacity t) part (lowerIndex (keyList part) data.1) data =
      .ok (withEntry part data) :=
  insertAt_eq_ok.mpr ⟨lowerIndex_le.trans (List.length_map _).le, Nat.lt_succ_of_le h, rfl⟩

theorem insertIntoLeaf_room {parentNode : ℕ} (ha : tree.cell a = some (next, part))
    (hroom : part.length < maximumKeysInNode t) :
    insertIntoLeaf t turns tree ⟨a, parentNode, path⟩ data =
      .ok (tree.setNode a (.term ⟨next, withEntry part data⟩)) := by
  unfold insertIntoLeaf
  rw [derefTerm_eq ha]
  show (insertAt _ part _ data >>= fun entries => _) = _
  rw [insertAt_withEntry hroom.le]
  show (if part.length = _ then _ else _) = _
  rw [if_neg hroom.ne]
  rfl

/-- The tree after a successful insert that left `tree` behind. -/
def counted (tree : Tree κ υ) : Tree κ υ := { tree with size := tree.size + 1 }

theorem insert_eq {p : Place} (hroot : tree.root ≠ 0)
    (hwalk : insertWalk tree data.1 turns ⟨tree.root, 0, []⟩ = .ok (some p)) :
    insert t turns tree data =
      (insertIntoLeaf t turns tree p data >>= fun tree => pure (counted tree, ⟨0, 0⟩, true)) := by
  unfold insert
  rw [if_neg hroot, hwalk]
  rfl

theorem Forest.counted (h : Forest t tree keys leaves parts) :
    Forest t (counted tree) keys leaves parts :=
  ⟨h.sound.congr rfl rfl, h.root_node,
    h.chain.congr fun _ _ => cell_congr rfl, h.separates, h.sorted, h.keys_ne, h.keys_le,
    h.parts_ne, h.parts_le⟩

theorem Forest.leaf_not_mem (h : Forest t tree keys (lb ++ a :: la) parts) : a ∉ lb ++ la :=
  (List.nodup_middle.mp (h.chain.nodup h.sound.cell_null)).notMem

theorem forall_mem_replace {α : Type} {P : α → Prop} {xs ys : List α} {x y : α}
    (h : ∀ z ∈ xs ++ x :: ys, P z) (hy : P y) : ∀ z ∈ xs ++ y :: ys, P z := by
  rw [List.forall_mem_append, List.forall_mem_cons] at h ⊢
  exact ⟨h.1, hy, h.2.2⟩

theorem forall_mem_cut {α : Type} {P : α → Prop} {xs ys : List α} {x y z : α}
    (h : ∀ w ∈ xs ++ x :: ys, P w) (hy : P y) (hz : P z) : ∀ w ∈ xs ++ y :: z :: ys, P w := by
  rw [List.forall_mem_append, List.forall_mem_cons] at h
  rw [List.forall_mem_append, List.forall_mem_cons, List.forall_mem_cons]
  exact ⟨h.1, hy, hz, h.2.2⟩

theorem forall_mem_window {α : Type} {P : α → Prop} {xs ys : List α} {x y x' y' : α}
    (h : ∀ w ∈ xs ++ x :: y :: ys, P w) (hx : P x') (hy : P y') :
    ∀ w ∈ xs ++ x' :: y' :: ys, P w := by
  rw [List.forall_mem_append, List.forall_mem_cons, List.forall_mem_cons] at h ⊢
  exact ⟨h.1, hx, hy, h.2.2.2⟩

theorem Forest.set_part {part' : List (κ × υ)}
    (h : Forest t tree (kb ++ ka) (lb ++ a :: la) (before ++ part :: after))
    (hlen : lb.length = before.length) (hcell : tree.cell a = some (la.headD 0, part))
    (hleft : Separates kb (before ++ [part'])) (hright : List.Forall₂ Leads ka after)
    (hsorted : Sorted (before.flatten ++ part' ++ after.flatten))
    (hne : part' ≠ []) (hle : part'.length ≤ maximumKeysInNode t) :
    Forest t (tree.setNode a (.term ⟨la.headD 0, part'⟩)) (kb ++ ka) (lb ++ a :: la)
      (before ++ part' :: after) := by
  have hroot : tree.root ≠ a := fun heq => h.root_not_mem (by rw [heq]; simp)
  refine ⟨h.sound.setNode (cell_eq_some.mp hcell), ?_, ?_, ?_, ?_, h.keys_ne, h.keys_le, ?_, ?_⟩
  · rw [tree.setNode_root, tree.setNode_node_of_ne _ hroot]
    exact h.root_node
  · refine h.chain.update hlen cell_setNode_self fun b hb => cell_congr ?_
    refine tree.setNode_node_of_ne _ ?_
    rintro rfl
    exact h.leaf_not_mem hb
  · exact separates_append.mpr ⟨kb, ka, rfl, hleft, hright⟩
  · rw [List.flatten_append, List.flatten_cons, ← List.append_assoc]
    exact hsorted
  · exact forall_mem_replace h.parts_ne hne
  · exact forall_mem_replace h.parts_le hle

/-! ### A full leaf -/

theorem splitLoop_split {n : Node κ υ} {size parentNode : ℕ} (hnode : a ≠ 0)
    (hn : tree.node a = some n) (hsize : n.size = .ok size) (hfull : maximumKeysInNode t < size) :
    splitLoop t (turns + 1) tree ⟨a, parentNode, path⟩ =
      (split t tree a parentNode >>= fun tree =>
        splitLoop t turns tree ⟨parentNode, (path.head?.map Prod.fst).getD 0, path.tail⟩) := by
  rw [splitLoop, if_neg hnode]
  unfold Tree.deref
  rw [hn]
  show (n.size >>= fun size => _) = _
  rw [hsize]
  show (if _ then _ else _) = _
  rw [if_pos hfull]

theorem splitLoop_stop {n : Node κ υ} {size parentNode : ℕ} (hnode : a ≠ 0)
    (hn : tree.node a = some n) (hsize : n.size = .ok size) (hroom : size ≤ maximumKeysInNode t) :
    splitLoop t (turns + 1) tree ⟨a, parentNode, path⟩ = .ok tree := by
  rw [splitLoop, if_neg hnode]
  unfold Tree.deref
  rw [hn]
  show (n.size >>= fun size => _) = _
  rw [hsize]
  show (if _ then _ else _) = _
  rw [if_neg (not_lt.mpr hroom)]
  rfl

theorem splitLoop_null {parentNode : ℕ} :
    splitLoop t (turns + 1) tree ⟨0, parentNode, path⟩ = .ok tree := by
  rw [splitLoop, if_pos rfl]
  rfl

theorem split_leaf {parentNode : ℕ} (ha : tree.cell a = some (next, part)) :
    split t tree a parentNode = splitTerminate t tree a parentNode := by
  unfold split Tree.deref
  rw [cell_eq_some.mp ha]
  rfl

theorem middleInd_eq (ht : 1 ≤ t) : (maximumKeysInNode t + 1) / 2 = t := by
  unfold maximumKeysInNode
  omega

theorem linkParts_child {key : κ} {left right : ℕ} (hkeys : keys.length ≤ maximumKeysInNode t)
    (hleaves : leaves.length = keys.length + 1) :
    linkParts t ⟨false, keys, leaves⟩ false (lowerIndex keys key) key left right =
      .ok ⟨false, keys.insertIdx (lowerIndex keys key) key,
        leaves.insertIdx (lowerIndex keys key + 1) right⟩ := by
  have hi : lowerIndex keys key ≤ keys.length := lowerIndex_le
  have hnew : insertAt (keysCapacity t) keys (lowerIndex keys key) key =
      .ok (keys.insertIdx (lowerIndex keys key) key) :=
    insertAt_eq_ok.mpr ⟨hi, Nat.lt_succ_of_le hkeys, rfl⟩
  have hpointers : insertAt (pointersCapacity t) leaves (lowerIndex keys key + 1) right =
      .ok (leaves.insertIdx (lowerIndex keys key + 1) right) := by
    refine insertAt_eq_ok.mpr ⟨by omega, ?_, rfl⟩
    unfold pointersCapacity
    omega
  unfold linkParts
  rw [hnew]
  show (insertAt _ leaves _ right >>= fun pointers => _) = _
  rw [hpointers]
  rfl

theorem splitParent_child {b : ℕ} {n : Middle κ} {key : κ} (hb0 : b ≠ 0)
    (hb : tree.node b = some (.middle n)) :
    splitParent tree b key = .ok (tree, b, lowerIndex n.keys key) := by
  unfold splitParent
  rw [if_neg hb0, derefMiddle_eq hb]
  rfl

theorem splitTerminate_child (ht : 1 ≤ t) (hsound : Sound tree)
    (ha : tree.cell a = some (next, part)) {middle : κ × υ} (hmiddle : part[t]? = some middle)
    {b : ℕ} (hb : tree.node b = some (.middle ⟨false, keys, leaves⟩))
    (hkeys : keys.length ≤ maximumKeysInNode t) (hleaves : leaves.length = keys.length + 1) :
    splitTerminate t tree a b = .ok ((cutLeaf tree a next t part).setNode b (.middle ⟨false,
      keys.insertIdx (lowerIndex keys middle.1) middle.1,
      leaves.insertIdx (lowerIndex keys middle.1 + 1) tree.fresh⟩)) := by
  have hb0 : b ≠ 0 := hsound.ne_zero hb
  have hab : b ≠ a := by
    rintro rfl
    rw [cell_eq_some.mp ha] at hb
    cases hb
  have hcut : (cutLeaf tree a next t part).node b = some (.middle ⟨false, keys, leaves⟩) := by
    unfold cutLeaf
    rw [Tree.setNode_node_of_ne _ _ hab, tree.newNode_node_of_ne _ (hsound.lt_fresh hb).ne]
    exact hb
  unfold splitTerminate
  rw [derefTerm_eq ha, middleInd_eq ht]
  show (get part t >>= fun middle => _) = _
  rw [get_eq_ok.mpr hmiddle]
  show (splitParent tree b middle.1 >>= fun parent => _) = _
  rw [splitParent_child hb0 hb]
  show ((cutLeaf tree a next t part).derefMiddle b >>= fun p => _) = _
  rw [derefMiddle_eq hcut]
  show (linkParts t ⟨false, keys, leaves⟩ (decide (b = 0)) _ _ a tree.fresh >>= fun p => _) = _
  rw [decide_eq_false hb0, linkParts_child hkeys hleaves]
  rfl

theorem splitTerminate_root (ht : 1 ≤ t) (hsound : Sound tree)
    (ha : tree.cell a = some (next, part)) {middle : κ × υ} (hmiddle : part[t]? = some middle) :
    splitTerminate t tree a 0 = .ok ((cutLeaf (underNewRoot tree) a next t part).setNode
      tree.fresh (.middle ⟨false, [middle.1], [a, tree.fresh + 1]⟩)) := by
  have hab : tree.fresh ≠ a := (hsound.lt_fresh (cell_eq_some.mp ha)).ne'
  have hcut : (cutLeaf (underNewRoot tree) a next t part).node tree.fresh =
      some (.middle ⟨false, [], []⟩) := by
    have hnew : tree.fresh ≠ (underNewRoot tree).fresh := (Nat.lt_succ_self tree.fresh).ne
    unfold cutLeaf
    rw [Tree.setNode_node_of_ne _ _ hab, Tree.newNode_node_of_ne _ _ hnew]
    exact tree.newNode_node_self _
  unfold splitTerminate
  rw [derefTerm_eq ha, middleInd_eq ht]
  show (get part t >>= fun middle => _) = _
  rw [get_eq_ok.mpr hmiddle]
  show ((cutLeaf (underNewRoot tree) a next t part).derefMiddle tree.fresh >>= fun p => _) = _
  rw [derefMiddle_eq hcut]
  rfl

theorem exists_cut (ht : 1 ≤ t) (hfull : part.length = maximumKeysInNode t) (data : κ × υ) :
    ∃ middle, (withEntry part data)[t]? = some middle ∧
      Leads middle.1 ((withEntry part data).drop t) ∧
      0 < ((withEntry part data).take t).length ∧
      ((withEntry part data).take t).length ≤ maximumKeysInNode t ∧
      ((withEntry part data).drop t).length ≤ maximumKeysInNode t := by
  have hlen : (withEntry part data).length = 2 * t := by
    rw [length_withEntry, hfull]
    unfold maximumKeysInNode
    omega
  have hlt : t < (withEntry part data).length := by omega
  refine ⟨_, List.getElem?_eq_getElem hlt, ?_, ?_, ?_, ?_⟩
  · rw [List.drop_eq_getElem_cons hlt]
    exact leads_iff.mpr ⟨_, _, rfl, rfl⟩
  · rw [List.length_take, hlen]
    omega
  · rw [List.length_take, hlen]
    unfold maximumKeysInNode
    omega
  · rw [List.length_drop, hlen]
    unfold maximumKeysInNode
    omega

theorem insertIntoLeaf_full {parentNode : ℕ} (ha : tree.cell a = some (next, part))
    (hfull : part.length = maximumKeysInNode t) :
    insertIntoLeaf t turns tree ⟨a, parentNode, path⟩ data =
      splitLoop t turns (tree.setNode a (.term ⟨next, withEntry part data⟩))
        ⟨a, parentNode, path⟩ := by
  unfold insertIntoLeaf
  rw [derefTerm_eq ha]
  show (insertAt _ part _ data >>= fun entries => _) = _
  rw [insertAt_withEntry hfull.le]
  show (if part.length = _ then _ else _) = _
  rw [if_pos hfull]

theorem around_cut (haround : Around data.1 kb ka before part after)
    (hkey : data.1 ∉ keyList (before ++ part :: after).flatten) (ht : 1 ≤ t) :
    Sorted (before.flatten ++ ((withEntry part data).take t ++ (withEntry part data).drop t) ++
        after.flatten) ∧
      Separates kb (before ++ [(withEntry part data).take t]) := by
  obtain ⟨hpart, hafter⟩ := not_mem_around hkey
  obtain ⟨hsorted, hleft⟩ := haround.insert hpart hafter
  refine ⟨?_, hleft.replace_last fun k _ hlead => hlead.take ht⟩
  rw [List.take_append_drop]
  exact hsorted

theorem Forest.insertIntoLeaf_full
    (h : Forest t tree (kb ++ ka) (lb ++ a :: la) (before ++ part :: after)) (ht : 1 ≤ t)
    (hlen : lb.length = before.length) (hcell : tree.cell a = some (la.headD 0, part))
    (haround : Around data.1 kb ka before part after)
    (hkey : data.1 ∉ keyList (before ++ part :: after).flatten)
    (hfull : part.length = maximumKeysInNode t) {middle : κ × υ}
    (hmiddle : (withEntry part data)[t]? = some middle)
    (hlead : Leads middle.1 ((withEntry part data).drop t)) :
    insertIntoLeaf t (turns + 1) tree ⟨a, tree.root, path⟩ data =
      splitLoop t turns (splitBelow tree a (la.headD 0) t (withEntry part data)
          ⟨false, kb ++ middle.1 :: ka, lb ++ a :: tree.fresh :: la⟩)
        ⟨tree.root, (path.head?.map Prod.fst).getD 0, path.tail⟩ := by
  obtain ⟨hsorted, hleft⟩ := around_cut haround hkey ht
  have ha := cell_eq_some.mp hcell
  have hra : tree.root ≠ a := fun heq => h.root_not_mem (by rw [heq]; simp)
  have hindex : lowerIndex (kb ++ ka) middle.1 = kb.length :=
    lowerIndex_cut hsorted hleft haround.right hlead
  have hroot : (tree.setNode a (.term ⟨la.headD 0, withEntry part data⟩)).node tree.root =
      some (.middle ⟨false, kb ++ ka, lb ++ a :: la⟩) := by
    rw [tree.setNode_node_of_ne _ hra]
    exact h.root_node
  have hlength : (lb ++ a :: la).length = (kb ++ ka).length + 1 := by
    rw [h.chain.length_eq, h.separates.length_eq]
  have hleaves : (lb ++ a :: la).insertIdx (kb.length + 1) tree.fresh =
      lb ++ a :: tree.fresh :: la := by
    have hn : kb.length + 1 = (lb ++ [a]).length := by
      rw [List.length_append, List.length_singleton, hlen, haround.left.keys_length]
    have hcut : lb ++ a :: la = (lb ++ [a]) ++ la := by simp
    rw [hn, hcut, insertIdx_length_append]
    simp
  have hsize : (Node.term (⟨la.headD 0, withEntry part data⟩ : Term κ υ)).size =
      .ok (maximumKeysInNode t + 1) := by
    rw [← hfull, ← length_withEntry]
    rfl
  rw [BPlusTree.insertIntoLeaf_full hcell hfull,
    splitLoop_split (h.sound.ne_zero ha) (tree.setNode_node_self _) hsize (Nat.lt_succ_self _),
    split_leaf cell_setNode_self,
    splitTerminate_child ht (h.sound.setNode ha) cell_setNode_self hmiddle hroot h.keys_le hlength,
    hindex, insertIdx_length_append]
  rw [tree.setNode_fresh, hleaves]
  rfl

theorem Forest.splitBelow
    (h : Forest t tree (kb ++ ka) (lb ++ a :: la) (before ++ part :: after)) (ht : 1 ≤ t)
    (hlen : lb.length = before.length) (hcell : tree.cell a = some (la.headD 0, part))
    (haround : Around data.1 kb ka before part after)
    (hkey : data.1 ∉ keyList (before ++ part :: after).flatten)
    (hfull : part.length = maximumKeysInNode t)
    (hroom : (kb ++ ka).length < maximumKeysInNode t) {middle : κ × υ}
    (hlead : Leads middle.1 ((withEntry part data).drop t)) :
    Forest t (splitBelow tree a (la.headD 0) t (withEntry part data)
        ⟨false, kb ++ middle.1 :: ka, lb ++ a :: tree.fresh :: la⟩)
      (kb ++ middle.1 :: ka) (lb ++ a :: tree.fresh :: la)
      (before ++ (withEntry part data).take t :: (withEntry part data).drop t :: after) := by
  obtain ⟨hsorted, hleft⟩ := around_cut haround hkey ht
  obtain ⟨-, -, -, htake, htake_le, hdrop_le⟩ := exists_cut ht hfull data
  have ha := cell_eq_some.mp hcell
  obtain ⟨hsound, hroot, hcella, hcellfresh, hothers⟩ :=
    splitBelow_nodes h.sound h.root_node ha
  refine ⟨hsound, hroot, h.chain.insert hlen hcella hcellfresh ?_, ?_, ?_, ?_, ?_, ?_, ?_⟩
  · intro b hb
    obtain ⟨next, v, hcellb⟩ := h.chain.mem (a := b) (by
      rcases List.mem_append.mp hb with hb | hb
      · exact List.mem_append_left _ hb
      · exact List.mem_append_right _ (List.mem_cons_of_mem a hb))
    refine cell_congr (hothers b ?_ ?_ ?_)
    · rw [cell_eq_some.mp hcellb]
      exact Option.some_ne_none _
    · rintro rfl
      exact h.leaf_not_mem hb
    · rintro rfl
      rw [h.cell_root] at hcellb
      cases hcellb
  · exact separates_append.mpr ⟨kb, middle.1 :: ka, rfl, hleft,
      List.Forall₂.cons hlead haround.right⟩
  · rw [List.flatten_append, List.flatten_cons, List.flatten_cons, ← List.append_assoc,
      ← List.append_assoc]
    rw [← List.append_assoc] at hsorted
    exact hsorted
  · simp
  · have hlength : (kb ++ middle.1 :: ka).length = (kb ++ ka).length + 1 := by simp; omega
    omega
  · have hdrop : (withEntry part data).drop t ≠ [] := by
      obtain ⟨x, rest, hx, -⟩ := leads_iff.mp hlead
      rw [hx]
      exact List.cons_ne_nil x rest
    exact forall_mem_cut h.parts_ne (List.ne_nil_of_length_pos htake) hdrop
  · exact forall_mem_cut h.parts_le htake_le hdrop_le

/-! ### The steps -/

theorem insert_empty (hsound : Sound tree) (hroot : tree.root = 0) (ht : 1 ≤ t) :
    ∃ tree', insert t turns tree data = .ok (tree', ⟨0, 0⟩, true) ∧ Sole t tree' [data] := by
  have hnew := hsound.newNode (.term ⟨0, [data]⟩)
  refine ⟨_, if_pos hroot, hnew.congr rfl rfl, tree.newNode_node_self _, ?_,
    ?_⟩
  · exact List.pairwise_singleton _ _
  · show 1 ≤ maximumKeysInNode t
    unfold maximumKeysInNode
    omega

theorem sorted_withEntry (hsorted : Sorted es) (hkey : data.1 ∉ keyList es) :
    Sorted (withEntry es data) := by
  unfold Sorted withEntry
  rw [List.map_insertIdx]
  exact pairwise_insertIdx hsorted hkey

theorem Sole.insert_eq (h : Sole t tree es) (hturns : 1 ≤ turns) :
    insert t turns tree data =
      (insertIntoLeaf t turns tree ⟨tree.root, 0, []⟩ data >>= fun tree =>
        pure (BPlusTree.counted tree, ⟨0, 0⟩, true)) := by
  obtain ⟨turns, rfl⟩ := Nat.exists_eq_add_of_le' hturns
  exact BPlusTree.insert_eq (h.sound.ne_zero h.root_node) (insertWalk_leaf h.chain.1 data.1)

theorem Sole.insert_room (h : Sole t tree es) (hkey : data.1 ∉ keyList es)
    (hroom : es.length < maximumKeysInNode t) (hturns : 1 ≤ turns) :
    ∃ tree', insert t turns tree data = .ok (tree', ⟨0, 0⟩, true) ∧
      Sole t tree' (withEntry es data) := by
  have hset := h.sound.setNode (m := .term ⟨0, withEntry es data⟩) h.root_node
  refine ⟨counted (tree.setNode tree.root (.term ⟨0, withEntry es data⟩)), ?_,
    hset.congr rfl rfl, tree.setNode_node_self _,
    sorted_withEntry h.sorted hkey, ?_⟩
  · rw [h.insert_eq hturns, insertIntoLeaf_room h.chain.1 hroom]
    rfl
  · rw [length_withEntry]
    exact hroom

theorem Sole.splitRoot (h : Sole t tree es) (ht : 1 ≤ t) (hkey : data.1 ∉ keyList es)
    (hfull : es.length = maximumKeysInNode t) {middle : κ × υ}
    (hlead : Leads middle.1 ((withEntry es data).drop t)) :
    Forest t (splitRoot tree t (withEntry es data) middle.1) [middle.1]
      [tree.root, tree.fresh + 1] [(withEntry es data).take t, (withEntry es data).drop t] := by
  obtain ⟨-, -, -, htake, htake_le, hdrop_le⟩ := exists_cut ht hfull data
  obtain ⟨hsound, hroot, hleft, hright⟩ := splitRoot_nodes h.sound h.root_node
  have hmax : 1 ≤ maximumKeysInNode t := by
    unfold maximumKeysInNode
    omega
  have hdrop : (withEntry es data).drop t ≠ [] := by
    obtain ⟨x, rest, hx, -⟩ := leads_iff.mp hlead
    rw [hx]
    exact List.cons_ne_nil x rest
  refine ⟨hsound, hroot, ⟨hleft, hright, trivial⟩, List.Forall₂.cons hlead List.Forall₂.nil, ?_,
    List.cons_ne_nil _ _, hmax, ?_, ?_⟩
  · rw [List.flatten_cons, List.flatten_singleton, List.take_append_drop]
    exact sorted_withEntry h.sorted hkey
  · intro p hp
    rcases List.mem_pair.mp hp with rfl | rfl
    · exact List.ne_nil_of_length_pos htake
    · exact hdrop
  · intro p hp
    rcases List.mem_pair.mp hp with rfl | rfl
    · exact htake_le
    · exact hdrop_le

theorem Sole.insert_full (h : Sole t tree es) (ht : 1 ≤ t) (hkey : data.1 ∉ keyList es)
    (hfull : es.length = maximumKeysInNode t) (hturns : 2 ≤ turns) :
    ∃ tree' key leaves, insert t turns tree data = .ok (tree', ⟨0, 0⟩, true) ∧
      Leads key ((withEntry es data).drop t) ∧
      Forest t tree' [key] leaves [(withEntry es data).take t, (withEntry es data).drop t] := by
  obtain ⟨turns, rfl⟩ := Nat.exists_eq_add_of_le' hturns
  obtain ⟨middle, hmiddle, hlead, -⟩ := exists_cut ht hfull data
  have hsize : (Node.term (⟨0, withEntry es data⟩ : Term κ υ)).size =
      .ok (maximumKeysInNode t + 1) := by
    rw [← hfull, ← length_withEntry]
    rfl
  have hcell : tree.cell tree.root = some (0, es) := h.chain.1
  refine ⟨_, middle.1, _, ?_, hlead, (h.splitRoot ht hkey hfull hlead).counted⟩
  rw [h.insert_eq (by omega), insertIntoLeaf_full hcell hfull,
    splitLoop_split (h.sound.ne_zero h.root_node) (tree.setNode_node_self _) hsize
      (Nat.lt_succ_self _),
    split_leaf cell_setNode_self,
    splitTerminate_root ht (h.sound.setNode h.root_node) cell_setNode_self hmiddle]
  show (splitLoop t (turns + 1) _ ⟨0, 0, []⟩ >>= fun tree => _) = _
  rw [splitLoop_null]
  rfl

theorem Forest.insert_eq (h : Forest t tree (kb ++ ka) (lb ++ a :: la) (before ++ part :: after))
    (hlen : lb.length = before.length) (hcell : tree.cell a = some (la.headD 0, part))
    (haround : Around data.1 kb ka before part after)
    (hkey : data.1 ∉ keyList (before ++ part :: after).flatten) (hturns : 2 ≤ turns) :
    insert t turns tree data =
      (insertIntoLeaf t turns tree ⟨a, tree.root, [(a, before.length - 1)]⟩ data >>= fun tree =>
        pure (BPlusTree.counted tree, ⟨0, 0⟩, true)) :=
  BPlusTree.insert_eq (h.sound.ne_zero h.root_node) (h.insertWalk_eq hlen hcell haround hkey hturns)

theorem Forest.insert_room (h : Forest t tree (kb ++ ka) (lb ++ a :: la) (before ++ part :: after))
    (hlen : lb.length = before.length) (hcell : tree.cell a = some (la.headD 0, part))
    (haround : Around data.1 kb ka before part after)
    (hkey : data.1 ∉ keyList (before ++ part :: after).flatten)
    (hroom : part.length < maximumKeysInNode t) (hturns : 2 ≤ turns) :
    ∃ tree', insert t turns tree data = .ok (tree', ⟨0, 0⟩, true) ∧
      Forest t tree' (kb ++ ka) (lb ++ a :: la) (before ++ withEntry part data :: after) := by
  obtain ⟨hpart, hafter⟩ := not_mem_around hkey
  obtain ⟨hsorted, hleft⟩ := haround.insert hpart hafter
  have hlength : (withEntry part data).length = part.length + 1 := length_withEntry
  have hne : withEntry part data ≠ [] := List.ne_nil_of_length_pos (by omega)
  have hforest := h.set_part hlen hcell hleft haround.right hsorted hne (by
    show (withEntry part data).length ≤ _
    rw [hlength]
    exact hroom)
  refine ⟨_, ?_, hforest.counted⟩
  rw [h.insert_eq hlen hcell haround hkey hturns, insertIntoLeaf_room hcell hroom]
  rfl

theorem Forest.insert_split (h : Forest t tree (kb ++ ka) (lb ++ a :: la) (before ++ part :: after))
    (ht : 1 ≤ t) (hlen : lb.length = before.length)
    (hcell : tree.cell a = some (la.headD 0, part)) (haround : Around data.1 kb ka before part after)
    (hkey : data.1 ∉ keyList (before ++ part :: after).flatten)
    (hfull : part.length = maximumKeysInNode t) (hroom : (kb ++ ka).length < maximumKeysInNode t)
    (hturns : 2 ≤ turns) :
    ∃ tree' key leaves, insert t turns tree data = .ok (tree', ⟨0, 0⟩, true) ∧
      Forest t tree' (kb ++ key :: ka) leaves
        (before ++ (withEntry part data).take t :: (withEntry part data).drop t :: after) := by
  obtain ⟨turns, rfl⟩ := Nat.exists_eq_add_of_le' hturns
  obtain ⟨middle, hmiddle, hlead, -⟩ := exists_cut ht hfull data
  have hforest := h.splitBelow ht hlen hcell haround hkey hfull hroom hlead
  refine ⟨_, middle.1, _, ?_, hforest.counted⟩
  rw [h.insert_eq hlen hcell haround hkey hturns,
    h.insertIntoLeaf_full ht hlen hcell haround hkey hfull hmiddle hlead,
    splitLoop_stop (h.sound.ne_zero h.root_node) hforest.root_node rfl hforest.keys_le]
  rfl

/-- `split_middle` reads the parent as a middle node. -/
theorem split_below_leaf (ht : 1 ≤ t) {b : ℕ}
    (hb : tree.node b = some (.middle ⟨false, keys, leaves⟩)) (hlt : t < keys.length)
    (ha : tree.cell a = some (next, part)) (ha0 : a ≠ 0) :
    split t tree b a = .error .outOfRange := by
  have hkey : get keys t = .ok keys[t] := get_eq_ok.mpr (List.getElem?_eq_getElem hlt)
  have hcast : tree.derefMiddle a = .error .outOfRange := by
    unfold Tree.derefMiddle Tree.deref
    rw [cell_eq_some.mp ha]
    rfl
  have hparent : splitParent tree a keys[t] = .error .outOfRange := by
    unfold splitParent
    rw [if_neg ha0, hcast]
    rfl
  unfold split Tree.deref
  rw [hb]
  show splitMiddle t tree b a = _
  unfold splitMiddle
  rw [derefMiddle_eq hb, middleInd_eq ht]
  show (get keys t >>= fun middleKey => _) = _
  rw [hkey]
  show (splitParent tree a keys[t] >>= fun parent => _) = _
  rw [hparent]
  rfl

theorem Forest.insert_overflow
    (h : Forest t tree (kb ++ ka) (lb ++ a :: la) (before ++ part :: after)) (ht : 1 ≤ t)
    (hlen : lb.length = before.length) (hcell : tree.cell a = some (la.headD 0, part))
    (haround : Around data.1 kb ka before part after)
    (hkey : data.1 ∉ keyList (before ++ part :: after).flatten)
    (hfull : part.length = maximumKeysInNode t) (hkeys : (kb ++ ka).length = maximumKeysInNode t)
    (hturns : 2 ≤ turns) : insert t turns tree data = .error .outOfRange := by
  obtain ⟨turns, rfl⟩ := Nat.exists_eq_add_of_le' hturns
  obtain ⟨middle, hmiddle, hlead, -⟩ := exists_cut ht hfull data
  obtain ⟨-, hroot, hleaf, -⟩ := splitBelow_nodes h.sound h.root_node (cell_eq_some.mp hcell)
  have hsize : (Node.middle (⟨false, kb ++ middle.1 :: ka, lb ++ a :: tree.fresh :: la⟩ :
      Middle κ) : Node κ υ).size = .ok (maximumKeysInNode t + 1) := by
    show Except.ok (kb ++ middle.1 :: ka).length = _
    rw [← hkeys]
    simp
    omega
  rw [h.insert_eq hlen hcell haround hkey hturns,
    h.insertIntoLeaf_full ht hlen hcell haround hkey hfull hmiddle hlead,
    splitLoop_split (h.sound.ne_zero h.root_node) hroot hsize (Nat.lt_succ_self _)]
  have hlt : t < (kb ++ middle.1 :: ka).length := by
    have hlength : (kb ++ middle.1 :: ka).length = (kb ++ ka).length + 1 := by simp; omega
    rw [hlength, hkeys]
    unfold maximumKeysInNode
    omega
  show ((split t _ tree.root a >>= _) >>= _) = _
  rw [split_below_leaf ht hroot hlt hleaf (h.sound.ne_zero (cell_eq_some.mp hcell))]
  rfl

/-- Everything that an insert of a new key can do below a middle root. -/
theorem Forest.insert_step (h : Forest t tree keys leaves parts) (ht : 1 ≤ t)
    (hkey : data.1 ∉ keyList parts.flatten) (hturns : 2 ≤ turns) :
    ∃ kb ka before part after, keys = kb ++ ka ∧ parts = before ++ part :: after ∧
      Around data.1 kb ka before part after ∧
      (part.length < maximumKeysInNode t ∧ (∃ tree', insert t turns tree data =
          .ok (tree', ⟨0, 0⟩, true) ∧
          Forest t tree' keys leaves (before ++ withEntry part data :: after)) ∨
        part.length = maximumKeysInNode t ∧ keys.length < maximumKeysInNode t ∧
          (∃ tree' key leaves', insert t turns tree data = .ok (tree', ⟨0, 0⟩, true) ∧
            Forest t tree' (kb ++ key :: ka) leaves' (before ++ (withEntry part data).take t ::
              (withEntry part data).drop t :: after)) ∨
        part.length = maximumKeysInNode t ∧ keys.length = maximumKeysInNode t ∧
          insert t turns tree data = .error .outOfRange) := by
  obtain ⟨kb, ka, lb, a, la, before, part, after, rfl, rfl, rfl, hlen, hcell, haround⟩ :=
    h.around data.1
  refine ⟨kb, ka, before, part, after, rfl, rfl, haround, ?_⟩
  rcases (h.parts_le part (by simp)).lt_or_eq with hroom | hfull
  · exact Or.inl ⟨hroom, h.insert_room hlen hcell haround hkey hroom hturns⟩
  · rcases h.keys_le.lt_or_eq with hkeys | hkeys
    · exact Or.inr (Or.inl ⟨hfull, hkeys,
        h.insert_split ht hlen hcell haround hkey hfull hkeys hturns⟩)
    · exact Or.inr (Or.inr ⟨hfull, hkeys,
        h.insert_overflow ht hlen hcell haround hkey hfull hkeys hturns⟩)

end MaiFaSp.BPlusTree
