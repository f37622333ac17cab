import MaiFaSp.BPlusTree.Erase
import MaiFaSp.BPlusTree.InsertRun

/-!
# One `erase` in a tree with leaves right below the root
-/

namespace MaiFaSp.BPlusTree

open BoundedVector LinkedChain CopiedSeparators

variable {κ υ : Type} [LinearOrder κ] {t turns : ℕ} {tree : Tree κ υ} {key : κ} {keys kb ka : List κ}
  {leaves lb la : List ℕ} {parts before after : List (List (κ × υ))} {a next j : ℕ}
  {part es : List (κ × υ)} {st : List (ℕ × ℕ)} {d : κ × υ}

/-! ### The calls around the removal -/

theorem eraseWalk_leaf {prevIndex : ℕ} (ha : tree.cell a = some (next, part)) (hturns : 1 ≤ turns) :
    eraseWalk tree key turns a prevIndex st = .ok (a, (a, prevIndex) :: st) := by
  obtain ⟨turns, rfl⟩ := Nat.exists_eq_add_of_le' hturns
  rw [eraseWalk]
  unfold Tree.deref
  rw [cell_eq_some.mp ha]
  rfl

theorem eraseWalk_middle {b child prevIndex : ℕ}
    (hb : tree.node b = some (.middle ⟨false, keys, leaves⟩))
    (hchild : leaves[lowerIndex keys key]? = some child) :
    eraseWalk tree key (turns + 1) b prevIndex st =
      eraseWalk tree key turns child (lowerIndex keys key) ((b, prevIndex) :: st) := by
  rw [eraseWalk]
  unfold Tree.deref
  rw [hb]
  show (get leaves (lowerIndex keys key) >>= fun next => _) = _
  rw [get_eq_ok.mpr hchild]
  rfl

/-- A tree whose iterators and lookups come to an end. -/
def Searchable (turns : ℕ) (tree : Tree κ υ) : Prop :=
  (∃ it, tree.endIterator turns = .ok it) ∧ ∀ key, ∃ it, find turns tree key = .ok it

theorem find_ok (hend : ∃ it, tree.endIterator turns = .ok it)
    (hwalk : findWalk tree key turns tree.root = .ok (some a))
    (ha : tree.cell a = some (next, part)) : ∃ it, find turns tree key = .ok it := by
  rw [find_of_walk hwalk ha]
  split
  · exact ⟨_, rfl⟩
  · exact hend

theorem Sole.searchable (h : Sole t tree es) (hturns : 1 ≤ turns) : Searchable turns tree :=
  ⟨⟨_, (h.iterators hturns).2⟩, fun _ => find_ok ⟨_, (h.iterators hturns).2⟩
    (findWalk_leaf h.sound h.chain.1 hturns) h.chain.1⟩

theorem findNext_le : findNext ⟨false, keys, leaves⟩ key ≤ keys.length := by
  have hle : lowerIndex keys key ≤ keys.length := lowerIndex_le
  show (if lowerIndex keys key + 1 = keys.length ∧ keys[lowerIndex keys key]? = some key then
    lowerIndex keys key + 1 else lowerIndex keys key) ≤ keys.length
  split
  · omega
  · exact hle

theorem Forest.searchable (h : Forest t tree keys leaves parts) (hturns : 2 ≤ turns) :
    Searchable turns tree := by
  obtain ⟨turns, rfl⟩ := Nat.exists_eq_add_of_le' (show 1 ≤ turns by omega)
  obtain ⟨last, hend, -⟩ := h.end_eq hturns
  refine ⟨⟨last, hend⟩, fun key => ?_⟩
  have hlt : findNext ⟨false, keys, leaves⟩ key < leaves.length := by
    have hlen := h.chain.length_eq
    have hparts := h.separates.length_eq
    exact Nat.lt_of_le_of_lt findNext_le (by omega)
  have hchild := List.getElem?_eq_getElem hlt
  obtain ⟨next, part, hcell⟩ := h.chain.mem (List.getElem_mem hlt)
  refine find_ok ⟨last, hend⟩ ?_ hcell
  rw [findWalk_middle h.sound h.root_node hchild]
  exact findWalk_leaf h.sound hcell (by omega)

theorem searchable_empty (hroot : tree.root = 0) (hturns : 1 ≤ turns) : Searchable turns tree := by
  have hall : FindsAll turns tree [] := findsAll_empty hroot hturns
  refine ⟨⟨⟨0, 0⟩, ?_⟩, fun key => ?_⟩
  · unfold Tree.endIterator
    rw [if_pos hroot]
    rfl
  · obtain ⟨it, hfind, -⟩ := hall.2 key List.not_mem_nil
    exact ⟨it, hfind⟩

theorem eraseResult_ok (h : Searchable turns tree) (nextIt : Iterator) (nextKey : κ) :
    ∃ it, eraseResult turns tree nextIt nextKey = .ok it := by
  obtain ⟨⟨last, hend⟩, hfind⟩ := h
  unfold eraseResult
  rw [hend]
  show ∃ it, (if nextIt = last then pure last else find turns tree nextKey) = .ok it
  split
  · exact ⟨last, rfl⟩
  · exact hfind nextKey

theorem nextKeyOf_ok {unset : κ} {nextIt : Iterator} (h : Searchable turns tree)
    (hentry : ∀ last, tree.endIterator turns = .ok last → nextIt ≠ last →
      ∃ e, tree.entry nextIt = .ok e) : ∃ nextKey, nextKeyOf turns unset tree nextIt = .ok nextKey := by
  obtain ⟨⟨last, hend⟩, -⟩ := h
  unfold nextKeyOf
  rw [hend]
  show ∃ nextKey, (if nextIt ≠ last then
    (tree.entry nextIt >>= fun e => pure e.1) else pure unset) = .ok nextKey
  split
  case isTrue hne =>
    obtain ⟨e, he⟩ := hentry last hend hne
    rw [he]
    exact ⟨e.1, rfl⟩
  case isFalse => exact ⟨unset, rfl⟩

theorem Forest.end_at (h : Forest t tree keys (lb ++ a :: la) (before ++ part :: after))
    (hlen : lb.length = before.length) (hturns : 2 ≤ turns) :
    tree.endIterator turns = .ok (lastOf a la part after) := by
  cases lb with
  | nil =>
    obtain rfl : before = [] := List.eq_nil_of_length_eq_zero hlen.symm
    exact (h.iterators hturns).2
  | cons b lb =>
    cases before with
    | nil => cases hlen
    | cons p before =>
      have hend : tree.endIterator turns =
          .ok (lastOf b (lb ++ a :: la) p (before ++ part :: after)) := (h.iterators hturns).2
      unfold lastOf at hend ⊢
      rw [getLastD_append_cons, getLastD_append_cons] at hend
      exact hend

/-- The tree that `erase` leaves once the entry is removed. -/
def discounted (tree : Tree κ υ) : Tree κ υ := { tree with size := tree.size - 1 }

theorem erase_of_absent {unset : κ} (hroot : tree.root ≠ 0)
    (hwalk : eraseWalk tree key turns tree.root 0 [] = .ok (a, st))
    (ha : tree.cell a = some (next, part)) (habsent : key ∉ keyList part)
    (h : Searchable turns tree) : ∃ it, erase t turns unset tree key = .ok (tree, it) := by
  obtain ⟨⟨last, hend⟩, -⟩ := h
  refine ⟨last, ?_⟩
  unfold erase
  rw [if_neg hroot, hwalk]
  show (tree.derefTerm a >>= fun leaf => _) = _
  rw [derefTerm_eq ha]
  show (if equalIndex part key = part.length then _ else _) = _
  rw [if_pos (equalIndex_of_not_mem habsent), hend]
  rfl

theorem erase_of_removed {unset : κ} {tree' : Tree κ υ} {nextIt : Iterator} {nextKey : κ}
    (hroot : tree.root ≠ 0) (hwalk : eraseWalk tree key turns tree.root 0 [] = .ok (a, st))
    (ha : tree.cell a = some (next, part)) (hindex : equalIndex part key ≠ part.length)
    (hnext : tree.increment ⟨a, equalIndex part key⟩ = .ok nextIt)
    (hnextKey : nextKeyOf turns unset tree nextIt = .ok nextKey)
    (hremove : deleteKeyFromLeaf t tree (equalIndex part key) a st = .ok tree')
    (h : Searchable turns (discounted tree')) :
    ∃ it, erase t turns unset tree key = .ok (discounted tree', it) := by
  obtain ⟨it, hresult⟩ := eraseResult_ok h nextIt nextKey
  refine ⟨it, ?_⟩
  unfold erase
  rw [if_neg hroot, hwalk]
  show (tree.derefTerm a >>= fun leaf => _) = _
  rw [derefTerm_eq ha]
  show (if equalIndex part key = part.length then _ else _) = _
  rw [if_neg hindex]
  show (tree.increment ⟨a, equalIndex part key⟩ >>= fun nextIt => _) = _
  rw [hnext]
  show (nextKeyOf turns unset tree nextIt >>= fun nextKey => _) = _
  rw [hnextKey]
  show (deleteKeyFromLeaf t tree (equalIndex part key) a st >>= fun tree => _) = _
  rw [hremove]
  show (eraseResult turns (discounted tree') nextIt nextKey >>= fun it => _) = _
  rw [hresult]
  rfl

/-! ### The removal from a leaf -/

/-- A part without its entry with the key `key`. -/
def without (part : List (κ × υ)) (key : κ) : List (κ × υ) := part.eraseIdx (equalIndex part key)

theorem equalIndex_lt (hkey : key ∈ keyList part) : equalIndex part key < part.length := by
  obtain ⟨x, hx, rfl⟩ := List.mem_map.mp hkey
  exact List.findIdx_lt_length_of_exists ⟨x, hx, decide_eq_true rfl⟩

theorem length_without (hkey : key ∈ keyList part) :
    (without part key).length + 1 = part.length := by
  have hlt := equalIndex_lt hkey
  unfold without
  rw [List.length_eraseIdx_of_lt hlt]
  omega

theorem without_sublist : (without part key).Sublist part := List.eraseIdx_sublist part _

theorem leads_without {k : κ} (h : Leads k part) (hlt : k < key) : Leads k (without part key) := by
  obtain ⟨x, rest, rfl, rfl⟩ := leads_iff.mp h
  have hindex : equalIndex (x :: rest) key = equalIndex rest key + 1 := by
    unfold equalIndex
    rw [List.findIdx_cons, decide_eq_false hlt.ne]
    rfl
  unfold without
  rw [hindex, List.eraseIdx_cons_succ]
  exact leads_iff.mpr ⟨x, _, rfl, rfl⟩

theorem around_without (h : Around key kb ka before part after) :
    Sorted (before.flatten ++ without part key ++ after.flatten) ∧
      Separates kb (before ++ [without part key]) := by
  constructor
  · refine h.sorted.sublist (List.Sublist.append ?_ (List.Sublist.refl _))
    exact List.Sublist.append (List.Sublist.refl _) without_sublist
  · exact h.left.replace_last fun k hk hlead => leads_without hlead (h.keys_lt k hk)

theorem Forest.eraseWalk_eq (h : Forest t tree (kb ++ ka) (lb ++ a :: la) (before ++ part :: after))
    (hlen : lb.length = before.length) (hcell : tree.cell a = some (la.headD 0, part))
    (haround : Around key kb ka before part after) (hturns : 2 ≤ turns) :
    eraseWalk tree key turns tree.root 0 [] = .ok (a, [(a, before.length), (tree.root, 0)]) := by
  obtain ⟨turns, rfl⟩ := Nat.exists_eq_add_of_le' (show 1 ≤ turns by omega)
  have hchild : (lb ++ a :: la)[lowerIndex (kb ++ ka) key]? = some a := by
    rw [haround.index, ← hlen, List.getElem?_append_right le_rfl, Nat.sub_self]
    rfl
  rw [eraseWalk_middle h.root_node hchild, eraseWalk_leaf hcell (by omega), haround.index]

theorem Forest.sibling_left (h : Forest t tree keys (lb ++ a :: la) (before ++ part :: after))
    (hlen : lb.length = before.length) :
    siblingSize tree (if 0 < before.length then (lb ++ a :: la).getD (before.length - 1) 0 else 0) =
      .ok (before.getLastD []).length := by
  rcases List.eq_nil_or_concat' before with rfl | ⟨before, l, rfl⟩
  · rfl
  · obtain ⟨lb, b, rfl⟩ := exists_snoc_of_length hlen
    have hlen' : lb.length = before.length := by simpa using hlen
    have hchain := h.chain
    rw [List.append_assoc, List.append_assoc] at hchain
    have hcell : tree.cell b = some (a, l) := ((chain_append hlen').mp hchain).2.1
    rw [if_pos (by simp), getD_before hlen, List.getLastD_concat]
    exact siblingSize_leaf h.sound hcell

theorem Forest.sibling_right (h : Forest t tree keys (lb ++ a :: la) (before ++ part :: after))
    (hlen : lb.length = before.length) :
    siblingSize tree ((lb ++ a :: la).getD (before.length + 1) 0) =
      .ok (after.headD []).length := by
  have hright := ((chain_append hlen).mp h.chain).2.2
  rw [getD_after hlen]
  cases la with
  | nil =>
    obtain rfl : after = [] := List.eq_nil_of_length_eq_zero hright.length_eq.symm
    rfl
  | cons c la =>
    cases after with
    | nil => cases hright
    | cons r after => exact siblingSize_leaf h.sound hright.1

theorem Forest.ne_root (h : Forest t tree keys leaves parts) (ha : a ∈ leaves) : tree.root ≠ a := by
  rintro rfl
  exact h.root_not_mem ha

/-- Two neighbouring leaves and the separator between them rewritten. -/
theorem Forest.rewrite {k k' : κ} {b : ℕ} {p q p' q' : List (κ × υ)} {tree' : Tree κ υ}
    (h : Forest t tree (kb ++ k :: ka) (lb ++ a :: b :: la) (before ++ p :: q :: after))
    (hlen : lb.length = before.length) (hsound : Sound tree') (hroot : tree'.root = tree.root)
    (hnode : tree'.node tree.root =
      some (.middle ⟨false, kb ++ k' :: ka, lb ++ a :: b :: la⟩))
    (ha : tree'.cell a = some (b, p')) (hb : tree'.cell b = some (la.headD 0, q'))
    (hothers : ∀ c, c ≠ a → c ≠ b → c ≠ tree.root → tree'.node c = tree.node c)
    (hleft : Separates kb (before ++ [p'])) (hlead : Leads k' q')
    (hright : List.Forall₂ Leads ka after)
    (hsorted : Sorted (before.flatten ++ (p' ++ q') ++ after.flatten)) (hp : p' ≠ [])
    (hp_le : p'.length ≤ maximumKeysInNode t) (hq_le : q'.length ≤ maximumKeysInNode t) :
    Forest t tree' (kb ++ k' :: ka) (lb ++ a :: b :: la) (before ++ p' :: q' :: after) := by
  have hnodup := h.chain.nodup h.sound.cell_null
  obtain ⟨hchain_left, -, hchain⟩ := (chain_append hlen).mp h.chain
  have hothers' : ∀ c ∈ lb ++ la, tree'.cell c = tree.cell c := by
    intro c hc
    have hmem : c ∈ lb ++ a :: b :: la := by
      rcases List.mem_append.mp hc with hc | hc
      · exact List.mem_append_left _ hc
      · exact List.mem_append_right _ (List.mem_cons_of_mem a (List.mem_cons_of_mem b hc))
    rw [List.nodup_append] at hnodup
    obtain ⟨-, hab, hcross⟩ := hnodup
    obtain ⟨hna, hnb⟩ := List.nodup_cons.mp hab
    have hc' : c ≠ a ∧ c ≠ b := by
      rcases List.mem_append.mp hc with hc | hc
      · exact ⟨hcross c hc a List.mem_cons_self,
          hcross c hc b (List.mem_cons_of_mem a List.mem_cons_self)⟩
      · constructor
        · rintro rfl
          exact hna (List.mem_cons_of_mem b hc)
        · rintro rfl
          exact (List.nodup_cons.mp hnb).1 hc
    exact cell_congr (hothers c hc'.1 hc'.2 (h.ne_root hmem).symm)
  refine ⟨hsound, ?_, ?_, ?_, ?_, List.append_ne_nil_of_right_ne_nil _ (List.cons_ne_nil _ _), ?_,
    ?_, ?_⟩
  · rw [hroot]
    exact hnode
  · refine (chain_append hlen).mpr ⟨?_, ha, hb, ?_⟩
    · exact hchain_left.congr fun c hc => hothers' c (List.mem_append_left _ hc)
    · exact hchain.2.congr fun c hc => hothers' c (List.mem_append_right _ hc)
  · exact separates_append.mpr ⟨kb, k' :: ka, rfl, hleft, List.Forall₂.cons hlead hright⟩
  · rw [List.flatten_append, List.flatten_cons, List.flatten_cons, ← List.append_assoc,
      ← List.append_assoc]
    rw [← List.append_assoc] at hsorted
    exact hsorted
  · have hkeys := h.keys_le
    rw [List.length_append, List.length_cons] at hkeys ⊢
    exact hkeys
  · have hq : q' ≠ [] := by
      obtain ⟨x, rest, rfl, -⟩ := leads_iff.mp hlead
      exact List.cons_ne_nil x rest
    exact forall_mem_window h.parts_ne hp hq
  · exact forall_mem_window h.parts_le hp_le hq_le

/-! ### The four ways to remove -/

theorem length_le_of_without (hkey : key ∈ keyList part) {n : ℕ} (hle : part.length ≤ n) :
    (without part key).length ≤ n := by
  have hlen := length_without hkey
  omega

theorem Forest.remove_room (h : Forest t tree (kb ++ ka) (lb ++ a :: la) (before ++ part :: after))
    (ht : 2 ≤ t) (hlen : lb.length = before.length) (hcell : tree.cell a = some (la.headD 0, part))
    (haround : Around key kb ka before part after) (hkey : key ∈ keyList part)
    (hroom : minimumKeysInNode t < part.length) :
    ∃ tree', deleteKeyFromLeaf t tree (equalIndex part key) a st = .ok tree' ∧
      Forest t tree' (kb ++ ka) (lb ++ a :: la) (before ++ without part key :: after) := by
  obtain ⟨hsorted, hleft⟩ := around_without haround
  have hlength := length_without hkey
  have hne : without part key ≠ [] := by
    refine List.ne_nil_of_length_pos ?_
    unfold minimumKeysInNode at hroom
    omega
  refine ⟨_, ?_, h.set_part hlen hcell hleft haround.right hsorted hne
    (length_le_of_without hkey (h.parts_le part (by simp)))⟩
  rw [deleteKeyFromLeaf.eq_def, derefTerm_eq hcell]
  show (if minimumKeysInNode t < part.length then _ else _) = _
  rw [if_pos hroom, eraseKey_eq hcell (equalIndex_lt hkey)]
  rfl

theorem Forest.remove_left {k : κ} {b : ℕ} {l : List (κ × υ)} {moved : κ × υ}
    (h : Forest t tree (kb ++ k :: ka) (lb ++ b :: a :: la)
      (before ++ (l ++ [moved]) :: part :: after))
    (hlen : lb.length = before.length) (hkb : kb.length = before.length)
    (hsep : Separates kb (before ++ [l ++ [moved]])) (hright : List.Forall₂ Leads ka after)
    (hkey : key ∈ keyList part) (hl : l ≠ []) :
    ∃ tree', borrowLeft t tree a tree.root b (before.length + 1) (equalIndex part key)
        (l ++ [moved]).length = .ok tree' ∧
      Forest t tree' (kb ++ moved.1 :: ka) (lb ++ b :: a :: la)
        (before ++ l :: (moved :: without part key) :: after) := by
  obtain ⟨-, hb, ha, -⟩ := (chain_append hlen).mp h.chain
  have hab : b ≠ a := by
    rintro rfl
    have hnodup := (List.nodup_append.mp (h.chain.nodup h.sound.cell_null)).2.1
    exact (List.nodup_cons.mp hnodup).1 List.mem_cons_self
  have hra := h.ne_root (show a ∈ lb ++ b :: a :: la by simp)
  have hrb := h.ne_root (show b ∈ lb ++ b :: a :: la by simp)
  have hpart := h.parts_le part (by simp)
  have hset : (kb ++ k :: ka).set before.length moved.1 = kb ++ moved.1 :: ka := by
    rw [← hkb, List.set_append_right _ _ le_rfl, Nat.sub_self]
    rfl
  have hborrow := borrowLeft_eq h.root_node ha hb hab (equalIndex_lt hkey) hpart
    (show before.length < (kb ++ k :: ka).length by
      rw [List.length_append, List.length_cons]
      omega)
  rw [hset] at hborrow
  obtain ⟨hsound, hnode, hcella, hcellb, hothers⟩ := rewritten_nodes h.sound
    (cell_eq_some.mp ha) (cell_eq_some.mp hb) h.root_node hab hra hrb
  refine ⟨_, hborrow, h.rewrite hlen hsound rfl hnode hcellb hcella
    (fun c hcb hca => hothers c hca hcb) ?_ ?_ hright ?_ hl ?_ ?_⟩
  · refine hsep.replace_last fun k _ hlead => ?_
    obtain ⟨x, rest, rfl⟩ := List.exists_cons_of_ne_nil hl
    exact hlead
  · exact leads_iff.mpr ⟨moved, _, rfl, rfl⟩
  · have hs := h.sorted
    rw [List.flatten_append, List.flatten_cons, List.flatten_cons, ← List.append_assoc (l ++ _),
      ← List.append_assoc] at hs
    refine hs.sublist (List.Sublist.append (List.Sublist.append (List.Sublist.refl _) ?_)
      (List.Sublist.refl _))
    rw [List.append_assoc]
    exact List.Sublist.append (List.Sublist.refl _) (without_sublist.cons_cons moved)
  · have hle := h.parts_le (l ++ [moved]) (by simp)
    rw [List.length_append] at hle
    exact (Nat.le_add_right _ _).trans hle
  · have hlength := length_without hkey
    show (without part key).length + 1 ≤ _
    omega

theorem Forest.remove_right {k : κ} {b : ℕ} {r : List (κ × υ)} {moved second : κ × υ}
    (h : Forest t tree (kb ++ k :: ka) (lb ++ a :: b :: la)
      (before ++ part :: (moved :: second :: r) :: after))
    (hlen : lb.length = before.length)
    (haround : Around key kb (k :: ka) before part ((moved :: second :: r) :: after))
    (hkey : key ∈ keyList part) :
    ∃ tree', borrowRight t tree a tree.root b before.length (equalIndex part key) = .ok tree' ∧
      Forest t tree' (kb ++ second.1 :: ka) (lb ++ a :: b :: la)
        (before ++ (without part key ++ [moved]) :: (second :: r) :: after) := by
  obtain ⟨-, ha, hb, -⟩ := (chain_append hlen).mp h.chain
  have hab : b ≠ a := by
    rintro rfl
    have hnodup := (List.nodup_append.mp (h.chain.nodup h.sound.cell_null)).2.1
    exact (List.nodup_cons.mp hnodup).1 List.mem_cons_self
  have hra := h.ne_root (show a ∈ lb ++ a :: b :: la by simp)
  have hrb := h.ne_root (show b ∈ lb ++ a :: b :: la by simp)
  have hkb := haround.left.keys_length
  have hset : (kb ++ k :: ka).set before.length second.1 = kb ++ second.1 :: ka := by
    rw [← hkb, List.set_append_right _ _ le_rfl, Nat.sub_self]
    rfl
  have hpart := h.parts_le part (by simp)
  have hborrow := borrowRight_eq h.root_node ha hb hab (equalIndex_lt hkey) hpart
    (show before.length < (kb ++ k :: ka).length by
      rw [List.length_append, List.length_cons]
      omega)
  rw [hset] at hborrow
  obtain ⟨hsound, hnode, hcella, hcellb, hothers⟩ := rewritten_nodes h.sound
    (cell_eq_some.mp ha) (cell_eq_some.mp hb) h.root_node hab hra hrb
  obtain ⟨-, hsep⟩ := around_without haround
  have hright : List.Forall₂ Leads ka after := by
    cases haround.right with
    | cons _ hright => exact hright
  refine ⟨_, hborrow, h.rewrite hlen hsound rfl hnode hcella hcellb hothers ?_ ?_ hright ?_ ?_ ?_
    ?_⟩
  · exact hsep.replace_last fun _ _ hlead => hlead.append
  · exact leads_iff.mpr ⟨second, r, rfl, rfl⟩
  · have hs := h.sorted
    rw [List.flatten_append, List.flatten_cons, List.flatten_cons, ← List.append_assoc part,
      ← List.append_assoc] at hs
    refine hs.sublist (List.Sublist.append (List.Sublist.append (List.Sublist.refl _) ?_)
      (List.Sublist.refl _))
    rw [List.append_assoc]
    exact List.Sublist.append without_sublist (List.Sublist.refl _)
  · exact List.append_ne_nil_of_right_ne_nil _ (List.cons_ne_nil _ _)
  · have hlength := length_without hkey
    rw [List.length_append, List.length_singleton]
    omega
  · have hle := h.parts_le (moved :: second :: r) (by simp)
    exact (Nat.le_succ _).trans hle

theorem merge_two {k : κ} {b aNext bNext : ℕ} {l r : List (κ × υ)} (hsound : Sound tree)
    (hroot : tree.node tree.root = some (.middle ⟨false, [k], [a, b]⟩))
    (ha : tree.cell a = some (aNext, l)) (hb : tree.cell b = some (bNext, r))
    (hsorted : Sorted (l ++ r)) (hle : l.length + r.length ≤ maximumKeysInNode t) :
    ∃ tree', (merge t tree a b tree.root 0 >>= fun tree' => dropEmptyRoot tree' tree.root) =
        .ok tree' ∧ Sole t tree' (l ++ r) := by
  have hra : tree.root ≠ a := by
    intro heq
    rw [heq, cell_eq_some.mp ha] at hroot
    cases hroot
  have hrb : tree.root ≠ b := by
    intro heq
    rw [heq, cell_eq_some.mp hb] at hroot
    cases hroot
  obtain ⟨hmerged, hnode⟩ := mergedLeaf_nodes hsound (cell_eq_some.mp ha) (cell_eq_some.mp hb) hroot
  refine ⟨_, ?_, hmerged, hnode, hsorted, ?_⟩
  · rw [mergeTerminate_eq hroot ha hb hle]
    exact dropEmptyRoot_merged hra hrb hsound.fresh_pos.ne'
  · rw [List.length_append]
    exact hle

theorem mergeLeaf_left {parent left right i sizeLeft sizeRight : ℕ}
    (ha : tree.cell a = some (next, part)) (hkey : key ∈ keyList part) (hleft : 0 < sizeLeft) :
    mergeLeaf t tree a parent left right i (equalIndex part key) sizeLeft sizeRight =
      merge t (tree.setNode a (.term ⟨next, without part key⟩)) left a parent (i - 1) := by
  unfold mergeLeaf
  rw [eraseKey_eq ha (equalIndex_lt hkey)]
  exact if_pos hleft

theorem mergeLeaf_right {parent left right i sizeRight : ℕ}
    (ha : tree.cell a = some (next, part)) (hkey : key ∈ keyList part) (hright : 0 < sizeRight) :
    mergeLeaf t tree a parent left right i (equalIndex part key) 0 sizeRight =
      merge t (tree.setNode a (.term ⟨next, without part key⟩)) a right parent i := by
  unfold mergeLeaf
  rw [eraseKey_eq ha (equalIndex_lt hkey)]
  exact if_pos hright

theorem Forest.remove_merge_left {k : κ} {b : ℕ} (right sizeRight : ℕ) {l : List (κ × υ)}
    (h : Forest t tree [k] [b, a] [l, part]) (hl : l.length ≤ minimumKeysInNode t)
    (hpart : part.length ≤ minimumKeysInNode t) (hkey : key ∈ keyList part) :
    ∃ tree', (mergeLeaf t tree a tree.root b right 1 (equalIndex part key) l.length sizeRight >>=
        fun tree' => dropEmptyRoot tree' tree.root) = .ok tree' ∧
      Sole t tree' (l ++ without part key) := by
  have ha : tree.cell a = some (0, part) := h.chain.2.1
  have hb : tree.cell b = some (a, l) := h.chain.1
  have hpos : 0 < l.length := List.length_pos_of_ne_nil (h.parts_ne l (by simp))
  have hab : b ≠ a := by
    rintro rfl
    exact (List.nodup_cons.mp (h.chain.nodup h.sound.cell_null)).1 List.mem_cons_self
  have hra := h.ne_root (show a ∈ [b, a] by simp)
  have hlength := length_without hkey
  have hs := h.sorted
  rw [List.flatten_cons, List.flatten_singleton] at hs
  have hmerge := merge_two (t := t) (r := without part key)
    (h.sound.setNode (m := .term ⟨0, without part key⟩) (cell_eq_some.mp ha))
    ((tree.setNode_node_of_ne _ hra).trans h.root_node)
    ((cell_congr (tree.setNode_node_of_ne _ hab)).trans hb) cell_setNode_self
    (hs.sublist (List.Sublist.append (List.Sublist.refl _) without_sublist)) (by
      unfold minimumKeysInNode at hl hpart
      show l.length + (without part key).length ≤ maximumKeysInNode t
      unfold maximumKeysInNode
      omega)
  obtain ⟨tree', hmerged, hsole⟩ := hmerge
  refine ⟨tree', ?_, hsole⟩
  rw [mergeLeaf_left ha hkey hpos]
  exact hmerged

/-- The second of two leaves is merged into the first, which loses the entry. -/
theorem Forest.remove_merge_right {k : κ} {b : ℕ} (left : ℕ) {r : List (κ × υ)}
    (h : Forest t tree [k] [a, b] [part, r]) (hr : r.length ≤ minimumKeysInNode t)
    (hpart : part.length ≤ minimumKeysInNode t) (hkey : key ∈ keyList part) :
    ∃ tree', (mergeLeaf t tree a tree.root left b 0 (equalIndex part key) 0 r.length >>=
        fun tree' => dropEmptyRoot tree' tree.root) = .ok tree' ∧
      Sole t tree' (without part key ++ r) := by
  have ha : tree.cell a = some (b, part) := h.chain.1
  have hb : tree.cell b = some (0, r) := h.chain.2.1
  have hpos : 0 < r.length := List.length_pos_of_ne_nil (h.parts_ne r (by simp))
  have hab : b ≠ a := by
    rintro rfl
    exact (List.nodup_cons.mp (h.chain.nodup h.sound.cell_null)).1 List.mem_cons_self
  have hra := h.ne_root (show a ∈ [a, b] by simp)
  have hlength := length_without hkey
  have hs := h.sorted
  rw [List.flatten_cons, List.flatten_singleton] at hs
  have hmerge := merge_two (t := t) (l := without part key)
    (h.sound.setNode (m := .term ⟨b, without part key⟩) (cell_eq_some.mp ha))
    ((tree.setNode_node_of_ne _ hra).trans h.root_node) cell_setNode_self
    ((cell_congr (tree.setNode_node_of_ne _ hab)).trans hb)
    (hs.sublist (List.Sublist.append without_sublist (List.Sublist.refl _))) (by
      unfold minimumKeysInNode at hr hpart
      show (without part key).length + r.length ≤ maximumKeysInNode t
      unfold maximumKeysInNode
      omega)
  obtain ⟨tree', hmerged, hsole⟩ := hmerge
  refine ⟨tree', ?_, hsole⟩
  rw [mergeLeaf_right ha hkey hpos]
  exact hmerged

/-- The trees with at most two levels whose leaves are chained. -/
inductive Chained (t : ℕ) (tree : Tree κ υ) : Prop where
  | empty (hsound : Sound tree) (hroot : tree.root = 0)
  | sole (es : List (κ × υ)) (h : Sole t tree es)
  | forest (keys : List κ) (leaves : List ℕ) (parts : List (List (κ × υ)))
      (h : Forest t tree keys leaves parts)

/-- The leaf, or a neighbour, has an entry to spare, or the root has one key. -/
def CanRemove (t : ℕ) (keys : List κ) (before : List (List (κ × υ))) (part : List (κ × υ))
    (after : List (List (κ × υ))) : Prop :=
  keys.length = 1 ∨ t ≤ part.length ∨ t ≤ (before.getLastD []).length ∨
    t ≤ (after.headD []).length

theorem exists_two_of_length {α : Type} {xs : List α} (h : 2 ≤ xs.length) :
    ∃ x y rest, xs = x :: y :: rest := by
  match xs, h with
  | x :: y :: rest, _ => exact ⟨x, y, rest, rfl⟩

theorem exists_last_of_length {α : Type} {xs : List α} (h : 2 ≤ xs.length) :
    ∃ ys y, ys ≠ [] ∧ xs = ys ++ [y] := by
  rcases List.eq_nil_or_concat' xs with rfl | ⟨ys, y, rfl⟩
  · cases h
  · refine ⟨ys, y, ?_, rfl⟩
    rintro rfl
    simp at h

theorem Forest.remove_from_left
    (h : Forest t tree (kb ++ ka) (lb ++ a :: la) (before ++ part :: after)) (ht : 2 ≤ t)
    (hlen : lb.length = before.length) (haround : Around key kb ka before part after)
    (hkey : key ∈ keyList part) (hleft : minimumKeysInNode t < (before.getLastD []).length) :
    ∃ tree', borrowLeft t tree a tree.root
        (if 0 < before.length then (lb ++ a :: la).getD (before.length - 1) 0 else 0) before.length
        (equalIndex part key) (before.getLastD []).length = .ok tree' ∧ Chained t tree' := by
  unfold minimumKeysInNode at hleft
  rcases List.eq_nil_or_concat' before with rfl | ⟨before, l', rfl⟩
  · cases hleft
  rw [List.getLastD_concat] at hleft ⊢
  obtain ⟨l, moved, hl, rfl⟩ := exists_last_of_length (show 2 ≤ l'.length by omega)
  obtain ⟨lb, b, rfl⟩ := exists_snoc_of_length hlen
  obtain ⟨kb, k, rfl⟩ := exists_snoc_of_length haround.left.keys_length
  have hlen' : lb.length = before.length := by simpa using hlen
  have hkb : kb.length = before.length := by simpa using haround.left.keys_length
  have hsep : Separates kb (before ++ [l ++ [moved]]) := by
    have hleft_sep := haround.left
    rw [List.append_assoc] at hleft_sep
    obtain ⟨kb', ka', hkeys, hsep, -⟩ := separates_append.mp hleft_sep
    have hkb' : kb'.length = kb.length := by rw [hsep.keys_length, hkb]
    rw [(List.append_inj hkeys hkb'.symm).1]
    exact hsep
  rw [if_pos (by simp), getD_before hlen]
  simp only [List.append_assoc, List.cons_append, List.nil_append] at h
  obtain ⟨tree', hborrow, hforest⟩ := h.remove_left hlen' hkb hsep haround.right hkey hl
  have hi : (before ++ [l ++ [moved]]).length = before.length + 1 := List.length_append
  rw [hi]
  exact ⟨tree', hborrow, Chained.forest _ _ _ hforest⟩

theorem Forest.remove_from_right
    (h : Forest t tree (kb ++ ka) (lb ++ a :: la) (before ++ part :: after)) (ht : 2 ≤ t)
    (hlen : lb.length = before.length) (haround : Around key kb ka before part after)
    (hkey : key ∈ keyList part) (hright : minimumKeysInNode t < (after.headD []).length) :
    ∃ tree', borrowRight t tree a tree.root ((lb ++ a :: la).getD (before.length + 1) 0)
        before.length (equalIndex part key) = .ok tree' ∧ Chained t tree' := by
  unfold minimumKeysInNode at hright
  cases after with
  | nil => cases hright
  | cons r' after =>
    rw [List.headD_cons] at hright
    obtain ⟨moved, second, r, rfl⟩ := exists_two_of_length (show 2 ≤ r'.length by omega)
    obtain ⟨k, ka, -, -, rfl⟩ := List.forall₂_cons_right_iff.mp haround.right
    have hchain := ((chain_append hlen).mp h.chain).2.2
    cases la with
    | nil => cases hchain
    | cons b la =>
      rw [getD_after hlen]
      obtain ⟨tree', hborrow, hforest⟩ := h.remove_right hlen haround hkey
      exact ⟨tree', hborrow, Chained.forest _ _ _ hforest⟩

theorem Forest.remove_merge (h : Forest t tree (kb ++ ka) (lb ++ a :: la) (before ++ part :: after))
    (hlen : lb.length = before.length) (hkeys : (kb ++ ka).length = 1) (hkey : key ∈ keyList part)
    (hpart : part.length ≤ minimumKeysInNode t)
    (hleft : (before.getLastD []).length ≤ minimumKeysInNode t)
    (hright : (after.headD []).length ≤ minimumKeysInNode t) :
    ∃ tree', (mergeLeaf t tree a tree.root
        (if 0 < before.length then (lb ++ a :: la).getD (before.length - 1) 0 else 0)
        ((lb ++ a :: la).getD (before.length + 1) 0) before.length (equalIndex part key)
        (before.getLastD []).length (after.headD []).length >>=
          fun tree' => dropEmptyRoot tree' tree.root) = .ok tree' ∧ Chained t tree' := by
  have hparts := h.separates.length_eq
  have hleaves := h.chain.length_eq
  rw [hkeys, List.length_append, List.length_cons] at hparts
  rw [List.length_append, List.length_append, List.length_cons, List.length_cons] at hleaves
  obtain ⟨k, hk⟩ := List.length_eq_one_iff.mp hkeys
  rw [hk] at h
  rcases before with _ | ⟨l, _ | ⟨l', before⟩⟩
  · obtain rfl : lb = [] := List.eq_nil_of_length_eq_zero hlen
    obtain ⟨r, rfl⟩ : ∃ r, after = [r] := List.length_eq_one_iff.mp (by simpa using hparts)
    obtain ⟨b, rfl⟩ : ∃ b, la = [b] := List.length_eq_one_iff.mp (by simpa using hleaves)
    obtain ⟨tree', hmerge, hsole⟩ := h.remove_merge_right 0 hright hpart hkey
    exact ⟨tree', hmerge, Chained.sole _ hsole⟩
  · obtain ⟨b, rfl⟩ : ∃ b, lb = [b] := List.length_eq_one_iff.mp hlen
    rw [List.length_singleton] at hparts hleaves
    obtain rfl : after = [] := List.eq_nil_of_length_eq_zero (by omega)
    obtain rfl : la = [] := by
      rw [List.length_singleton, List.length_nil] at hleaves
      exact List.eq_nil_of_length_eq_zero (by omega)
    obtain ⟨tree', hmerge, hsole⟩ := h.remove_merge_left 0 0 hleft hpart hkey
    exact ⟨tree', hmerge, Chained.sole _ hsole⟩
  · simp only [List.length_cons] at hparts
    omega

theorem Forest.remove (h : Forest t tree (kb ++ ka) (lb ++ a :: la) (before ++ part :: after))
    (ht : 2 ≤ t) (hlen : lb.length = before.length)
    (hcell : tree.cell a = some (la.headD 0, part)) (haround : Around key kb ka before part after)
    (hkey : key ∈ keyList part) (hcan : CanRemove t (kb ++ ka) before part after) :
    ∃ tree', deleteKeyFromLeaf t tree (equalIndex part key) a
        [(a, before.length), (tree.root, 0)] = .ok tree' ∧ Chained t tree' := by
  by_cases hroom : minimumKeysInNode t < part.length
  · obtain ⟨tree', hremove, hforest⟩ : ∃ tree', deleteKeyFromLeaf t tree (equalIndex part key) a
        [(a, before.length), (tree.root, 0)] = .ok tree' ∧
          Forest t tree' (kb ++ ka) (lb ++ a :: la) (before ++ without part key :: after) :=
      h.remove_room ht hlen hcell haround hkey hroom
    exact ⟨tree', hremove, Chained.forest _ _ _ hforest⟩
  · rw [deleteKeyFromLeaf_child h.root_node hcell (not_lt.mp hroom) (h.sibling_left hlen)
      (h.sibling_right hlen)]
    by_cases hleft : minimumKeysInNode t < (before.getLastD []).length
    · rw [if_pos hleft]
      exact h.remove_from_left ht hlen haround hkey hleft
    · rw [if_neg hleft]
      by_cases hright : minimumKeysInNode t < (after.headD []).length
      · rw [if_pos hright]
        exact h.remove_from_right ht hlen haround hkey hright
      · rw [if_neg hright]
        rw [not_lt] at hroom hleft hright
        refine h.remove_merge hlen ?_ hkey hroom hleft hright
        unfold minimumKeysInNode at hroom hleft hright
        rcases hcan with hkeys | hcan | hcan | hcan
        · exact hkeys
        · omega
        · omega
        · omega

end MaiFaSp.BPlusTree
