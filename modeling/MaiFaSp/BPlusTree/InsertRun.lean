import MaiFaSp.BPlusTree.InsertStep

/-!
# Runs of inserts and the lookups after them
-/

namespace MaiFaSp.BPlusTree

open BoundedVector LinkedChain CopiedSeparators

section

variable {κ υ : Type} {before after : List (List (κ × υ))} {part part' es ds : List (κ × υ)}
  {data : κ × υ} {key : κ} {n : ℕ}

theorem perm_set_part (hperm : (before ++ part :: after).flatten.Perm ds) (hpart : part'.Perm (data :: part)) :
    (before ++ part' :: after).flatten.Perm (ds ++ [data]) := by
  have hfront : (before ++ part' :: after).flatten.Perm
      (data :: (before ++ part :: after).flatten) := by
    rw [List.flatten_append, List.flatten_append, List.flatten_cons, List.flatten_cons]
    refine (List.Perm.append_left _ (List.Perm.append_right _ hpart)).trans ?_
    exact List.perm_middle
  refine hfront.trans ((List.Perm.cons data hperm).trans ?_)
  exact (List.perm_append_singleton data ds).symm

theorem perm_cut :
    (before ++ es.take n :: es.drop n :: after).flatten = (before ++ es :: after).flatten := by
  rw [List.flatten_append, List.flatten_append, List.flatten_cons, List.flatten_cons,
    List.flatten_cons, ← List.append_assoc (es.take n), List.take_append_drop]

theorem not_mem_of_perm (hperm : es.Perm ds) (hkey : key ∉ keyList ds) : key ∉ keyList es := by
  intro hk
  exact hkey ((hperm.map Prod.fst).mem_iff.mp hk)

end

variable {κ υ : Type} [LinearOrder κ] {t turns : ℕ} {tree : Tree κ υ} {key : κ} {keys : List κ}
  {leaves : List ℕ} {parts : List (List (κ × υ))} {a next : ℕ} {part es ds : List (κ × υ)}
  {data d : κ × υ}

/-! ### `find` -/

theorem findWalk_leaf (hsound : Sound tree) (ha : tree.cell a = some (next, part))
    (hturns : 1 ≤ turns) : findWalk tree key turns a = .ok (some a) := by
  obtain ⟨turns, rfl⟩ := Nat.exists_eq_add_of_le' hturns
  rw [findWalk, if_neg (hsound.ne_zero (cell_eq_some.mp ha))]
  unfold Tree.deref
  rw [cell_eq_some.mp ha]
  rfl

theorem findWalk_middle (hsound : Sound tree) {b child : ℕ}
    (hb : tree.node b = some (.middle ⟨false, keys, leaves⟩))
    (hchild : leaves[findNext ⟨false, keys, leaves⟩ key]? = some child) :
    findWalk tree key (turns + 1) b = findWalk tree key turns child := by
  rw [findWalk, if_neg (hsound.ne_zero hb)]
  unfold Tree.deref
  rw [hb]
  show (get leaves (findNext ⟨false, keys, leaves⟩ key) >>= fun next => _) = _
  rw [get_eq_ok.mpr hchild]
  rfl

theorem find_of_walk (hwalk : findWalk tree key turns tree.root = .ok (some a))
    (ha : tree.cell a = some (next, part)) :
    find turns tree key = if equalIndex part key ≠ part.length then .ok ⟨a, equalIndex part key⟩
      else tree.endIterator turns := by
  unfold find
  rw [hwalk]
  show (tree.derefTerm a >>= fun leaf => _) = _
  rw [derefTerm_eq ha]
  rfl

theorem equalIndex_of_mem (hsorted : Sorted part) (hd : d ∈ part) :
    equalIndex part d.1 ≠ part.length ∧ part[equalIndex part d.1]? = some d := by
  have hlt : equalIndex part d.1 < part.length :=
    List.findIdx_lt_length_of_exists ⟨d, hd, decide_eq_true rfl⟩
  have hkey : part[equalIndex part d.1].1 = d.1 := of_decide_eq_true (List.findIdx_getElem (w := hlt))
  refine ⟨hlt.ne, ?_⟩
  rw [List.getElem?_eq_getElem hlt, hsorted.eq_of_mem (List.getElem_mem hlt) hd hkey]

theorem equalIndex_of_not_mem (hkey : key ∉ keyList part) : equalIndex part key = part.length := by
  refine List.findIdx_eq_length.mpr fun x hx => decide_eq_false ?_
  rintro rfl
  exact hkey (List.mem_map_of_mem hx)

/-- `find` in the leaf that stores the entry. -/
theorem find_stored (hsound : Sound tree) (hsorted : Sorted part) (hd : d ∈ part)
    (hwalk : findWalk tree d.1 turns tree.root = .ok (some a))
    (ha : tree.cell a = some (next, part)) :
    ∃ it, find turns tree d.1 = .ok it ∧ tree.entry it = .ok d := by
  obtain ⟨hne, hget⟩ := equalIndex_of_mem hsorted hd
  refine ⟨_, ?_, entry_eq hsound ha hget⟩
  rw [find_of_walk hwalk ha, if_pos hne]

theorem find_absent (hkey : key ∉ keyList part)
    (hwalk : findWalk tree key turns tree.root = .ok (some a))
    (ha : tree.cell a = some (next, part)) : find turns tree key = tree.endIterator turns := by
  rw [find_of_walk hwalk ha, if_neg (not_not.mpr (equalIndex_of_not_mem hkey))]

/-- `find` returns the entry of every key of the list, and `end()` for every other key. -/
def FindsAll (turns : ℕ) (tree : Tree κ υ) (ds : List (κ × υ)) : Prop :=
  (∀ d ∈ ds, ∃ it, find turns tree d.1 = .ok it ∧ tree.entry it = .ok d) ∧
    ∀ key, key ∉ keyList ds → ∃ it, find turns tree key = .ok it ∧ tree.endIterator turns = .ok it

theorem Sole.findsAll (h : Sole t tree es) (hmem : ∀ x, x ∈ es ↔ x ∈ ds) (hturns : 1 ≤ turns) :
    FindsAll turns tree ds := by
  have hcell : tree.cell tree.root = some (0, es) := h.chain.1
  refine ⟨fun d hd => ?_, fun key hkey => ?_⟩
  · exact find_stored h.sound h.sorted ((hmem d).mpr hd) (findWalk_leaf h.sound hcell hturns) hcell
  · have habsent : key ∉ keyList es := by
      intro hk
      obtain ⟨x, hx, rfl⟩ := List.mem_map.mp hk
      exact hkey (List.mem_map_of_mem ((hmem x).mp hx))
    refine ⟨_, ?_, (h.iterators hturns).2⟩
    rw [find_absent habsent (findWalk_leaf h.sound hcell hturns) hcell]
    exact (h.iterators hturns).2

theorem findNext_one {k : κ} : findNext ⟨false, [k], leaves⟩ key = if key < k then 0 else 1 := by
  unfold findNext
  show (if lowerIndex [k] key + 1 = 1 ∧ [k][lowerIndex [k] key]? = some key then _ else _) = _
  rw [lowerIndex_cons, lowerIndex_nil]
  rcases lt_trichotomy k key with hlt | rfl | hlt
  · rw [if_pos hlt, if_neg (by simp), if_neg hlt.not_gt]
  · rw [if_neg (lt_irrefl _), if_pos ⟨rfl, rfl⟩, if_neg (lt_irrefl _)]
  · rw [if_neg hlt.not_gt, if_neg ?_, if_pos hlt]
    rintro ⟨-, hk⟩
    exact hlt.ne' (Option.some.inj hk)

/-- With more separators than one, the first one's key is looked for on its left. -/
theorem findNext_first {k k' : κ} {ks : List κ} : findNext ⟨false, k :: k' :: ks, leaves⟩ k = 0 := by
  unfold findNext
  show (if lowerIndex (k :: k' :: ks) k + 1 = _ ∧ _ then _ else _) = _
  rw [lowerIndex_cons, if_neg (lt_irrefl k), if_neg ?_]
  rintro ⟨hlen, -⟩
  simp at hlen

theorem one_separator {l r : List (κ × υ)} {k : κ} (hsorted : Sorted (l ++ r)) (hlead : Leads k r) :
    (l ++ r).filter (fun x => x.1 < k) = l ∧ (l ++ r).filter (fun x => k ≤ x.1) = r := by
  obtain ⟨hl, hr, hcross⟩ := sorted_append.mp hsorted
  have hbelow : ∀ x ∈ l, x.1 < k := by
    intro x hx
    obtain ⟨y, rest, rfl, rfl⟩ := leads_iff.mp hlead
    exact hcross x hx y List.mem_cons_self
  have habove : ∀ x ∈ r, k ≤ x.1 := fun x hx => le_of_leads hr hlead hx
  rw [List.filter_append, List.filter_append]
  constructor
  · rw [List.filter_eq_self.mpr fun x hx => decide_eq_true (hbelow x hx),
      List.filter_eq_nil_iff.mpr fun x hx => by simpa using habove x hx, List.append_nil]
  · rw [List.filter_eq_nil_iff.mpr fun x hx => by simpa using hbelow x hx,
      List.filter_eq_self.mpr fun x hx => decide_eq_true (habove x hx), List.nil_append]

/-- The leaf that `find` comes to holds the entries on its side of the separator. -/
theorem Forest.findWalk_one {k : κ} {l r : List (κ × υ)} {leaves : List ℕ}
    (h : Forest t tree [k] leaves [l, r]) (hturns : 2 ≤ turns) (key : κ) :
    ∃ a next, findWalk tree key turns tree.root = .ok (some a) ∧
      tree.cell a = some (next, if key < k then l else r) := by
  obtain ⟨turns, rfl⟩ := Nat.exists_eq_add_of_le' (show 1 ≤ turns by omega)
  obtain ⟨a, rest, -, -, rfl, -⟩ := h.exists_cons
  obtain ⟨b, rfl⟩ : ∃ b, rest = [b] := by
    have hlen := h.chain.length_eq
    exact List.length_eq_one_iff.mp (Nat.succ.inj hlen)
  have hl : tree.cell a = some (b, l) := h.chain.1
  have hr : tree.cell b = some (0, r) := h.chain.2.1
  by_cases hlt : key < k
  · refine ⟨a, b, ?_, ?_⟩
    · rw [findWalk_middle h.sound h.root_node (by rw [findNext_one, if_pos hlt]; rfl)]
      exact findWalk_leaf h.sound hl (by omega)
    · rw [if_pos hlt]
      exact hl
  · refine ⟨b, 0, ?_, ?_⟩
    · rw [findWalk_middle h.sound h.root_node (by rw [findNext_one, if_neg hlt]; rfl)]
      exact findWalk_leaf h.sound hr (by omega)
    · rw [if_neg hlt]
      exact hr

theorem Forest.end_eq (h : Forest t tree keys leaves parts) (hturns : 2 ≤ turns) :
    ∃ it, tree.endIterator turns = .ok it ∧ ∀ d, tree.entry it ≠ .ok d := by
  obtain ⟨a, leaves, part, parts, rfl, rfl⟩ := h.exists_cons
  refine ⟨_, (h.iterators hturns).2, fun d hd => ?_⟩
  have hcell := h.chain.last
  unfold Tree.entry lastOf at hd
  rw [if_neg (h.sound.ne_zero (cell_eq_some.mp hcell)), derefTerm_eq hcell] at hd
  have hget : (parts.getLastD part)[(parts.getLastD part).length]? = some d := get_eq_ok.mp hd
  rw [List.getElem?_eq_none le_rfl] at hget
  cases hget

theorem Forest.findsAll {k : κ} {l r : List (κ × υ)} (h : Forest t tree [k] leaves [l, r])
    (hmem : ∀ x, x ∈ l ++ r ↔ x ∈ ds) (hturns : 2 ≤ turns) : FindsAll turns tree ds := by
  have hsorted : Sorted (l ++ r) := by
    have hs := h.sorted
    rw [List.flatten_cons, List.flatten_singleton] at hs
    exact hs
  have hlead : Leads k r := by
    cases h.separates with
    | cons hlead _ => exact hlead
  obtain ⟨hl, hr⟩ := one_separator hsorted hlead
  have hside : ∀ x ∈ l ++ r, x ∈ if x.1 < k then l else r := by
    intro x hx
    split
    case isTrue hlt =>
      rw [← hl]
      exact List.mem_filter.mpr ⟨hx, decide_eq_true hlt⟩
    case isFalse hge =>
      rw [← hr]
      exact List.mem_filter.mpr ⟨hx, decide_eq_true (not_lt.mp hge)⟩
  refine ⟨fun d hd => ?_, fun key hkey => ?_⟩
  · obtain ⟨a, next, hwalk, hcell⟩ := h.findWalk_one hturns d.1
    refine find_stored h.sound ?_ (hside d ((hmem d).mpr hd)) hwalk hcell
    split
    · exact (sorted_append.mp hsorted).1
    · exact (sorted_append.mp hsorted).2.1
  · obtain ⟨a, next, hwalk, hcell⟩ := h.findWalk_one hturns key
    obtain ⟨it, hend, -⟩ := h.end_eq hturns
    refine ⟨it, ?_, hend⟩
    rw [find_absent ?_ hwalk hcell, hend]
    intro hk
    obtain ⟨x, hx, rfl⟩ := List.mem_map.mp hk
    refine hkey (List.mem_map_of_mem ((hmem x).mp ?_))
    split at hx
    · exact List.mem_append_left _ hx
    · exact List.mem_append_right _ hx

/-- With more separators than one, the key of the first is not found. -/
theorem Forest.not_findsAll (h : Forest t tree keys leaves parts) (hkeys : 2 ≤ keys.length)
    (hmem : ∀ x ∈ parts.flatten, x ∈ ds) (hturns : 2 ≤ turns) : ¬ FindsAll turns tree ds := by
  intro hall
  obtain ⟨turns, rfl⟩ := Nat.exists_eq_add_of_le' (show 1 ≤ turns by omega)
  obtain ⟨k, k', ks, rfl⟩ : ∃ k k' ks, keys = k :: k' :: ks := by
    match keys, hkeys with
    | k :: k' :: ks, _ => exact ⟨k, k', ks, rfl⟩
  obtain ⟨a, leaves, part, parts, rfl, rfl⟩ := h.exists_cons
  obtain ⟨d, hd, hdk⟩ := h.separates.mem (List.mem_cons_self)
  have hpart : k ∉ keyList part := by
    intro hk
    obtain ⟨x, hx, rfl⟩ := List.mem_map.mp hk
    obtain ⟨p, hp, hlead⟩ := exists_leads h.separates List.mem_cons_self
    obtain ⟨y, hy, hyx⟩ := mem_flatten_of_leads hp hlead
    have hs := h.sorted
    rw [List.flatten_cons] at hs
    exact ((sorted_append.mp hs).2.2 x hx y hy).ne' hyx
  have hchild : (a :: leaves)[findNext ⟨false, k :: k' :: ks, a :: leaves⟩ k]? = some a := by
    rw [findNext_first]
    rfl
  have hwalk : findWalk tree k (turns + 1) tree.root = .ok (some a) := by
    rw [findWalk_middle h.sound h.root_node hchild]
    exact findWalk_leaf h.sound h.chain.1 (by omega)
  obtain ⟨it, hfind, hentry⟩ := hall.1 d (hmem d hd)
  obtain ⟨last, hend, hnone⟩ := h.end_eq hturns
  rw [hdk, find_absent hpart hwalk h.chain.1, hend] at hfind
  cases hfind
  exact hnone d hentry

/-! ### The inserts that split once -/

/-- The entries with keys below `m`, and the others. -/
def below (ds : List (κ × υ)) (m : κ) : List (κ × υ) := ds.filter fun x => x.1 < m

def notBelow (ds : List (κ × υ)) (m : κ) : List (κ × υ) := ds.filter fun x => m ≤ x.1

/-- `m` is the key with `t` of the first `2t` keys below it. -/
def FirstSeparator (t : ℕ) (ds : List (κ × υ)) (m : κ) : Prop :=
  m ∈ keyList (ds.take (2 * t)) ∧ (below (ds.take (2 * t)) m).length = t

/-- At most the first `2t` keys fill a leaf. -/
def OneSplit (t : ℕ) (ds : List (κ × υ)) : Prop :=
  ∀ m, FirstSeparator t ds m → (below ds m).length < 2 * t ∧ (notBelow ds m).length < 2 * t

instance (t : ℕ) (ds : List (κ × υ)) : Decidable (OneSplit t ds) :=
  decidable_of_iff (∀ m ∈ keyList (ds.take (2 * t)), (below (ds.take (2 * t)) m).length = t →
      (below ds m).length < 2 * t ∧ (notBelow ds m).length < 2 * t)
    ⟨fun h m hm => h m hm.1 hm.2, fun h m hm ht => h m ⟨hm, ht⟩⟩

theorem length_below_lt {m : κ} (hd : d ∈ ds) (hlt : d.1 < m) :
    (below ds d.1).length < (below ds m).length := by
  have hsub : (below ds d.1).Sublist (below ds m) :=
    List.monotone_filter_right ds fun x hx => by
      rw [decide_eq_true_eq] at hx ⊢
      exact hx.trans hlt
  refine lt_of_le_of_ne hsub.length_le fun heq => ?_
  have hmem : d ∈ below ds m := List.mem_filter.mpr ⟨hd, decide_eq_true hlt⟩
  rw [← hsub.eq_of_length heq] at hmem
  exact lt_irrefl d.1 (of_decide_eq_true (List.mem_filter.mp hmem).2)

theorem FirstSeparator.unique {m m' : κ} (h : FirstSeparator t ds m)
    (h' : FirstSeparator t ds m') : m = m' := by
  obtain ⟨d, hd, rfl⟩ := List.mem_map.mp h.1
  obtain ⟨d', hd', rfl⟩ := List.mem_map.mp h'.1
  rcases lt_trichotomy d.1 d'.1 with hlt | heq | hlt
  · have hl := length_below_lt hd hlt
    rw [h.2, h'.2] at hl
    exact absurd hl (lt_irrefl t)
  · exact heq
  · have hl := length_below_lt hd' hlt
    rw [h.2, h'.2] at hl
    exact absurd hl (lt_irrefl t)

theorem FirstSeparator.append {m : κ} (h : FirstSeparator t ds m) (hlen : 2 * t ≤ ds.length) :
    FirstSeparator t (ds ++ [d]) m := by
  unfold FirstSeparator
  rw [List.take_append_of_le_length hlen]
  exact h

theorem oneSplit_of_short (h : ds.length < 2 * t) : OneSplit t ds :=
  fun _ _ => ⟨(List.length_filter_le _ _).trans_lt h, (List.length_filter_le _ _).trans_lt h⟩

theorem OneSplit.of_append (h : OneSplit t (ds ++ [d])) : OneSplit t ds := by
  rcases Nat.lt_or_ge ds.length (2 * t) with hshort | hlong
  · exact oneSplit_of_short hshort
  · intro m hm
    obtain ⟨hbelow, habove⟩ := h m (hm.append hlong)
    unfold below at hbelow
    unfold notBelow at habove
    rw [List.filter_append, List.length_append] at hbelow habove
    exact ⟨lt_of_le_of_lt (Nat.le_add_right _ _) hbelow,
      lt_of_le_of_lt (Nat.le_add_right _ _) habove⟩

/-- The tree after the inserts of `ds`. -/
inductive Grown (t : ℕ) (ds : List (κ × υ)) (tree : Tree κ υ) : Prop where
  | empty (hds : ds = []) (hsound : Sound tree) (hroot : tree.root = 0)
  | sole (es : List (κ × υ)) (h : Sole t tree es) (hperm : es.Perm ds)
  | halves (m : κ) (leaves : List ℕ) (l r : List (κ × υ)) (h : Forest t tree [m] leaves [l, r])
      (hlen : 2 * t ≤ ds.length) (hm : FirstSeparator t ds m) (hperm : (l ++ r).Perm ds)
  | more (keys : List κ) (leaves : List ℕ) (parts : List (List (κ × υ)))
      (h : Forest t tree keys leaves parts) (hkeys : 2 ≤ keys.length)
      (hperm : parts.flatten.Perm ds) (hmore : ¬ OneSplit t ds)

theorem withEntry_perm : (withEntry es data).Perm (data :: es) :=
  List.perm_insertIdx data es (lowerIndex_le.trans (List.length_map _).le)

theorem length_halves {m : κ} {l r : List (κ × υ)} (h : Forest t tree [m] leaves [l, r])
    (hperm : (l ++ r).Perm ds) :
    (below ds m).length = l.length ∧ (notBelow ds m).length = r.length := by
  have hsorted : Sorted (l ++ r) := by
    have hs := h.sorted
    rw [List.flatten_cons, List.flatten_singleton] at hs
    exact hs
  have hlead : Leads m r := by
    cases h.separates with
    | cons hlead _ => exact hlead
  obtain ⟨hl, hr⟩ := one_separator hsorted hlead
  constructor
  · exact ((hperm.filter _).length_eq.symm).trans (congrArg List.length hl)
  · exact ((hperm.filter _).length_eq.symm).trans (congrArg List.length hr)

theorem length_below_append {m : κ} (hlt : d.1 < m) :
    (below (ds ++ [d]) m).length = (below ds m).length + 1 := by
  have hd : [d].filter (fun x => x.1 < m) = [d] := by
    rw [List.filter_eq_self]
    intro x hx
    rw [List.mem_singleton.mp hx]
    exact decide_eq_true hlt
  unfold below
  rw [List.filter_append, hd, List.length_append, List.length_singleton]

theorem length_notBelow_append {m : κ} (hle : m ≤ d.1) :
    (notBelow (ds ++ [d]) m).length = (notBelow ds m).length + 1 := by
  have hd : [d].filter (fun x => m ≤ x.1) = [d] := by
    rw [List.filter_eq_self]
    intro x hx
    rw [List.mem_singleton.mp hx]
    exact decide_eq_true hle
  unfold notBelow
  rw [List.filter_append, hd, List.length_append, List.length_singleton]

theorem not_oneSplit_halves {m : κ} {l r : List (κ × υ)} {kb ka : List κ}
    {before after : List (List (κ × υ))} (ht : 1 ≤ t) (h : Forest t tree [m] leaves [l, r])
    (hlen : 2 * t ≤ ds.length) (hm : FirstSeparator t ds m) (hperm : (l ++ r).Perm ds)
    (hnew : data.1 ∉ keyList ds) (hkeys : [m] = kb ++ ka) (hparts : [l, r] = before ++ part :: after)
    (haround : Around data.1 kb ka before part after) (hfull : part.length = maximumKeysInNode t) :
    ¬ OneSplit t (ds ++ [data]) := by
  intro hone
  obtain ⟨hbelow, habove⟩ := hone m (hm.append hlen)
  obtain ⟨hl, hr⟩ := length_halves h hperm
  have hmax : maximumKeysInNode t + 1 = 2 * t := by
    unfold maximumKeysInNode
    omega
  have hkb := haround.left.keys_length
  cases before with
  | nil =>
    -- the left part: the new key is below the separator
    obtain ⟨rfl, rfl⟩ := List.cons.inj hparts
    have hne : data.1 ≠ m := by
      rintro rfl
      exact hnew (List.map_subset _ (List.take_subset _ _) hm.1)
    have hle : data.1 ≤ m := by
      cases h.separates with
      | cons hlead _ =>
        obtain ⟨x, hx, rfl⟩ := mem_flatten_of_leads List.mem_cons_self hlead
        exact haround.le_after x hx
    rw [length_below_append (lt_of_le_of_ne hle hne), hl] at hbelow
    omega
  | cons first before =>
    -- the right part
    obtain ⟨rfl, hrest⟩ := List.cons.inj hparts
    change [r] = before ++ part :: after at hrest
    have hnil : before = [] := by
      have hlength := congrArg List.length hrest
      rw [List.length_append, List.length_cons, List.length_cons, List.length_nil] at hlength
      exact List.eq_nil_of_length_eq_zero (by omega)
    subst hnil
    obtain ⟨rfl, -⟩ := List.cons.inj hrest
    obtain ⟨k, rfl⟩ := List.length_eq_one_iff.mp hkb
    obtain ⟨rfl, -⟩ := List.cons.inj hkeys
    have hle : m ≤ data.1 := (haround.keys_lt m List.mem_cons_self).le
    rw [length_notBelow_append hle, hr] at habove
    omega

theorem Grown.step (h : Grown t ds tree) (ht : 1 ≤ t) (hnew : data.1 ∉ keyList ds)
    (hturns : 2 ≤ turns) :
    (∃ tree', insert t turns tree data = .ok (tree', ⟨0, 0⟩, true) ∧ Grown t (ds ++ [data]) tree') ∨
      insert t turns tree data = .error .outOfRange ∧ ¬ OneSplit t (ds ++ [data]) := by
  cases h with
  | empty hds hsound hroot =>
    subst hds
    obtain ⟨tree', hinsert, hsole⟩ := insert_empty hsound hroot ht
    exact Or.inl ⟨tree', hinsert, Grown.sole [data] hsole (List.Perm.refl _)⟩
  | sole es h hperm =>
    have hkey := not_mem_of_perm hperm hnew
    have hperm' : (withEntry es data).Perm (ds ++ [data]) :=
      withEntry_perm.trans ((hperm.cons data).trans (List.perm_append_singleton data ds).symm)
    rcases h.length_le.lt_or_eq with hroom | hfull
    · obtain ⟨tree', hinsert, hsole⟩ := h.insert_room hkey hroom (show 1 ≤ turns by omega)
      exact Or.inl ⟨tree', hinsert, Grown.sole _ hsole hperm'⟩
    · obtain ⟨tree', m, leaves, hinsert, hlead, hforest⟩ := h.insert_full ht hkey hfull hturns
      have hlen : (ds ++ [data]).length = 2 * t := by
        rw [List.length_append, ← hperm.length_eq, hfull, List.length_singleton]
        unfold maximumKeysInNode
        omega
      have hsplit : ((withEntry es data).take t ++ (withEntry es data).drop t).Perm
          (ds ++ [data]) := by
        rw [List.take_append_drop]
        exact hperm'
      refine Or.inl ⟨tree', hinsert, Grown.halves m leaves _ _ hforest hlen.ge ?_ hsplit⟩
      obtain ⟨x, rest, hx, rfl⟩ := leads_iff.mp hlead
      constructor
      · rw [List.take_of_length_le hlen.le]
        refine List.mem_map_of_mem (hsplit.mem_iff.mp (List.mem_append_right _ ?_))
        rw [hx]
        exact List.mem_cons_self
      · rw [List.take_of_length_le hlen.le, (length_halves hforest hsplit).1, List.length_take,
          length_withEntry, hfull]
        unfold maximumKeysInNode
        omega
  | halves m leaves l r h hlen hm hperm =>
    have hperm' : [l, r].flatten.Perm ds := by
      rw [List.flatten_cons, List.flatten_singleton]
      exact hperm
    obtain ⟨kb, ka, before, part, after, hkeys, hparts, haround, hstep⟩ :=
      h.insert_step ht (not_mem_of_perm hperm' hnew) hturns
    rcases hstep with ⟨-, tree', hinsert, hforest⟩ |
      ⟨hfull, -, tree', key, leaves', hinsert, hforest⟩ | ⟨hfull, -, hinsert⟩
    · have htwo : (before ++ withEntry part data :: after).length = 2 := hforest.separates.length_eq
      obtain ⟨l', r', hlr⟩ := List.length_eq_two.mp htwo
      have hgrown : (before ++ withEntry part data :: after).flatten.Perm (ds ++ [data]) := by
        refine perm_set_part ?_ withEntry_perm
        rw [← hparts]
        exact hperm'
      rw [hlr] at hforest hgrown
      rw [List.flatten_cons, List.flatten_singleton] at hgrown
      refine Or.inl ⟨tree', hinsert, Grown.halves m leaves l' r' hforest ?_ (hm.append hlen) hgrown⟩
      rw [List.length_append]
      omega
    · have hmore := not_oneSplit_halves ht h hlen hm hperm hnew hkeys hparts haround hfull
      refine Or.inl ⟨tree', hinsert, Grown.more _ _ _ hforest ?_ ?_ hmore⟩
      · have hone := congrArg List.length hkeys
        rw [List.length_append, List.length_singleton] at hone
        rw [List.length_append, List.length_cons]
        omega
      · rw [perm_cut]
        refine perm_set_part ?_ withEntry_perm
        rw [← hparts]
        exact hperm'
    · exact Or.inr ⟨hinsert, not_oneSplit_halves ht h hlen hm hperm hnew hkeys hparts haround hfull⟩
  | more keys leaves parts h hkeys hperm hmore =>
    have hmore' : ¬ OneSplit t (ds ++ [data]) := fun hone => hmore hone.of_append
    obtain ⟨kb, ka, before, part, after, rfl, rfl, haround, hstep⟩ :=
      h.insert_step ht (not_mem_of_perm hperm hnew) hturns
    rcases hstep with ⟨-, tree', hinsert, hforest⟩ |
      ⟨-, -, tree', key, leaves', hinsert, hforest⟩ | ⟨-, -, hinsert⟩
    · exact Or.inl ⟨tree', hinsert,
        Grown.more _ _ _ hforest hkeys (perm_set_part hperm withEntry_perm) hmore'⟩
    · refine Or.inl ⟨tree', hinsert, Grown.more _ _ _ hforest ?_ ?_ hmore'⟩
      · simp at hkeys ⊢
        omega
      · rw [perm_cut]
        exact perm_set_part hperm withEntry_perm
    · exact Or.inr ⟨hinsert, hmore'⟩

theorem insertAll_append {xs ys : List (κ × υ)} :
    insertAll t turns (xs ++ ys) tree =
      (insertAll t turns xs tree >>= fun tree => insertAll t turns ys tree) := by
  induction xs generalizing tree with
  | nil => rfl
  | cons x xs ih =>
    show (insert t turns tree x >>= fun result => insertAll t turns (xs ++ ys) result.1) = _
    show _ = ((insert t turns tree x >>= fun result => insertAll t turns xs result.1) >>= _)
    rw [bind_assoc]
    refine congrArg (insert t turns tree x >>= ·) (funext fun result => ?_)
    exact ih

theorem insertAll_grown (ht : 1 ≤ t) (hturns : 2 ≤ turns) (hdistinct : (keyList ds).Nodup) :
    (∃ tree, insertAll t turns ds Tree.empty = .ok tree ∧ Grown t ds tree) ∨
      insertAll t turns ds Tree.empty = .error .outOfRange ∧ ¬ OneSplit t ds := by
  induction ds using List.reverseRecOn with
  | nil => exact Or.inl ⟨Tree.empty, rfl, Grown.empty rfl sound_empty rfl⟩
  | append_singleton ds data ih =>
    unfold keyList at hdistinct
    rw [List.map_append, List.map_singleton, List.nodup_append] at hdistinct
    obtain ⟨hprev, -, hdisjoint⟩ := hdistinct
    have hnew : data.1 ∉ keyList ds := fun hk => hdisjoint _ hk _ (List.mem_singleton_self _) rfl
    rw [insertAll_append]
    rcases ih hprev with ⟨tree, hrun, hgrown⟩ | ⟨hrun, hmore⟩
    · rw [hrun]
      rcases hgrown.step ht hnew hturns with ⟨tree', hinsert, hgrown'⟩ | ⟨hinsert, hmore⟩
      · refine Or.inl ⟨tree', ?_, hgrown'⟩
        show (insert t turns tree data >>= fun result => insertAll t turns [] result.1) = _
        rw [hinsert]
        rfl
      · refine Or.inr ⟨?_, hmore⟩
        show (insert t turns tree data >>= fun result => insertAll t turns [] result.1) = _
        rw [hinsert]
        rfl
    · rw [hrun]
      exact Or.inr ⟨rfl, fun hone => hmore hone.of_append⟩

theorem findsAll_empty (hroot : tree.root = 0) (hturns : 1 ≤ turns) :
    FindsAll turns tree ([] : List (κ × υ)) := by
  obtain ⟨turns, rfl⟩ := Nat.exists_eq_add_of_le' hturns
  have hend : tree.endIterator (turns + 1) = .ok ⟨0, 0⟩ := by
    unfold Tree.endIterator
    rw [if_pos hroot]
    rfl
  refine ⟨fun d hd => absurd hd List.not_mem_nil, fun key _ => ⟨⟨0, 0⟩, ?_, hend⟩⟩
  unfold find
  rw [hroot]
  exact hend

theorem Grown.findsAll_iff (h : Grown t ds tree) (ht : 1 ≤ t) (hturns : 2 ≤ turns) :
    FindsAll turns tree ds ↔ OneSplit t ds := by
  have hmax : maximumKeysInNode t < 2 * t := by
    unfold maximumKeysInNode
    omega
  cases h with
  | empty hds hsound hroot =>
    subst hds
    have hshort : ([] : List (κ × υ)).length < 2 * t := by
      rw [List.length_nil]
      omega
    exact ⟨fun _ => oneSplit_of_short hshort, fun _ => findsAll_empty hroot (by omega)⟩
  | sole es h hperm =>
    have hshort : ds.length < 2 * t := by
      rw [← hperm.length_eq]
      exact h.length_le.trans_lt hmax
    exact ⟨fun _ => oneSplit_of_short hshort,
      fun _ => h.findsAll (fun x => hperm.mem_iff) (by omega)⟩
  | halves m leaves l r h hlen hm hperm =>
    refine ⟨fun _ m' hm' => ?_, fun _ => h.findsAll (fun x => hperm.mem_iff) hturns⟩
    obtain rfl := hm'.unique hm
    obtain ⟨hl, hr⟩ := length_halves h hperm
    rw [hl, hr]
    exact ⟨(h.parts_le l (by simp)).trans_lt hmax, (h.parts_le r (by simp)).trans_lt hmax⟩
  | more keys leaves parts h hkeys hperm hmore =>
    exact ⟨fun hall => absurd hall (h.not_findsAll hkeys (fun x hx => hperm.mem_iff.mp hx) hturns),
      fun hone => absurd hone hmore⟩

/-- After inserts of distinct keys `find` is right for every key just when no second leaf
is split. -/
theorem insertAll_findsAll_iff (t turns : ℕ) (ds : List (κ × υ)) (ht : 1 ≤ t)
    (hturns : 2 ≤ turns) (hdistinct : (keyList ds).Nodup) :
    (∃ tree, insertAll t turns ds Tree.empty = .ok tree ∧ FindsAll turns tree ds) ↔
      OneSplit t ds := by
  rcases insertAll_grown ht hturns hdistinct with ⟨tree, hrun, hgrown⟩ | ⟨hrun, hmore⟩
  · constructor
    · rintro ⟨tree', hrun', hall⟩
      rw [hrun] at hrun'
      cases hrun'
      exact (hgrown.findsAll_iff ht hturns).mp hall
    · intro hone
      exact ⟨tree, hrun, (hgrown.findsAll_iff ht hturns).mpr hone⟩
  · constructor
    · rintro ⟨tree', hrun', -⟩
      rw [hrun] at hrun'
      cases hrun'
    · intro hone
      exact absurd hone hmore

theorem insertAll_findsAll_five :
    ∃ tree, insertAll 2 2 [(10, 'a'), (20, 'b'), (30, 'c'), (40, 'd'), (50, 'e')] Tree.empty =
        .ok tree ∧
      FindsAll 2 tree [(10, 'a'), (20, 'b'), (30, 'c'), (40, 'd'), (50, 'e')] :=
  (insertAll_findsAll_iff 2 2 [(10, 'a'), (20, 'b'), (30, 'c'), (40, 'd'), (50, 'e')] (by decide)
    (by decide) (by decide)).mpr (by decide)

/-- The sixth key makes a second separator: `find(30)` goes to the leaf of 10 and 20. -/
theorem insertAll_find_thirty_lost :
    (insertAll 2 2 [(10, 'a'), (20, 'b'), (30, 'c'), (40, 'd'), (50, 'e'), (60, 'f')] Tree.empty >>=
      fun tree => do
        let it ← find 2 tree 30
        let last ← tree.endIterator 2
        pure (decide (it = last))) = .ok true := by
  decide

end MaiFaSp.BPlusTree

/-!
## The constructors from a range and from a list (`b_plus_tree.h:720-743`)

Both insert all pairs first, into an object whose `_root` and `_size` nothing has set, and then set the root
to null and the size to zero.
-/

namespace MaiFaSp.BPlusTree

variable {κ υ : Type} [LinearOrder κ]

/-- The constructors from `begin` and `end` and from an `initializer_list`; `raw` is what the members are before. -/
def constructFrom (t turns : ℕ) (raw : Tree κ υ) (data : List (κ × υ)) : Except BoundedVector.NodeFault (Tree κ υ) := do
  let tree ← insertAll t turns data raw
  pure { tree with root := 0, size := 0 }

/-- The tree has the size of the list and its keys, as after default construction and the same inserts. -/
def BuildsFrom (t turns : ℕ) (raw : Tree κ υ) (data : List (κ × υ)) : Prop :=
  ∃ tree, constructFrom t turns raw data = .ok tree ∧ tree.size = data.length ∧ FindsAll turns tree data

variable {t turns : ℕ} {raw tree : Tree κ υ} {data : List (κ × υ)}

/-- Whatever was inserted, the tree is empty in the end. -/
theorem constructed_empty (h : constructFrom t turns raw data = .ok tree) : tree.root = 0 ∧ tree.size = 0 := by
  obtain ⟨tree', -, htree⟩ := bind_eq_ok.mp h
  cases htree
  exact ⟨rfl, rfl⟩

theorem constructFrom_iff (raw : Tree κ υ) (data : List (κ × υ)) (hturns : 1 ≤ turns) :
    BuildsFrom t turns raw data ↔ data = [] := by
  constructor
  · rintro ⟨tree, htree, hsize, -⟩
    rw [(constructed_empty htree).2] at hsize
    exact List.length_eq_zero_iff.mp hsize.symm
  · rintro rfl
    exact ⟨_, rfl, rfl, findsAll_empty rfl hturns⟩

theorem constructFrom_none : BuildsFrom 2 1 (Tree.empty : Tree ℕ Char) [] :=
  (constructFrom_iff Tree.empty [] le_rfl).mpr rfl

/-- Even where the members were null and zero before. -/
theorem constructFrom_one_lost :
    (constructFrom 2 1 Tree.empty [(10, 'a')]).map (fun tree => (tree.root, tree.size)) = .ok (0, 0) ∧
      (insertAll 2 1 [(10, 'a')] Tree.empty).map (fun tree => tree.size) = .ok 1 ∧
      ¬ BuildsFrom 2 1 Tree.empty [(10, 'a')] := by
  refine ⟨rfl, rfl, ?_⟩
  rintro ⟨tree, htree, hsize, -⟩
  cases htree
  cases hsize

end MaiFaSp.BPlusTree
