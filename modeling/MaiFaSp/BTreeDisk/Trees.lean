import MaiFaSp.BTreeDisk.Leaves

/-!
# B-trees of any height on the disk

A tree as a value, what it means that the slots of the disk hold it, and what `at` finds in
a tree that is held, also when some pairs are there twice.
-/

namespace MaiFaSp.BTreeDisk

open BoundedVector

/-- A node and what is below it. -/
structure Cell (κ υ τ : Type) where
  isLeaf : Bool
  position : ℕ
  keys : List (κ × υ)
  children : List τ
  deriving DecidableEq

/-- The children of a node that has leaves so many levels below it. -/
def Below (κ υ : Type) : ℕ → Type
  | 0 => Empty
  | height + 1 => Cell κ υ (Below κ υ height)

/-- A tree with all leaves on one level. -/
abbrev Tree (κ υ : Type) (height : ℕ) : Type := Cell κ υ (Below κ υ height)

variable {κ υ : Type}

namespace Tree

variable {height : ℕ}

def subtrees (T : Tree κ υ (height + 1)) : List (Tree κ υ height) := T.children

def childPositions : {height : ℕ} → Tree κ υ height → List ℕ
  | 0, _ => []
  | _ + 1, T => T.subtrees.map Cell.position

/-- The record of the root. -/
def node (t : ℕ) (T : Tree κ υ height) : Node κ υ :=
  ⟨T.keys.length, T.isLeaf, T.position, T.keys, paddedPointers t T.childPositions⟩

/-- The pairs in the order of the tree. -/
def contents : {height : ℕ} → Tree κ υ height → List (κ × υ)
  | 0, T => T.keys
  | _ + 1, T => interleave (T.subtrees.map contents) T.keys

def positions : {height : ℕ} → Tree κ υ height → List ℕ
  | 0, T => [T.position]
  | _ + 1, T => T.position :: T.subtrees.flatMap positions

/-- Every node has one more child than keys. -/
def Tidy : {height : ℕ} → Tree κ υ height → Prop
  | 0, _ => True
  | _ + 1, T => T.subtrees.length = T.keys.length + 1 ∧ ∀ c ∈ T.subtrees, Tidy c

/-- The nodes have as many keys as a B-tree's nodes have, and the root at least `least`. -/
def Filled (t : ℕ) : ℕ → {height : ℕ} → Tree κ υ height → Prop
  | least, 0, T => least ≤ T.keys.length ∧ T.keys.length ≤ maximumKeysInNode t
  | least, _ + 1, T => (least ≤ T.keys.length ∧ T.keys.length ≤ maximumKeysInNode t) ∧
      ∀ c ∈ T.subtrees, Filled t (minimumKeysInNode t) c

/-- The disk holds the tree. -/
def Stored (t : ℕ) (codec : Codec κ υ) (st : DiskTree) : {height : ℕ} → Tree κ υ height → Prop
  | 0, T => Holds t codec st T.position (T.node t)
  | _ + 1, T => Holds t codec st T.position (T.node t) ∧ ∀ c ∈ T.subtrees, Stored t codec st c

variable {t : ℕ} {codec : Codec κ υ} {st st' : DiskTree} {T : Tree κ υ height}

theorem Stored.holds (h : T.Stored t codec st) : Holds t codec st T.position (T.node t) := by
  cases height with
  | zero => exact h
  | succ height => exact h.1

theorem Filled.least_le {least : ℕ} (h : T.Filled t least) : least ≤ T.keys.length := by
  cases height with
  | zero => exact h.1
  | succ height => exact h.1.1

theorem position_mem (T : Tree κ υ height) : T.position ∈ T.positions := by
  cases height with
  | zero => exact List.mem_singleton_self _
  | succ height => exact List.mem_cons_self

theorem keys_sublist (h : T.Tidy) : T.keys.Sublist T.contents := by
  cases height with
  | zero => exact List.Sublist.refl _
  | succ height => exact sublist_interleave (by rw [List.length_map]; exact h.1)

theorem Stored.keys_length_le (h : T.Stored t codec st) : T.keys.length ≤ maximumKeysInNode t :=
  h.holds.size_le

theorem Stored.kept (h : T.Stored t codec st)
    (hkept : ∀ p m, p ∈ T.positions → Holds t codec st p m → Holds t codec st' p m) :
    T.Stored t codec st' := by
  induction height with
  | zero => exact hkept _ _ T.position_mem h
  | succ height ih =>
    refine ⟨hkept _ _ T.position_mem h.1, fun c hc => ih (h.2 c hc) fun p m hp => ?_⟩
    exact hkept p m (List.mem_cons_of_mem _ (List.mem_flatMap.mpr ⟨c, hc, hp⟩))

section Search

variable [LinearOrder κ] {key : κ} {turns : ℕ}

/-- `at` from a node of the tree. -/
theorem Stored.atWalk (h : T.Stored t codec st) (htidy : T.Tidy) (hs : Settled T.contents)
    (hcount : st.countOfNode ≤ sizeMax) (hturns : height + 2 ≤ turns) :
    atWalk t codec st key turns (T.node t) = .ok (lookup T.contents key) := by
  induction height generalizing turns with
  | zero =>
    obtain ⟨turns, rfl⟩ := Nat.exists_eq_add_of_le' hturns
    exact atWalk_leaf (n := T.node t) hcount h.holds.valid.ne rfl hs h.keys_length_le
  | succ height ih =>
    obtain ⟨turns, rfl⟩ := Nat.exists_eq_add_of_le' hturns
    obtain ⟨hlen, hbelow⟩ := htidy
    have hparts : (T.subtrees.map contents).length = T.keys.length + 1 := by
      rw [List.length_map, hlen]
    have hle := route_le T.keys key
    have hi : route T.keys key < T.subtrees.length := by omega
    have hi' : route T.keys key < (T.subtrees.map contents).length := by omega
    have hi'' : route T.keys key < (T.subtrees.map Cell.position).length := by
      rw [List.length_map]
      exact hi
    have hmem : T.subtrees[route T.keys key] ∈ T.subtrees := List.getElem_mem hi
    have hpart : Settled T.subtrees[route T.keys key].contents := by
      have hsplit := interleave_at hparts hi'
      rw [List.getElem_map] at hsplit
      unfold contents at hs
      rw [hsplit] at hs
      exact (settled_append.mp (settled_append.mp hs).1).2.1
    have hchild : BTreeDisk.atWalk t codec st key (turns + (height + 2))
        (diskRead t codec st (T.subtrees.map Cell.position)[route T.keys key]) =
          .ok (lookup (T.subtrees.map contents)[route T.keys key] key) := by
      rw [List.getElem_map, List.getElem_map, (h.2 _ hmem).holds.read]
      exact ih (h.2 _ hmem) (hbelow _ hmem) hpart (by omega)
    exact atWalk_inner (n := T.node t) h.holds.valid.ne rfl
      ((List.length_map _).trans hlen) h.keys_length_le hparts hs hi'' hi' hchild

end Search

end Tree

end MaiFaSp.BTreeDisk

/-!
# A subtree in its place

The path to a subtree with what lies before and behind it, and the tree after the subtree
was replaced.
-/

namespace MaiFaSp.BTreeDisk

open BoundedVector

variable {κ υ : Type}

namespace Tree

variable {top height : ℕ}

/-- `S` is in `T` at the end of the path that `erase` pushes, as the child with the given index
among the given siblings, between these pairs. -/
inductive Reaches (T : Tree κ υ top) : {height : ℕ} → Tree κ υ height →
    Option (ℕ × List (Tree κ υ height)) → List (ℕ × ℕ) → List (κ × υ) → List (κ × υ) → Prop
  | root : Reaches T T none [(T.position, 0)] [] []
  | child {height : ℕ} {P : Tree κ υ (height + 1)} {c : Tree κ υ height}
      {family : Option (ℕ × List (Tree κ υ (height + 1)))} {path : List (ℕ × ℕ)}
      {before after : List (κ × υ)} {i : ℕ} :
      Reaches T P family path before after → P.subtrees[i]? = some c →
      Reaches T c (some (i, P.subtrees)) ((c.position, i) :: path)
        (before ++ interleaveBefore ((P.subtrees.take i).map contents) (P.keys.take i))
        (interleaveAfter (P.keys.drop i) ((P.subtrees.drop (i + 1)).map contents) ++ after)

variable {t : ℕ} {codec : Codec κ υ} {st st' : DiskTree} {T : Tree κ υ top} {S S' : Tree κ υ height}
  {family : Option (ℕ × List (Tree κ υ height))} {path : List (ℕ × ℕ)}
  {before after : List (κ × υ)}

theorem Reaches.tidy (h : Reaches T S family path before after) (hT : T.Tidy) : S.Tidy := by
  induction h with
  | root => exact hT
  | child _ hc ih => exact ih.2 _ (List.mem_of_getElem? hc)

theorem Reaches.stored (h : Reaches T S family path before after) (hT : T.Stored t codec st) :
    S.Stored t codec st := by
  induction h with
  | root => exact hT
  | child _ hc ih => exact ih.2 _ (List.mem_of_getElem? hc)

theorem Reaches.positions_sublist (h : Reaches T S family path before after) :
    S.positions.Sublist T.positions := by
  induction h with
  | root => exact List.Sublist.refl _
  | child _ hc ih =>
    refine List.Sublist.trans ?_ ih
    refine (List.sublist_flatten_of_mem ?_).cons _
    exact List.mem_map_of_mem (List.mem_of_getElem? hc)

theorem Reaches.height_le (h : Reaches T S family path before after) : height ≤ top := by
  induction h with
  | root => exact le_rfl
  | child _ _ ih => exact Nat.le_of_succ_le ih

theorem contents_child {P : Tree κ υ (height + 1)} {c : Tree κ υ height} {i : ℕ} (htidy : P.Tidy)
    (hc : P.subtrees[i]? = some c) :
    P.contents = interleaveBefore ((P.subtrees.take i).map contents) (P.keys.take i) ++ c.contents ++
      interleaveAfter (P.keys.drop i) ((P.subtrees.drop (i + 1)).map contents) := by
  obtain ⟨hi, hci⟩ := List.getElem?_eq_some_iff.mp hc
  have hlen : (P.subtrees.map contents).length = P.keys.length + 1 :=
    (List.length_map _).trans htidy.1
  have hi' : i < (P.subtrees.map contents).length := by
    rw [List.length_map]
    exact hi
  have hat := interleave_at hlen hi'
  rw [List.getElem_map, hci, ← List.map_take, ← List.map_drop] at hat
  exact hat

theorem Reaches.contents (h : Reaches T S family path before after) (hT : T.Tidy) :
    T.contents = before ++ S.contents ++ after := by
  induction h with
  | root => simp
  | child hP hc ih =>
    rw [ih, contents_child (hP.tidy hT) hc]
    simp only [List.append_assoc]

/-- The child with one index replaced. -/
def setSubtree (P : Tree κ υ (height + 1)) (i : ℕ) (c : Tree κ υ height) : Tree κ υ (height + 1) :=
  ⟨P.isLeaf, P.position, P.keys, P.subtrees.set i c⟩

theorem map_position_set {P : Tree κ υ (height + 1)} {c c' : Tree κ υ height} {i : ℕ}
    (hc : P.subtrees[i]? = some c) (hpos : c'.position = c.position) :
    (P.subtrees.set i c').map Cell.position = P.subtrees.map Cell.position := by
  obtain ⟨hi, hci⟩ := List.getElem?_eq_some_iff.mp hc
  rw [List.map_set, hpos, ← hci]
  refine (congrArg _ (List.getElem_map Cell.position).symm).trans (List.set_getElem_self ?_)
  rw [List.length_map]
  exact hi

theorem not_mem_positions_child {P : Tree κ υ (height + 1)} {c d : Tree κ υ height} {i j p : ℕ}
    (hnodup : P.positions.Nodup) (hc : P.subtrees[i]? = some c) (hd : P.subtrees[j]? = some d)
    (hij : j ≠ i) (hp : p ∈ d.positions) : p ∉ c.positions := by
  intro hp'
  obtain ⟨hi, rfl⟩ := List.getElem?_eq_some_iff.mp hc
  obtain ⟨hj, rfl⟩ := List.getElem?_eq_some_iff.mp hd
  have hpair := (List.nodup_flatMap.mp (List.nodup_cons.mp hnodup).2).2
  rw [List.pairwise_iff_getElem] at hpair
  rcases Nat.lt_or_gt_of_ne hij with hlt | hgt
  · exact hpair j i hj hi hlt hp hp'
  · exact hpair i j hi hj hgt hp' hp

theorem root_not_mem_child {P : Tree κ υ (height + 1)} {c : Tree κ υ height} {i : ℕ}
    (hnodup : P.positions.Nodup) (hc : P.subtrees[i]? = some c) : P.position ∉ c.positions :=
  fun hp => (List.nodup_cons.mp hnodup).1
    (List.mem_flatMap.mpr ⟨c, List.mem_of_getElem? hc, hp⟩)

theorem child_positions_subset {P : Tree κ υ (height + 1)} {c : Tree κ υ height}
    (hc : c ∈ P.subtrees) : c.positions ⊆ P.positions :=
  fun _ hp => List.mem_cons_of_mem _ (List.mem_flatMap.mpr ⟨c, hc, hp⟩)

theorem Stored.setSubtree {P : Tree κ υ (height + 1)} {c c' : Tree κ υ height} {i : ℕ}
    (h : P.Stored t codec st) (hnodup : P.positions.Nodup) (hc : P.subtrees[i]? = some c)
    (hpos : c'.position = c.position) (hc' : c'.Stored t codec st')
    (hkept : ∀ p m, p ∈ P.positions → p ∉ c.positions → Holds t codec st p m →
      Holds t codec st' p m) : (P.setSubtree i c').Stored t codec st' := by
  constructor
  · have hnode : (P.setSubtree i c').node t = P.node t := by
      show (⟨_, _, _, _, paddedPointers t ((P.subtrees.set i c').map Cell.position)⟩ : Node κ υ) = _
      rw [map_position_set hc hpos]
      rfl
    have hroot := hkept P.position _ P.position_mem (root_not_mem_child hnodup hc) h.1
    rw [hnode]
    exact hroot
  · intro d hd
    obtain ⟨j, hj⟩ := List.mem_iff_getElem?.mp hd
    change (P.subtrees.set i c')[j]? = some d at hj
    by_cases hij : j = i
    · rw [hij, List.getElem?_set_self (List.getElem?_eq_some_iff.mp hc).1] at hj
      cases hj
      exact hc'
    · rw [List.getElem?_set_ne (Ne.symm hij)] at hj
      have hmem := List.mem_of_getElem? hj
      refine (h.2 d hmem).kept fun p m hp => ?_
      exact hkept p m (child_positions_subset hmem hp) (not_mem_positions_child hnodup hc hj hij hp)

theorem positions_setSubtree {P : Tree κ υ (height + 1)} {c c' : Tree κ υ height} {i : ℕ}
    (hc : P.subtrees[i]? = some c) (hpos : c'.positions = c.positions) :
    (P.setSubtree i c').positions = P.positions := by
  obtain ⟨hi, hci⟩ := List.getElem?_eq_some_iff.mp hc
  have hmap : (P.subtrees.set i c').map positions = P.subtrees.map positions := by
    rw [List.map_set, hpos, ← hci]
    refine (congrArg _ (List.getElem_map positions).symm).trans (List.set_getElem_self ?_)
    rw [List.length_map]
    exact hi
  show P.position :: (P.subtrees.set i c').flatMap positions = P.position :: P.subtrees.flatMap positions
  rw [List.flatMap_def, hmap, ← List.flatMap_def]

/-- The tree after the subtree was replaced by one at the same position. -/
theorem Reaches.replace (h : Reaches T S family path before after) (hT : T.Stored t codec st)
    (htidy : T.Tidy) (hnodup : T.positions.Nodup) (S' : Tree κ υ height)
    (hpos : S'.position = S.position) (hS' : S'.Stored t codec st') (htidy' : S'.Tidy)
    (hkeys : S'.keys = [] → S.keys = [])
    (hkept : ∀ p m, p ∈ T.positions → p ∉ S.positions → Holds t codec st p m →
      Holds t codec st' p m) :
    ∃ (T' : Tree κ υ top) (family' : Option (ℕ × List (Tree κ υ height))),
      Reaches T' S' family' path before after ∧ T'.Stored t codec st' ∧ T'.Tidy ∧
        T'.position = T.position ∧ (T'.keys = [] → T.keys = []) ∧
          (S'.positions = S.positions → T'.positions = T.positions) := by
  induction h with
  | root =>
    refine ⟨S', none, ?_, hS', htidy', hpos, hkeys, id⟩
    rw [← hpos]
    exact Reaches.root
  | @child height P c family path before after i hP hc ih =>
    have hPnodup := hnodup.sublist hP.positions_sublist
    have hi := (List.getElem?_eq_some_iff.mp hc).1
    have hsub := child_positions_subset (List.mem_of_getElem? hc)
    have hstored : (P.setSubtree i S').Stored t codec st' := by
      refine (hP.stored hT).setSubtree hPnodup hc hpos hS' fun p m hp hnot => ?_
      exact hkept p m (hP.positions_sublist.subset hp) hnot
    have htidyP : (P.setSubtree i S').Tidy := by
      obtain ⟨hlen, hbelow⟩ := hP.tidy htidy
      refine ⟨(List.length_set).trans hlen, fun d hd => ?_⟩
      rcases List.mem_or_eq_of_mem_set hd with hd | rfl
      · exact hbelow d hd
      · exact htidy'
    obtain ⟨T', family', hreach, hstored', htidyT, hposT, hkeysT, hpositions⟩ :=
      ih (P.setSubtree i S') rfl hstored htidyP id
        fun p m hp hnot => hkept p m hp fun hmem => hnot (hsub hmem)
    have hchild : (P.setSubtree i S').subtrees[i]? = some S' := List.getElem?_set_self hi
    have hnew := hreach.child hchild
    have htake : (P.setSubtree i S').subtrees.take i = P.subtrees.take i := List.take_set_of_le le_rfl
    have hdrop : (P.setSubtree i S').subtrees.drop (i + 1) = P.subtrees.drop (i + 1) :=
      List.drop_set_of_lt (Nat.lt_succ_self i)
    rw [htake, hdrop, hpos] at hnew
    exact ⟨T', _, hnew, hstored', htidyT, hposT, hkeysT,
      fun heq => hpositions (positions_setSubtree hc heq)⟩

end Tree

end MaiFaSp.BTreeDisk
