import MaiFaSp.BTreeDisk.EraseTree
import MaiFaSp.BTreeDisk.InsertRun
import MaiFaSp.Lib.Enumeration

/-!
# The iteration from `begin` to `end` (`b_tree_disk.hpp:820-933`)

`operator++` goes from a key to the first key of the next child, not to the leftmost leaf below it, and so passes
over the first subtree of every inner node that `begin` did not come through. What the loop reads is a
function of the tree.
-/

namespace MaiFaSp.BTreeDisk

open BoundedVector

variable {κ υ : Type}

/-- `btree_disk_const_iterator`, the top of the path first. -/
structure Iterator where
  path : List (ℕ × ℕ)
  index : ℕ
  deriving DecidableEq

section

variable (t : ℕ) (codec : Codec κ υ) (st : DiskTree)

/-- The loop of `begin`. -/
def leftmost : ℕ → Node κ υ → List (ℕ × ℕ) → Except NodeFault (List (ℕ × ℕ))
  | 0, _, _ => throw .diverged
  | turns + 1, curNode, path =>
    let child := curNode.pointers.getD 0 sizeMax
    if child ≠ sizeMax then
      let curNode := diskRead t codec st child
      leftmost turns curNode ((curNode.positionInDisk, 0) :: path)
    else pure path

def beginIterator (turns : ℕ) : Except NodeFault Iterator :=
  if st.positionRoot = sizeMax then pure ⟨[], 0⟩
  else do
    let path ← leftmost t codec st turns (diskRead t codec st st.positionRoot) [(st.positionRoot, 0)]
    pure ⟨path, 0⟩

def endIterator : Iterator :=
  if st.positionRoot = sizeMax then ⟨[], 0⟩
  else ⟨[(st.positionRoot, 0)], (diskRead t codec st st.positionRoot).keys.length⟩

/-- The part of `operator++` that climbs from a node whose keys are all passed. -/
def climb : ℕ × ℕ → List (ℕ × ℕ) → Iterator
  | top, [] => ⟨[top], (diskRead t codec st top.1).keys.length⟩
  | top, next :: path =>
    if top.2 < (diskRead t codec st next.1).keys.length then ⟨next :: path, top.2⟩ else climb next path

/-- `operator++` -/
def goToNext (it : Iterator) : Iterator :=
  match it.path with
  | [] => it
  | top :: path =>
    let curNode := diskRead t codec st top.1
    let child := curNode.pointers.getD (it.index + 1) sizeMax
    if child ≠ sizeMax then ⟨(child, it.index + 1) :: it.path, 0⟩
    else if it.index + 1 < curNode.keys.length then ⟨it.path, it.index + 1⟩
    else climb t codec st top path

/-- `operator*` -/
def entry (it : Iterator) : Except NodeFault (κ × υ) :=
  match it.path with
  | [] => throw .nullDereference
  | top :: _ => get (diskRead t codec st top.1).keys it.index

def cursor : Cursor Iterator (κ × υ) NodeFault where
  atEnd it := it = endIterator t codec st
  read := entry t codec st
  next it := pure (goToNext t codec st it)

/-- The loop from `begin()` to `end()` reads `es`, in this order. -/
def Visits (turns : ℕ) (es : List (κ × υ)) : Prop :=
  ∃ it, beginIterator t codec st turns = .ok it ∧ (cursor t codec st).collect .diverged turns it = .ok es

end

namespace Tree

variable {height : ℕ}

/-- What is read from the first key of the top node on. -/
def fromFirstKey : {height : ℕ} → Tree κ υ height → List (κ × υ)
  | 0, T => T.keys
  | _ + 1, T => interleaveAfter T.keys (T.subtrees.tail.map fromFirstKey)

/-- What is read from the leftmost leaf on. -/
def fromFirstLeaf : {height : ℕ} → Tree κ υ height → List (κ × υ)
  | 0, T => T.keys
  | _ + 1, T => T.subtrees.head?.elim [] fromFirstLeaf ++ interleaveAfter T.keys (T.subtrees.tail.map fromFirstKey)

/-- Every node below the root has a key. -/
def Keyed : {height : ℕ} → Tree κ υ height → Prop
  | 0, _ => True
  | _ + 1, T => ∀ c ∈ T.subtrees, c.keys ≠ [] ∧ Keyed c

variable {t turns j : ℕ} {codec : Codec κ υ} {st : DiskTree} {T : Tree κ υ height} {path : List (ℕ × ℕ)}
  {es : List (κ × υ)}

/-! ### The steps -/

theorem not_atEnd {it : Iterator} {e : κ × υ} (he : entry t codec st it = .ok e) :
    (cursor t codec st).atEnd it = false := by
  refine decide_eq_false ?_
  rintro rfl
  unfold endIterator at he
  split at he
  · cases he
  · have hnone := get_eq_ok.mp he
    rw [List.getElem?_eq_none le_rfl] at hnone
    cases hnone

/-- One step of the loop, in front of what comes next. -/
theorem run_cons {it it' it'' : Iterator} {e : κ × υ} (he : entry t codec st it = .ok e)
    (hnext : goToNext t codec st it = it') (h : (cursor t codec st).Run it' es it'') :
    (cursor t codec st).Run it (e :: es) it'' :=
  .cons (not_atEnd he) he (congrArg Except.ok hnext) h

theorem Stored.entry_at (h : T.Stored t codec st) {i : ℕ} {e : κ × υ} (he : T.keys[i]? = some e) :
    entry t codec st ⟨(T.position, j) :: path, i⟩ = .ok e := by
  refine get_eq_ok.mpr ?_
  rw [h.holds.read]
  exact he

/-- The child at a place, `SIZE_MAX` where there is none. -/
theorem Stored.pointer (h : T.Stored t codec st) (htidy : T.Tidy) (i : ℕ) :
    (diskRead t codec st T.position).pointers.getD i sizeMax = T.childPositions.getD i sizeMax := by
  have hlen : T.childPositions.length ≤ maximumPointersInNode t := by
    cases height with
    | zero => exact Nat.zero_le _
    | succ height =>
      have hkeys := h.keys_length_le
      have hsubtrees := htidy.1
      unfold childPositions maximumPointersInNode
      rw [List.length_map]
      omega
  rw [h.holds.read]
  show (paddedPointers t T.childPositions).getD i sizeMax = _
  rcases Nat.lt_or_ge i (maximumPointersInNode t) with hlt | hge
  · rw [List.getD_eq_getElem?_getD, paddedPointers_getElem? hlen hlt]
    rfl
  · rw [List.getD_eq_default _ _ (by rw [length_paddedPointers]; exact hge),
      List.getD_eq_default _ _ (hlen.trans hge)]

/-- Where `operator++` goes from a place in a stored node. -/
theorem Stored.goToNext_eq (h : T.Stored t codec st) (htidy : T.Tidy) (i : ℕ) :
    goToNext t codec st ⟨(T.position, j) :: path, i⟩ =
      if T.childPositions.getD (i + 1) sizeMax ≠ sizeMax then
        ⟨(T.childPositions.getD (i + 1) sizeMax, i + 1) :: (T.position, j) :: path, 0⟩
      else if i + 1 < T.keys.length then ⟨(T.position, j) :: path, i + 1⟩
      else climb t codec st (T.position, j) path := by
  have hkeys : (diskRead t codec st T.position).keys.length = T.keys.length := by
    rw [h.holds.read]
    rfl
  rw [← h.pointer htidy, ← hkeys]
  rfl

/-- Where it climbs to from a node that is done with. -/
theorem Stored.climb_cons (h : T.Stored t codec st) {p i j : ℕ} :
    climb t codec st (p, i) ((T.position, j) :: path) =
      if i < T.keys.length then ⟨(T.position, j) :: path, i⟩ else climb t codec st (T.position, j) path := by
  rw [climb, h.holds.read]
  rfl

/-- The keys of a leaf, from one of them on. -/
theorem leaf_run {T : Tree κ υ 0} (h : T.Stored t codec st) {l r : List (κ × υ)} (hkeys : T.keys = l ++ r)
    (hr : r ≠ []) :
    (cursor t codec st).Run ⟨(T.position, j) :: path, l.length⟩ r (climb t codec st (T.position, j) path) := by
  induction r generalizing l with
  | nil => exact absurd rfl hr
  | cons x r ih =>
    have hentry : entry t codec st ⟨(T.position, j) :: path, l.length⟩ = .ok x :=
      h.entry_at (by rw [hkeys]; simp)
    have hgo : goToNext t codec st ⟨(T.position, j) :: path, l.length⟩ =
        if l.length + 1 < T.keys.length then ⟨(T.position, j) :: path, l.length + 1⟩
        else climb t codec st (T.position, j) path := by
      rw [h.goToNext_eq trivial]
      exact if_neg (not_not.mpr rfl)
    have hlen : T.keys.length = l.length + (r.length + 1) := by
      rw [hkeys]
      simp
    cases r with
    | nil =>
      rw [hlen, if_neg (by simp)] at hgo
      exact run_cons hentry hgo (.nil _)
    | cons y r =>
      rw [hlen, if_pos (by simp)] at hgo
      have hrest := ih (l := l ++ [x]) (by rw [hkeys]; simp) (fun he => by cases he)
      rw [List.length_append, List.length_singleton] at hrest
      exact run_cons hentry hgo hrest

/-- The keys and the children of an inner node behind the child at the place `l.length`. -/
theorem rest_run {T : Tree κ υ (height + 1)} (h : T.Stored t codec st) (htidy : T.Tidy)
    (hchild : ∀ c ∈ T.subtrees, ∀ j path, (cursor t codec st).Run ⟨(c.position, j) :: path, 0⟩ c.fromFirstKey
      (climb t codec st (c.position, j) path))
    {l ks : List (κ × υ)} {cl cs : List (Tree κ υ height)} {p : ℕ} (hkeys : T.keys = l ++ ks)
    (hsubtrees : T.subtrees = cl ++ cs) (hcl : cl.length = l.length + 1) (hlen : cs.length = ks.length) :
    (cursor t codec st).Run (climb t codec st (p, l.length) ((T.position, j) :: path))
      (interleaveAfter ks (cs.map fromFirstKey)) (climb t codec st (T.position, j) path) := by
  induction ks generalizing l cl cs p with
  | nil =>
    obtain rfl := List.length_eq_zero_iff.mp hlen
    rw [Stored.climb_cons h, hkeys, if_neg (by simp)]
    exact .nil _
  | cons k ks ih =>
    cases cs with
    | nil => cases hlen
    | cons c cs =>
      have hc : c ∈ T.subtrees := by rw [hsubtrees]; simp
      have hentry : entry t codec st ⟨(T.position, j) :: path, l.length⟩ = .ok k :=
        h.entry_at (by rw [hkeys]; simp)
      have hgo : goToNext t codec st ⟨(T.position, j) :: path, l.length⟩ =
          ⟨(c.position, l.length + 1) :: (T.position, j) :: path, 0⟩ := by
        have hpointer : T.childPositions.getD (l.length + 1) sizeMax = c.position := by
          show (T.subtrees.map Cell.position).getD (l.length + 1) sizeMax = _
          rw [hsubtrees, ← hcl, List.getD_eq_getElem?_getD]
          simp
        rw [h.goToNext_eq htidy, hpointer]
        exact if_pos (h.2 c hc).holds.valid.ne
      have hkeys' : T.keys = (l ++ [k]) ++ ks := by rw [hkeys, List.append_assoc, List.singleton_append]
      have hsubtrees' : T.subtrees = (cl ++ [c]) ++ cs := by
        rw [hsubtrees, List.append_assoc, List.singleton_append]
      have hrest := ih (p := c.position) hkeys' hsubtrees' (by simp [hcl]) (Nat.succ.inj hlen)
      rw [List.length_append, List.length_singleton] at hrest
      rw [Stored.climb_cons h, hkeys, if_pos (by simp), List.map_cons, interleaveAfter_cons]
      exact run_cons hentry hgo ((hchild c hc _ _).append hrest)

/-- The first child and those behind the keys. -/
theorem Tidy.children {T : Tree κ υ (height + 1)} (h : T.Tidy) :
    ∃ c cs, T.subtrees = c :: cs ∧ cs.length = T.keys.length := by
  cases hsubtrees : T.subtrees with
  | nil =>
    have hlen := h.1
    rw [hsubtrees] at hlen
    cases hlen
  | cons c cs =>
    have hlen := h.1
    rw [hsubtrees] at hlen
    exact ⟨c, cs, rfl, Nat.succ.inj hlen⟩

section Children

variable {T : Tree κ υ (height + 1)} {c c' : Tree κ υ height} {cs : List (Tree κ υ height)}

theorem head_mem (h : T.subtrees = c :: cs) : c ∈ T.subtrees := by
  rw [h]
  exact List.mem_cons_self

theorem tail_mem (h : T.subtrees = c :: cs) (hc : c' ∈ cs) : c' ∈ T.subtrees := by
  rw [h]
  exact List.mem_cons_of_mem _ hc

end Children

/-- The loop through a subtree that it comes to from the key before it. -/
theorem firstKey_run (h : T.Stored t codec st) (htidy : T.Tidy) (hkeyed : T.Keyed) (hne : T.keys ≠ []) :
    (cursor t codec st).Run ⟨(T.position, j) :: path, 0⟩ T.fromFirstKey (climb t codec st (T.position, j) path) := by
  induction height generalizing j path with
  | zero => exact leaf_run h (l := []) rfl hne
  | succ height ih =>
    obtain ⟨c, cs, hsubtrees, hlen⟩ := htidy.children
    have hsubtrees' : T.subtrees = [c] ++ cs := hsubtrees
    have hclimb : climb t codec st (c.position, 0) ((T.position, j) :: path) = ⟨(T.position, j) :: path, 0⟩ := by
      rw [Stored.climb_cons h, if_pos (List.length_pos_of_ne_nil hne)]
    rw [fromFirstKey, hsubtrees, ← hclimb]
    exact rest_run (l := []) h htidy
      (fun c hc j path => ih (h.2 c hc) (htidy.2 c hc) (hkeyed c hc).2 (hkeyed c hc).1) rfl hsubtrees' rfl hlen

/-! ### The way down of `begin` -/

/-- The path to the leftmost leaf. -/
def leftPath : {height : ℕ} → Tree κ υ height → List (ℕ × ℕ) → List (ℕ × ℕ)
  | 0, _, path => path
  | _ + 1, T, path => T.subtrees.head?.elim path fun c => leftPath c ((c.position, 0) :: path)

theorem leftmost_eq (h : T.Stored t codec st) (htidy : T.Tidy) (hturns : height < turns) :
    leftmost t codec st turns (diskRead t codec st T.position) path = .ok (T.leftPath path) := by
  obtain ⟨n, rfl⟩ := Nat.exists_eq_add_of_lt hturns
  induction height generalizing path with
  | zero =>
    have hnull : (diskRead t codec st T.position).pointers.getD 0 sizeMax = sizeMax := h.pointer htidy 0
    rw [leftmost, hnull]
    exact if_neg (not_not.mpr rfl)
  | succ height ih =>
    obtain ⟨c, cs, hsubtrees, -⟩ := htidy.children
    have hc := head_mem hsubtrees
    have hchild : (diskRead t codec st T.position).pointers.getD 0 sizeMax = c.position := by
      rw [h.pointer htidy]
      show (T.subtrees.map Cell.position).getD 0 sizeMax = _
      rw [hsubtrees]
      rfl
    have hpos : (diskRead t codec st c.position).positionInDisk = c.position := by
      rw [(h.2 c hc).holds.read]
      rfl
    have hdown : leftmost t codec st (height + n + 1) (diskRead t codec st c.position)
        (((diskRead t codec st c.position).positionInDisk, 0) :: path) =
          .ok (c.leftPath ((c.position, 0) :: path)) := by
      rw [hpos]
      exact ih (h.2 c hc) (htidy.2 c hc) (by omega)
    rw [leftPath, hsubtrees, show height + 1 + n + 1 = (height + n + 1) + 1 by omega, leftmost, hchild,
      if_pos (h.2 c hc).holds.valid.ne]
    exact hdown

/-- The loop through a subtree that `begin` went down in. -/
theorem firstLeaf_run (h : T.Stored t codec st) (htidy : T.Tidy) (hkeyed : T.Keyed)
    (hne : T.keys ≠ [] ∨ path = []) :
    (cursor t codec st).Run ⟨T.leftPath ((T.position, j) :: path), 0⟩ T.fromFirstLeaf
      (climb t codec st (T.position, j) path) := by
  induction height generalizing j path with
  | zero =>
    by_cases hkeys : T.keys = []
    · obtain rfl := hne.resolve_left (not_not.mpr hkeys)
      rw [climb, h.holds.read]
      show (cursor t codec st).Run _ T.keys ⟨_, T.keys.length⟩
      rw [hkeys]
      exact .nil _
    · exact leaf_run h (l := []) rfl hkeys
  | succ height ih =>
    obtain ⟨c, cs, hsubtrees, hlen⟩ := htidy.children
    have hc := head_mem hsubtrees
    have hsubtrees' : T.subtrees = [c] ++ cs := hsubtrees
    have hfirst : (cursor t codec st).Run ⟨c.leftPath ((c.position, 0) :: (T.position, j) :: path), 0⟩
        c.fromFirstLeaf (climb t codec st (c.position, 0) ((T.position, j) :: path)) :=
      ih (h.2 c hc) (htidy.2 c hc) (hkeyed c hc).2 (Or.inl (hkeyed c hc).1)
    rw [leftPath, fromFirstLeaf, hsubtrees]
    exact hfirst.append (rest_run (l := []) h htidy
      (fun c hc j path => firstKey_run (h.2 c hc) (htidy.2 c hc) (hkeyed c hc).2 (hkeyed c hc).1) rfl hsubtrees' rfl
      hlen)

/-! ### What is passed over -/

theorem contents_cons {T : Tree κ υ (height + 1)} {c : Tree κ υ height} {cs : List (Tree κ υ height)}
    (hsubtrees : T.subtrees = c :: cs) (hlen : cs.length = T.keys.length) :
    T.contents = c.contents ++ interleaveAfter T.keys (cs.map contents) := by
  rw [contents, hsubtrees, List.map_cons, interleave_cons (by rw [List.length_map, hlen])]

theorem fromFirstKey_sublist (htidy : T.Tidy) : T.fromFirstKey.Sublist T.contents := by
  induction height with
  | zero => exact List.Sublist.refl _
  | succ height ih =>
    obtain ⟨c, cs, hsubtrees, hlen⟩ := htidy.children
    rw [contents_cons hsubtrees hlen, fromFirstKey, hsubtrees]
    have hrest : (interleaveAfter T.keys (cs.map fromFirstKey)).Sublist (interleaveAfter T.keys (cs.map contents)) :=
      interleaveAfter_sublist fun c hc => ih (htidy.2 c (tail_mem hsubtrees hc))
    exact hrest.trans (List.sublist_append_right _ _)

theorem rest_sublist {T : Tree κ υ (height + 1)} {c : Tree κ υ height} {cs : List (Tree κ υ height)} (htidy : T.Tidy)
    (hsubtrees : T.subtrees = c :: cs) :
    (interleaveAfter T.keys (cs.map fromFirstKey)).Sublist (interleaveAfter T.keys (cs.map contents)) :=
  interleaveAfter_sublist fun c hc => fromFirstKey_sublist (htidy.2 c (tail_mem hsubtrees hc))

theorem fromFirstLeaf_sublist (htidy : T.Tidy) : T.fromFirstLeaf.Sublist T.contents := by
  induction height with
  | zero => exact List.Sublist.refl _
  | succ height ih =>
    obtain ⟨c, cs, hsubtrees, hlen⟩ := htidy.children
    have hfirst := ih (htidy.2 c (head_mem hsubtrees))
    rw [contents_cons hsubtrees hlen, fromFirstLeaf, hsubtrees]
    exact hfirst.append (rest_sublist htidy hsubtrees)

theorem contents_ne_nil (htidy : T.Tidy) (hne : T.keys ≠ []) : T.contents ≠ [] := fun h =>
  hne (List.sublist_nil.mp (h ▸ keys_sublist htidy))

/-- From the first key on nothing is missed in a leaf only. -/
theorem fromFirstKey_eq_iff (htidy : T.Tidy) (hkeyed : T.Keyed) :
    T.fromFirstKey = T.contents ↔ height = 0 := by
  cases height with
  | zero => exact iff_of_true rfl rfl
  | succ height =>
    refine iff_of_false (fun heq => ?_) (Nat.succ_ne_zero height)
    obtain ⟨c, cs, hsubtrees, hlen⟩ := htidy.children
    have hc := head_mem hsubtrees
    have hsub : (T.fromFirstKey).Sublist (interleaveAfter T.keys (cs.map contents)) := by
      rw [fromFirstKey, hsubtrees]
      exact rest_sublist htidy hsubtrees
    have hle := hsub.length_le
    have hpos := List.length_pos_of_ne_nil (contents_ne_nil (htidy.2 c hc) (hkeyed c hc).1)
    rw [heq, contents_cons hsubtrees hlen, List.length_append] at hle
    omega

/-- From the first leaf on nothing is missed with one level of inner nodes, or where the root of two such levels
has a single child. -/
theorem fromFirstLeaf_eq_iff (htidy : T.Tidy) (hkeyed : T.Keyed) :
    T.fromFirstLeaf = T.contents ↔ height ≤ 1 ∨ height = 2 ∧ T.keys = [] := by
  induction height with
  | zero => exact iff_of_true rfl (Or.inl (Nat.zero_le 1))
  | succ height ih =>
    obtain ⟨c, cs, hsubtrees, hlen⟩ := htidy.children
    have hc := head_mem hsubtrees
    have hcs : ∀ c' ∈ cs, c' ∈ T.subtrees := fun _ => tail_mem hsubtrees
    have hfirst := fromFirstLeaf_sublist (htidy.2 c hc)
    have hparts : T.fromFirstLeaf = T.contents ↔
        c.fromFirstLeaf = c.contents ∧ ∀ c' ∈ cs, c'.fromFirstKey = c'.contents := by
      rw [contents_cons hsubtrees hlen, fromFirstLeaf, hsubtrees]
      show c.fromFirstLeaf ++ interleaveAfter T.keys (cs.map fromFirstKey) = _ ↔ _
      rw [append_eq_iff_of_sublist hfirst (rest_sublist htidy hsubtrees),
        interleaveAfter_eq_iff hlen fun c' h => fromFirstKey_sublist (htidy.2 c' (hcs c' h))]
    have hrest : (∀ c' ∈ cs, c'.fromFirstKey = c'.contents) ↔ height = 0 ∨ T.keys = [] := by
      have hnil : T.keys = [] ↔ cs = [] := by
        rw [← List.length_eq_zero_iff, ← hlen, List.length_eq_zero_iff]
      rw [hnil]
      constructor
      · intro hall
        cases cs with
        | nil => exact Or.inr rfl
        | cons c' cs =>
          have hc' := hcs c' List.mem_cons_self
          exact Or.inl ((fromFirstKey_eq_iff (htidy.2 c' hc') (hkeyed c' hc').2).mp (hall c' List.mem_cons_self))
      · rintro (h0 | rfl) c' hc'
        · exact (fromFirstKey_eq_iff (htidy.2 c' (hcs c' hc')) (hkeyed c' (hcs c' hc')).2).mpr h0
        · cases hc'
    rw [hparts, hrest, ih (htidy.2 c hc) (hkeyed c hc).2]
    have hkeys := (hkeyed c hc).1
    constructor
    · rintro ⟨hle | ⟨-, hnil⟩, h0 | hroot⟩
      · exact Or.inl (by omega)
      · rcases Nat.le_one_iff_eq_zero_or_eq_one.mp hle with rfl | rfl
        · exact Or.inl le_rfl
        · exact Or.inr ⟨rfl, hroot⟩
      · exact absurd hnil hkeys
      · exact absurd hnil hkeys
    · rintro (hle | ⟨htwo, hroot⟩)
      · obtain rfl : height = 0 := by omega
        exact ⟨Or.inl (Nat.zero_le 1), Or.inl rfl⟩
      · obtain rfl : height = 1 := by omega
        exact ⟨Or.inl le_rfl, Or.inr hroot⟩

theorem Filled.keyed {least : ℕ} (ht : 2 ≤ t) (h : T.Filled t least) : T.Keyed := by
  induction height generalizing least with
  | zero => trivial
  | succ height ih =>
    intro c hc
    have hleast := (h.2 c hc).least_le
    unfold minimumKeysInNode at hleast
    exact ⟨List.ne_nil_of_length_pos (by omega), ih (h.2 c hc)⟩

/-! ### From `begin` to `end` -/

theorem visits_fromFirstLeaf (hroot : st.positionRoot = T.position) (h : T.Stored t codec st) (htidy : T.Tidy)
    (hkeyed : T.Keyed) (hheight : height < turns) (hturns : T.contents.length < turns) :
    Visits t codec st turns T.fromFirstLeaf := by
  have hne : st.positionRoot ≠ sizeMax := hroot ▸ h.holds.valid.ne
  have hend : (cursor t codec st).atEnd (climb t codec st (T.position, 0) []) = true := by
    refine decide_eq_true ?_
    rw [endIterator, if_neg hne, hroot, climb]
  have hsegment : (cursor t codec st).Segment True ⟨T.leftPath [(T.position, 0)], 0⟩ T.fromFirstLeaf
      (climb t codec st (T.position, 0) []) :=
    ⟨fun _ => firstLeaf_run h htidy hkeyed (Or.inr rfl), fun hn => absurd trivial hn⟩
  refine ⟨⟨T.leftPath [(T.position, 0)], 0⟩, ?_, ?_⟩
  · rw [beginIterator, if_neg hne, hroot, leftmost_eq h htidy hheight]
    rfl
  · exact (hsegment.collect_iff hend ((fromFirstLeaf_sublist htidy).length_le.trans_lt hturns)).mpr trivial

end Tree

theorem Visits.unique {t turns : ℕ} {codec : Codec κ υ} {st : DiskTree} {es es' : List (κ × υ)}
    (h : Visits t codec st turns es) (h' : Visits t codec st turns es') : es = es' := by
  obtain ⟨it, hit, hes⟩ := h
  obtain ⟨it', hit', hes'⟩ := h'
  rw [hit] at hit'
  cases hit'
  rw [hes] at hes'
  exact Except.ok.inj hes'

/-- What the loop from `begin` to `end` reads in a tree of any height, and when that is everything. -/
theorem iteration_exact {t turns height : ℕ} {codec : Codec κ υ} {st : DiskTree} {T : Tree κ υ height}
    (hroot : st.positionRoot = T.position) (h : T.Stored t codec st) (htidy : T.Tidy) (hkeyed : T.Keyed)
    (hheight : height < turns) (hturns : T.contents.length < turns) :
    Visits t codec st turns T.fromFirstLeaf ∧ T.fromFirstLeaf.Sublist T.contents ∧
      (Visits t codec st turns T.contents ↔ height ≤ 1 ∨ height = 2 ∧ T.keys = []) := by
  have hvisits := Tree.visits_fromFirstLeaf hroot h htidy hkeyed hheight hturns
  refine ⟨hvisits, Tree.fromFirstLeaf_sublist htidy, ?_⟩
  rw [← Tree.fromFirstLeaf_eq_iff htidy hkeyed]
  exact ⟨fun hall => hvisits.unique hall, fun heq => heq ▸ hvisits⟩

theorem iteration_exact_above_two :
    Visits 2 byteCodec (Tree.diskAboveTwo [(10, 110), (20, 120)]) 5 [(10, 110), (20, 120), (30, 130), (40, 140)] := by
  have hwell : (Tree.aboveTwo [(10, 110), (20, 120)]).WellFormed 2 byteCodec
      (Tree.diskAboveTwo [(10, 110), (20, 120)]) :=
    Tree.aboveTwo_wellFormed (by decide) (by decide) (by unfold Sorted; decide)
  exact (iteration_exact hwell.root hwell.stored hwell.tidy (hwell.filled.keyed le_rfl) (by decide)
    (by decide)).2.2.mpr (Or.inl le_rfl)

/-! ### After inserts -/

/-- A leaf at the position `c`. -/
def Tree.leaf (c : ℕ) (es : List (κ × υ)) : Tree κ υ 0 := ⟨true, c, es, []⟩

/-- A root at position 1 above leaves. -/
def Tree.above (seps : List (κ × υ)) (cs : List ℕ) (parts : List (List (κ × υ))) : Tree κ υ 1 :=
  ⟨false, 1, seps, List.zipWith Tree.leaf cs parts⟩

section Inserts

variable {t turns : ℕ} {codec : Codec κ υ} {st : DiskTree} {es seps : List (κ × υ)} {cs : List ℕ}
  {parts : List (List (κ × υ))}

theorem leaves_positions {P : ℕ → List (κ × υ) → Prop} (h : List.Forall₂ P cs parts) :
    (List.zipWith Tree.leaf cs parts).map Cell.position = cs := by
  induction h with
  | nil => rfl
  | cons _ _ ih =>
    rw [List.zipWith_cons_cons, List.map_cons, ih]
    rfl

theorem leaves_contents {P : ℕ → List (κ × υ) → Prop} (h : List.Forall₂ P cs parts) :
    (List.zipWith Tree.leaf cs parts).map Tree.contents = parts := by
  induction h with
  | nil => rfl
  | cons _ _ ih =>
    rw [List.zipWith_cons_cons, List.map_cons, ih]
    rfl

theorem leaves_forall {P : ℕ → List (κ × υ) → Prop} {Q : Tree κ υ 0 → Prop} (h : List.Forall₂ P cs parts)
    (hP : ∀ c es, P c es → Q (Tree.leaf c es)) : ∀ c ∈ List.zipWith Tree.leaf cs parts, Q c := by
  induction h with
  | nil => simp
  | cons hc _ ih =>
    rw [List.zipWith_cons_cons]
    exact List.forall_mem_cons.mpr ⟨hP _ _ hc, ih⟩

variable [LinearOrder κ]

theorem Sole.visits (h : Sole t codec st es) (hturns : es.length < turns) : Visits t codec st turns es :=
  Tree.visits_fromFirstLeaf (T := Tree.leaf 0 es) h.root h.leaf trivial trivial (Nat.zero_lt_of_lt hturns) hturns

theorem TwoLevels.visits (h : TwoLevels t codec st seps cs parts)
    (hturns : (interleave parts seps).length + 1 < turns) : Visits t codec st turns (interleave parts seps) := by
  have hleaves : ∀ c ∈ (Tree.above seps cs parts).subtrees, c.Stored t codec st ∧ c.keys ≠ [] :=
    leaves_forall (Q := fun c => c.Stored t codec st ∧ c.keys ≠ []) h.leaves fun c es hc => hc
  have hnode : (Tree.above seps cs parts).node t = innerNode t 1 seps cs :=
    congrArg (fun ps => (⟨seps.length, false, 1, seps, paddedPointers t ps⟩ : Node κ υ)) (leaves_positions h.leaves)
  have hstored : (Tree.above seps cs parts).Stored t codec st :=
    ⟨hnode ▸ h.top, fun c hc => (hleaves c hc).1⟩
  have hcontents : (Tree.above seps cs parts).contents = interleave parts seps :=
    congrArg (interleave · seps) (leaves_contents h.leaves)
  have htidy : (Tree.above seps cs parts).Tidy := by
    refine ⟨?_, fun _ _ => trivial⟩
    have hpositions := congrArg List.length (leaves_positions h.leaves)
    rw [List.length_map] at hpositions
    exact hpositions.trans h.length
  have hkeyed : (Tree.above seps cs parts).Keyed := fun c hc => ⟨(hleaves c hc).2, trivial⟩
  have hall := (Tree.fromFirstLeaf_eq_iff htidy hkeyed).mpr (Or.inl le_rfl)
  rw [← hcontents, ← hall]
  exact Tree.visits_fromFirstLeaf h.root hstored htidy hkeyed (by omega) (by rw [hcontents]; omega)

theorem Contents.visits (h : Contents t codec st es) (hturns : es.length + 1 < turns) :
    Visits t codec st turns es := by
  rcases h with hsole | ⟨seps, cs, parts, htwo, rfl⟩
  · exact hsole.visits (by omega)
  · exact htwo.visits hturns

/-- After any run of inserts of new keys that fit into two levels the loop from `begin` to `end` reads all
pairs in the order of the keys. -/
theorem insertAll_visits {turns' : ℕ} {data : List (κ × υ)} (h : Contents t codec st es)
    (hdistinct : ((es ++ data).map Prod.fst).Nodup) (hfit : FittingRun t turns codec data st) (ht : 2 ≤ t)
    (hturns : 3 ≤ turns) (hloop : (es ++ data).length + 1 < turns') :
    OkUnless .streamFailed (insertAll t turns codec data st) fun st' =>
      ∃ es', Visits t codec st' turns' es' ∧ es'.Perm (es ++ data) ∧ Sorted es' := by
  refine (insertAll_contents h hdistinct hfit ht hturns).mono ?_
  rintro st' ⟨es', hcontents, hmem⟩
  have hkeys : (es'.map Prod.fst).Nodup := hcontents.sorted.imp fun hlt => hlt.ne
  have hperm : es'.Perm (es ++ data) :=
    (List.perm_ext_iff_of_nodup hkeys.of_map hdistinct.of_map).mpr hmem
  exact ⟨es', hcontents.visits (hperm.length_eq ▸ hloop), hperm, hcontents.sorted⟩

end Inserts

/-- The leaf of the key 10. -/
def diskOne : DiskTree :=
  serialize 2 byteCodec { DiskTree.fresh with countOfNode := 1, positionRoot := 0 } ⟨1, true, 0, [(10, 110)], []⟩
    (slot 2 0)

theorem diskOne_contents : Contents 2 byteCodec diskOne [(10, 110)] := by
  have hw : diskWrite 2 byteCodec { DiskTree.fresh with countOfNode := 1, positionRoot := 0 }
      ⟨1, true, 0, [(10, 110)], []⟩ = .ok diskOne := diskWrite_eq_ok.mpr ⟨by decide, by decide, rfl⟩
  obtain ⟨hleaf, -⟩ := diskWrite_node hw (show 0 < 1 by decide) rfl (show 1 ≤ 3 by decide)
    (fun p hp => absurd hp List.not_mem_nil)
  exact Or.inl ⟨rfl, rfl, hleaf, by decide, by unfold Sorted; decide⟩

theorem insertAll_visits_four :
    OkUnless .streamFailed (insertAll 2 3 byteCodec [(30, 130), (20, 120), (40, 140), (5, 105)] diskOne) fun st =>
      ∃ es, Visits 2 byteCodec st 7 es ∧
        es.Perm [(10, 110), (30, 130), (20, 120), (40, 140), (5, 105)] ∧ Sorted es :=
  insertAll_visits diskOne_contents (by decide) (by decide +kernel) (by decide) (by decide) (by decide)

end MaiFaSp.BTreeDisk
