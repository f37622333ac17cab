import MaiFaSp.BPlusTree.Levels
import MaiFaSp.Lib.SkippedKeys

/-!
# The bounds of `BP_tree` (`b_plus_tree.h:961-1079`)

`lower_bound` and `upper_bound` go down to one leaf and look for the bound there. When all keys of the leaf are
skipped they return `end()`, also where the next leaf has the bound. The `const` overloads have the same bodies,
with `cend()`.
-/

namespace MaiFaSp.BPlusTree

open BoundedVector LinkedChain CopiedSeparators

variable {κ υ : Type} [LinearOrder κ]

/-- The child where the loop goes on: `_pointers[i + 1]` only for the last of the keys. -/
def boundNext (skip : κ → Bool) (keys : List κ) (key : κ) : ℕ :=
  let i := skipIndex skip keys
  if i + 1 = keys.length ∧ keys[i]? = some key then i + 1 else i

/-- The loop of `lower_bound` and `upper_bound`, where the keys that `skip` holds of are passed; `none` when it
comes to `nullptr`. -/
def boundWalk (tree : Tree κ υ) (skip : κ → Bool) (key : κ) : ℕ → ℕ → Except NodeFault (Option ℕ)
  | 0, _ => throw .diverged
  | turns + 1, curNode =>
    if curNode = 0 then pure none
    else do
      let n ← tree.deref curNode
      if n.isTerminate then pure (some curNode)
      else do
        let middle ← n.asMiddle
        let next ← get middle.pointers (boundNext skip middle.keys key)
        boundWalk tree skip key turns next

def bound (turns : ℕ) (tree : Tree κ υ) (skip : κ → Bool) (key : κ) : Except NodeFault Iterator := do
  match ← boundWalk tree skip key turns tree.root with
  | none => tree.endIterator turns
  | some curNode => do
    let leaf ← tree.derefTerm curNode
    let i := skipIndex skip (keyList leaf.data)
    if i ≠ leaf.data.length then pure ⟨curNode, i⟩ else tree.endIterator turns

def lowerBound (turns : ℕ) (tree : Tree κ υ) (key : κ) : Except NodeFault Iterator :=
  bound turns tree (fun k => decide (k < key)) key

def upperBound (turns : ℕ) (tree : Tree κ υ) (key : κ) : Except NodeFault Iterator :=
  bound turns tree (fun k => !decide (key < k)) key

/-- The iterator refers to the entry with the least of the keys that are not skipped, or it is `end()`. -/
def RefersToLeast (turns : ℕ) (tree : Tree κ υ) (skip : κ → Bool) (es : List (κ × υ))
    (result : Except NodeFault Iterator) : Prop :=
  ∃ it, result = .ok it ∧ ((∃ e, tree.entry it = .ok e ∧ LeastKept skip es e) ∨
    tree.endIterator turns = .ok it ∧ ∀ e ∈ es, skip e.1 = true)

/-- The bound is the first key of a leaf, and the search is for a key below it. -/
def BetweenLeaves (skip : κ → Bool) (key : κ) (leaves : List (ℕ × List (κ × υ))) : Prop :=
  ∃ before after, leaves = before ++ after ∧ before ≠ [] ∧ contents after ≠ [] ∧
    (∀ x ∈ contents before, skip x.1 = true) ∧ ∀ x ∈ contents after, key < x.1

/-- The search stops at its own key in a middle node on its way, but not at the last one of the node. -/
def StopsAtSeparator (tree : Tree κ υ) (skip : κ → Bool) (key : κ) : ℕ → ℕ → Prop
  | 0, _ => False
  | height + 1, a => ∃ keys pointers, tree.node a = some (.middle ⟨false, keys, pointers⟩) ∧
      (keys[skipIndex skip keys]? = some key ∧ skipIndex skip keys + 1 ≠ keys.length ∨
        ∃ b, pointers[boundNext skip keys key]? = some b ∧ StopsAtSeparator tree skip key height b)

variable {turns height a b next i : ℕ} {tree : Tree κ υ} {skip : κ → Bool} {key : κ} {keys : List κ}
  {pointers : List ℕ} {leaves before mid after before' after' : List (ℕ × List (κ × υ))} {data : List (κ × υ)}

/-! ### The way down -/

theorem boundWalk_leaf (hsound : Sound tree) (ha : tree.cell a = some (next, data)) (hturns : 0 < turns) :
    boundWalk tree skip key turns a = .ok (some a) := by
  obtain ⟨turns, rfl⟩ := Nat.exists_eq_add_of_le' hturns
  rw [boundWalk, if_neg (hsound.ne_zero (cell_eq_some.mp ha))]
  unfold Tree.deref
  rw [cell_eq_some.mp ha]
  rfl

theorem boundWalk_middle (hsound : Sound tree) (ha : tree.node a = some (.middle ⟨false, keys, pointers⟩))
    (hchild : pointers[boundNext skip keys key]? = some b) :
    boundWalk tree skip key (turns + 1) a = boundWalk tree skip key turns b := by
  rw [boundWalk, if_neg (hsound.ne_zero ha)]
  unfold Tree.deref
  rw [ha]
  show (get pointers (boundNext skip keys key) >>= fun next => _) = _
  rw [get_eq_ok.mpr hchild]
  rfl

theorem stopsAtSeparator_middle (ha : tree.node a = some (.middle ⟨false, keys, pointers⟩))
    (hchild : pointers[boundNext skip keys key]? = some b) :
    StopsAtSeparator tree skip key (height + 1) a ↔
      (keys[skipIndex skip keys]? = some key ∧ skipIndex skip keys + 1 ≠ keys.length) ∨
        StopsAtSeparator tree skip key height b := by
  constructor
  · rintro ⟨keys', pointers', ha', h⟩
    rw [ha] at ha'
    cases ha'
    refine h.imp_right ?_
    rintro ⟨b', hb', hstop⟩
    rw [hchild] at hb'
    cases hb'
    exact hstop
  · intro h
    exact ⟨keys, pointers, ha, h.imp_right fun h => ⟨b, hchild, h⟩⟩

/-- The leaf that the walk comes to, among the others. -/
structure Landed (tree : Tree κ υ) (skip : κ → Bool) (key : κ) (stops : Prop)
    (leaves before : List (ℕ × List (κ × υ))) (b : ℕ) (data : List (κ × υ))
    (after : List (ℕ × List (κ × υ))) : Prop where
  leaves_eq : leaves = before ++ (b, data) :: after
  cell : ∃ next, tree.cell b = some (next, data)
  before_lt : ∀ x ∈ contents before, x.1 < key
  after_kept : ∀ x ∈ contents after, skip x.1 = false
  head_le : before ≠ [] → ∀ x ∈ data.head?, x.1 ≤ key
  of_stops : stops → (∀ x ∈ data, x.1 < key) ∧ contents after ≠ []
  of_not_stops : ¬ stops → ∀ x ∈ contents after, key < x.1

/-- The same leaf among those below the parent. -/
theorem Landed.widen {here below : Prop} (h : Landed tree skip key below mid before' b data after')
    (hbefore : ∀ x ∈ contents before, x.1 < key) (hafter : ∀ x ∈ contents after, skip x.1 = false)
    (hhead : before ≠ [] → ∀ x ∈ (contents mid).head?, x.1 ≤ key)
    (hhere : here → (∀ x ∈ contents mid, x.1 < key) ∧ contents after ≠ [])
    (hnot : ¬ here → ∀ x ∈ contents after, key < x.1) :
    Landed tree skip key (here ∨ below) (before ++ (mid ++ after)) (before ++ before') b data
      (after' ++ after) := by
  have hmid : contents mid = contents before' ++ (data ++ contents after') := by
    rw [h.leaves_eq, contents_append, contents_cons]
  refine ⟨?_, h.cell, ?_, ?_, ?_, ?_, ?_⟩
  · rw [h.leaves_eq, List.append_assoc, List.append_assoc]
    rfl
  · intro x hx
    rw [contents_append] at hx
    exact (List.mem_append.mp hx).elim (hbefore x) (h.before_lt x)
  · intro x hx
    rw [contents_append] at hx
    exact (List.mem_append.mp hx).elim (h.after_kept x) (hafter x)
  · intro hne x hx
    cases before' with
    | nil =>
      rw [List.append_nil] at hne
      refine hhead hne x ?_
      rw [hmid, contents_nil, List.nil_append, List.head?_append, Option.mem_def.mp hx]
      rfl
    | cons leaf before' => exact h.head_le (List.cons_ne_nil _ _) x hx
  · rintro (hh | hb)
    · obtain ⟨hlt, hne⟩ := hhere hh
      refine ⟨fun x hx => hlt x ?_, ?_⟩
      · rw [hmid]
        simp [hx]
      · rw [contents_append]
        exact List.append_ne_nil_of_right_ne_nil _ hne
    · obtain ⟨hlt, hne⟩ := h.of_stops hb
      refine ⟨hlt, ?_⟩
      rw [contents_append]
      exact List.append_ne_nil_of_left_ne_nil hne _
  · intro hn x hx
    obtain ⟨hh, hb⟩ := not_or.mp hn
    rw [contents_append] at hx
    exact (List.mem_append.mp hx).elim (h.of_not_stops hb x) (hnot hh x)

/-- What is stored left of a child is smaller than the separator before the child. -/
theorem Entered.before_lt (he : Entered tree height keys pointers leaves i b before mid after)
    (hs : Sorted (contents leaves)) {k : κ} (hpos : 0 < i) (hk : keys[i - 1]? = some k) :
    Leads k (contents mid) ∧ ∀ x ∈ contents before, x.1 < k := by
  obtain ⟨k', hk', hlead⟩ := he.lead hpos
  rw [hk] at hk'
  cases hk'
  refine ⟨hlead, fun x hx => ?_⟩
  obtain ⟨y, rest, hmid, rfl⟩ := leads_iff.mp hlead
  rw [he.leaves_eq, contents_append, contents_append, hmid] at hs
  exact (sorted_append.mp hs).2.2 x hx y (by simp)

theorem head_le_of_leads {k : κ} {es : List (κ × υ)} (h : Leads k es) (hk : k ≤ key) :
    ∀ x ∈ es.head?, x.1 ≤ key := by
  obtain ⟨y, rest, rfl, rfl⟩ := leads_iff.mp h
  intro x hx
  cases hx
  exact hk

/-- The leaves in front of the child where the search stops. -/
theorem Entered.skipped_before (he : Entered tree height keys pointers leaves (skipIndex skip keys) b before mid after)
    (hs : Sorted (contents leaves)) (hskip : MaiFaSp.Bounds skip key) :
    (∀ x ∈ contents before, x.1 < key) ∧ (before ≠ [] → ∀ x ∈ (contents mid).head?, x.1 ≤ key) := by
  rcases Nat.eq_zero_or_pos (skipIndex skip keys) with hzero | hpos
  · rw [he.first hzero]
    simp
  · obtain ⟨k, hk, -⟩ := he.lead hpos
    obtain ⟨hlead, hlt⟩ := he.before_lt hs hpos hk
    have hmem : k ∈ keys.take (skipIndex skip keys) := by
      refine List.mem_of_getElem? (i := skipIndex skip keys - 1) ?_
      rw [List.getElem?_take_of_lt (Nat.sub_lt hpos Nat.one_pos)]
      exact hk
    have hkey : k ≤ key := hskip.le_of_skip (skipped_of_mem_take hmem)
    exact ⟨fun x hx => (hlt x hx).trans_le hkey, fun _ => head_le_of_leads hlead hkey⟩

/-- The leaves behind it. -/
theorem Entered.kept_after (he : Entered tree height keys pointers leaves (skipIndex skip keys) b before mid after)
    (hs : Sorted (contents leaves)) (hskip : MaiFaSp.Bounds skip key) :
    (∀ x ∈ contents after, skip x.1 = false) ∧
      (keys[skipIndex skip keys]? = some key → (∀ x ∈ contents mid, x.1 < key) ∧ contents after ≠ []) ∧
      (keys[skipIndex skip keys]? ≠ some key → ∀ x ∈ contents after, key < x.1) := by
  rw [he.leaves_eq, contents_append, contents_append] at hs
  obtain ⟨-, hafter, hcross⟩ := sorted_append.mp (sorted_append.mp hs).2.1
  cases hk : keys[skipIndex skip keys]? with
  | none =>
    rw [he.last hk]
    simp
  | some k =>
    have hlead := he.next k hk
    have hkept := kept_of_getElem? hk
    have habove : ∀ x ∈ contents after, k ≤ x.1 := fun x hx => le_of_leads hafter hlead hx
    refine ⟨fun x hx => ?_, ?_, ?_⟩
    · cases hx' : skip x.1 with
      | false => rfl
      | true =>
        rw [hskip.skipsDown k x.1 (habove x hx) hx'] at hkept
        cases hkept
    · intro heq
      cases heq
      obtain ⟨y, ys, hy, rfl⟩ := leads_iff.mp hlead
      rw [hy]
      exact ⟨fun x hx => hcross x hx y (hy ▸ List.mem_cons_self), List.cons_ne_nil _ _⟩
    · intro hne x hx
      have hlt : key < k := lt_of_le_of_ne (hskip.le_of_kept hkept) fun heq => hne (congrArg some heq.symm)
      exact hlt.trans_le (habove x hx)

theorem Subtree.landed (h : Subtree tree height a leaves) (hsound : Sound tree)
    (hs : Sorted (contents leaves)) (hskip : MaiFaSp.Bounds skip key) (hturns : height < turns) :
    ∃ before b data after, boundWalk tree skip key turns a = .ok (some b) ∧
      Landed tree skip key (StopsAtSeparator tree skip key height a) leaves before b data after := by
  induction height generalizing a leaves turns with
  | zero =>
    obtain ⟨next, data, hcell, rfl⟩ := h.node_eq
    refine ⟨[], a, data, [], boundWalk_leaf hsound hcell hturns, rfl, ⟨next, hcell⟩, ?_, ?_, ?_, ?_, ?_⟩
    · simp
    · simp
    · exact fun hne => absurd rfl hne
    · exact fun hstop => hstop.elim
    · simp
  | succ height ih =>
    obtain ⟨turns, rfl⟩ := Nat.exists_eq_add_of_le' (show 1 ≤ turns by omega)
    obtain ⟨keys, pointers, hnode, -, henter⟩ := h.entered
    have hle : skipIndex skip keys ≤ keys.length := skipIndex_le_length skip keys
    have hbelow {i b before mid after} (he : Entered tree height keys pointers leaves i b before mid after) :
        Sorted (contents mid) := by
      rw [he.leaves_eq, contents_append, contents_append] at hs
      exact (sorted_append.mp (sorted_append.mp hs).2.1).1
    by_cases hmove : skipIndex skip keys + 1 = keys.length ∧ keys[skipIndex skip keys]? = some key
    · -- on to the last child, which the key leads
      have hnext : boundNext skip keys key = skipIndex skip keys + 1 := if_pos hmove
      obtain ⟨b, before, mid, after, he⟩ := henter (skipIndex skip keys + 1) hmove.1.le
      obtain ⟨hlead, hbefore⟩ := he.before_lt hs (Nat.succ_pos _) hmove.2
      obtain rfl : after = [] := he.last (List.getElem?_eq_none hmove.1.ge)
      obtain ⟨front, c, data, rest, hwalk, hland⟩ := ih he.subtree (hbelow he) (by omega : height < turns)
      refine ⟨before ++ front, c, data, rest ++ [], ?_, ?_⟩
      · rw [boundWalk_middle hsound hnode (hnext ▸ he.child)]
        exact hwalk
      · rw [stopsAtSeparator_middle hnode (hnext ▸ he.child), he.leaves_eq]
        refine hland.widen hbefore ?_ (fun _ => head_le_of_leads hlead le_rfl) ?_ ?_
        · simp
        · exact fun hh => absurd hmove.1 hh.2
        · simp
    · have hnext : boundNext skip keys key = skipIndex skip keys := if_neg hmove
      obtain ⟨b, before, mid, after, he⟩ := henter (skipIndex skip keys) hle
      obtain ⟨hbefore, hhead⟩ := he.skipped_before hs hskip
      obtain ⟨hafter, hhere, hnot⟩ := he.kept_after hs hskip
      obtain ⟨front, c, data, rest, hwalk, hland⟩ := ih he.subtree (hbelow he) (by omega : height < turns)
      refine ⟨before ++ front, c, data, rest ++ after, ?_, ?_⟩
      · rw [boundWalk_middle hsound hnode (hnext ▸ he.child)]
        exact hwalk
      · rw [stopsAtSeparator_middle hnode (hnext ▸ he.child), he.leaves_eq]
        refine hland.widen hbefore hafter hhead (fun hh => hhere hh.1) fun hh => hnot fun hk => ?_
        exact hh ⟨hk, fun hlen => hmove ⟨hlen, hk⟩⟩

/-! ### What the leaf says -/

theorem bound_of_walk (hwalk : boundWalk tree skip key turns tree.root = .ok (some b))
    (hb : tree.cell b = some (next, data)) :
    bound turns tree skip key = if skipIndex skip (keyList data) ≠ data.length
      then .ok ⟨b, skipIndex skip (keyList data)⟩ else tree.endIterator turns := by
  unfold bound
  rw [hwalk]
  show (tree.derefTerm b >>= fun leaf => _) = _
  rw [derefTerm_eq hb]
  rfl

/-- The bound is right unless it is behind a leaf whose keys are all skipped. -/
theorem Landed.refersToLeast_iff {stops : Prop} (h : Landed tree skip key stops leaves before b data after)
    (hwell : WellFormed tree height leaves) (hskip : MaiFaSp.Bounds skip key) (hturns : height < turns)
    (hwalk : boundWalk tree skip key turns tree.root = .ok (some b)) :
    RefersToLeast turns tree skip (contents leaves) (bound turns tree skip key) ↔
      ¬ ((∀ x ∈ data, skip x.1 = true) ∧ contents after ≠ []) := by
  obtain ⟨next, hb⟩ := h.cell
  have hes : contents leaves = contents before ++ (data ++ contents after) := by
    rw [h.leaves_eq, contents_append, contents_cons]
  have hbefore : ∀ x ∈ contents before, skip x.1 = true := fun x hx => hskip.smaller _ (h.before_lt x hx)
  obtain ⟨last, hend, hnone⟩ := hwell.end_eq hturns
  rw [bound_of_walk hwalk hb]
  by_cases hdata : ∀ x ∈ data, skip x.1 = true
  · have hlen : skipIndex skip (keyList data) = data.length := skipIndex_eq_length hdata
    rw [if_neg (not_not.mpr hlen), hend, and_iff_right hdata, not_not]
    constructor
    · rintro ⟨it, hit, ⟨e, he, -⟩ | ⟨-, hall⟩⟩
      · cases hit
        exact absurd he (hnone e)
      · refine List.eq_nil_iff_forall_not_mem.mpr fun x hx => ?_
        have hx' := hall x (by rw [hes]; simp [hx])
        rw [h.after_kept x hx] at hx'
        cases hx'
    · intro hafter
      refine ⟨last, rfl, Or.inr ⟨hend, fun x hx => ?_⟩⟩
      rw [hes, hafter, List.append_nil] at hx
      exact (List.mem_append.mp hx).elim (hbefore x) (hdata x)
  · refine iff_of_true ?_ fun hh => hdata hh.1
    obtain ⟨e, he⟩ : ∃ e, firstKept skip data = some e := by
      refine Option.ne_none_iff_exists'.mp fun hn => ?_
      exact hdata (firstKept_eq_none.mp hn)
    have hget : data[skipIndex skip (keyList data)]? = some e := by
      rw [← he, firstKept_eq_getElem?]
      rfl
    have hlt : skipIndex skip (keyList data) ≠ data.length := (List.getElem?_eq_some_iff.mp hget).1.ne
    rw [if_pos hlt]
    refine ⟨_, rfl, Or.inl ⟨e, entry_eq hwell.sound hb hget, ?_⟩⟩
    rw [← firstKept_eq_some hwell.sorted, hes, firstKept_of_skipped hbefore, firstKept_append, he, Option.some_or]

/-- A cut in front of the leaf has nothing that is kept right before it. -/
theorem Landed.cut_before {stops : Prop} {c : List (ℕ × List (κ × υ))}
    (h : Landed tree skip key stops leaves (before' ++ c) b data after) (hne : before' ≠ [])
    (habove : ∀ x ∈ contents (c ++ (b, data) :: after), key < x.1) :
    data = [] ∧ contents (c ++ (b, data) :: after) = contents after := by
  rw [contents_append, contents_cons] at habove ⊢
  have hdata : data = [] := by
    cases data with
    | nil => rfl
    | cons x data =>
      have hx := h.head_le (List.append_ne_nil_of_left_ne_nil hne c) x rfl
      exact absurd hx (habove x (by simp)).not_ge
  have hc : contents c = [] := by
    refine List.eq_nil_iff_forall_not_mem.mpr fun x hx => ?_
    refine lt_asymm (habove x (List.mem_append_left _ hx)) (h.before_lt x ?_)
    rw [contents_append]
    exact List.mem_append_right _ hx
  rw [hdata, hc]
  exact ⟨rfl, rfl⟩

/-- The bound is behind a leaf whose keys are all skipped where the search is between two leaves, or stopped at a
separator. -/
theorem Landed.behind_iff {stops : Prop} (h : Landed tree skip key stops leaves before b data after)
    (hskip : MaiFaSp.Bounds skip key) :
    (∀ x ∈ data, skip x.1 = true) ∧ contents after ≠ [] ↔ BetweenLeaves skip key leaves ∨ stops := by
  constructor
  · rintro ⟨hdata, hafter⟩
    by_cases hstop : stops
    · exact Or.inr hstop
    · refine Or.inl ⟨before ++ [(b, data)], after, ?_, ?_, hafter, ?_, h.of_not_stops hstop⟩
      · rw [h.leaves_eq, List.append_assoc]
        rfl
      · simp
      · intro x hx
        rw [contents_append, contents_cons, contents_nil, List.append_nil] at hx
        exact (List.mem_append.mp hx).elim (fun hx => hskip.smaller _ (h.before_lt x hx)) (hdata x)
  · rintro (⟨front, back, heq, hfront, hback, hskipped, habove⟩ | hstop)
    · rw [h.leaves_eq] at heq
      have hcut (c) (hbefore : before = front ++ c) (hb : back = c ++ (b, data) :: after) :
          (∀ x ∈ data, skip x.1 = true) ∧ contents after ≠ [] := by
        rw [hb] at habove hback
        obtain ⟨hdata, hafter⟩ := (hbefore ▸ h).cut_before hfront habove
        rw [hafter] at hback
        refine ⟨fun x hx => ?_, hback⟩
        rw [hdata] at hx
        cases hx
      rcases List.append_eq_append_iff.mp heq with ⟨c, hf, hc⟩ | ⟨c, hbefore, hb⟩
      · cases c with
        | nil =>
          rw [List.append_nil] at hf
          exact hcut [] (by rw [hf, List.append_nil]) hc.symm
        | cons leaf c =>
          -- the leaf itself is in front of the cut
          obtain ⟨rfl, hafter⟩ := List.cons.inj hc
          rw [hf, contents_append, contents_cons] at hskipped
          refine ⟨fun x hx => hskipped x (by simp [hx]), ?_⟩
          rw [hafter]
          show contents (c ++ back) ≠ []
          rw [contents_append]
          exact List.append_ne_nil_of_right_ne_nil _ hback
      · exact hcut c hbefore hb
    · obtain ⟨hdata, hafter⟩ := h.of_stops hstop
      exact ⟨fun x hx => hskip.smaller _ (hdata x hx), hafter⟩

theorem bound_iff (h : WellFormed tree height leaves) (hskip : MaiFaSp.Bounds skip key) (hturns : height < turns) :
    RefersToLeast turns tree skip (contents leaves) (bound turns tree skip key) ↔
      ¬ (BetweenLeaves skip key leaves ∨ StopsAtSeparator tree skip key height tree.root) := by
  rcases h.shape with ⟨hroot, rfl⟩ | hsub
  · have hnull : tree.node tree.root = none := by
      rw [hroot]
      exact h.sound.null
    refine iff_of_true ⟨⟨0, 0⟩, ?_, Or.inr ⟨?_, ?_⟩⟩ ?_
    · obtain ⟨turns, rfl⟩ := Nat.exists_eq_add_of_le' (show 1 ≤ turns by omega)
      rw [bound, boundWalk, if_pos hroot]
      exact if_pos hroot
    · exact if_pos hroot
    · intro e he
      cases he
    · rintro (⟨front, back, heq, hfront, -⟩ | hstop)
      · exact hfront (List.append_eq_nil_iff.mp heq.symm).1
      · cases height with
        | zero => exact hstop
        | succ height =>
          obtain ⟨keys, pointers, hnode, -⟩ := hstop
          rw [hnull] at hnode
          cases hnode
  · obtain ⟨before, b, data, after, hwalk, hland⟩ := hsub.landed h.sound h.sorted hskip hturns
    rw [hland.refersToLeast_iff h hskip hturns hwalk, hland.behind_iff hskip]

/-- `upper_bound` goes on behind a separator with its key. -/
theorem not_stopsAtSeparator (hkey : skip key = true) : ¬ StopsAtSeparator tree skip key height a := by
  induction height generalizing a with
  | zero => exact id
  | succ height ih =>
    rintro ⟨keys, pointers, -, ⟨hk, -⟩ | ⟨b, -, hstop⟩⟩
    · rw [kept_of_getElem? hk] at hkey
      cases hkey
    · exact ih hstop

/-- A key that is stored is not between two leaves. -/
theorem not_betweenLeaves (hkey : key ∈ keyList (contents leaves)) (hkept : skip key = false) :
    ¬ BetweenLeaves skip key leaves := by
  rintro ⟨before, after, rfl, -, -, hskipped, habove⟩
  obtain ⟨x, hx, rfl⟩ := List.mem_map.mp hkey
  rw [contents_append] at hx
  rcases List.mem_append.mp hx with hx | hx
  · rw [hskipped x hx] at hkept
    cases hkept
  · exact lt_irrefl _ (habove x hx)

/-- Both bounds are right where they are in the leaf that the search comes to. `lower_bound` is not for a key between
two leaves, or for a separator that is not the last of its node; `upper_bound` is not for a key that is at least the
last of a leaf and below the first of the next one. -/
theorem bounds_across_leaves_iff (key : κ) (h : WellFormed tree height leaves) (hturns : height < turns) :
    (RefersToLeast turns tree (fun k => decide (k < key)) (contents leaves) (lowerBound turns tree key) ↔
      ¬ (BetweenLeaves (fun k => decide (k < key)) key leaves ∨
        StopsAtSeparator tree (fun k => decide (k < key)) key height tree.root)) ∧
    (RefersToLeast turns tree (fun k => !decide (key < k)) (contents leaves) (upperBound turns tree key) ↔
      ¬ BetweenLeaves (fun k => !decide (key < k)) key leaves) := by
  refine ⟨bound_iff h (bounds_lt key) hturns, (bound_iff h (bounds_le key) hturns).trans ?_⟩
  rw [or_iff_left (not_stopsAtSeparator ?_)]
  simp

theorem bounds_of_threeLeaves :
    RefersToLeast 2 threeLeaves (fun k => decide (k < 40)) (contents itsLeaves) (lowerBound 2 threeLeaves 40) := by
  refine (bounds_across_leaves_iff 40 threeLeaves_wellFormed (by decide)).1.mpr ?_
  rintro (hbetween | ⟨keys, pointers, hroot, hstop⟩)
  · exact not_betweenLeaves (by decide) (by decide) hbetween
  · cases hroot
    rcases hstop with ⟨hk, -⟩ | ⟨b, -, hstop⟩
    · exact absurd hk (by decide)
    · exact hstop

/-- The least key behind 25 is in the next leaf, and 30 is looked for in front of its separator. -/
theorem lower_bound_thirty_lost : WellFormed threeLeaves 1 itsLeaves ∧
    lowerBound 2 threeLeaves 25 = threeLeaves.endIterator 2 ∧
    lowerBound 2 threeLeaves 30 = threeLeaves.endIterator 2 ∧
    upperBound 2 threeLeaves 20 = threeLeaves.endIterator 2 ∧
    ¬ RefersToLeast 2 threeLeaves (fun k => decide (k < 25)) (contents itsLeaves) (lowerBound 2 threeLeaves 25) := by
  refine ⟨threeLeaves_wellFormed, rfl, rfl, rfl, ?_⟩
  rintro ⟨it, hok, ⟨e, he, -⟩ | ⟨-, hall⟩⟩
  · cases hok
    cases he
  · exact absurd (hall (30, 'c') (by decide)) (by decide)

end MaiFaSp.BPlusTree
