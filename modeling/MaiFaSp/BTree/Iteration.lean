import MaiFaSp.BTree.Nodes
import MaiFaSp.Lib.Enumeration

/-!
# The iteration from `begin` to `end` (`b_tree.h:555-582, 1061-1090`)

Behind a key `go_to_next` goes to the next child and starts there at the first key, not in the leftmost leaf.
So the first subtree of an inner node is left out unless `begin` came through it.
-/

namespace MaiFaSp.BTree

open BoundedVector

variable {κ υ : Type}

namespace Tree

/-- The loop of `begin`. -/
def leftmost (tree : Tree κ υ) : ℕ → ℕ → List (ℕ × ℕ) → Except NodeFault (List (ℕ × ℕ))
  | 0, _, _ => throw .diverged
  | turns + 1, curNode, st =>
    let child := (tree.node curNode).pointers.getD 0 0
    if child ≠ 0 then leftmost tree turns child ((child, 0) :: st) else pure st

def beginIterator (turns : ℕ) (tree : Tree κ υ) : Except NodeFault Iterator :=
  if tree.root = 0 then pure ⟨[], 0⟩
  else do
    let st ← tree.leftmost turns tree.root [(tree.root, 0)]
    pure ⟨st, 0⟩

/-- The iterators as cursors: `==` with `end()`, `*` and `++`. -/
def cursor (tree : Tree κ υ) : Cursor Iterator (κ × υ) NodeFault where
  atEnd it := it = tree.endIterator
  read it := (tree.entry it).elim (.error .outOfRange) .ok
  next := tree.goToNext

end Tree

/-- The loop from `begin()` to `end()` visits `es`, in this order. -/
def Visits (turns : ℕ) (tree : Tree κ υ) (es : List (κ × υ)) : Prop :=
  ∃ it, tree.beginIterator turns = .ok it ∧ tree.cursor.collect .diverged turns it = .ok es

/-! ### Where the loop loses entries -/

/-- No key is in the subtree. -/
def Hollow (node : ℕ → Node κ υ) : ℕ → ℕ → Prop
  | 0, a => (node a).keys = []
  | height + 1, a => (node a).keys = [] ∧ Hollow node height ((node a).pointers.getD 0 0)

/-- A loop that starts at the first key of the top node misses nothing. -/
def FromFirstKey (node : ℕ → Node κ υ) : ℕ → ℕ → Prop
  | 0, a => (node a).keys ≠ []
  | height + 1, a =>
    ((node a).keys ≠ [] ∧ Hollow node height ((node a).pointers.getD 0 0)) ∧
      ∀ p ∈ (node a).pointers.tail, FromFirstKey node height p

/-- One that starts at the first key of the leftmost leaf misses nothing. -/
def FromFirstLeaf (node : ℕ → Node κ υ) : ℕ → ℕ → Prop
  | 0, a => (node a).keys ≠ []
  | height + 1, a =>
    FromFirstLeaf node height ((node a).pointers.getD 0 0) ∧
      ∀ p ∈ (node a).pointers.tail, FromFirstKey node height p

variable {t turns height least a j : ℕ} {tree : Tree κ υ} {es : List (κ × υ)} {path : List (ℕ × ℕ)}

theorem Subtree.ne_zero (h : Subtree t tree.node height least a es) : a ≠ 0 := by
  cases height with
  | zero => exact h.1
  | succ height => exact h.1

/-- The children of an inner node: the first one and those behind a key. -/
theorem Subtree.children (h : Subtree t tree.node (height + 1) least a es) :
    ∃ p ps part parts, (tree.node a).pointers = p :: ps ∧
      Subtree t tree.node height (minimumKeysInNode t) p part ∧
      List.Forall₂ (Subtree t tree.node height (minimumKeysInNode t)) ps parts ∧
      ps.length = (tree.node a).keys.length ∧ es = part ++ interleaveAfter (tree.node a).keys parts := by
  obtain ⟨-, hlen, -, -, parts, hparts, rfl⟩ := h
  generalize hps : (tree.node a).pointers = ps at hlen hparts
  cases hparts with
  | nil => cases hlen
  | @cons p part ps parts hp hparts =>
    have hlen : ps.length = (tree.node a).keys.length := Nat.succ.inj hlen
    exact ⟨p, ps, part, parts, rfl, hp, hparts, hlen, interleave_cons (hparts.length_eq.symm.trans hlen)⟩

theorem hollow_iff (h : Subtree t tree.node height least a es) : Hollow tree.node height a ↔ es = [] := by
  induction height generalizing least a es with
  | zero =>
    obtain ⟨-, hnode, -⟩ := h
    rw [Hollow, hnode]
  | succ height ih =>
    obtain ⟨p, ps, part, parts, hps, hp, hparts, hlen, rfl⟩ := h.children
    rw [Hollow, hps, List.getD_cons_zero, ih hp, List.append_eq_nil_iff, and_comm]
    refine and_congr_right fun _ => ?_
    cases hkeys : (tree.node a).keys with
    | nil => simp [interleaveAfter]
    | cons k ks =>
      rw [hkeys] at hlen
      cases hparts with
      | nil => cases hlen
      | cons _ _ => simp [interleaveAfter_cons]

theorem pointer_of_leaf (hnode : tree.node a = ⟨es, List.replicate (es.length + 1) 0⟩) (i : ℕ) :
    (tree.node a).pointers.getD i 0 = 0 := by
  rw [hnode, List.getD_eq_getElem?_getD, List.getElem?_replicate]
  split <;> rfl

/-! ### The steps -/

/-- Where `go_to_next` climbs to from a node that is done with. -/
def climbed (tree : Tree κ υ) : ℕ × ℕ → List (ℕ × ℕ) → Iterator
  | top, [] => ⟨[top], (tree.node top.1).keys.length⟩
  | top, next :: path =>
    if top.2 < (tree.node next.1).keys.length then ⟨next :: path, top.2⟩ else climbed tree next path

theorem climb_eq {top : ℕ × ℕ} (hpath : ∀ p ∈ top :: path, p.1 ≠ 0) (i : ℕ) :
    tree.climb (top :: path) i = .ok (climbed tree top path) := by
  induction path generalizing top i with
  | nil =>
    rw [Tree.climb, Tree.deref_of_ne (hpath top (List.mem_cons_self ..))]
    rfl
  | cons next path ih =>
    have hrest : ∀ p ∈ next :: path, p.1 ≠ 0 := fun p hp => hpath p (List.mem_cons_of_mem _ hp)
    rw [Tree.climb, Tree.deref_of_ne (hrest next (List.mem_cons_self ..)), climbed, ok_bind]
    split
    · rfl
    · exact ih hrest top.2

theorem not_atEnd_of_entry {it : Iterator} {e : κ × υ} (he : tree.entry it = some e) :
    tree.cursor.atEnd it = false := by
  refine decide_eq_false ?_
  rintro rfl
  unfold Tree.endIterator at he
  split at he
  · cases he
  · have hnone : (tree.node tree.root).keys[(tree.node tree.root).keys.length]? = none :=
      List.getElem?_eq_none le_rfl
    rw [Tree.entry] at he
    simp only [List.head?_cons, Option.bind_eq_bind, Option.bind_some, hnone] at he
    cases he

theorem read_of_entry {it : Iterator} {e : κ × υ} (he : tree.entry it = some e) :
    tree.cursor.read it = .ok e := by
  show (tree.entry it).elim (Except.error NodeFault.outOfRange) Except.ok = _
  rw [he]
  rfl

theorem stuck_of_entry {it : Iterator} (he : tree.entry it = none) (hend : it ≠ tree.endIterator) :
    tree.cursor.Stuck it := by
  refine ⟨decide_eq_false hend, fun e h => ?_⟩
  change (tree.entry it).elim (Except.error NodeFault.outOfRange) Except.ok = _ at h
  rw [he] at h
  cases h

/-- One step of the loop, in front of what comes next. -/
theorem Segment.visit {P : Prop} {it it' it'' : Iterator} {e : κ × υ} (he : tree.entry it = some e)
    (hnext : tree.goToNext it = .ok it') (h : tree.cursor.Segment P it' es it'') :
    tree.cursor.Segment P it (e :: es) it'' :=
  h.cons (not_atEnd_of_entry he) (read_of_entry he) hnext

theorem entry_at {i : ℕ} : tree.entry ⟨(a, j) :: path, i⟩ = (tree.node a).keys[i]? := rfl

section Steps

variable (hpath : ∀ p ∈ path, p.1 ≠ 0)

include hpath

/-- The keys of a leaf, from one of them on. -/
theorem leaf_segment (ha : a ≠ 0) (hnode : tree.node a = ⟨es, List.replicate (es.length + 1) 0⟩)
    {l r : List (κ × υ)} (hes : es = l ++ r) (hr : r ≠ []) :
    tree.cursor.Segment True ⟨(a, j) :: path, l.length⟩ r (climbed tree (a, j) path) := by
  have htop : ∀ p ∈ (a, j) :: path, p.1 ≠ 0 := List.forall_mem_cons.mpr ⟨ha, hpath⟩
  induction r generalizing l with
  | nil => exact absurd rfl hr
  | cons x r ih =>
    have hentry : tree.entry ⟨(a, j) :: path, l.length⟩ = some x := by
      rw [entry_at, hnode, hes]
      simp
    have hnull := pointer_of_leaf hnode (l.length + 1)
    have hgo : tree.goToNext ⟨(a, j) :: path, l.length⟩ =
        if l.length + 1 < (tree.node a).keys.length then .ok ⟨(a, j) :: path, l.length + 1⟩
        else .ok (climbed tree (a, j) path) := by
      rw [← climb_eq htop l.length]
      show (tree.deref a >>= fun curNode => _) = _
      rw [Tree.deref_of_ne ha, ok_bind, hnull]
      rfl
    have hlen : (tree.node a).keys.length = l.length + (r.length + 1) := by
      rw [hnode, hes]
      simp
    cases r with
    | nil =>
      rw [hlen, if_neg (by simp)] at hgo
      exact Segment.visit hentry hgo Cursor.Segment.nil
    | cons y r =>
      rw [hlen, if_pos (by simp)] at hgo
      have hrest := ih (l := l ++ [x]) (by rw [hes]; simp) (fun he => by cases he)
      rw [List.length_append, List.length_singleton] at hrest
      exact Segment.visit hentry hgo hrest

/-- The keys and the children of an inner node behind the child at the place `l.length`. -/
theorem rest_segment (ha : a ≠ 0)
    (ih : ∀ {p j : ℕ} {part : List (κ × υ)} {path : List (ℕ × ℕ)}, (∀ q ∈ path, q.1 ≠ 0) → path ≠ [] →
      Subtree t tree.node height least p part → tree.cursor.Segment (FromFirstKey tree.node height p)
        ⟨(p, j) :: path, 0⟩ part (climbed tree (p, j) path))
    {l ks : List (κ × υ)} {pl ps : List ℕ} {parts : List (List (κ × υ))} {q : ℕ}
    (hkeys : (tree.node a).keys = l ++ ks) (hps : (tree.node a).pointers = pl ++ ps)
    (hpl : pl.length = l.length + 1) (hlen : ps.length = ks.length)
    (hparts : List.Forall₂ (Subtree t tree.node height least) ps parts) :
    tree.cursor.Segment (∀ p ∈ ps, FromFirstKey tree.node height p)
      (climbed tree (q, l.length) ((a, j) :: path)) (interleaveAfter ks parts) (climbed tree (a, j) path) := by
  have htop : ∀ p ∈ (a, j) :: path, p.1 ≠ 0 := List.forall_mem_cons.mpr ⟨ha, hpath⟩
  induction ks generalizing l pl ps parts q with
  | nil =>
    obtain rfl := List.length_eq_zero_iff.mp hlen
    cases hparts
    have hclimb : climbed tree (q, l.length) ((a, j) :: path) = climbed tree (a, j) path := by
      rw [climbed, hkeys]
      exact if_neg (by simp)
    rw [hclimb]
    exact Cursor.Segment.nil.congr (by simp)
  | cons k ks ihk =>
    cases hparts with
    | nil => cases hlen
    | @cons p part ps parts hp hparts =>
      have hclimb : climbed tree (q, l.length) ((a, j) :: path) = ⟨(a, j) :: path, l.length⟩ := by
        rw [climbed, hkeys]
        exact if_pos (by simp)
      have hentry : tree.entry ⟨(a, j) :: path, l.length⟩ = some k := by
        rw [entry_at, hkeys]
        simp
      have hchild : (tree.node a).pointers.getD (l.length + 1) 0 = p := by
        rw [hps, ← hpl, List.getD_eq_getElem?_getD]
        simp
      have hgo : tree.goToNext ⟨(a, j) :: path, l.length⟩ =
          .ok ⟨(p, l.length + 1) :: (a, j) :: path, 0⟩ := by
        show (tree.deref a >>= fun curNode => _) = _
        rw [Tree.deref_of_ne ha, ok_bind, hchild]
        exact if_pos hp.ne_zero
      have hkeys' : (tree.node a).keys = (l ++ [k]) ++ ks := by
        rw [hkeys, List.append_assoc]
        rfl
      have hps' : (tree.node a).pointers = (pl ++ [p]) ++ ps := by
        rw [hps, List.append_assoc]
        rfl
      have hrest := ihk (q := p) hkeys' hps' (by simp [hpl]) (Nat.succ.inj hlen) hparts
      rw [List.length_append, List.length_singleton] at hrest
      rw [hclimb, interleaveAfter_cons]
      exact (Segment.visit hentry hgo ((ih htop (List.cons_ne_nil _ _) hp).append hrest)).congr List.forall_mem_cons.symm

end Steps

theorem stuck_at_top (hinner : path ≠ []) (hkeys : (tree.node a).keys = []) :
    tree.cursor.Stuck ⟨(a, j) :: path, 0⟩ := by
  refine stuck_of_entry ?_ ?_
  · rw [entry_at, hkeys]
    rfl
  · intro he
    unfold Tree.endIterator at he
    split at he
    · cases he
    · simp only [Iterator.mk.injEq, List.cons.injEq] at he
      exact hinner he.1.2

/-- The loop through a subtree that it comes to from the key before it. -/
theorem firstKey_segment (hpath : ∀ p ∈ path, p.1 ≠ 0) (hinner : path ≠ [])
    (h : Subtree t tree.node height least a es) :
    tree.cursor.Segment (FromFirstKey tree.node height a) ⟨(a, j) :: path, 0⟩ es (climbed tree (a, j) path) := by
  induction height generalizing least a j path es with
  | zero =>
    obtain ⟨ha, hnode, -⟩ := h
    have hkeys : (tree.node a).keys = es := by rw [hnode]
    by_cases hes : es = []
    · refine (Cursor.Segment.stuck (stuck_at_top hinner (hkeys.trans hes))).congr ?_
      exact iff_of_false id fun hne => hne (hkeys.trans hes)
    · refine (leaf_segment hpath ha hnode (l := []) rfl hes).congr ?_
      exact iff_of_true trivial fun he => hes (hkeys.symm.trans he)
  | succ height ih =>
    have ha := h.ne_zero
    obtain ⟨p, ps, part, parts, hps, hp, hparts, hlen, rfl⟩ := h.children
    rw [FromFirstKey, hps, List.getD_cons_zero, List.tail_cons, hollow_iff hp]
    by_cases hkeys : (tree.node a).keys = []
    · refine (Cursor.Segment.stuck (stuck_at_top hinner hkeys)).congr ?_
      exact iff_of_false id fun hall => hall.1.1 hkeys
    · have hps' : (tree.node a).pointers = [p] ++ ps := hps
      have hrest := rest_segment (j := j) (q := p) hpath ha ih (l := []) rfl hps' rfl hlen hparts
      have hclimb : climbed tree (p, 0) ((a, j) :: path) = ⟨(a, j) :: path, 0⟩ :=
        if_pos (List.length_pos_of_ne_nil hkeys)
      rw [List.length_nil, hclimb] at hrest
      refine ((Cursor.Segment.skip _ part).append hrest).congr ?_
      rw [and_iff_right hkeys]

/-! ### The way down of `begin` -/

/-- The path to the leftmost leaf. -/
def leftPath (tree : Tree κ υ) : ℕ → ℕ → List (ℕ × ℕ) → List (ℕ × ℕ)
  | 0, _, st => st
  | height + 1, a, st =>
    leftPath tree height ((tree.node a).pointers.getD 0 0) (((tree.node a).pointers.getD 0 0, 0) :: st)

theorem leftmost_eq {st : List (ℕ × ℕ)} (h : Subtree t tree.node height least a es) (hturns : height < turns) :
    tree.leftmost turns a st = .ok (leftPath tree height a st) := by
  induction height generalizing least a es st turns with
  | zero =>
    obtain ⟨n, rfl⟩ : ∃ n, turns = n + 1 := ⟨turns - 1, by omega⟩
    obtain ⟨ha, hnode, -⟩ := h
    rw [Tree.leftmost, pointer_of_leaf hnode]
    rfl
  | succ height ih =>
    obtain ⟨n, rfl⟩ : ∃ n, turns = n + 1 := ⟨turns - 1, by omega⟩
    obtain ⟨p, ps, part, parts, hps, hp, -⟩ := h.children
    rw [Tree.leftmost, leftPath, hps, List.getD_cons_zero]
    exact (if_pos hp.ne_zero).trans (ih hp (by omega))

/-- The loop through a subtree that `begin` went down in. -/
theorem firstLeaf_segment (hpath : ∀ p ∈ path, p.1 ≠ 0) (hinner : 0 < height ∨ path ≠ [])
    (h : Subtree t tree.node height least a es) :
    tree.cursor.Segment (FromFirstLeaf tree.node height a) ⟨leftPath tree height a ((a, j) :: path), 0⟩ es
      (climbed tree (a, j) path) := by
  induction height generalizing least a j path es with
  | zero => exact firstKey_segment hpath (hinner.resolve_left (lt_irrefl 0)) h
  | succ height ih =>
    have ha := h.ne_zero
    obtain ⟨p, ps, part, parts, hps, hp, hparts, hlen, rfl⟩ := h.children
    have htop : ∀ q ∈ (a, j) :: path, q.1 ≠ 0 := List.forall_mem_cons.mpr ⟨ha, hpath⟩
    have hfirst := ih (j := 0) htop (Or.inr (List.cons_ne_nil _ _)) hp
    have hps' : (tree.node a).pointers = [p] ++ ps := hps
    have hrest := rest_segment (j := j) (q := p) hpath ha firstKey_segment (l := []) rfl hps' rfl hlen hparts
    rw [FromFirstLeaf, leftPath, hps, List.getD_cons_zero, List.tail_cons]
    exact hfirst.append hrest

/-! ### From `begin` to `end` -/

theorem climbed_root (hroot : tree.root ≠ 0) : tree.cursor.atEnd (climbed tree (tree.root, 0) []) = true := by
  refine decide_eq_true ?_
  rw [Tree.endIterator, if_neg hroot, climbed]

theorem visits_of_begin {it : Iterator} (hbegin : tree.beginIterator turns = .ok it) :
    Visits turns tree es ↔ tree.cursor.collect .diverged turns it = .ok es := by
  constructor
  · rintro ⟨it', hit, h⟩
    rw [hbegin] at hit
    cases hit
    exact h
  · exact fun h => ⟨it, hbegin, h⟩

theorem visits_subtree_iff (h : Subtree t tree.node height least tree.root es) (hheight : height < turns)
    (hturns : es.length < turns) :
    Visits turns tree es ↔ height = 0 ∨ FromFirstLeaf tree.node height tree.root := by
  have hroot := h.ne_zero
  have hbegin : tree.beginIterator turns = .ok ⟨leftPath tree height tree.root [(tree.root, 0)], 0⟩ := by
    rw [Tree.beginIterator, if_neg hroot, leftmost_eq h hheight]
    rfl
  have hnil : ∀ q ∈ ([] : List (ℕ × ℕ)), q.1 ≠ 0 := fun q hq => by cases hq
  rw [visits_of_begin hbegin]
  cases height with
  | zero =>
    obtain ⟨ha, hnode, -⟩ := h
    refine iff_of_true ?_ (Or.inl rfl)
    by_cases hes : es = []
    · subst hes
      obtain ⟨n, rfl⟩ : ∃ n, turns = n + 1 := ⟨turns - 1, by omega⟩
      have hend := climbed_root hroot
      rw [climbed, hnode] at hend
      exact if_pos hend
    · exact ((leaf_segment hnil ha hnode (l := []) rfl hes).collect_iff (climbed_root hroot) hturns).mpr trivial
  | succ height =>
    have hsegment := firstLeaf_segment (j := 0) hnil (Or.inl (Nat.succ_pos height)) h
    rw [hsegment.collect_iff (climbed_root hroot) hturns]
    exact ⟨Or.inr, fun h => h.resolve_left (Nat.succ_ne_zero height)⟩

/-! ### Which trees these are -/

section Height

variable (ht : 2 ≤ t)

include ht

theorem keys_ne_nil (h : Subtree t tree.node height (minimumKeysInNode t) a es) : (tree.node a).keys ≠ [] := by
  have hleast : minimumKeysInNode t ≤ (tree.node a).keys.length := by
    cases height with
    | zero =>
      obtain ⟨-, hnode, hleast, -⟩ := h
      rw [hnode]
      exact hleast
    | succ height => exact h.2.2.1
  unfold minimumKeysInNode at hleast
  exact List.ne_nil_of_length_pos (by omega)

/-- Where every node but the root has a key, a loop that comes from the key before has to start in a leaf. -/
theorem fromFirstKey_iff (h : Subtree t tree.node height (minimumKeysInNode t) a es) :
    FromFirstKey tree.node height a ↔ height = 0 := by
  cases height with
  | zero => exact iff_of_true (keys_ne_nil ht h) rfl
  | succ height =>
    refine iff_of_false ?_ (Nat.succ_ne_zero height)
    rintro ⟨⟨-, hhollow⟩, -⟩
    obtain ⟨p, ps, part, parts, hps, hp, -⟩ := h.children
    rw [hps, List.getD_cons_zero] at hhollow
    cases height with
    | zero => exact keys_ne_nil ht hp hhollow
    | succ height => exact keys_ne_nil ht hp hhollow.1

theorem fromFirstLeaf_one (h : Subtree t tree.node 1 least a es) : FromFirstLeaf tree.node 1 a := by
  obtain ⟨p, ps, part, parts, hps, hp, hparts, -⟩ := h.children
  rw [FromFirstLeaf, hps, List.getD_cons_zero, List.tail_cons]
  refine ⟨keys_ne_nil ht hp, fun q hq => ?_⟩
  obtain ⟨i, hi, rfl⟩ := List.mem_iff_getElem.mp hq
  exact (fromFirstKey_iff ht (hparts.get hi (hparts.length_eq ▸ hi))).mpr rfl

/-- Over two levels more there is no second child. -/
theorem FromFirstLeaf.keys_eq_nil (hfirst : FromFirstLeaf tree.node (height + 2) a)
    (h : Subtree t tree.node (height + 2) least a es) : (tree.node a).keys = [] := by
  obtain ⟨p, ps, part, parts, hps, -, hparts, hlen, -⟩ := h.children
  rw [FromFirstLeaf, hps, List.tail_cons] at hfirst
  refine List.length_eq_zero_iff.mp (hlen ▸ ?_)
  cases hparts with
  | nil => rfl
  | cons hq _ =>
    have h0 := (fromFirstKey_iff ht hq).mp (hfirst.2 _ (List.mem_cons_self ..))
    exact absurd h0 (Nat.succ_ne_zero height)

theorem fromFirstLeaf_iff (h : Subtree t tree.node (height + 1) least a es) :
    FromFirstLeaf tree.node (height + 1) a ↔ height = 0 ∨ height = 1 ∧ (tree.node a).keys = [] := by
  cases height with
  | zero => exact iff_of_true (fromFirstLeaf_one ht h) (Or.inl rfl)
  | succ height =>
    obtain ⟨p, ps, part, parts, hps, hp, -, hlen, -⟩ := h.children
    constructor
    · intro hfirst
      have hkeys := hfirst.keys_eq_nil ht h
      refine Or.inr ⟨?_, hkeys⟩
      cases height with
      | zero => rfl
      | succ height =>
        rw [FromFirstLeaf, hps, List.getD_cons_zero] at hfirst
        exact absurd (hfirst.1.keys_eq_nil ht hp) (keys_ne_nil ht hp)
    · rintro (h0 | ⟨h1, hkeys⟩)
      · cases h0
      · obtain rfl : height = 0 := Nat.succ.inj h1
        rw [hkeys] at hlen
        obtain rfl := List.length_eq_zero_iff.mp hlen
        rw [FromFirstLeaf, hps, List.getD_cons_zero, List.tail_cons]
        exact ⟨fromFirstLeaf_one ht hp, fun q hq => by cases hq⟩

end Height

/-- The loop visits the entries in order where it may start each subtree at the first key that it finds: up to
height one, and over two levels if the root has no key. -/
theorem iteration_iff [LinearOrder κ] (h : Shape t tree height es) (hheight : height < turns)
    (hturns : es.length < turns) :
    (Visits turns tree es ↔ tree.root = 0 ∨ height = 0 ∨ FromFirstLeaf tree.node height tree.root) ∧
      (2 ≤ t → (Visits turns tree es ↔
        tree.root = 0 ∨ height ≤ 1 ∨ height = 2 ∧ (tree.node tree.root).keys = [])) := by
  obtain ⟨hroot, rfl⟩ | hsub := h.2
  · have hbegin : tree.beginIterator turns = .ok ⟨[], 0⟩ := if_pos hroot
    have hend : tree.cursor.atEnd ⟨[], 0⟩ = true := by
      refine decide_eq_true ?_
      rw [Tree.endIterator, if_pos hroot]
    have hvisits : Visits turns tree [] := by
      obtain ⟨n, rfl⟩ : ∃ n, turns = n + 1 := ⟨turns - 1, by omega⟩
      exact (visits_of_begin hbegin).mpr (if_pos hend)
    exact ⟨iff_of_true hvisits (Or.inl hroot), fun _ => iff_of_true hvisits (Or.inl hroot)⟩
  · have hroot := hsub.ne_zero
    have hvisits := visits_subtree_iff hsub hheight hturns
    refine ⟨hvisits.trans (or_iff_right hroot).symm, fun ht => ?_⟩
    rw [hvisits, or_iff_right hroot]
    cases height with
    | zero => exact iff_of_true (Or.inl rfl) (Or.inl (Nat.zero_le 1))
    | succ height =>
      rw [fromFirstLeaf_iff ht hsub]
      simp

/-- Three levels of minimum degree 2. -/
def threeLevels : Tree ℕ Char where
  root := 1
  size := 7
  fresh := 8
  node a :=
    match a with
    | 1 => ⟨[(40, 'd')], [2, 3]⟩
    | 2 => ⟨[(20, 'b')], [4, 5]⟩
    | 3 => ⟨[(60, 'f')], [6, 7]⟩
    | 4 => ⟨[(10, 'a')], [0, 0]⟩
    | 5 => ⟨[(30, 'c')], [0, 0]⟩
    | 6 => ⟨[(50, 'e')], [0, 0]⟩
    | 7 => ⟨[(70, 'g')], [0, 0]⟩
    | _ => ⟨[], []⟩

def threeLevelsEntries : List (ℕ × Char) :=
  [(10, 'a'), (20, 'b'), (30, 'c'), (40, 'd'), (50, 'e'), (60, 'f'), (70, 'g')]

theorem threeLevels_shape : Shape 2 threeLevels 2 threeLevelsEntries := by
  refine ⟨by unfold threeLevelsEntries Sorted; decide, Or.inr ?_⟩
  have hleaf {a : ℕ} {e : ℕ × Char} (ha : a ≠ 0) (hnode : threeLevels.node a = ⟨[e], [0, 0]⟩) :
      Subtree 2 threeLevels.node 0 1 a [e] := ⟨ha, hnode, le_rfl, by simp [maximumKeysInNode]⟩
  have hleft : Subtree 2 threeLevels.node 1 1 2 [(10, 'a'), (20, 'b'), (30, 'c')] :=
    ⟨by decide, rfl, by decide, by decide, [[(10, 'a')], [(30, 'c')]],
      .cons (hleaf (by decide) rfl) (.cons (hleaf (by decide) rfl) .nil), rfl⟩
  have hright : Subtree 2 threeLevels.node 1 1 3 [(50, 'e'), (60, 'f'), (70, 'g')] :=
    ⟨by decide, rfl, by decide, by decide, [[(50, 'e')], [(70, 'g')]],
      .cons (hleaf (by decide) rfl) (.cons (hleaf (by decide) rfl) .nil), rfl⟩
  exact ⟨by decide, rfl, by decide, by decide, _, .cons hleft (.cons hright .nil), rfl⟩

theorem iteration_of_three_levels : ¬ Visits 8 threeLevels threeLevelsEntries := by
  rw [(iteration_iff threeLevels_shape (by decide) (by decide)).2 le_rfl]
  decide

/-- The leaf of 50 is passed over. -/
theorem iteration_loses_fifty : WellFormed 2 threeLevels 2 threeLevelsEntries ∧
    Visits 8 threeLevels [(10, 'a'), (20, 'b'), (30, 'c'), (40, 'd'), (60, 'f'), (70, 'g')] ∧
    ¬ Visits 8 threeLevels threeLevelsEntries := by
  have hbegin : threeLevels.beginIterator 8 = .ok ⟨[(4, 0), (2, 0), (1, 0)], 0⟩ := by decide
  have hvisits : Visits 8 threeLevels [(10, 'a'), (20, 'b'), (30, 'c'), (40, 'd'), (60, 'f'), (70, 'g')] :=
    (visits_of_begin hbegin).mpr (by decide)
  refine ⟨⟨threeLevels_shape, rfl⟩, hvisits, fun h => ?_⟩
  have hall := (visits_of_begin hbegin).mp h
  rw [(visits_of_begin hbegin).mp hvisits] at hall
  cases hall

end MaiFaSp.BTree
