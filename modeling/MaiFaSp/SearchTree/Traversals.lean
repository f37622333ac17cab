import MaiFaSp.Lib.TreeTraversal

/-!
# Prefix and infix traversal (`binary_search_tree.h:2427-2432, 2541-2553, 3113-3301`)

The nodes before and after a node are found along the child and parent pointers. In infix order both
are found everywhere. In prefix order the parent of a leaf is followed without a test, and a root
without children has none.

The loops have a bound on their turns. Both prefix functions tell the side of a node by two tests; a
node that its parent does not point to leaves them without a result.
-/

namespace MaiFaSp.SearchTree

open LinkedTree BinTree

inductive TraversalFault where
  | nullDereference
  | diverged
  | noResult
  deriving Repr, DecidableEq

variable {τ : Type}

section Code

variable (h : Heap τ)

/-- `while (tmp->left_subtree) tmp = tmp->left_subtree;`, and the same to the right. -/
def furthest (s : Side) : ℕ → ℕ → Except TraversalFault ℕ
  | 0, tmp => if h.child s tmp = 0 then pure tmp else throw .diverged
  | n + 1, tmp => if h.child s tmp = 0 then pure tmp else furthest s n (h.child s tmp)

/-- Up to the first parent that is reached from its child on side `s`. -/
def climb (s : Side) : ℕ → ℕ → Except TraversalFault ℕ
  | 0, tmp => if h.parent tmp = 0 then pure 0 else throw .diverged
  | n + 1, tmp =>
    if h.parent tmp = 0 then pure 0
    else if h.child s (h.parent tmp) = tmp then pure (h.parent tmp)
    else climb s n (h.parent tmp)

/-! ### Infix order -/

def beginInfix (turns : ℕ) : Except TraversalFault ℕ :=
  if h.root = 0 then pure 0 else furthest h .left turns h.root

def getNextInfix (turns n : ℕ) : Except TraversalFault ℕ :=
  if n = 0 then pure 0
  else if h.parent n = 0 then
    if h.right n ≠ 0 then furthest h .left turns (h.right n) else pure 0
  else if h.right n = 0 ∧ n = h.left (h.parent n) then pure (h.parent n)
  else if h.right n ≠ 0 then furthest h .left turns (h.right n)
  else climb h .left turns n

def getPrevInfix (turns n : ℕ) : Except TraversalFault ℕ :=
  if n = 0 then pure 0
  else if h.left n ≠ 0 then furthest h .right turns (h.left n)
  else if h.parent n = 0 then pure 0
  else if h.right (h.parent n) = n then pure (h.parent n)
  else climb h .right turns n

/-! ### Prefix order -/

/-- The loop from a left child without children. -/
def climbFromLeft : ℕ → ℕ → ℕ → Except TraversalFault ℕ
  | 0, _, tmp => if tmp = 0 then pure 0 else throw .diverged
  | n + 1, prev, tmp =>
    if tmp = 0 then pure 0
    else if h.left tmp = prev ∧ h.right tmp ≠ 0 then pure (h.right tmp)
    else climbFromLeft n tmp (h.parent tmp)

/-- The loop from a right child without children, which starts at its parent. -/
def climbFromRight : ℕ → ℕ → Except TraversalFault ℕ
  | 0, tmp => if h.parent tmp = 0 then pure 0 else throw .diverged
  | n + 1, tmp =>
    if h.parent tmp = 0 then pure 0
    else if h.right (h.parent tmp) ≠ tmp ∧ h.right (h.parent tmp) ≠ 0 then pure (h.right (h.parent tmp))
    else climbFromRight n (h.parent tmp)

def getNextPrefix (turns n : ℕ) : Except TraversalFault ℕ :=
  if n = 0 then pure 0
  else if h.left n ≠ 0 then pure (h.left n)
  else if h.right n ≠ 0 then pure (h.right n)
  else if h.parent n = 0 then throw .nullDereference
  else if n = h.left (h.parent n) then climbFromLeft h turns n (h.parent n)
  else if n = h.right (h.parent n) then climbFromRight h turns (h.parent n)
  else throw .noResult

/-- To the left, and from there to the right as far as it goes, until there is no left child. -/
def lastBelow (turns : ℕ) : ℕ → ℕ → Except TraversalFault ℕ
  | 0, tmp => if h.left tmp = 0 then pure tmp else throw .diverged
  | n + 1, tmp =>
    if h.left tmp = 0 then pure tmp
    else do
      let tmp ← furthest h .right turns (h.left tmp)
      lastBelow turns n tmp

def getPrevPrefix (turns n : ℕ) : Except TraversalFault ℕ :=
  if n = 0 then pure 0
  else if h.parent n = 0 then pure 0
  else if n = h.left (h.parent n) then pure (h.parent n)
  else if n = h.right (h.parent n) then lastBelow h turns turns (h.parent n)
  else throw .noResult

end Code

/-! ### The loops -/

variable {h : Heap τ} {c up : Ctx τ} {u t l r sib : BinTree τ} {s s' : Side} {x p q turns : ℕ} {d dp : τ}

theorem furthest_left (hu : Holds h p u) (hne : u ≠ nil) (hturns : u.nodes.length ≤ turns) :
    furthest h .left turns u.root = .ok u.first.root := by
  induction u generalizing p turns with
  | nil => exact absurd rfl hne
  | node l x d r ihl _ =>
    obtain ⟨-, hcell, hl, -⟩ := hu
    rw [nodes_node, List.length_append, List.length_cons] at hturns
    obtain ⟨turns, rfl⟩ : ∃ j, turns = j + 1 := ⟨turns - 1, by omega⟩
    have hleft : h.child .left x = l.root := by rw [Heap.child, hcell]; rfl
    rw [root_node, furthest, hleft]
    cases l with
    | nil => rfl
    | node l' x' d' r' =>
      rw [if_neg (show (node l' x' d' r').root ≠ 0 from hl.1)]
      exact ihl hl (fun he => by cases he) (by omega)

theorem furthest_right (hu : Holds h p u) (hne : u ≠ nil) (hturns : u.nodes.length ≤ turns) :
    furthest h .right turns u.root = .ok u.last.root := by
  induction u generalizing p turns with
  | nil => exact absurd rfl hne
  | node l x d r _ ihr =>
    obtain ⟨-, hcell, -, hr⟩ := hu
    rw [nodes_node, List.length_append, List.length_cons] at hturns
    obtain ⟨turns, rfl⟩ : ∃ j, turns = j + 1 := ⟨turns - 1, by omega⟩
    have hright : h.child .right x = r.root := by rw [Heap.child, hcell]; rfl
    rw [root_node, furthest, hright]
    cases r with
    | nil => rfl
    | node l' x' d' r' =>
      rw [if_neg (show (node l' x' d' r').root ≠ 0 from hr.1)]
      exact ihr hr (fun he => by cases he) (by omega)

theorem child_eq_iff (ht : IsTree h ((Ctx.frame s p dp sib up).plug t)) (hne : t.root ≠ 0) (s' : Side) :
    h.child s' p = t.root ↔ s' = s := by
  have ht' : IsTree h (up.plug (join s t p dp sib)) := ht
  have hr := ht'.reads
  by_cases hs : s' = s
  · subst hs
    exact iff_of_true hr.child rfl
  · have hother : s' = s.other := by cases s <;> cases s' <;> simp_all [Side.other]
    subst hother
    refine iff_of_false ?_ hs
    rw [hr.other]
    exact fun he => ht'.child_ne hne he.symm

theorem side_iff (ht : IsTree h ((Ctx.frame s p dp sib up).plug (node l x d r))) :
    (x = h.left p ↔ s = .left) ∧ (x = h.right p ↔ s = .right) := by
  have hx : (node l x d r).root ≠ 0 := ht.focus.2.1
  have hl := child_eq_iff ht hx .left
  have hr := child_eq_iff ht hx .right
  exact ⟨eq_comm.trans (hl.trans eq_comm), eq_comm.trans (hr.trans eq_comm)⟩

/-- A loop along the parent pointers that ends at a node for which a test holds: what it finds from the
subtree at a place follows from what the test says one level up. -/
theorem climbing (loop : ℕ → ℕ → Except TraversalFault ℕ) (found : ℕ → Prop) [DecidablePred found]
    (value : ℕ → ℕ) (answer : Ctx τ → ℕ)
    (hzero : ∀ tmp, loop 0 tmp = if h.parent tmp = 0 then pure 0 else throw .diverged)
    (hturn : ∀ n tmp, loop (n + 1) tmp =
      if h.parent tmp = 0 then pure 0 else if found tmp then pure (value tmp) else loop n (h.parent tmp))
    (htop : answer .top = 0)
    (hstep : ∀ s p dp sib up (u : BinTree τ), IsTree h ((Ctx.frame s p dp sib up).plug u) → u.root ≠ 0 →
      h.parent u.root = p →
      answer (.frame s p dp sib up) = if found u.root then value u.root else answer up)
    (ht : IsTree h (c.plug u)) (hu : u.root ≠ 0) (hturns : c.depth ≤ turns) :
    loop turns u.root = .ok (answer c) := by
  induction c generalizing u turns with
  | top =>
    have hp : h.parent u.root = 0 := ht.parent_focus hu
    rw [htop]
    cases turns with
    | zero => exact (hzero _).trans (if_pos hp)
    | succ turns => exact (hturn _ _).trans (if_pos hp)
  | frame s p dp sib up ih =>
    have ht' : IsTree h (up.plug (join s u p dp sib)) := ht
    have hp : h.parent u.root = p := ht.parent_focus hu
    have hp0 : p ≠ 0 := ht'.reads.ne_zero
    obtain ⟨turns, rfl⟩ : ∃ j, turns = j + 1 := ⟨turns - 1, by simp only [Ctx.depth] at hturns; omega⟩
    rw [hturn, hp, if_neg hp0, hstep s p dp sib up u ht hu hp]
    split
    · rfl
    · have hup : up.depth ≤ turns := by
        simp only [Ctx.depth] at hturns
        omega
      have hroot : (join s u p dp sib).root ≠ 0 := by
        rw [root_join]
        exact hp0
      have hrest := ih ht' hroot hup
      rwa [root_join] at hrest

/-- The way up ends at the next node after the subtree, or at the last one before it. -/
theorem climb_spec (ht : IsTree h (c.plug u)) (hu : u.root ≠ 0) (hturns : c.depth ≤ turns) (s : Side) :
    climb h s turns u.root = .ok (match s with
      | .left => c.after.headD 0
      | .right => c.before.getLastD 0) := by
  refine climbing (climb h s) (fun tmp => h.child s (h.parent tmp) = tmp) h.parent
    (fun c => match s with
      | .left => c.after.headD 0
      | .right => c.before.getLastD 0) ?_ ?_ ?_ ?_ ht hu hturns
  · exact fun _ => rfl
  · exact fun _ _ => rfl
  · cases s <;> rfl
  intro s' p dp sib up u ht hu hp
  rw [hp]
  by_cases hs : s = s'
  · subst hs
    rw [if_pos ((child_eq_iff ht hu s).mpr rfl)]
    cases s with
    | left => rfl
    | right => rw [Ctx.before, getLastD_append, getLastD_append]; rfl
  · rw [if_neg fun he => hs ((child_eq_iff ht hu s).mp he)]
    cases s <;> cases s' <;> first | rfl | exact absurd rfl hs

/-! ### Infix order -/

theorem subtree_length (c : Ctx τ) (l r : BinTree τ) (x : ℕ) (d : τ)
    (hturns : (c.plug (node l x d r)).nodes.length ≤ turns) :
    c.depth + l.nodes.length + r.nodes.length < turns := by
  have hle := c.depth_le_length (node l x d r)
  rw [nodes_node, List.length_append, List.length_cons] at hle
  omega

theorem getNextInfix_place (ht : IsTree h (c.plug (node l x d r)))
    (hturns : (c.plug (node l x d r)).nodes.length ≤ turns) :
    getNextInfix h turns x = .ok ((r.nodes ++ c.after).headD 0) := by
  obtain ⟨hx, -, hright, hparent⟩ := ht.reads_place
  have hlen := subtree_length c l r x d hturns
  unfold getNextInfix
  rw [if_neg hx, hright, hparent]
  by_cases hr : r = nil
  · subst hr
    rw [root_nil, nodes_nil, List.nil_append]
    have hclimb : climb h .left turns x = .ok (c.after.headD 0) := climb_spec ht hx (by omega) .left
    cases c with
    | top => rfl
    | frame s p dp sib up =>
      have hp : (Ctx.frame s p dp sib up).parent ≠ 0 := ht.focus.1.1
      rw [if_neg hp]
      by_cases hl : x = h.left p
      · obtain rfl := (side_iff ht).1.mp hl
        exact if_pos ⟨rfl, hl⟩
      · exact (if_neg fun he => hl he.2).trans hclimb
  · have hr0 := root_ne_zero ht.focus.2.2.2.2 hr
    have hdescend : furthest h .left turns r.root = .ok ((r.nodes ++ c.after).headD 0) := by
      rw [furthest_left ht.focus.2.2.2.2 hr (by omega), root_first, headD_append _ _ (nodes_ne_nil hr)]
    by_cases hp : c.parent = 0
    · rw [if_pos hp, if_pos hr0]
      exact hdescend
    · rw [if_neg hp, if_neg fun he => hr0 he.1, if_pos hr0]
      exact hdescend

theorem getPrevInfix_place (ht : IsTree h (c.plug (node l x d r)))
    (hturns : (c.plug (node l x d r)).nodes.length ≤ turns) :
    getPrevInfix h turns x = .ok ((c.before ++ l.nodes).getLastD 0) := by
  obtain ⟨hx, hleft, -, hparent⟩ := ht.reads_place
  have hlen := subtree_length c l r x d hturns
  unfold getPrevInfix
  rw [if_neg hx, hleft, hparent, getLastD_append]
  by_cases hl : l = nil
  · subst hl
    rw [root_nil, if_neg (not_not.mpr rfl), nodes_nil, List.getLastD_nil]
    have hclimb : climb h .right turns x = .ok (c.before.getLastD 0) := climb_spec ht hx (by omega) .right
    cases c with
    | top => rfl
    | frame s p dp sib up =>
      have hp : (Ctx.frame s p dp sib up).parent ≠ 0 := ht.focus.1.1
      rw [if_neg hp]
      by_cases hr : h.right p = x
      · obtain rfl := (side_iff ht).2.mp hr.symm
        rw [Ctx.before, getLastD_append, List.getLastD_concat]
        exact if_pos hr
      · exact (if_neg hr).trans hclimb
  · have hl0 := root_ne_zero ht.focus.2.2.2.1 hl
    rw [if_pos hl0, furthest_right ht.focus.2.2.2.1 hl (by omega), root_last]
    exact congrArg Except.ok (getLastD_of_ne (nodes_ne_nil hl) ..)

/-- A walk from the first node in order. -/
def walkInfix (h : Heap τ) (turns : ℕ) : Except TraversalFault (List ℕ) := do
  let first ← beginInfix h turns
  visits (getNextInfix h turns) .diverged turns first

theorem beginInfix_spec (ht : IsTree h u) (hturns : u.nodes.length ≤ turns) :
    beginInfix h turns = .ok (u.nodes.headD 0) := by
  unfold beginInfix
  rw [ht.root]
  by_cases hu : u = nil
  · subst hu
    rfl
  · rw [if_neg (root_ne_zero ht.holds hu), furthest_left ht.holds hu hturns, root_first]

theorem infix_forward (ht : IsTree h u) (hturns : u.nodes.length ≤ turns) :
    Forward (getNextInfix h turns) u.nodes := by
  intro xs x ys hsplit
  obtain ⟨c, l, d, r, rfl, -, rfl⟩ := infix_split ht.nodup hsplit
  exact getNextInfix_place ht hturns

theorem infix_prev (ht : IsTree h u) (hturns : u.nodes.length ≤ turns) {xs ys : List ℕ}
    (hsplit : u.nodes = xs ++ x :: ys) : getPrevInfix h turns x = .ok (xs.getLastD 0) := by
  obtain ⟨c, l, d, r, rfl, rfl, -⟩ := infix_split ht.nodup hsplit
  exact getPrevInfix_place ht hturns

theorem infix_backward (ht : IsTree h u) (hturns : u.nodes.length ≤ turns) :
    Backward (getPrevInfix h turns) u.nodes :=
  backward_of_last fun _ _ _ hsplit _ => infix_prev ht hturns hsplit

theorem prev_infix_eq_null (ht : IsTree h u) (hturns : u.nodes.length ≤ turns) (hx : x ∈ u.nodes) :
    getPrevInfix h turns x = .ok 0 ↔ x = u.nodes.headD 0 := by
  have h0 : 0 ∉ u.nodes := fun hm => ht.ne_zero hm rfl
  obtain ⟨xs, ys, hsplit⟩ := List.append_of_mem hx
  have hnd := ht.nodup
  rw [infix_prev ht hturns hsplit]
  rw [hsplit] at h0 hnd ⊢
  cases xs with
  | nil => exact iff_of_true rfl rfl
  | cons a xs =>
    refine iff_of_false ?_ ?_
    · intro he
      have hlast : (a :: xs).getLastD 0 ∈ a :: xs := by
        rw [List.getLastD_cons]
        exact List.getLastD_mem_cons
      rw [Except.ok.inj he] at hlast
      exact h0 (List.mem_append_left _ hlast)
    · rintro rfl
      exact (List.nodup_cons.mp hnd).1 (List.mem_append_right _ (List.mem_cons_self ..))

/-- The walk visits the nodes in order and ends; the two directions undo each other, and there is nothing
before the leftmost node. -/
theorem infix_traversal (ht : IsTree h u) (hturns : u.nodes.length ≤ turns) :
    walkInfix h turns = .ok u.nodes ∧
      (∀ x ∈ u.nodes, ∀ y ∈ u.nodes, getNextInfix h turns x = .ok y ↔ getPrevInfix h turns y = .ok x) ∧
      ∀ x ∈ u.nodes, getPrevInfix h turns x = .ok 0 ↔ x = u.nodes.headD 0 := by
  have h0 : 0 ∉ u.nodes := fun hm => ht.ne_zero hm rfl
  have hforward := infix_forward ht hturns
  refine ⟨?_, ?_, fun x hx => prev_infix_eq_null ht hturns hx⟩
  · unfold walkInfix
    rw [beginInfix_spec ht hturns]
    exact (visits_iff h0 hturns).mpr ⟨rfl, hforward⟩
  · intro x hx y hy
    refine next_iff_prev h0 hforward (infix_backward ht hturns) ?_ hx hy
    have hmem : u.nodes.headD 0 ∈ u.nodes := by
      cases hn : u.nodes with
      | nil => rw [hn] at hx; cases hx
      | cons a as => exact List.mem_cons_self ..
    exact (prev_infix_eq_null ht hturns hmem).mpr rfl

/-- The root 4 with the children 2 and 5, and below 2 the node 1 on the left and 3 on the right. -/
def fiveNodes : Heap Unit :=
  ⟨4, fun x => if x = 4 then ⟨2, 5, 0, ()⟩ else if x = 2 then ⟨1, 3, 4, ()⟩
    else if x = 5 then ⟨0, 0, 4, ()⟩ else ⟨0, 0, 2, ()⟩⟩

def fiveNodesTree : BinTree Unit :=
  node (node (node nil 1 () nil) 2 () (node nil 3 () nil)) 4 () (node nil 5 () nil)

theorem fiveNodes_isTree : IsTree fiveNodes fiveNodesTree where
  root := rfl
  holds := by
    refine ⟨by decide, rfl, ⟨by decide, rfl, ?_, ?_⟩, ?_⟩
    · exact ⟨by decide, rfl, trivial, trivial⟩
    · exact ⟨by decide, rfl, trivial, trivial⟩
    · exact ⟨by decide, rfl, trivial, trivial⟩
  nodup := by decide

theorem infix_traversal_five : walkInfix fiveNodes 5 = .ok [1, 2, 3, 4, 5] :=
  (infix_traversal fiveNodes_isTree (by decide)).1

/-! ### Prefix order -/

theorem climbFromLeft_spec (ht : IsTree h (c.plug u)) (hu : u.root ≠ 0) (hturns : c.depth ≤ turns) :
    climbFromLeft h turns u.root c.parent = .ok (c.preAfter.headD 0) := by
  induction c generalizing u turns with
  | top => cases turns <;> rfl
  | frame s p dp sib up ih =>
    have ht' : IsTree h (up.plug (join s u p dp sib)) := ht
    have hr := ht'.reads
    obtain ⟨turns, rfl⟩ : ∃ j, turns = j + 1 := ⟨turns - 1, by simp only [Ctx.depth] at hturns; omega⟩
    have hup : up.depth ≤ turns := by
      simp only [Ctx.depth] at hturns
      omega
    have hroot : (join s u p dp sib).root ≠ 0 := by
      rw [root_join]
      exact hr.ne_zero
    have hrest := ih ht' hroot hup
    rw [root_join] at hrest
    rw [Ctx.parent, climbFromLeft, if_neg hr.ne_zero, hr.parent]
    cases s with
    | left =>
      have hright : h.right p = sib.root := hr.other
      have hleft : h.left p = u.root := hr.child
      rw [hright, hleft, Ctx.preAfter]
      by_cases hsib : sib = nil
      · subst hsib
        rw [if_neg fun he => he.2 rfl]
        exact hrest
      · have hs0 := root_ne_zero (holds_join.mp ht'.focus.2).2.2.2 hsib
        rw [if_pos ⟨rfl, hs0⟩, headD_append _ _ (preorder_ne_nil hsib), headD_preorder]
        rfl
    | right =>
      rw [if_neg fun he => absurd ((child_eq_iff ht hu .left).mp he.1) (by decide)]
      exact hrest

theorem climbFromRight_spec (ht : IsTree h (c.plug u)) (hu : u.root ≠ 0) (hturns : c.depth ≤ turns) :
    climbFromRight h turns u.root = .ok (c.preAfter.headD 0) := by
  refine climbing (climbFromRight h) (fun tmp => h.right (h.parent tmp) ≠ tmp ∧ h.right (h.parent tmp) ≠ 0)
    (fun tmp => h.right (h.parent tmp)) (fun c => c.preAfter.headD 0) ?_ ?_ ?_ ?_ ht hu hturns
  · exact fun _ => rfl
  · exact fun _ _ => rfl
  · rfl
  intro s p dp sib up u ht hu hp
  have ht' : IsTree h (up.plug (join s u p dp sib)) := ht
  rw [hp]
  cases s with
  | left =>
    have hright : h.right p = sib.root := ht'.reads.other
    rw [hright, Ctx.preAfter]
    by_cases hsib : sib = nil
    · subst hsib
      exact (if_neg fun he => he.2 rfl).symm
    · have hs0 := root_ne_zero (holds_join.mp ht'.focus.2).2.2.2 hsib
      have hne : sib.root ≠ u.root := fun he => ht'.child_ne hu he.symm
      rw [if_pos ⟨hne, hs0⟩, headD_append _ _ (preorder_ne_nil hsib), headD_preorder]
  | right => exact (if_neg fun he => he.1 ((child_eq_iff ht hu .right).mpr rfl)).symm

/-- A root without children has no parent to be followed. -/
theorem getNextPrefix_alone (ht : IsTree h (node nil x d nil)) :
    getNextPrefix h turns x = .error .nullDereference := by
  have htop : IsTree h (Ctx.top.plug (node nil x d nil)) := ht
  obtain ⟨hx, hleft, hright, hparent⟩ := htop.reads_place
  unfold getNextPrefix
  rw [if_neg hx, hleft, hright, hparent]
  rfl

theorem getNextPrefix_place (ht : IsTree h (c.plug (node l x d r)))
    (hturns : (c.plug (node l x d r)).nodes.length ≤ turns)
    (hmore : (c.plug (node l x d r)).nodes.length ≠ 1) :
    getNextPrefix h turns x = .ok ((l.preorder ++ (r.preorder ++ c.preAfter)).headD 0) := by
  obtain ⟨hx, hleft, hright, hparent⟩ := ht.reads_place
  have hlen := subtree_length c l r x d hturns
  unfold getNextPrefix
  rw [if_neg hx, hleft, hright, hparent]
  by_cases hl : l = nil
  · by_cases hr : r = nil
    · subst hl hr
      rw [root_nil, if_neg (not_not.mpr rfl), if_neg (not_not.mpr rfl)]
      cases c with
      | top => exact absurd rfl hmore
      | frame s p dp sib up =>
        have ht' : IsTree h (up.plug (join s (node nil x d nil) p dp sib)) := ht
        have hp : p ≠ 0 := ht.focus.1.1
        have hdepth : up.depth < turns := by
          simp only [Ctx.depth] at hlen
          omega
        obtain ⟨hisLeft, hisRight⟩ := side_iff ht
        rw [Ctx.parent, if_neg hp]
        cases s with
        | left =>
          rw [if_pos (hisLeft.mpr rfl)]
          exact climbFromLeft_spec ht hx hdepth
        | right =>
          rw [if_neg fun he => absurd (hisLeft.mp he) (by decide), if_pos (hisRight.mpr rfl)]
          exact climbFromRight_spec ht' hp hdepth.le
    · subst hl
      rw [root_nil, if_neg (not_not.mpr rfl), if_pos (root_ne_zero ht.focus.2.2.2.2 hr), preorder,
        List.nil_append, headD_append _ _ (preorder_ne_nil hr), headD_preorder]
      rfl
  · rw [if_pos (root_ne_zero ht.focus.2.2.2.1 hl), headD_append _ _ (preorder_ne_nil hl), headD_preorder]
    rfl

theorem preAfter_of_after (hc : c.after = []) : c.preAfter = [] := by
  induction c with
  | top => rfl
  | frame s x d sib up ih =>
    cases s with
    | left => exact absurd hc (by simp [Ctx.after])
    | right => exact ih hc

/-- From a node whose left subtree is `t` the loops end at the last node of `t` in prefix order. -/
theorem lastBelow_spec {n : ℕ} (ht : IsTree h (c.plug (node t x d r))) (hn : t.nodes.length ≤ n)
    (hturns : t.nodes.length ≤ turns) : lastBelow h turns n x = .ok (t.preorder.getLastD x) := by
  induction n generalizing c t x d r with
  | zero =>
    obtain ⟨-, hleft, -⟩ := ht.reads_place
    cases t with
    | nil => exact if_pos hleft
    | node l y d' r' => simp at hn
  | succ n ih =>
    obtain ⟨-, hleft, -⟩ := ht.reads_place
    rw [lastBelow, hleft]
    by_cases hne : t = nil
    · subst hne
      rfl
    · have hl0 := root_ne_zero ht.focus.2.2.2.1 hne
      rw [if_neg hl0, furthest_right ht.focus.2.2.2.1 hne hturns]
      obtain ⟨k, l, y, d', rfl, hafter, hlast⟩ := exists_last hne
      rw [hlast]
      have ht' : IsTree h ((k.comp (.frame .left x d r c)).plug (node l y d' nil)) := by
        rw [Ctx.plug_comp]
        exact ht
      have hle := k.depth_le_length (node l y d' nil)
      rw [nodes_node, List.length_append, List.length_cons] at hle
      show lastBelow h turns n y = _
      rw [ih ht' (by omega) (by omega), Ctx.preorder_plug, preAfter_of_after hafter, getLastD_append]
      simp only [preorder, List.append_nil, List.getLastD_cons]

theorem getPrevPrefix_place (ht : IsTree h (c.plug (node l x d r)))
    (hturns : (c.plug (node l x d r)).nodes.length ≤ turns) :
    getPrevPrefix h turns x = .ok (c.preBefore.getLastD 0) := by
  obtain ⟨hx, -, -, hparent⟩ := ht.reads_place
  unfold getPrevPrefix
  rw [if_neg hx, hparent]
  cases c with
  | top => rfl
  | frame s p dp sib up =>
    have hp : p ≠ 0 := ht.focus.1.1
    obtain ⟨hisLeft, hisRight⟩ := side_iff ht
    rw [Ctx.parent, if_neg hp]
    cases s with
    | left =>
      rw [if_pos (hisLeft.mpr rfl), Ctx.preBefore, List.getLastD_concat]
      rfl
    | right =>
      have ht' : IsTree h (up.plug (node sib p dp (node l x d r))) := ht
      have hlen := subtree_length up sib (node l x d r) p dp hturns
      rw [if_neg fun he => absurd (hisLeft.mp he) (by decide), if_pos (hisRight.mpr rfl),
        lastBelow_spec ht' (by omega) (by omega),
        Ctx.preBefore, getLastD_append, List.getLastD_cons]

theorem prefix_forward (ht : IsTree h u) (hturns : u.nodes.length ≤ turns) (hmore : u.nodes.length ≠ 1) :
    Forward (getNextPrefix h turns) u.preorder := by
  intro xs x ys hsplit
  obtain ⟨c, l, d, r, rfl, -, rfl⟩ := preorder_split ht.nodup hsplit
  exact getNextPrefix_place ht hturns hmore

theorem prefix_backward (ht : IsTree h u) (hturns : u.nodes.length ≤ turns) :
    Backward (getPrevPrefix h turns) u.preorder := by
  apply backward_of_last
  intro xs y ys hsplit _
  obtain ⟨c, l, d, r, rfl, rfl, -⟩ := preorder_split ht.nodup hsplit
  exact getPrevPrefix_place ht hturns

/-- The walk from the root visits the nodes in preorder and ends, and the two directions undo each other. -/
def PrefixWalk (h : Heap τ) (turns : ℕ) (u : BinTree τ) : Prop :=
  visits (getNextPrefix h turns) .diverged turns h.root = .ok u.preorder ∧
    ∀ x ∈ u.nodes, ∀ y ∈ u.nodes, getNextPrefix h turns x = .ok y ↔ getPrevPrefix h turns y = .ok x

/-- A single node is the only tree that is not walked through rightly. -/
theorem prefix_walk_iff (ht : IsTree h u) (hu : u ≠ nil) (hturns : u.nodes.length ≤ turns) :
    PrefixWalk h turns u ↔ u.nodes.length ≠ 1 := by
  have hmem {x : ℕ} : x ∈ u.preorder ↔ x ∈ u.nodes := u.preorder_perm.mem_iff
  have h0 : 0 ∉ u.preorder := fun hm => ht.ne_zero (hmem.mp hm) rfl
  have hlen : u.preorder.length ≤ turns := by rwa [u.preorder_perm.length_eq]
  constructor
  · rintro ⟨hvisits, -⟩ hone
    obtain ⟨-, hforward⟩ := (visits_iff h0 hlen).mp hvisits
    cases u with
    | nil => exact hu rfl
    | node l x d r =>
      rw [nodes_node, List.length_append, List.length_cons] at hone
      have hl : l = nil := by
        by_contra hne
        have hpos := List.length_pos_of_ne_nil (nodes_ne_nil hne)
        omega
      have hr : r = nil := by
        by_contra hne
        have hpos := List.length_pos_of_ne_nil (nodes_ne_nil hne)
        omega
      subst hl hr
      have hnext := hforward [] x [] rfl
      rw [getNextPrefix_alone ht] at hnext
      cases hnext
  · intro hmore
    have hforward := prefix_forward ht hturns hmore
    have hroot : u.preorder.headD 0 = h.root := by rw [headD_preorder, ht.root]
    refine ⟨(visits_iff h0 hlen).mpr ⟨hroot.symm, hforward⟩, ?_⟩
    intro x hx y hy
    refine next_iff_prev h0 hforward (prefix_backward ht hturns) ?_ (hmem.mpr hx) (hmem.mpr hy)
    have htop : IsTree h (Ctx.top.plug u) := ht
    have hparent : h.parent u.root = 0 := htop.parent_focus (root_ne_zero ht.holds hu)
    unfold getPrevPrefix
    rw [headD_preorder, if_neg (root_ne_zero ht.holds hu), if_pos hparent]
    rfl

theorem prefix_walk_five : PrefixWalk fiveNodes 5 fiveNodesTree :=
  (prefix_walk_iff fiveNodes_isTree (fun he => by cases he) (by decide)).mpr (by decide)

/-- The node 7 alone. -/
def oneNode : Heap Unit := ⟨7, fun _ => ⟨0, 0, 0, ()⟩⟩

/-- The walk follows the parent of the only node. -/
theorem prefix_single_null : IsTree oneNode (node nil 7 () nil) ∧
    visits (getNextPrefix oneNode 1) .diverged 1 oneNode.root = .error .nullDereference ∧
    ¬ PrefixWalk oneNode 1 (node nil 7 () nil) := by
  have hwalk : visits (getNextPrefix oneNode 1) .diverged 1 oneNode.root = .error .nullDereference := rfl
  refine ⟨⟨rfl, ⟨by decide, rfl, trivial, trivial⟩, by decide⟩, hwalk, ?_⟩
  rintro ⟨hvisits, -⟩
  rw [hwalk] at hvisits
  cases hvisits

end MaiFaSp.SearchTree
