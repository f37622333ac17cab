import MaiFaSp.SearchTree.Traversals

/-!
# Postfix traversal (`binary_search_tree.h:2667-2679, 3303-3358`)

`begin_postfix` and `get_next_postfix` go left as far as it goes and then right as far as it goes, but
not to the left again. `get_prev_postfix` looks for the left sibling of a right child without
children, and no further.
-/

namespace MaiFaSp.SearchTree

open LinkedTree BinTree

variable {τ : Type}

section Code

variable (h : Heap τ)

/-- `begin_postfix`, which follows the root pointer without a test. -/
def beginPostfix (turns : ℕ) : Except TraversalFault ℕ :=
  if h.root = 0 then throw .nullDereference
  else do
    let tmp ← furthest h .left turns h.root
    furthest h .right turns tmp

def getNextPostfix (turns n : ℕ) : Except TraversalFault ℕ :=
  if n = 0 then pure 0
  else if h.parent n = 0 then pure 0
  else if n = h.right (h.parent n) ∨ h.right (h.parent n) = 0 then pure (h.parent n)
  else do
    let tmp ← furthest h .left turns (h.right (h.parent n))
    furthest h .right turns tmp

/-- Up to the first node that is a right child and has a left sibling: the sibling. -/
def climbToSibling : ℕ → ℕ → Except TraversalFault ℕ
  | 0, tmp => if h.parent tmp = 0 then pure 0 else throw .diverged
  | n + 1, tmp =>
    if h.parent tmp = 0 then pure 0
    else if h.right (h.parent tmp) = tmp ∧ h.left (h.parent tmp) ≠ 0 then pure (h.left (h.parent tmp))
    else climbToSibling n (h.parent tmp)

def getPrevPostfix (turns n : ℕ) : Except TraversalFault ℕ :=
  if n = 0 then throw .nullDereference
  else if h.right n ≠ 0 then pure (h.right n)
  else if h.left n ≠ 0 then pure (h.left n)
  else if h.parent n = 0 then pure 0
  else if h.left (h.parent n) = n then climbToSibling h turns n
  else pure (h.left (h.parent n))

end Code

/-- The walk visits the nodes in postorder and ends, and every node but the first has the one before it. -/
def PostfixWalk (h : Heap τ) (turns : ℕ) (u : BinTree τ) : Prop :=
  (do
    let first ← beginPostfix h turns
    visits (getNextPostfix h turns) .diverged turns first) = .ok u.postorder ∧
    Backward (getPrevPostfix h turns) u.postorder

/-! ### The shapes that are walked through rightly -/

/-- Only right children. -/
def rightChain : BinTree τ → Bool
  | nil => true
  | node nil _ _ r => rightChain r
  | node (node _ _ _ _) _ _ _ => false

/-- Below the leftmost node there are only right children. -/
def descends : BinTree τ → Bool
  | nil => true
  | node nil _ _ r => rightChain r
  | node (node l x d r) _ _ _ => descends (node l x d r)

/-- The leftmost node has no child. -/
def leftLeaf : BinTree τ → Bool
  | nil => true
  | node nil _ _ nil => true
  | node nil _ _ (node _ _ _ _) => false
  | node (node l x d r) _ _ _ => leftLeaf (node l x d r)

/-- At every node with two children the leftmost node on the right has no child. -/
def siblingsReached : BinTree τ → Bool
  | nil => true
  | node nil _ _ r => siblingsReached r
  | node (node l x d r) _ _ r' => leftLeaf r' && siblingsReached (node l x d r) && siblingsReached r'

/-- Where a descent of the code ends. -/
def dive (u : BinTree τ) : ℕ := u.first.last.root

variable {h : Heap τ} {c k up : Ctx τ} {u t l r sib : BinTree τ} {s : Side} {x p q turns : ℕ} {d dp : τ}

/-! ### The descents -/

theorem first_holds (hu : Holds h p u) : ∃ q, Holds h q u.first := by
  induction u generalizing p with
  | nil => exact ⟨p, hu⟩
  | node l x d r ihl _ =>
    cases l with
    | nil => exact ⟨p, hu⟩
    | node l' x' d' r' => exact ihl hu.2.2.1

theorem first_length (u : BinTree τ) : u.first.nodes.length ≤ u.nodes.length := by
  induction u with
  | nil => exact le_rfl
  | node l x d r ihl _ =>
    cases l with
    | nil => exact le_rfl
    | node l' x' d' r' =>
      refine ihl.trans ?_
      rw [nodes_node (node l' x' d' r'), List.length_append]
      omega

theorem first_ne_nil (hu : u ≠ nil) : u.first ≠ nil := by
  induction u with
  | nil => exact absurd rfl hu
  | node l x d r ihl _ =>
    cases l with
    | nil => exact fun he => by cases he
    | node l' x' d' r' => exact ihl fun he => by cases he

theorem descent_eq (hu : Holds h p u) (hne : u ≠ nil) (hturns : u.nodes.length ≤ turns) :
    (do
      let tmp ← furthest h .left turns u.root
      furthest h .right turns tmp) = .ok (dive u) := by
  obtain ⟨q, hq⟩ := first_holds hu
  rw [furthest_left hu hne hturns]
  exact furthest_right hq (first_ne_nil hne) ((first_length u).trans hturns)

theorem last_mem (hu : u ≠ nil) : u.last.root ∈ u.nodes := by
  obtain ⟨k, l, y, d, rfl, -, hlast⟩ := exists_last hu
  rw [hlast, root_node]
  exact Ctx.mem_nodes_plug.mpr (Or.inl (by simp))

theorem headD_mem {xs : List ℕ} (hxs : xs ≠ []) : xs.headD 0 ∈ xs := by
  cases xs with
  | nil => exact absurd rfl hxs
  | cons x xs => exact List.mem_cons_self ..

theorem headD_postorder_node (hl : l ≠ nil) : (node l x d r).postorder.headD 0 = l.postorder.headD 0 :=
  headD_append _ _ (postorder_ne_nil hl)

theorem last_eq_iff (hne : u ≠ nil) (hnd : u.nodes.Nodup) :
    u.last.root = u.postorder.headD 0 ↔ rightChain u = true := by
  induction u with
  | nil => exact absurd rfl hne
  | node l x d r _ ihr =>
    obtain ⟨hxl, -, hlnd, hrnd, hlr⟩ := nodup_join (s := .left).mp hnd
    cases l with
    | nil =>
      cases r with
      | nil => exact iff_of_true rfl rfl
      | node l' x' d' r' =>
        have hr : node l' x' d' r' ≠ nil := fun he => by cases he
        have hhead : (node nil x d (node l' x' d' r')).postorder.headD 0 =
            (node l' x' d' r').postorder.headD 0 := headD_append _ _ (postorder_ne_nil hr)
        rw [hhead]
        exact ihr hr hrnd
    | node l' x' d' r' =>
      -- the first node of all is on the left, where the descent does not come to
      have hl : node l' x' d' r' ≠ nil := fun he => by cases he
      refine iff_of_false ?_ Bool.false_ne_true
      rw [headD_postorder_node hl]
      have hfirst : (node l' x' d' r').postorder.headD 0 ∈ (node l' x' d' r').nodes :=
        (postorder_perm _).mem_iff.mp (headD_mem (postorder_ne_nil hl))
      intro he
      rw [← he] at hfirst
      cases r with
      | nil => exact hxl hfirst
      | node l₂ x₂ d₂ r₂ => exact hlr _ hfirst (last_mem (u := node l₂ x₂ d₂ r₂) fun he => by cases he)

/-- The descent ends at the first node in postorder just where the shape is right. -/
theorem dive_eq_iff (hne : u ≠ nil) (hnd : u.nodes.Nodup) :
    dive u = u.postorder.headD 0 ↔ descends u = true := by
  induction u with
  | nil => exact absurd rfl hne
  | node l x d r ihl _ =>
    obtain ⟨-, -, hlnd, -⟩ := nodup_join (s := .left).mp hnd
    cases l with
    | nil => exact last_eq_iff hne hnd
    | node l' x' d' r' =>
      have hl : node l' x' d' r' ≠ nil := fun he => by cases he
      rw [headD_postorder_node hl]
      exact ihl hl hlnd

/-! ### A step at a place -/

/-- What `get_next_postfix` finds at a node at the place. -/
def nextPostfix : Ctx τ → ℕ
  | .top => 0
  | .frame .right p _ _ _ => p
  | .frame .left p _ nil _ => p
  | .frame .left _ _ (node l y d r) _ => dive (node l y d r)

theorem getNextPostfix_place (ht : IsTree h (c.plug (node l x d r)))
    (hturns : (c.plug (node l x d r)).nodes.length ≤ turns) :
    getNextPostfix h turns x = .ok (nextPostfix c) := by
  obtain ⟨hx, -, -, hparent⟩ := ht.reads_place
  unfold getNextPostfix
  rw [if_neg hx, hparent]
  cases c with
  | top => rfl
  | frame s p dp sib up =>
    have hp : p ≠ 0 := ht.focus.1.1
    obtain ⟨-, hisRight⟩ := side_iff ht
    rw [Ctx.parent, if_neg hp]
    cases s with
    | right =>
      rw [if_pos (Or.inl (hisRight.mpr rfl))]
      rfl
    | left =>
      have ht' : IsTree h (up.plug (join .left (node l x d r) p dp sib)) := ht
      have hright : h.right p = sib.root := ht'.reads.other
      rw [hright]
      cases sib with
      | nil =>
        have hnull : x = (nil : BinTree τ).root ∨ (nil : BinTree τ).root = 0 := Or.inr rfl
        rw [if_pos hnull]
        rfl
      | node l' y d' r' =>
        have hsib : node l' y d' r' ≠ nil := fun he => by cases he
        have hholds := (holds_join.mp ht'.focus.2).2.2.2
        have hlen := subtree_length up (node l x d r) (node l' y d' r') p dp hturns
        have hno : ¬ (x = (node l' y d' r').root ∨ (node l' y d' r').root = 0) := by
          rintro (he | he)
          · exact absurd (hisRight.mp (he.trans hright.symm)) (by decide)
          · exact hholds.1 he
        rw [if_neg hno]
        exact descent_eq hholds hsib (by omega)

theorem climbToSibling_spec (ht : IsTree h (c.plug u)) (hu : u.root ≠ 0) (hturns : c.depth ≤ turns) :
    climbToSibling h turns u.root = .ok (c.postBefore.getLastD 0) := by
  refine climbing (climbToSibling h) (fun tmp => h.right (h.parent tmp) = tmp ∧ h.left (h.parent tmp) ≠ 0)
    (fun tmp => h.left (h.parent tmp)) (fun c => c.postBefore.getLastD 0) ?_ ?_ ?_ ?_ ht hu hturns
  · exact fun _ => rfl
  · exact fun _ _ => rfl
  · rfl
  intro s p dp sib up u ht hu hp
  have ht' : IsTree h (up.plug (join s u p dp sib)) := ht
  rw [hp]
  cases s with
  | left => exact (if_neg fun he => absurd ((child_eq_iff ht hu .right).mp he.1) (by decide)).symm
  | right =>
    have hleft : h.left p = sib.root := ht'.reads.other
    have hright : h.right p = u.root := ht'.reads.child
    rw [hright, hleft, Ctx.postBefore, getLastD_append]
    by_cases hsib : sib = nil
    · subst hsib
      exact (if_neg fun he => he.2 rfl).symm
    · rw [if_pos ⟨rfl, root_ne_zero (holds_join.mp ht'.focus.2).2.2.2 hsib⟩, getLastD_postorder hsib]

/-- A right child without children and without a sibling has nothing before it. -/
theorem getPrevPostfix_lone (ht : IsTree h ((Ctx.frame .right p dp nil up).plug (node nil x d nil))) :
    getPrevPostfix h turns x = .ok 0 := by
  obtain ⟨hx, hleft, hright, hparent⟩ := ht.reads_place
  have hp : p ≠ 0 := ht.focus.1.1
  have ht' : IsTree h (up.plug (join .right (node nil x d nil) p dp nil)) := ht
  have hother : h.left p = 0 := ht'.reads.other
  unfold getPrevPostfix
  rw [if_neg hx, hleft, hright, hparent, root_nil, if_neg (not_not.mpr rfl), if_neg (not_not.mpr rfl),
    Ctx.parent, if_neg hp, hother, if_neg (Ne.symm hx)]
  rfl

/-- Everywhere else the node before is found. -/
theorem getPrevPostfix_place (ht : IsTree h (c.plug (node l x d r)))
    (hturns : (c.plug (node l x d r)).nodes.length ≤ turns)
    (hlone : l = nil → r = nil → ∀ p dp up, c ≠ .frame .right p dp nil up) :
    getPrevPostfix h turns x = .ok ((c.postBefore ++ (l.postorder ++ r.postorder)).getLastD 0) := by
  obtain ⟨hx, hleft, hright, hparent⟩ := ht.reads_place
  have hlen := subtree_length c l r x d hturns
  unfold getPrevPostfix
  rw [if_neg hx, hleft, hright, hparent, getLastD_append, getLastD_append]
  by_cases hr : r = nil
  · subst hr
    rw [root_nil, if_neg (not_not.mpr rfl)]
    by_cases hl : l = nil
    · subst hl
      rw [root_nil, if_neg (not_not.mpr rfl)]
      cases c with
      | top => rfl
      | frame s p dp sib up =>
        have hp : p ≠ 0 := ht.focus.1.1
        obtain ⟨hisLeft, -⟩ := side_iff ht
        rw [Ctx.parent, if_neg hp]
        cases s with
        | left =>
          rw [if_pos (hisLeft.mpr rfl).symm]
          exact climbToSibling_spec ht hx (by omega)
        | right =>
          have ht' : IsTree h (up.plug (join .right (node nil x d nil) p dp sib)) := ht
          have hother : h.left p = sib.root := ht'.reads.other
          rw [if_neg fun he => absurd (hisLeft.mp he.symm) (by decide), hother]
          cases sib with
          | nil => exact absurd rfl (hlone rfl rfl p dp up)
          | node l' y d' r' =>
            have hsib : node l' y d' r' ≠ nil := fun he => by cases he
            rw [Ctx.postBefore, getLastD_append]
            exact congrArg Except.ok (getLastD_postorder hsib _).symm
    · rw [if_pos (root_ne_zero ht.focus.2.2.2.1 hl), getLastD_postorder hl]
      rfl
  · rw [if_pos (root_ne_zero ht.focus.2.2.2.2 hr), getLastD_postorder hr]
    rfl

/-! ### The whole walk -/

theorem descends_of_leftLeaf (h : leftLeaf u = true) : descends u = true := by
  induction u with
  | nil => rfl
  | node l x d r ihl _ =>
    cases l with
    | nil =>
      cases r with
      | nil => rfl
      | node l' x' d' r' => exact absurd h Bool.false_ne_true
    | node l' x' d' r' => exact ihl h

theorem siblingsReached_focus (h : siblingsReached (c.plug t) = true) : siblingsReached t = true := by
  induction c generalizing t with
  | top => exact h
  | frame s p dp sib up ih =>
    have hjoin : siblingsReached (join s t p dp sib) = true := ih h
    cases s with
    | left =>
      cases t with
      | nil => rfl
      | node l x d r =>
        have hparts : (leftLeaf sib && siblingsReached (node l x d r) && siblingsReached sib) = true := hjoin
        rw [Bool.and_eq_true, Bool.and_eq_true] at hparts
        exact hparts.1.2
    | right =>
      cases sib with
      | nil => exact hjoin
      | node l x d r =>
        have hparts : (leftLeaf t && siblingsReached (node l x d r) && siblingsReached t) = true := hjoin
        rw [Bool.and_eq_true] at hparts
        exact hparts.2

theorem leftLeaf_of_siblingsReached (hl : l ≠ nil) (h : siblingsReached (node l x d r) = true) :
    leftLeaf r = true := by
  cases l with
  | nil => exact absurd rfl hl
  | node l' x' d' r' =>
    have hparts : (leftLeaf r && siblingsReached (node l' x' d' r') && siblingsReached r) = true := h
    rw [Bool.and_eq_true, Bool.and_eq_true] at hparts
    exact hparts.1.1

/-- A subtree whose leftmost node has a child is the first thing in postorder. -/
theorem postBefore_of_not_leftLeaf (h : siblingsReached (c.plug t) = true) (ht : leftLeaf t = false) :
    c.postBefore = [] := by
  induction c generalizing t with
  | top => rfl
  | frame s p dp sib up ih =>
    have hne : t ≠ nil := by
      rintro rfl
      exact Bool.false_ne_true ht.symm
    have hjoin : siblingsReached (join s t p dp sib) = true := siblingsReached_focus (c := up) h
    cases s with
    | left =>
      cases t with
      | nil => exact absurd rfl hne
      | node l x d r => exact ih (t := node (node l x d r) p dp sib) h ht
    | right =>
      cases sib with
      | nil =>
        have hup : up.postBefore = [] := by
          cases t with
          | nil => exact absurd rfl hne
          | node l x d r => exact ih (t := node nil p dp (node l x d r)) h rfl
        rw [Ctx.postBefore, hup]
        rfl
      | node l x d r =>
        have hleaf := leftLeaf_of_siblingsReached (fun he => by cases he) hjoin
        exact absurd (hleaf.symm.trans ht) Bool.noConfusion

theorem nextPostfix_iff (ht : IsTree h (c.plug (node l x d r))) :
    nextPostfix c = c.postAfter.headD 0 ↔
      ∀ (p : ℕ) (dp : τ) (sib : BinTree τ) (up : Ctx τ), c = .frame .left p dp sib up → descends sib = true := by
  cases c with
  | top => exact iff_of_true rfl fun p dp sib up he => by cases he
  | frame s p dp sib up =>
    cases s with
    | right => exact iff_of_true rfl fun p dp sib up he => by cases he
    | left =>
      have hall : (∀ (q : ℕ) (dq : τ) (t : BinTree τ) (k : Ctx τ),
          Ctx.frame .left p dp sib up = .frame .left q dq t k → descends t = true) ↔ descends sib = true := by
        constructor
        · intro hall
          exact hall p dp sib up rfl
        · rintro hsib q dq t k he
          cases he
          exact hsib
      rw [hall]
      cases sib with
      | nil => exact iff_of_true rfl rfl
      | node l' y d' r' =>
        have hsib : node l' y d' r' ≠ nil := fun he => by cases he
        have ht' : IsTree h (up.plug (join .left (node l x d r) p dp (node l' y d' r'))) := ht
        obtain ⟨-, -, -, hnd, -⟩ := nodup_join.mp ht'.separate.1
        rw [Ctx.postAfter, headD_append _ _ (postorder_ne_nil hsib)]
        exact dive_eq_iff hsib hnd

theorem postfix_forward_iff (ht : IsTree h u) (hturns : u.nodes.length ≤ turns) :
    Forward (getNextPostfix h turns) u.postorder ↔
      ∀ (up : Ctx τ) (l : BinTree τ) (p : ℕ) (dp : τ) (r : BinTree τ), u = up.plug (node l p dp r) →
        l ≠ nil → descends r = true := by
  constructor
  · intro hforward up l p dp r hu hl
    cases l with
    | nil => exact absurd rfl hl
    | node l' x d r' =>
      have hplace : u = (Ctx.frame .left p dp r up).plug (node l' x d r') := hu
      subst hplace
      have hnext := hforward _ x _ (Ctx.postorder_place (.frame .left p dp r up) l' x d r')
      rw [getNextPostfix_place ht hturns] at hnext
      exact (nextPostfix_iff ht).mp (Except.ok.inj hnext) p dp r up rfl
  · intro hall xs x ys hsplit
    obtain ⟨c, l, d, r, rfl, -, rfl⟩ := postorder_split ht.nodup hsplit
    rw [getNextPostfix_place ht hturns]
    refine congrArg Except.ok ((nextPostfix_iff ht).mpr ?_)
    rintro p dp sib up rfl
    exact hall up (node l x d r) p dp sib rfl fun he => by cases he

theorem postfix_backward_iff (ht : IsTree h u) (hturns : u.nodes.length ≤ turns) :
    Backward (getPrevPostfix h turns) u.postorder ↔
      ∀ (up : Ctx τ) (p : ℕ) (dp : τ) (x : ℕ) (d : τ), u = up.plug (node nil p dp (node nil x d nil)) →
        up.postBefore = [] := by
  constructor
  · intro hback up p dp x d hu
    have hplace : u = (Ctx.frame .right p dp nil up).plug (node nil x d nil) := hu
    subst hplace
    have hsplit := Ctx.postorder_place (.frame .right p dp nil up) nil x d nil
    have hbefore : (Ctx.frame .right p dp nil up).postBefore ++
        ((nil : BinTree τ).postorder ++ (nil : BinTree τ).postorder) = up.postBefore := by
      simp [Ctx.postBefore, postorder]
    rw [hbefore] at hsplit
    cases hup : up.postBefore using List.reverseRecOn with
    | nil => rfl
    | append_singleton xs y =>
      -- the node found would be null
      rw [hup, List.append_assoc] at hsplit
      have hprev := hback xs y x _ hsplit
      rw [getPrevPostfix_lone ht] at hprev
      have hy : y ∈ ((Ctx.frame .right p dp nil up).plug (node nil x d nil)).postorder := by
        rw [hsplit]
        simp
      exact absurd (Except.ok.inj hprev).symm (ht.ne_zero ((postorder_perm _).mem_iff.mp hy))
  · intro hall
    apply backward_of_last
    intro xs y ys hsplit hne
    obtain ⟨c, l, d, r, rfl, rfl, -⟩ := postorder_split ht.nodup hsplit
    refine getPrevPostfix_place ht hturns ?_
    rintro rfl rfl p dp up rfl
    rw [Ctx.postBefore, hall up p dp y d rfl] at hne
    exact hne rfl

section Shape

variable (hforward : ∀ (up : Ctx τ) (l : BinTree τ) (p : ℕ) (dp : τ) (r : BinTree τ),
    u = up.plug (node l p dp r) → l ≠ nil → descends r = true)
  (hback : ∀ (up : Ctx τ) (p : ℕ) (dp : τ) (x : ℕ) (d : τ), u = up.plug (node nil p dp (node nil x d nil)) →
    up.postBefore = [])

include hback

theorem postBefore_of_rightChain (hu : u = c.plug (node nil x d r)) (hr : r ≠ nil)
    (hchain : rightChain r = true) : c.postBefore = [] := by
  induction r generalizing c x d with
  | nil => exact absurd rfl hr
  | node l y d' r' _ ihr =>
    cases l with
    | node l' x' d'' r'' => exact absurd hchain Bool.false_ne_true
    | nil =>
      by_cases hr' : r' = nil
      · subst hr'
        exact hback c x d y d' hu
      · have hstep := ihr (c := .frame .right x d nil c) hu hr' hchain
        exact (List.append_eq_nil_iff.mp hstep).1

theorem leftLeaf_of_descends (hu : u = c.plug t) (hc : c.postBefore ≠ []) (ht : descends t = true) :
    leftLeaf t = true := by
  induction t generalizing c with
  | nil => rfl
  | node l x d r ihl _ =>
    cases l with
    | node l' x' d' r' => exact ihl (c := .frame .left x d r c) hu hc ht
    | nil =>
      by_cases hr : r = nil
      · subst hr
        rfl
      · exact absurd (postBefore_of_rightChain hback hu hr ht) hc

include hforward

theorem siblingsReached_of (hu : u = c.plug t) : siblingsReached t = true := by
  induction t generalizing c with
  | nil => rfl
  | node l x d r ihl ihr =>
    have hright := ihr (c := .frame .right x d l c) hu
    cases l with
    | nil => exact hright
    | node l' x' d' r' =>
      have hl : node l' x' d' r' ≠ nil := fun he => by cases he
      have hbefore : (Ctx.frame .right x d (node l' x' d' r') c).postBefore ≠ [] := fun he =>
        postorder_ne_nil hl (List.append_eq_nil_iff.mp he).2
      have hleaf : leftLeaf r = true :=
        leftLeaf_of_descends hback (c := .frame .right x d (node l' x' d' r') c) hu hbefore
          (hforward c _ x d r hu hl)
      have hleft := ihl (c := .frame .left x d r c) hu
      show (leftLeaf r && siblingsReached (node l' x' d' r') && siblingsReached r) = true
      rw [hleaf, hleft, hright]
      rfl

end Shape

/-- The walk is right just where below the leftmost node there are only right children, and the leftmost
node of every right subtree with a sibling has no child. -/
theorem postfix_walk_iff (ht : IsTree h u) (hu : u ≠ nil) (hturns : u.nodes.length ≤ turns) :
    PostfixWalk h turns u ↔ descends u = true ∧ siblingsReached u = true := by
  have h0 : 0 ∉ u.postorder := fun hm => ht.ne_zero (u.postorder_perm.mem_iff.mp hm) rfl
  have hlen : u.postorder.length ≤ turns := by rwa [u.postorder_perm.length_eq]
  have hbegin : beginPostfix h turns = .ok (dive u) := by
    unfold beginPostfix
    rw [ht.root, if_neg (root_ne_zero ht.holds hu)]
    exact descent_eq ht.holds hu hturns
  unfold PostfixWalk
  rw [hbegin]
  show visits _ _ turns (dive u) = _ ∧ _ ↔ _
  rw [visits_iff h0 hlen, dive_eq_iff hu ht.nodup, postfix_forward_iff ht hturns,
    postfix_backward_iff ht hturns]
  constructor
  · rintro ⟨⟨hstart, hforward⟩, hback⟩
    exact ⟨hstart, siblingsReached_of hforward hback (c := .top) rfl⟩
  · rintro ⟨hstart, hshape⟩
    refine ⟨⟨hstart, ?_⟩, ?_⟩
    · rintro up l p dp r rfl hl
      exact descends_of_leftLeaf (leftLeaf_of_siblingsReached hl (siblingsReached_focus hshape))
    · rintro up p dp x d rfl
      exact postBefore_of_not_leftLeaf hshape rfl

theorem postfix_walk_five : PostfixWalk fiveNodes 5 fiveNodesTree :=
  (postfix_walk_iff fiveNodes_isTree (fun he => by cases he) (by decide)).mpr (by decide)

/-- The root 1 with the right child 3 only, which has the left child 2. -/
def zigzag : Heap Unit :=
  ⟨1, fun x => if x = 1 then ⟨0, 3, 0, ()⟩ else if x = 3 then ⟨2, 0, 1, ()⟩ else ⟨0, 0, 3, ()⟩⟩

/-- The walk begins at 3, which comes after 2. -/
theorem postfix_begins_late :
    IsTree zigzag (node nil 1 () (node (node nil 2 () nil) 3 () nil)) ∧
      (node nil 1 () (node (node nil 2 () nil) 3 () nil)).postorder = [2, 3, 1] ∧
      beginPostfix zigzag 3 = .ok 3 ∧
      ¬ PostfixWalk zigzag 3 (node nil 1 () (node (node nil 2 () nil) 3 () nil)) := by
  refine ⟨⟨rfl, ?_, by decide⟩, rfl, rfl, ?_⟩
  · exact ⟨by decide, rfl, trivial, by decide, rfl, ⟨by decide, rfl, trivial, trivial⟩, trivial⟩
  · rintro ⟨hvisits, -⟩
    have hwalk : (do
        let first ← beginPostfix zigzag 3
        visits (getNextPostfix zigzag 3) .diverged 3 first) = .ok [3, 1] := rfl
    rw [hwalk] at hvisits
    cases hvisits

end MaiFaSp.SearchTree
