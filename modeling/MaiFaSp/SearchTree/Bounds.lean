import MaiFaSp.Lib.TreeTraversal
import MaiFaSp.SearchTree.Lookup
import MaiFaSp.SearchTree.SplayRoot

/-!
# The bounds (`binary_search_tree.h:2202-2290`)

Each overload of `lower_bound` and `upper_bound` is a search of its own. The first `lower_bound` returns the
left child of the node where it stops, and the constant one that node; the first `upper_bound` chooses among the
last two nodes of the search, and the constant one returns the last. None keeps the last node that it
left to the left, which is where the answer is.
-/

namespace MaiFaSp.SearchTree

open LinkedTree BinTree
open RedBlack (Follows descent descent_plug descent_follows parent_comp_frame)
open SplayTree (lowerBound bound boundLeft lowerBound_eq Rights RightsLefts FoundAt bound_rightsLefts
  bound_none_above bound_found rights_after)

variable {κ υ τ : Type}

section Searches

variable (lt : κ → κ → Bool)

/-- `lower_bound(const tkey &) const`; `end_infix` is null. -/
def lowerBoundConst (t : Tree κ υ τ) (k : κ) : ℕ → ℕ → Except TreeFault ℕ
  | 0, current => if current = 0 then pure 0 else throw .diverged
  | n + 1, current =>
    if current = 0 then pure 0
    else if lt k (key t current) then
      if t.heap.left current ≠ 0 ∧ lt k (key t (t.heap.left current)) = true then
        lowerBoundConst t k n (t.heap.left current)
      else pure current
    else lowerBoundConst t k n (t.heap.right current)

/-- The loop of `upper_bound(const tkey &)`, with `prev_prev` and `prev`. -/
def upperLoop (t : Tree κ υ τ) (k : κ) : ℕ → ℕ → ℕ → ℕ → Except TreeFault (ℕ × ℕ)
  | 0, prevPrev, prev, current => if current = 0 then pure (prevPrev, prev) else throw .diverged
  | n + 1, prevPrev, prev, current =>
    if current = 0 then pure (prevPrev, prev)
    else if lt k (key t current) then upperLoop t k n prev current (t.heap.left current)
    else upperLoop t k n prev current (t.heap.right current)

/-- The end of `upper_bound(const tkey &)`; `less` and `greater` are the operators of the keys. -/
def upperChoice (less greater : κ → κ → Bool) (t : Tree κ υ τ) (k : κ) (prev prevPrev : ℕ) : ℕ :=
  let mx := if greater (key t prev) (key t prevPrev) then prev else prevPrev
  let mn := if less (key t prev) (key t prevPrev) then prev else prevPrev
  if lt k (key t mn) then mn else mx

def upperBound (less greater : κ → κ → Bool) (turns : ℕ) (t : Tree κ υ τ) (k : κ) : Except TreeFault ℕ := do
  let (prevPrev, prev) ← upperLoop lt t k turns 0 0 t.heap.root
  liftLink (deref prev)
  liftLink (deref prevPrev)
  pure (upperChoice lt less greater t k prev prevPrev)

/-- `upper_bound(const tkey &) const`: the loop is that of `insert`, and `prev` has no value before it. -/
def upperBoundConst (turns prev : ℕ) (t : Tree κ υ τ) (k : κ) : Except TreeFault ℕ :=
  insertPlace lt t k turns prev t.heap.root

/-! ### What they should return -/

/-- A node with the least of the keys that `P` holds of, or null where it holds of none. -/
def IsBound (t : Tree κ υ τ) (xs : List ℕ) (P : κ → Prop) (n : ℕ) : Prop :=
  n = 0 ∧ (∀ y ∈ xs, ¬ P (key t y)) ∨
    n ∈ xs ∧ P (key t n) ∧ ∀ y ∈ xs, P (key t y) → lt (key t y) (key t n) = false

def IsLower (t : Tree κ υ τ) (xs : List ℕ) (k : κ) (result : Except TreeFault ℕ) : Prop :=
  ∃ n, result = .ok n ∧ IsBound lt t xs (fun q => lt q k = false) n

def IsUpper (t : Tree κ υ τ) (xs : List ℕ) (k : κ) (result : Except TreeFault ℕ) : Prop :=
  ∃ n, result = .ok n ∧ IsBound lt t xs (fun q => lt k q = true) n

/-- All four overloads are right, the last one whatever `prev` is at first. -/
structure BoundsRight (less greater : κ → κ → Bool) (turns : ℕ) (t : Tree κ υ τ) (u : BinTree τ) (k : κ) :
    Prop where
  lower : IsLower lt t u.nodes k (lowerBound lt t k turns t.heap.root)
  lowerConst : IsLower lt t u.nodes k (lowerBoundConst lt t k turns t.heap.root)
  upper : IsUpper lt t u.nodes k (upperBound lt less greater turns t k)
  upperConst : ∀ prev, IsUpper lt t u.nodes k (upperBoundConst lt turns prev t k)

end Searches

variable {lt : κ → κ → Bool} {t : Tree κ υ τ} {u : BinTree τ} {k : κ} {turns : ℕ}

section Place

/-- The nodes in front of the one in the place, and those behind it. -/
theorem foundAt_mem {n : ℕ} (hn : FoundAt lt t k u n) : n ∈ u.nodes := by
  obtain ⟨c, l, d, r, rfl, -⟩ := hn
  exact Ctx.mem_nodes_plug.mpr (Or.inl (by simp))

/-! ### The search of the constant `lower_bound` -/

/-- Below a node that is above `k` the search goes on to the left while the left child is above it too. -/
def constLeft (lt : κ → κ → Bool) (t : Tree κ υ τ) (k : κ) : BinTree τ → ℕ → ℕ
  | nil, x => x
  | node l y _ _, x => if lt k (key t y) then constLeft lt t k l y else x

def constBound (lt : κ → κ → Bool) (t : Tree κ υ τ) (k : κ) : BinTree τ → ℕ
  | nil => 0
  | node l x _ r => if lt k (key t x) then constLeft lt t k l x else constBound lt t k r

theorem lowerBoundConst_left {l r : BinTree τ} {x p : ℕ} {d : τ} (hu : Holds t.heap p (node l x d r))
    (hgo : lt k (key t x) = true) (hturns : (node l x d r).nodes.length ≤ turns) :
    lowerBoundConst lt t k turns x = .ok (constLeft lt t k l x) := by
  induction l generalizing x p d r turns with
  | nil =>
    obtain ⟨hx, hcell, -, -⟩ := hu
    obtain ⟨n, rfl⟩ : ∃ n, turns = n + 1 := ⟨turns - 1, by simp at hturns; omega⟩
    rw [lowerBoundConst, if_neg hx, if_pos hgo, Heap.left, hcell, if_neg fun h => h.1 rfl]
    rfl
  | node l' y d' r' ihl _ =>
    obtain ⟨hx, hcell, hl, -⟩ := hu
    rw [nodes_node, List.length_append, List.length_cons] at hturns
    obtain ⟨n, rfl⟩ : ∃ n, turns = n + 1 := ⟨turns - 1, by omega⟩
    rw [lowerBoundConst, if_neg hx, if_pos hgo, Heap.left, hcell, constLeft, root_node]
    by_cases hgo' : lt k (key t y) = true
    · have hlen : (node l' y d' r').nodes.length ≤ n := by omega
      rw [if_pos ⟨hl.1, hgo'⟩, if_pos hgo']
      exact ihl hl hgo' hlen
    · rw [if_neg fun h => hgo' h.2, if_neg hgo']
      rfl

theorem lowerBoundConst_eq {p : ℕ} (hu : Holds t.heap p u) (hturns : u.nodes.length ≤ turns) :
    lowerBoundConst lt t k turns u.root = .ok (constBound lt t k u) := by
  induction u generalizing p turns with
  | nil => cases turns <;> rfl
  | node l x d r _ ihr =>
    rw [constBound, root_node]
    by_cases hgo : lt k (key t x) = true
    · rw [if_pos hgo]
      exact lowerBoundConst_left hu hgo hturns
    · obtain ⟨hx, hcell, -, hr⟩ := hu
      rw [nodes_node, List.length_append, List.length_cons] at hturns
      obtain ⟨n, rfl⟩ : ∃ n, turns = n + 1 := ⟨turns - 1, by omega⟩
      rw [if_neg hgo, lowerBoundConst, if_neg hx, if_neg hgo, Heap.right, hcell]
      exact ihr hr (by omega)

/-- The search comes to a node `x` above `k`, by right turns and then left turns, and its left child is
not above `k`. -/
structure StopsAt (lt : κ → κ → Bool) (t : Tree κ υ τ) (k : κ) (c : Ctx τ) (l : BinTree τ) (x : ℕ) : Prop where
  path : Rights c ∨ RightsLefts c
  follows : Follows (fun y => lt k (key t y)) c
  above : lt k (key t x) = true
  left : l ≠ nil → lt k (key t l.root) = false

theorem constLeft_stops {c : Ctx τ} {l r : BinTree τ} {x : ℕ} {d : τ} (hc : Rights c ∨ RightsLefts c)
    (hf : Follows (fun y => lt k (key t y)) c) (hgo : lt k (key t x) = true) :
    ∃ c' l' d' r', c.plug (node l x d r) = c'.plug (node l' (constLeft lt t k l x) d' r') ∧
      StopsAt lt t k c' l' (constLeft lt t k l x) := by
  induction l generalizing c x d r with
  | nil => exact ⟨c, nil, d, r, rfl, hc, hf, hgo, fun h => absurd rfl h⟩
  | node l' y d' r' ihl _ =>
    rw [constLeft]
    split
    case isTrue hgo' => exact ihl (c := .frame .left x d r c) (Or.inr hc) ⟨iff_of_true hgo rfl, hf⟩ hgo'
    case isFalse hgo' => exact ⟨c, _, d, r, rfl, hc, hf, hgo, fun _ => Bool.eq_false_iff.mpr hgo'⟩

theorem constBound_stops {c : Ctx τ} (hc : Rights c) (hf : Follows (fun y => lt k (key t y)) c) :
    constBound lt t k u = 0 ∨
      ∃ c' l' d' r', c.plug u = c'.plug (node l' (constBound lt t k u) d' r') ∧
        StopsAt lt t k c' l' (constBound lt t k u) := by
  induction u generalizing c with
  | nil => exact Or.inl rfl
  | node l x d r _ ihr =>
    rw [constBound]
    split
    case isTrue hgo => exact Or.inr (constLeft_stops (Or.inl hc) hf hgo)
    case isFalse hgo => exact ihr (c := .frame .right x d l c) hc ⟨iff_of_false hgo (by decide), hf⟩

theorem constBound_none (hu : ∀ y ∈ u.nodes, lt k (key t y) = false) : constBound lt t k u = 0 := by
  induction u with
  | nil => rfl
  | node l x d r _ ihr =>
    rw [constBound, if_neg (Bool.eq_false_iff.mp (hu x (by simp)))]
    exact ihr fun y hy => hu y (by simp [hy])

theorem constBound_rights {c : Ctx τ} (hc : Rights c) (hf : Follows (fun y => lt k (key t y)) c) :
    constBound lt t k (c.plug u) = constBound lt t k u := by
  induction c generalizing u with
  | top => rfl
  | frame s x d sib up ih =>
    cases s with
    | left => exact hc.elim
    | right =>
      have hgo : ¬ lt k (key t x) = true := fun hgo => absurd (hf.1.mp hgo) (by decide)
      rw [Ctx.plug, ih hc hf.2, join, constBound, if_neg hgo]

theorem constBound_plug {c : Ctx τ} {l r : BinTree τ} {x : ℕ} {d : τ} (hc : Rights c ∨ RightsLefts c)
    (hf : Follows (fun y => lt k (key t y)) c) (hgo : lt k (key t x) = true) :
    constBound lt t k (c.plug (node l x d r)) = constLeft lt t k l x := by
  induction c generalizing l x d r with
  | top => exact if_pos hgo
  | frame s z dz sib up ih =>
    cases s with
    | right =>
      rw [constBound_rights (hc.resolve_right id) hf, constBound, if_pos hgo]
    | left =>
      have hz : lt k (key t z) = true := hf.1.mpr rfl
      rw [Ctx.plug, join, ih (hc.resolve_left id) hf.2 hz, constLeft, if_pos hgo]

theorem constBound_of_stops {c : Ctx τ} {l r : BinTree τ} {x : ℕ} {d : τ} (hs : StopsAt lt t k c l x) :
    constBound lt t k (c.plug (node l x d r)) = x := by
  rw [constBound_plug hs.path hs.follows hs.above]
  cases l with
  | nil => rfl
  | node l' y d' r' =>
    have hstop : lt k (key t y) = false := hs.left fun he => by cases he
    exact if_neg (Bool.eq_false_iff.mp hstop)

end Place

/-! ### `lower_bound` -/

section Lower

variable [IsStrictTotalOrder κ fun a b => lt a b = true]

theorem eq_of_not_lt {a b : κ} (hab : lt a b = false) (hba : lt b a = false) : a = b := by
  rcases trichotomous_of (fun a b => lt a b = true) a b with h | h | h
  · rw [hab] at h
    cases h
  · exact h
  · rw [hba] at h
    cases h

theorem not_lt_self (a : κ) : lt a a = false :=
  Bool.eq_false_iff.mpr (irrefl_of (fun a b => lt a b = true) a)

/-- Every key is below `k`, or the search comes, by right turns and then at least one left turn, to a node
that has the key. -/
def LowerReached (lt : κ → κ → Bool) (t : Tree κ υ τ) (k : κ) (u : BinTree τ) : Prop :=
  (∀ y ∈ u.nodes, lt (key t y) k = true) ∨ ∃ n, FoundAt lt t k u n ∧ key t n = k

theorem lowerBound_iff (ht : IsTree t.heap u) (hturns : u.nodes.length ≤ turns) :
    IsLower lt t u.nodes k (lowerBound lt t k turns t.heap.root) ↔ LowerReached lt t k u := by
  rw [ht.root]
  unfold IsLower
  rw [lowerBound_eq ht.holds hturns]
  constructor
  · rintro ⟨n, hok, hbound⟩
    cases hb : bound lt t k u with
    | none =>
      rw [hb] at hok
      cases hok
    | some m =>
      rw [hb] at hok
      cases hok
      obtain ⟨rfl, hnone⟩ | ⟨hmem, hge, -⟩ := hbound
      · exact Or.inl fun y hy => Bool.eq_true_of_not_eq_false (hnone y hy)
      · obtain hfound | ⟨rfl, -⟩ := bound_found (c := Ctx.top) hb trivial trivial
        · have hle : lt k (key t n) = false := by
            obtain ⟨-, -, -, -, -, -, -, hle⟩ := hfound
            exact hle
          exact Or.inr ⟨n, hfound, eq_of_not_lt hge hle⟩
        · exact absurd rfl (ht.ne_zero hmem)
  · rintro (hall | ⟨n, hfound, hkey⟩)
    · have hnone : bound lt t k u = some 0 := bound_none_above fun y hy => not_lt_of_lt (hall y hy)
      rw [hnone]
      exact ⟨0, rfl, Or.inl ⟨rfl, fun y hy => by simp [hall y hy]⟩⟩
    · have hmem := foundAt_mem hfound
      obtain ⟨c, l, d, r, rfl, hc, hf, hle⟩ := hfound
      have hsome : bound lt t k (c.plug (node l n d r)) = some n := by
        rw [bound_rightsLefts hc hf, boundLeft, if_neg (Bool.eq_false_iff.mp hle)]
      rw [hsome]
      refine ⟨n, rfl, Or.inr ⟨hmem, ?_, fun y _ hy => ?_⟩⟩
      · rw [hkey]
        exact not_lt_self k
      · rw [hkey]
        exact hy

/-- Every key is below `k`, or it stops at a node with only smaller keys than `k`, or its own, in front. -/
def LowerConstReached (lt : κ → κ → Bool) (t : Tree κ υ τ) (k : κ) (u : BinTree τ) : Prop :=
  (∀ y ∈ u.nodes, lt (key t y) k = true) ∨
    ∃ c l x d r, u = c.plug (node l x d r) ∧ StopsAt lt t k c l x ∧
      ∀ y ∈ c.before ++ l.nodes, lt (key t y) k = true ∨ key t y = key t x

theorem lowerBoundConst_iff (ht : IsTree t.heap u) (hord : Ordered lt t u.nodes)
    (hturns : u.nodes.length ≤ turns) :
    IsLower lt t u.nodes k (lowerBoundConst lt t k turns t.heap.root) ↔ LowerConstReached lt t k u := by
  rw [ht.root]
  unfold IsLower
  rw [lowerBoundConst_eq ht.holds hturns]
  constructor
  · rintro ⟨n, hok, hbound⟩
    cases hok
    obtain ⟨-, hnone⟩ | ⟨hmem, -, hleast⟩ := hbound
    · exact Or.inl fun y hy => Bool.eq_true_of_not_eq_false (hnone y hy)
    · have hstops : constBound lt t k u = 0 ∨
          ∃ c l d r, u = c.plug (node l (constBound lt t k u) d r) ∧ StopsAt lt t k c l (constBound lt t k u) :=
        constBound_stops (c := Ctx.top) trivial trivial
      obtain h0 | ⟨c, l, d, r, hu, hs⟩ := hstops
      · exact absurd h0 (ht.ne_zero hmem)
      · have hnodes := congrArg nodes hu
        rw [Ctx.nodes_place] at hnodes
        refine Or.inr ⟨c, l, _, d, r, hu, hs, fun y hy => ?_⟩
        have hfront : lt (key t (constBound lt t k u)) (key t y) = false := by
          rw [hnodes] at hord
          exact (List.pairwise_append.mp hord).2.2 y hy _ (List.mem_cons_self ..)
        have hyu : y ∈ u.nodes := by
          rw [hnodes]
          exact List.mem_append_left _ hy
        cases hyk : lt (key t y) k with
        | true => exact Or.inl rfl
        | false => exact Or.inr (eq_of_not_lt (hleast y hyu hyk) hfront)
  · rintro (hall | ⟨c, l, x, d, r, rfl, hs, hfront⟩)
    · rw [constBound_none fun y hy => not_lt_of_lt (hall y hy)]
      exact ⟨0, rfl, Or.inl ⟨rfl, fun y hy => by simp [hall y hy]⟩⟩
    · rw [constBound_of_stops hs]
      rw [Ctx.nodes_place] at hord ⊢
      refine ⟨x, rfl, Or.inr ⟨by simp, not_lt_of_lt hs.above, fun y hy hyk => ?_⟩⟩
      rcases List.mem_append.mp hy with hy | hy
      · obtain h | h := hfront y hy
        · rw [hyk] at h
          cases h
        · rw [h]
          exact not_lt_self _
      · rcases List.mem_cons.mp hy with rfl | hy
        · exact not_lt_self _
        · exact (List.pairwise_cons.mp (List.pairwise_append.mp hord).2.1).1 y hy

end Lower

/-! ### The searches of `upper_bound` -/

section Searching

theorem comp_frame (k c : Ctx τ) (s : Side) (x : ℕ) (d : τ) (sib : BinTree τ) :
    (k.comp (.frame s x d sib .top)).comp c = k.comp (.frame s x d sib c) := by
  induction k with
  | top => rfl
  | frame s' y d' sib' up ih => rw [Ctx.comp, Ctx.comp, Ctx.comp, ih]

theorem descent_plug_follows {goLeft : ℕ → Bool} {c : Ctx τ} (hc : Follows goLeft c) :
    descent goLeft (c.plug u) = (descent goLeft u).comp c := by
  induction c generalizing u with
  | top =>
    have hcomp (k : Ctx τ) : k.comp .top = k := by
      induction k with
      | top => rfl
      | frame s x d sib up ih => rw [Ctx.comp, ih]
    rw [hcomp]
    rfl
  | frame s x d sib up ih =>
    rw [Ctx.plug, ih hc.2, ← comp_frame]
    congr 1
    cases s with
    | left => rw [join, descent, if_pos (hc.1.mpr rfl)]
    | right => rw [join, descent, if_neg fun hgo => absurd (hc.1.mp hgo) (by decide)]

/-- The search for `k` ends at the place. -/
def EndsAt (lt : κ → κ → Bool) (t : Tree κ υ τ) (k : κ) (u : BinTree τ) (c : Ctx τ) : Prop :=
  u = c.plug nil ∧ Follows (fun y => lt k (key t y)) c

theorem endsAt_descent (lt : κ → κ → Bool) (t : Tree κ υ τ) (k : κ) (u : BinTree τ) :
    EndsAt lt t k u (descent (fun y => lt k (key t y)) u) :=
  ⟨(descent_plug _ u).symm, descent_follows _ u⟩

theorem EndsAt.eq_descent {c : Ctx τ} (hc : EndsAt lt t k u c) :
    descent (fun y => lt k (key t y)) u = c := by
  rw [hc.1, descent_plug_follows hc.2]
  rfl

/-- The node over the parent of the hole. -/
def grandparent : Ctx τ → ℕ
  | .top => 0
  | .frame _ _ _ _ up => up.parent

theorem upperLoop_below {c : Ctx τ} (ht : IsTree t.heap (c.plug u)) (hturns : u.nodes.length ≤ turns) :
    upperLoop lt t k turns (grandparent c) c.parent u.root =
      .ok (grandparent ((descent (fun y => lt k (key t y)) u).comp c),
        ((descent (fun y => lt k (key t y)) u).comp c).parent) := by
  induction u generalizing c turns with
  | nil => cases turns <;> rfl
  | node l x d r ihl ihr =>
    obtain ⟨-, hx, hcell, -⟩ := ht.focus
    rw [nodes_node, List.length_append, List.length_cons] at hturns
    obtain ⟨n, rfl⟩ : ∃ n, turns = n + 1 := ⟨turns - 1, by omega⟩
    rw [root_node, upperLoop, if_neg hx, Heap.left, Heap.right, hcell, descent]
    split
    · have htl : IsTree t.heap ((Ctx.frame .left x d r c).plug l) := ht
      rw [comp_frame]
      exact ihl htl (by omega)
    · have htr : IsTree t.heap ((Ctx.frame .right x d l c).plug r) := ht
      rw [comp_frame]
      exact ihr htr (by omega)

theorem upperLoop_eq {c : Ctx τ} (ht : IsTree t.heap u) (hturns : u.nodes.length ≤ turns)
    (hc : EndsAt lt t k u c) : upperLoop lt t k turns 0 0 t.heap.root = .ok (grandparent c, c.parent) := by
  have htop : IsTree t.heap (Ctx.top.plug u) := ht
  have hloop : upperLoop lt t k turns 0 0 u.root = _ := upperLoop_below htop hturns
  rw [← descent_plug_follows (c := .top) trivial, Ctx.plug, hc.eq_descent] at hloop
  rw [ht.root]
  exact hloop

theorem insertPlace_eq {c : Ctx τ} (ht : IsTree t.heap u) (hturns : u.nodes.length ≤ turns)
    (hc : EndsAt lt t k u c) : insertPlace lt t k turns 0 t.heap.root = .ok c.parent := by
  have htop : IsTree t.heap (Ctx.top.plug u) := ht
  have hplace : insertPlace lt t k turns 0 u.root = _ := insertPlace_below htop hturns
  rw [← descent_plug_follows (c := .top) trivial, Ctx.plug, hc.eq_descent] at hplace
  rw [ht.root]
  exact hplace

theorem insertPlace_prev {prev current : ℕ} (hcurrent : current ≠ 0) :
    insertPlace lt t k turns prev current = insertPlace lt t k turns 0 current := by
  cases turns with
  | zero => rw [insertPlace, insertPlace, if_neg hcurrent, if_neg hcurrent]
  | succ n => rw [insertPlace, insertPlace, if_neg hcurrent, if_neg hcurrent]

end Searching

/-! ### `upper_bound` -/

section Upper

variable {less greater : κ → κ → Bool}

/-- What the operators have to say about the keys of the last node and the one before it, by the turns that
the search takes there. -/
def Picks (less greater : κ → κ → Bool) (p q : κ) : Side → Side → Prop
  | .left, .left => less p q = true ∨ q = p
  | .left, .right => less p q = true ∨ greater p q = true
  | .right, .left => ¬ (less p q = true ∧ greater p q = true)
  | .right, .right => False

/-- The search passes two nodes, and the choice falls on the last one that it left to the left. -/
def UpperReached (lt less greater : κ → κ → Bool) (t : Tree κ υ τ) (k : κ) (u : BinTree τ) : Prop :=
  ∃ s p d sib s' q d' sib' up, EndsAt lt t k u (.frame s p d sib (.frame s' q d' sib' up)) ∧
    Picks less greater (key t p) (key t q) s s'

theorem upperChoice_mem (lt less greater : κ → κ → Bool) (t : Tree κ υ τ) (k : κ) (p q : ℕ) :
    upperChoice lt less greater t k p q = p ∨ upperChoice lt less greater t k p q = q := by
  unfold upperChoice
  dsimp only
  split_ifs <;> simp

/-- The choice, where the next key is that of the last node. -/
theorem upperChoice_last {s' : Side} {p q : ℕ} (hp : lt k (key t p) = true)
    (hq : lt k (key t q) = true ↔ s' = .left) :
    key t (upperChoice lt less greater t k p q) = key t p ↔
      Picks less greater (key t p) (key t q) .left s' := by
  unfold upperChoice
  cases s' with
  | left =>
    have hq : lt k (key t q) = true := hq.mpr rfl
    cases hless : less (key t p) (key t q) <;> simp [Picks, hless, hp, hq]
  | right =>
    have hq : ¬ lt k (key t q) = true := fun h => absurd (hq.mp h) (by decide)
    have hne : key t q ≠ key t p := fun he => hq (he ▸ hp)
    cases hless : less (key t p) (key t q) <;> cases hgreater : greater (key t p) (key t q) <;>
      simp [Picks, hless, hgreater, hp, hq, hne]

/-- The choice, where the next key is that of the node before the last. -/
theorem upperChoice_before {p q : ℕ} (hp : ¬ lt k (key t p) = true) (hq : lt k (key t q) = true) :
    key t (upperChoice lt less greater t k p q) = key t q ↔
      Picks less greater (key t p) (key t q) .right .left := by
  have hne : key t p ≠ key t q := fun he => hp (he ▸ hq)
  unfold upperChoice
  cases hless : less (key t p) (key t q) <;> cases hgreater : greater (key t p) (key t q) <;>
    simp [Picks, hless, hgreater, hp, hq, hne]

variable [IsStrictTotalOrder κ fun a b => lt a b = true]

/-- Behind the keys that `P` does not hold of the next one is the least. -/
theorem isBound_iff {P : κ → Prop} {xs ys : List ℕ} {x n : ℕ} (hord : Ordered lt t (xs ++ x :: ys))
    (hxs : ∀ y ∈ xs, ¬ P (key t y)) (hx : P (key t x)) (hn : n ∈ xs ++ x :: ys) :
    IsBound lt t (xs ++ x :: ys) P n ↔ key t n = key t x := by
  obtain ⟨-, hright, -⟩ := List.pairwise_append.mp hord
  have hback {y : ℕ} (hy : y ∈ xs ++ x :: ys) (hP : P (key t y)) : lt (key t y) (key t x) = false := by
    rcases List.mem_append.mp hy with hy | hy
    · exact absurd hP (hxs y hy)
    · rcases List.mem_cons.mp hy with rfl | hy
      · exact not_lt_self _
      · exact (List.pairwise_cons.mp hright).1 y hy
  constructor
  · rintro (⟨-, hnone⟩ | ⟨-, hPn, hleast⟩)
    · exact absurd hx (hnone x (by simp))
    · exact eq_of_not_lt (hback hn hPn) (hleast x (by simp) hx)
  · intro hkey
    refine Or.inr ⟨hn, by rw [hkey]; exact hx, fun y hy hP => ?_⟩
    rw [hkey]
    exact hback hy hP

theorem EndsAt.sides {c : Ctx τ} (hc : EndsAt lt t k u c) (hord : Ordered lt t u.nodes) :
    u.nodes = c.before ++ c.after ∧ (∀ y ∈ c.before, ¬ lt k (key t y) = true) ∧
      ∀ y ∈ c.after, lt k (key t y) = true := by
  obtain ⟨hu, hf⟩ := hc
  have hnodes : u.nodes = c.before ++ c.after := by
    rw [hu, Ctx.nodes_plug, nodes_nil, List.nil_append]
  rw [hu] at hord
  obtain ⟨hbefore, hafter⟩ := hf.splits nil (hord.goLeft k)
  exact ⟨hnodes, fun y hy => Bool.eq_false_iff.mp (hbefore y hy), hafter⟩

/-- The last turn of the search is to the left. -/
def UpperConstReached (lt : κ → κ → Bool) (t : Tree κ υ τ) (k : κ) (u : BinTree τ) : Prop :=
  ∃ x d sib up, EndsAt lt t k u (.frame .left x d sib up)

theorem upperBoundConst_iff (ht : IsTree t.heap u) (hord : Ordered lt t u.nodes)
    (hturns : u.nodes.length ≤ turns) :
    (∀ prev, IsUpper lt t u.nodes k (upperBoundConst lt turns prev t k)) ↔ UpperConstReached lt t k u := by
  have hc := endsAt_descent lt t k u
  obtain ⟨hnodes, hbefore, hafter⟩ := hc.sides hord
  have hplace := insertPlace_eq ht hturns hc
  cases hd : descent (fun y => lt k (key t y)) u with
  | top =>
    rw [hd] at hc
    obtain rfl : u = nil := hc.1
    have hroot : t.heap.root = 0 := ht.root
    constructor
    · intro h
      obtain ⟨n, hok, hbound⟩ := h 1
      have hone : upperBoundConst lt turns 1 t k = .ok 1 := by
        unfold upperBoundConst
        rw [hroot]
        cases turns <;> rfl
      rw [hone] at hok
      cases hok
      obtain ⟨h0, -⟩ | ⟨hmem, -⟩ := hbound
      · cases h0
      · cases hmem
    · rintro ⟨x, d, sib, up, he⟩
      rw [he.eq_descent] at hd
      cases hd
  | frame s x d sib up =>
    rw [hd] at hc hnodes hbefore hafter hplace
    have hx : x ∈ u.nodes := by
      rw [hc.1]
      exact Ctx.mem_nodes_plug.mpr (Or.inr (List.mem_cons_self ..))
    have hroot : t.heap.root ≠ 0 := by
      rw [ht.root]
      refine root_ne_zero ht.holds ?_
      rintro rfl
      cases hx
    have hresult (prev : ℕ) : upperBoundConst lt turns prev t k = .ok x :=
      (insertPlace_prev hroot).trans hplace
    cases s with
    | left =>
      refine iff_of_true (fun prev => ⟨x, hresult prev, ?_⟩) ⟨x, d, sib, up, hc⟩
      rw [hnodes] at hord hx ⊢
      exact (isBound_iff (P := fun q => lt k q = true) hord hbefore
        (hafter x (List.mem_cons_self ..)) hx).mpr rfl
    | right =>
      constructor
      · intro h
        obtain ⟨n, hok, hbound⟩ := h 0
        rw [hresult] at hok
        cases hok
        obtain ⟨h0, -⟩ | ⟨-, hgt, -⟩ := hbound
        · exact absurd h0 (ht.ne_zero hx)
        · exact absurd hgt (hbefore x (by simp [Ctx.before]))
      · rintro ⟨y, d', sib', up', he⟩
        rw [he.eq_descent] at hd
        cases hd

theorem upperChoice_iff (less greater : κ → κ → Bool) {s s' : Side} {p q : ℕ} {d d' : τ} {sib sib' : BinTree τ}
    {up : Ctx τ} (ht : IsTree t.heap u) (hord : Ordered lt t u.nodes)
    (hc : EndsAt lt t k u (.frame s p d sib (.frame s' q d' sib' up))) :
    IsBound lt t u.nodes (fun y => lt k y = true) (upperChoice lt less greater t k p q) ↔
      Picks less greater (key t p) (key t q) s s' := by
  obtain ⟨hnodes, hbefore, hafter⟩ := hc.sides hord
  have hp : p ∈ u.nodes := by
    rw [hc.1]
    exact Ctx.mem_nodes_plug.mpr (Or.inr (by simp [Ctx.nodes]))
  have hq : q ∈ u.nodes := by
    rw [hc.1]
    exact Ctx.mem_nodes_plug.mpr (Or.inr (by simp [Ctx.nodes]))
  have hmem : upperChoice lt less greater t k p q ∈ u.nodes := by
    obtain h | h := upperChoice_mem lt less greater t k p q
    · rw [h]
      exact hp
    · rw [h]
      exact hq
  have hleft := hc.2.1
  have hleft' := hc.2.2.1
  cases s with
  | left =>
    have hp' : lt k (key t p) = true := hleft.mpr rfl
    have hbound : IsBound lt t u.nodes (fun y => lt k y = true) (upperChoice lt less greater t k p q) ↔
        key t (upperChoice lt less greater t k p q) = key t p := by
      rw [hnodes] at hord hmem ⊢
      exact isBound_iff (P := fun y => lt k y = true) hord hbefore hp' hmem
    rw [hbound, upperChoice_last hp' hleft']
  | right =>
    have hp' : ¬ lt k (key t p) = true := fun h => absurd (hleft.mp h) (by decide)
    cases s' with
    | left =>
      have hq' : lt k (key t q) = true := hleft'.mpr rfl
      have hbound : IsBound lt t u.nodes (fun y => lt k y = true) (upperChoice lt less greater t k p q) ↔
          key t (upperChoice lt less greater t k p q) = key t q := by
        rw [hnodes] at hord hmem ⊢
        exact isBound_iff (P := fun y => lt k y = true) hord hbefore hq' hmem
      rw [hbound, upperChoice_before hp' hq']
    | right =>
      have hq' : ¬ lt k (key t q) = true := fun h => absurd (hleft'.mp h) (by decide)
      refine iff_of_false ?_ id
      rintro (⟨h0, -⟩ | ⟨-, hgt, -⟩)
      · exact ht.ne_zero hmem h0
      · obtain h | h := upperChoice_mem lt less greater t k p q
        · exact hp' (h ▸ hgt)
        · exact hq' (h ▸ hgt)

/-- With fewer than two nodes on the way null is followed. -/
theorem upperBound_iff (ht : IsTree t.heap u) (hord : Ordered lt t u.nodes) (hturns : u.nodes.length ≤ turns) :
    IsUpper lt t u.nodes k (upperBound lt less greater turns t k) ↔ UpperReached lt less greater t k u := by
  have hc := endsAt_descent lt t k u
  have hloop := upperLoop_eq ht hturns hc
  unfold IsUpper upperBound UpperReached
  rw [hloop, ok_bind]
  cases hd : descent (fun y => lt k (key t y)) u with
  | top =>
    constructor
    · rintro ⟨n, hok, -⟩
      cases hok
    · rintro ⟨s, p, d, sib, s', q, d', sib', up, he, -⟩
      rw [he.eq_descent] at hd
      cases hd
  | frame s p d sib above =>
    rw [hd] at hc
    have hp0 : p ≠ 0 := by
      have htp : IsTree t.heap ((Ctx.frame s p d sib above).plug nil) := hc.1 ▸ ht
      exact htp.focus.1.1
    cases above with
    | top =>
      constructor
      · rintro ⟨n, hok, -⟩
        dsimp only [grandparent, Ctx.parent] at hok
        rw [deref_of_ne hp0] at hok
        cases hok
      · rintro ⟨s₁, p₁, d₁, sib₁, s', q, d', sib', up, he, -⟩
        rw [he.eq_descent] at hd
        cases hd
    | frame s' q d' sib' up =>
      have hq0 : q ≠ 0 := by
        refine ht.ne_zero ?_
        rw [hc.1]
        exact Ctx.mem_nodes_plug.mpr (Or.inr (by simp [Ctx.nodes]))
      dsimp only [grandparent, Ctx.parent]
      rw [deref_of_ne hp0, deref_of_ne hq0]
      have hchoice := upperChoice_iff less greater ht hord hc
      constructor
      · rintro ⟨n, hok, hbound⟩
        cases hok
        exact ⟨s, p, d, sib, s', q, d', sib', up, hc, hchoice.mp hbound⟩
      · rintro ⟨s₁, p₁, d₁, sib₁, s₂, q₁, d₂, sib₂, up₁, he, hpicks⟩
        rw [he.eq_descent] at hd
        cases hd
        exact ⟨_, rfl, hchoice.mpr hpicks⟩

end Upper

/-! ### All of them -/

section All

variable [IsStrictTotalOrder κ fun a b => lt a b = true] {less greater : κ → κ → Bool}

/-- The first `lower_bound` is right at a key that is there, if it is not above all; the constant one is wrong
there. -/
theorem not_boundsRight (ht : IsTree t.heap u) (hord : Ordered lt t u.nodes) (hturns : u.nodes.length ≤ turns) :
    ¬ BoundsRight lt less greater turns t u k := by
  intro h
  have hself : lt k k = false := not_lt_self k
  obtain hall | ⟨n, hfound, hkey⟩ := (lowerBound_iff ht hturns).mp h.lower
  · obtain ⟨x, d, sib, up, hc⟩ := (upperBoundConst_iff ht hord hturns).mp h.upperConst
    have hx : x ∈ u.nodes := by
      rw [hc.1]
      exact Ctx.mem_nodes_plug.mpr (Or.inr (List.mem_cons_self ..))
    have hgt : lt k (key t x) = true := hc.2.1.mpr rfl
    rw [not_lt_of_lt (hall x hx)] at hgt
    cases hgt
  · have hn := foundAt_mem hfound
    obtain ⟨m, hm, hbound⟩ := h.lowerConst
    obtain hall | ⟨c, l, x, d, r, hu, hs, -⟩ := (lowerBoundConst_iff ht hord hturns).mp h.lowerConst
    · have hlt := hall n hn
      rw [hkey, hself] at hlt
      cases hlt
    · rw [ht.root, lowerBoundConst_eq ht.holds hturns, hu, constBound_of_stops hs] at hm
      cases hm
      have hm : m ∈ u.nodes := by
        rw [hu, Ctx.nodes_place]
        simp
      obtain ⟨h0, -⟩ | ⟨-, -, hleast⟩ := hbound
      · exact ht.ne_zero hm h0
      · have hle := hleast n hn (hkey ▸ hself)
        rw [hkey, hs.above] at hle
        cases hle

/-- The overloads are never all right. The first `lower_bound` is right where every key is below `k` or a
node with the key is reached by right turns and then left turns, the constant one where only keys below `k`
come before the node that it stops at, the first `upper_bound` where the choice among the last two nodes
of the search falls on the last one left to the left, and the constant one where the last turn is to the left. -/
theorem bounds_never_right (ht : IsTree t.heap u) (hord : Ordered lt t u.nodes)
    (hturns : u.nodes.length ≤ turns) : ¬ BoundsRight lt less greater turns t u k ∧
      (IsLower lt t u.nodes k (lowerBound lt t k turns t.heap.root) ↔ LowerReached lt t k u) ∧
      (IsLower lt t u.nodes k (lowerBoundConst lt t k turns t.heap.root) ↔ LowerConstReached lt t k u) ∧
      (IsUpper lt t u.nodes k (upperBound lt less greater turns t k) ↔ UpperReached lt less greater t k u) ∧
      ((∀ prev, IsUpper lt t u.nodes k (upperBoundConst lt turns prev t k)) ↔ UpperConstReached lt t k u) :=
  ⟨not_boundsRight ht hord hturns, lowerBound_iff ht hturns, lowerBoundConst_iff ht hord hturns,
    upperBound_iff ht hord hturns, upperBoundConst_iff ht hord hturns⟩

end All

theorem bounds_of_one_entry : ¬ BoundsRight natLess natLess (Function.swap natLess) 1 oneEntry
    (node nil 7 () nil) 6 :=
  (bounds_never_right oneEntry_isTree oneEntry_ordered (by decide)).1

/-- Below the only key both searches follow null, where the entry is the answer. -/
theorem bounds_follow_null : lowerBound natLess oneEntry 3 1 oneEntry.heap.root = .error .nullDereference ∧
    upperBound natLess natLess (Function.swap natLess) 1 oneEntry 3 = .error .nullDereference ∧
    ¬ BoundsRight natLess natLess (Function.swap natLess) 1 oneEntry (node nil 7 () nil) 3 := by
  have hlower : lowerBound natLess oneEntry 3 1 oneEntry.heap.root = .error .nullDereference := rfl
  refine ⟨hlower, rfl, fun h => ?_⟩
  obtain ⟨n, hok, -⟩ := h.lower
  rw [hlower] at hok
  cases hok

end MaiFaSp.SearchTree
