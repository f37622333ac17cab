import MaiFaSp.SearchTree.Rotations

/-!
# What a rotation leaves in its reference (`binary_search_tree.h:2779-2916`)

The argument of a rotation is a `node *&`: the pointer to the subtree in its parent, the
root pointer of the container, or a local variable that holds a copy of one of them. The
first two are written to twice by a rotation, once through the parent of the subtree and
once through the reference; the last leaves the root pointer to the caller.
-/

namespace MaiFaSp.SearchTree

open LinkedTree BinTree

/-- What `subtree_root` is bound to. -/
inductive Reference where
  | stored (k : Ref)
  | copy
  deriving Repr, DecidableEq

/-- The container and the local variable of the caller. -/
structure Scope (τ : Type) where
  heap : Heap τ
  copy : ℕ

section Functions

variable {τ : Type}

def Scope.read (m : Scope τ) : Reference → ℕ
  | .stored k => m.heap.get k
  | .copy => m.copy

def Scope.write (m : Scope τ) : Reference → ℕ → Scope τ
  | .stored k, v => { m with heap := m.heap.set k v }
  | .copy, v => { m with copy := v }

/-- A small rotation to the side `s`: where it returns early, the reference keeps its value. -/
def smallRotationAt (s : Side) (ρ : Reference) (m : Scope τ) : Scope τ :=
  let (h, c) := rotation s m.heap (m.read ρ)
  Scope.write { m with heap := h } ρ c

/-- A big rotation: the child is rotated at its place in the node, then the reference is read again. -/
def bigRotationAt (s : Side) (ρ : Reference) (m : Scope τ) : Except LinkFault (Scope τ) := do
  deref (m.read ρ)
  if m.heap.child s.other (m.read ρ) = 0 then pure m
  else
    let m := smallRotationAt s.other (.stored (.child s.other (m.read ρ))) m
    pure (smallRotationAt s ρ m)

def doubleRotationAt (s : Side) (ρ : Reference) (m : Scope τ) : Except LinkFault (Scope τ) := do
  deref (m.read ρ)
  if m.heap.child s.other (m.read ρ) = 0 ∨
      m.heap.child s.other (m.heap.child s.other (m.read ρ)) = 0 then pure m
  else
    let m := smallRotationAt s ρ m
    pure (smallRotationAt s ρ m)

def smallLeftRotation : Reference → Scope τ → Scope τ := smallRotationAt .left

def smallRightRotation : Reference → Scope τ → Scope τ := smallRotationAt .right

def bigLeftRotation : Reference → Scope τ → Except LinkFault (Scope τ) := bigRotationAt .left

def bigRightRotation : Reference → Scope τ → Except LinkFault (Scope τ) := bigRotationAt .right

def doubleLeftRotation : Reference → Scope τ → Except LinkFault (Scope τ) := doubleRotationAt .left

def doubleRightRotation : Reference → Scope τ → Except LinkFault (Scope τ) := doubleRotationAt .right

inductive Turn where
  | small
  | big
  | double
  deriving Repr, DecidableEq

/-- The six functions. -/
def Turn.run : Turn → Side → Reference → Scope τ → Except LinkFault (Scope τ)
  | .small, .left => fun ρ m => pure (smallLeftRotation ρ m)
  | .small, .right => fun ρ m => pure (smallRightRotation ρ m)
  | .big, .left => bigLeftRotation
  | .big, .right => bigRightRotation
  | .double, .left => doubleLeftRotation
  | .double, .right => doubleRightRotation

variable (s : Side) (ρ : Reference) (m : Scope τ)

theorem Turn.run_small : Turn.small.run s ρ m = .ok (smallRotationAt s ρ m) := by cases s <;> rfl

theorem Turn.run_big : Turn.big.run s ρ m = bigRotationAt s ρ m := by cases s <;> rfl

theorem Turn.run_double : Turn.double.run s ρ m = doubleRotationAt s ρ m := by cases s <;> rfl

/-! ### The rotations with their argument by value -/

theorem smallRotationAt_stored (k : Ref) :
    smallRotationAt s (.stored k) m = { m with heap := smallRotation s m.heap k } := rfl

theorem smallRotationAt_copy :
    smallRotationAt s .copy m = ⟨(rotation s m.heap m.copy).1, (rotation s m.heap m.copy).2⟩ := rfl

theorem bigRotationAt_copy (hm : m.copy ≠ 0) : bigRotationAt s .copy m =
    .ok ⟨(bigRotation s m.heap m.copy).1, (bigRotation s m.heap m.copy).2⟩ := by
  have hderef : deref (m.read .copy) = .ok () := deref_of_ne hm
  unfold bigRotationAt bigRotation
  rw [hderef]
  by_cases hc : m.heap.child s.other m.copy = 0
  · rw [if_pos hc]
    exact if_pos hc
  · rw [if_neg hc]
    exact if_neg hc

theorem doubleRotationAt_copy (hm : m.copy ≠ 0) : doubleRotationAt s .copy m =
    .ok ⟨(doubleRotation s m.heap m.copy).1, (doubleRotation s m.heap m.copy).2⟩ := by
  have hderef : deref (m.read .copy) = .ok () := deref_of_ne hm
  unfold doubleRotationAt doubleRotation
  rw [hderef]
  by_cases hc : m.heap.child s.other m.copy = 0 ∨
      m.heap.child s.other (m.heap.child s.other m.copy) = 0
  · rw [if_pos hc]
    exact if_pos hc
  · rw [if_neg hc]
    exact if_neg hc

theorem heap_set_get (h : Heap τ) (k : Ref) : h.set k (h.get k) = h := by
  apply heap_eq_of_cells
  · cases k <;> rfl
  · intro y
    cases k with
    | root => rfl
    | child s x =>
      rw [Heap.set, Heap.cell_setChild]
      split
      case isTrue hy => rw [hy, Heap.get, Heap.child, Cell.setChild_child]
      case isFalse => rfl

theorem write_read : m.write ρ (m.read ρ) = m := by
  cases ρ with
  | stored k => exact congrArg (Scope.mk · m.copy) (heap_set_get m.heap k)
  | copy => rfl

end Functions

/-! ### The three kinds of reference -/

section Places

variable {τ : Type} {m : Scope τ} {c : Ctx τ} {t A B : BinTree τ} {s : Side} {n : ℕ} {d : τ}
  {ρ : Reference}

/-- The reference is bound to the pointer that leads to the place `c`, or to a copy of it, and the
root of the subtree `t` is there. -/
def Refers (m : Scope τ) (c : Ctx τ) (t : BinTree τ) : Reference → Prop
  | .stored k => k = c.link ∧ m.heap.get k = t.root
  | .copy => m.copy = t.root

/-- The links are those of a tree, and `ρ` refers to its subtree `t`. -/
structure Placed (ρ : Reference) (m : Scope τ) (c : Ctx τ) (t : BinTree τ) : Prop where
  stands : Stands m.heap (c.plug t)
  refers : Refers m c t ρ

theorem Refers.read (hρ : Refers m c t ρ) : m.read ρ = t.root := by
  cases ρ with
  | stored k => exact hρ.2
  | copy => exact hρ

/-- Only a reference to the root pointer needs more than the links. -/
theorem refers_of_stands {m' : Scope τ} {u : BinTree τ} (hρ : Refers m c t ρ) (hu : u.root = t.root)
    (hs : Stands m'.heap (c.plug u)) (hroot : m'.heap.root = m.heap.root)
    (hcopy : m'.copy = m.copy) : Refers m' c u ρ := by
  cases ρ with
  | copy => exact hcopy.trans (hρ.trans hu.symm)
  | stored k =>
    obtain ⟨rfl, hget⟩ := hρ
    refine ⟨rfl, ?_⟩
    cases c with
    | top => exact hroot.trans (hget.trans hu.symm)
    | frame side q dq sib up => exact hs.get_link

theorem smallRotationAt_stuck (hρ : Refers m c t ρ) (hc : m.heap.child s.other t.root = 0) :
    smallRotationAt s ρ m = m := by
  unfold smallRotationAt
  rw [hρ.read, rotation_stuck hc, ← hρ.read]
  exact write_read ρ m

theorem smallRotationAt_root (hρ : ρ ≠ .stored .root) :
    (smallRotationAt s ρ m).heap.root = m.heap.root := by
  have hrot := rotation_root m.heap s (m.read ρ)
  cases ρ with
  | copy => exact hrot
  | stored k =>
    cases k with
    | root => exact absurd rfl hρ
    | child side x => exact hrot

theorem Placed.smallRotationAt (hp : Placed ρ m c t) (hne : t ≠ nil) :
    Placed ρ (smallRotationAt s ρ m) c (turned s t) := by
  cases t with
  | nil => exact absurd rfl hne
  | node a n dn b =>
    obtain ⟨A, B, he⟩ := node_eq_join s a b n dn
    rw [he] at hp ⊢
    cases B with
    | nil =>
      have hc : m.heap.child s.other n = 0 := hp.stands.reads.other
      rw [smallRotationAt_stuck hp.refers (by rw [root_join]; exact hc), turned_join_nil]
      exact hp
    | node l r dr e =>
      obtain ⟨B, C, he'⟩ := node_eq_join s l e r dr
      rw [he'] at hp ⊢
      obtain ⟨hsnd, hstands⟩ := hp.stands.rotation
      obtain ⟨-, -, hset⟩ := rotation_rotated hp.stands
      have hread : m.read ρ = n := hp.refers.read.trans (root_join ..)
      unfold SearchTree.smallRotationAt
      rw [hread, turned_join]
      dsimp only
      rw [hsnd]
      cases ρ with
      | copy => exact ⟨hstands, (root_join ..).symm⟩
      | stored k =>
        obtain ⟨rfl, -⟩ := hp.refers
        -- the write through the reference repeats the one through the parent
        have hstands' : Stands ((rotation s m.heap n).1.set c.link r)
            (c.plug (join s (join s A n dn B) r dr C)) := hstands.congr fun y _ => hset y
        refine ⟨hstands', rfl, ?_⟩
        cases c with
        | top => exact (root_join ..).symm
        | frame side q dq sib up => exact hstands'.get_link

theorem Placed.read_ne_zero (hp : Placed ρ m c t) (hne : t ≠ nil) : m.read ρ ≠ 0 := by
  rw [hp.refers.read]
  exact root_ne_zero hp.stands.below hne

/-- The child on the far side, at the pointer to it in the node. -/
theorem Placed.far (hp : Placed ρ m c (join s A n d B)) :
    Placed (.stored (.child s.other n)) m (.frame s.other n d A c) B := by
  have hs : Stands m.heap ((Ctx.frame s.other n d A c).plug B) := by
    rw [Ctx.plug_other]
    exact hp.stands
  exact ⟨hs, rfl, hs.get_link⟩

theorem Placed.bigRotationAt (hp : Placed ρ m c t) (hne : t ≠ nil) :
    ∃ m', bigRotationAt s ρ m = .ok m' ∧ Placed ρ m' c (bigTurned s t) := by
  have hderef : deref (m.read ρ) = .ok () := deref_of_ne (hp.read_ne_zero hne)
  cases t with
  | nil => exact absurd rfl hne
  | node a n dn b =>
    obtain ⟨A, B, he⟩ := node_eq_join s a b n dn
    rw [he] at hp ⊢
    have hread : m.read ρ = n := hp.refers.read.trans (root_join ..)
    have hfar : m.heap.child s.other n = B.root := hp.stands.reads.other
    unfold SearchTree.bigRotationAt
    rw [hderef, hread, hfar, bigTurned_join]
    by_cases hB : B = nil
    · subst hB
      refine ⟨m, rfl, ?_⟩
      rw [turned_nil, turned_join_nil]
      exact hp
    · have hinner := hp.far.smallRotationAt (s := s.other) hB
      have hstands := hinner.stands
      rw [Ctx.plug_other, Ctx.plug] at hstands
      -- what `ρ` is bound to has not been written to
      have hmid : Placed ρ (SearchTree.smallRotationAt s.other (.stored (.child s.other n)) m) c
          (join s A n dn (turned s.other B)) :=
        ⟨hstands, refers_of_stands hp.refers (by rw [root_join, root_join]) hstands
          (smallRotationAt_root (by simp)) rfl⟩
      have hB0 : B.root ≠ 0 := root_ne_zero hp.far.stands.below hB
      exact ⟨_, if_neg hB0, hmid.smallRotationAt (join_ne_nil _ _ _ _ _)⟩

theorem Placed.doubleRotationAt (hp : Placed ρ m c t) (hne : t ≠ nil) :
    ∃ m', doubleRotationAt s ρ m = .ok m' ∧ Placed ρ m' c (doubleTurned s t) := by
  have hderef : deref (m.read ρ) = .ok () := deref_of_ne (hp.read_ne_zero hne)
  cases t with
  | nil => exact absurd rfl hne
  | node a n dn b =>
    obtain ⟨A, B, he⟩ := node_eq_join s a b n dn
    rw [he] at hp hne ⊢
    have hread : m.read ρ = n := hp.refers.read.trans (root_join ..)
    have hfar : m.heap.child s.other n = B.root := hp.stands.reads.other
    unfold SearchTree.doubleRotationAt
    rw [hderef, hread, hfar]
    cases B with
    | nil =>
      rw [doubleTurned_join_nil]
      exact ⟨m, rfl, hp⟩
    | node l r dr e =>
      obtain ⟨B, C, he'⟩ := node_eq_join s l e r dr
      rw [he'] at hp hne ⊢
      have hfar' : m.heap.child s.other r = C.root := hp.far.stands.reads.other
      rw [root_join, hfar']
      cases C with
      | nil =>
        have hstop : r = 0 ∨ (nil : BinTree τ).root = 0 := Or.inr rfl
        rw [doubleTurned_join_join_nil]
        exact ⟨m, if_pos hstop, hp⟩
      | node l' q dq e' =>
        obtain ⟨C, D, he''⟩ := node_eq_join s l' e' q dq
        have hr0 : r ≠ 0 := hp.far.stands.reads.ne_zero
        have hq0 : q ≠ 0 := hp.stands.isTree.ne_zero (by simp [Ctx.mem_nodes_plug, mem_nodes_join])
        have hfirst := hp.smallRotationAt (s := s) hne
        rw [he''] at hfirst ⊢
        rw [root_join, doubleTurned_join]
        refine ⟨_, if_neg (not_or.mpr ⟨hr0, hq0⟩), hfirst.smallRotationAt ?_⟩
        rw [turned_join]
        exact join_ne_nil _ _ _ _ _

def Turn.subtree : Turn → Side → BinTree τ → BinTree τ
  | .small => turned
  | .big => bigTurned
  | .double => doubleTurned

theorem Turn.nodes_subtree (k : Turn) (s : Side) (t : BinTree τ) : (k.subtree s t).nodes = t.nodes := by
  cases k with
  | small => exact nodes_turned s t
  | big => exact nodes_bigTurned s t
  | double => exact nodes_doubleTurned s t

theorem Placed.run (k : Turn) (hp : Placed ρ m c t) (hne : t ≠ nil) :
    ∃ m', k.run s ρ m = .ok m' ∧ Placed ρ m' c (k.subtree s t) := by
  cases k with
  | small => exact ⟨_, Turn.run_small s ρ m, hp.smallRotationAt hne⟩
  | big =>
    rw [Turn.run_big]
    exact hp.bigRotationAt hne
  | double =>
    rw [Turn.run_double]
    exact hp.doubleRotationAt hne

theorem Turn.run_root {k : Turn} {m' : Scope τ} (hok : k.run s ρ m = .ok m')
    (hρ : ρ ≠ .stored .root) : m'.heap.root = m.heap.root := by
  cases k with
  | small =>
    rw [Turn.run_small] at hok
    cases hok
    exact smallRotationAt_root hρ
  | big =>
    rw [Turn.run_big] at hok
    obtain ⟨u, -, hok⟩ := bind_eq_ok.mp hok
    split at hok
    · cases hok
      rfl
    · cases hok
      exact (smallRotationAt_root hρ).trans (smallRotationAt_root (by simp))
  | double =>
    rw [Turn.run_double] at hok
    obtain ⟨u, -, hok⟩ := bind_eq_ok.mp hok
    split at hok
    · cases hok
      rfl
    · cases hok
      exact (smallRotationAt_root hρ).trans (smallRotationAt_root hρ)

/-- A copy of the root pointer leaves the root pointer itself to the caller. -/
theorem Placed.isTree {m' : Scope τ} {u : BinTree τ} (hp : Placed ρ m' c u)
    (hroot : ρ ≠ .stored .root → m'.heap.root = m.heap.root) (ht : IsTree m.heap (c.plug t))
    (hcopy : ρ = .copy → c ≠ .top) : IsTree m'.heap (c.plug u) := by
  refine ⟨?_, hp.stands.holds, hp.stands.nodup⟩
  cases c with
  | top =>
    cases ρ with
    | copy => exact absurd rfl (hcopy rfl)
    | stored k =>
      obtain ⟨rfl, hget⟩ := hp.refers
      exact hget
  | frame side q dq sib up =>
    have hρ : ρ ≠ .stored .root := by
      rintro rfl
      cases hp.refers.1
    rw [hroot hρ]
    exact ht.root.trans root_plug_frame

/-- Each of the six functions leaves the nodes of the whole tree in order and its links consistent,
and its reference at the root of the rotated subtree. -/
theorem rotations_preserve (k : Turn) (s : Side) (hp : Placed ρ m c t) (hne : t ≠ nil) :
    ∃ m', k.run s ρ m = .ok m' ∧ Stands m'.heap (c.plug (k.subtree s t)) ∧
      (c.plug (k.subtree s t)).nodes = (c.plug t).nodes ∧
      Refers m' c (k.subtree s t) ρ ∧ m'.read ρ = (k.subtree s t).root ∧
      (IsTree m.heap (c.plug t) → (ρ = .copy → c ≠ .top) →
        IsTree m'.heap (c.plug (k.subtree s t))) := by
  obtain ⟨m', hok, hp'⟩ := hp.run (s := s) k hne
  refine ⟨m', hok, hp'.stands, ?_, hp'.refers, hp'.refers.read, ?_⟩
  · rw [Ctx.nodes_plug, Ctx.nodes_plug, k.nodes_subtree]
  · intro ht hcopy
    exact hp'.isTree (Turn.run_root hok) ht hcopy

end Places

/-- The left child 1 of the root 4 has the right child 3 only, which has the left child 2. -/
def bent : Heap Unit :=
  ⟨4, fun x => if x = 4 then ⟨1, 0, 0, ()⟩ else if x = 1 then ⟨0, 3, 4, ()⟩
    else if x = 3 then ⟨2, 0, 1, ()⟩ else ⟨0, 0, 3, ()⟩⟩

def bentBelow : BinTree Unit := node nil 1 () (node (node nil 2 () nil) 3 () nil)

theorem bent_isTree : IsTree bent ((Ctx.frame .left 4 () nil .top).plug bentBelow) := by
  refine ⟨rfl, ?_, by decide⟩
  exact ⟨by decide, rfl, ⟨by decide, rfl, trivial, by decide, rfl, ⟨by decide, rfl, trivial, trivial⟩,
    trivial⟩, trivial⟩

/-- `big_left_rotation` at the child pointer of 4 and at a copy of it. -/
theorem rotations_preserve_bent :
    (∃ m', bigLeftRotation (.stored (.child .left 4)) ⟨bent, 0⟩ = .ok m' ∧ m'.heap.left 4 = 2 ∧
      IsTree m'.heap (node (node (node nil 1 () nil) 2 () (node nil 3 () nil)) 4 () nil)) ∧
    ∃ m', bigLeftRotation .copy ⟨bent, 1⟩ = .ok m' ∧ m'.copy = 2 ∧
      IsTree m'.heap (node (node (node nil 1 () nil) 2 () (node nil 3 () nil)) 4 () nil) := by
  have hne : bentBelow ≠ nil := fun he => by cases he
  have hs := stands_of_isTree bent_isTree
  constructor
  · have hp : Placed (.stored (.child .left 4)) ⟨bent, 0⟩ (.frame .left 4 () nil .top) bentBelow :=
      ⟨hs, rfl, rfl⟩
    obtain ⟨m', hok, -, -, -, hread, htree⟩ := rotations_preserve .big .left hp hne
    exact ⟨m', hok, hread, htree bent_isTree fun he => by cases he⟩
  · have hp : Placed .copy ⟨bent, 1⟩ (.frame .left 4 () nil .top) bentBelow := ⟨hs, rfl⟩
    obtain ⟨m', hok, -, -, -, hread, htree⟩ := rotations_preserve .big .left hp hne
    exact ⟨m', hok, hread, htree bent_isTree fun _ he => by cases he⟩

end MaiFaSp.SearchTree
