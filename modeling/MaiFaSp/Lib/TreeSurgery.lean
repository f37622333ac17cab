import MaiFaSp.Lib.LinkedTree
import MaiFaSp.Lib.Outcomes

/-!
# Changing a linked tree

What a rotation does to the cells, whichever writes it is made of, and what it does
to the tree. A heap is followed through changes that keep the nodes in order by
the list of its nodes alone.
-/

namespace MaiFaSp.LinkedTree

open BinTree

variable {τ : Type*}

/-- How following a pointer can fail. -/
inductive LinkFault where
  | nullDereference
  | diverged
  deriving Repr, DecidableEq

def deref (x : ℕ) : Except LinkFault Unit := if x = 0 then throw .nullDereference else pure ()

/-- The variable that points to the node `n`. -/
def Heap.linkTo (h : Heap τ) (n : ℕ) : Ref :=
  if h.parent n = 0 then .root
  else if n = h.left (h.parent n) then .child .left (h.parent n)
  else .child .right (h.parent n)

theorem deref_eq_ok {x : ℕ} {u : Unit} : deref x = .ok u ↔ x ≠ 0 := by
  unfold deref
  split
  case isTrue h =>
    constructor
    · intro he
      cases he
    · exact fun hne => absurd h hne
  case isFalse h => exact ⟨fun _ => h, fun _ => rfl⟩

theorem deref_of_ne {x : ℕ} (h : x ≠ 0) : deref x = .ok () := if_neg h

namespace BinTree

theorem root_mem {t : BinTree τ} (h : t.root ≠ 0) : t.root ∈ t.nodes := by
  cases t with
  | nil => exact absurd rfl h
  | node l x d r => simp

theorem plug_frame_ne_nil {s : Side} {x : ℕ} {d : τ} {sib t : BinTree τ} {up : Ctx τ} :
    (Ctx.frame s x d sib up).plug t ≠ nil := by
  induction up generalizing s x d sib t with
  | top => exact join_ne_nil s t sib x d
  | frame s' x' d' sib' up ih => exact ih

/-- Below a frame the subtree makes no difference to the root, which is in the frame. -/
theorem root_plug_frame {s : Side} {x : ℕ} {d : τ} {sib t u : BinTree τ} {up : Ctx τ} :
    ((Ctx.frame s x d sib up).plug t).root = ((Ctx.frame s x d sib up).plug u).root := by
  induction up generalizing s x d sib t u with
  | top => exact (root_join s t sib x d).trans (root_join s u sib x d).symm
  | frame s' x' d' sib' up ih => exact ih

theorem root_frame_mem {s : Side} {x : ℕ} {d : τ} {sib t : BinTree τ} {up : Ctx τ} :
    ((Ctx.frame s x d sib up).plug t).root ∈ (Ctx.frame s x d sib up).nodes := by
  induction up generalizing s x d sib t with
  | top =>
    rw [Ctx.plug, Ctx.plug, root_join]
    exact List.mem_cons_self ..
  | frame s' x' d' sib' up ih =>
    have hmem : ((Ctx.frame s' x' d' sib' up).plug (join s t x d sib)).root ∈
        (Ctx.frame s' x' d' sib' up).nodes := ih
    exact List.mem_cons_of_mem _ (List.mem_append_right _ hmem)

theorem root_ne_zero {h : Heap τ} {p : ℕ} {t : BinTree τ} (hr : LinkedTree.Holds h p t)
    (ht : t ≠ nil) : t.root ≠ 0 := by
  cases t with
  | nil => exact absurd rfl ht
  | node l x d r => exact hr.1

theorem eq_nil_of_root {h : Heap τ} {p : ℕ} {t : BinTree τ} (hr : LinkedTree.Holds h p t)
    (h0 : t.root = 0) : t = nil := by
  by_contra hne
  exact root_ne_zero hr hne h0

/-- What is left in order when one node goes. -/
theorem erase_nodes_plug {c : Ctx τ} {l r : BinTree τ} {x : ℕ} {d : τ}
    (hnd : (c.plug (node l x d r)).nodes.Nodup) :
    (c.plug (node l x d r)).nodes.erase x = c.before ++ (l.nodes ++ r.nodes) ++ c.after := by
  rw [Ctx.nodes_plug, nodes_node] at hnd ⊢
  have hperm : (c.before ++ (l.nodes ++ x :: r.nodes ++ c.after)) =
      (c.before ++ l.nodes) ++ x :: (r.nodes ++ c.after) := by simp
  rw [hperm] at hnd ⊢
  have hx : x ∉ c.before ++ l.nodes :=
    fun hm => (List.nodup_append.mp hnd).2.2 x hm x (by simp) rfl
  rw [List.erase_append_right _ hx, List.erase_cons_head]
  simp

theorem nodup_join {s : Side} {t u : BinTree τ} {x : ℕ} {d : τ} :
    (join s t x d u).nodes.Nodup ↔ x ∉ t.nodes ∧ x ∉ u.nodes ∧ t.nodes.Nodup ∧ u.nodes.Nodup ∧
      ∀ y ∈ t.nodes, y ∉ u.nodes := by
  rw [(nodes_join_perm s t u x d).nodup_iff, List.nodup_cons, List.mem_append, not_or,
    List.nodup_append]
  constructor
  · rintro ⟨⟨h₁, h₂⟩, h₃, h₄, h₅⟩
    exact ⟨h₁, h₂, h₃, h₄, fun y hy hy' => h₅ y hy y hy' rfl⟩
  · rintro ⟨h₁, h₂, h₃, h₄, h₅⟩
    exact ⟨⟨h₁, h₂⟩, h₃, h₄, fun y hy z hz he => h₅ y hy (he ▸ hz)⟩

end BinTree

section

variable {h h' : Heap τ} {c : Ctx τ} {t u : BinTree τ}

theorem set_cell_of_notMem {v y : ℕ} (hy : y ∉ c.nodes) : (h.set c.link v).cell y = h.cell y := by
  cases c with
  | top => rfl
  | frame s x d sib up =>
    have hne : y ≠ x := fun he => hy (by simp [Ctx.nodes, he])
    rw [Ctx.link, Heap.set, Heap.cell_setChild, if_neg hne]

theorem set_cell_congr {k : Ref} {v y : ℕ} (hy : h'.cell y = h.cell y) :
    (h'.set k v).cell y = (h.set k v).cell y := by
  cases k with
  | root => exact hy
  | child s x => rw [Heap.set, Heap.set, Heap.cell_setChild, Heap.cell_setChild, hy]

theorem set_root_congr {k : Ref} {v : ℕ} (hr : h'.root = h.root) :
    (h'.set k v).root = (h.set k v).root := by
  cases k with
  | root => rfl
  | child s x => exact hr

theorem Ctx.Holds.parent_mem {a : ℕ} (hr : c.Holds h a) : c.parent = 0 ∨ c.parent ∈ c.nodes := by
  cases c with
  | top => exact Or.inl rfl
  | frame s x d sib up => exact Or.inr (by simp [Ctx.nodes, Ctx.parent])

theorem Ctx.Holds.parent_eq_zero {a : ℕ} (hr : c.Holds h a) : c.parent = 0 ↔ c = .top := by
  cases c with
  | top => exact ⟨fun _ => rfl, fun _ => rfl⟩
  | frame s x d sib up => exact ⟨fun he => absurd he hr.1, fun he => by cases he⟩

theorem IsTree.parent_focus (ht : IsTree h (c.plug t)) (hne : t.root ≠ 0) :
    h.parent t.root = c.parent := by
  obtain ⟨-, hr⟩ := ht.focus
  cases t with
  | nil => exact absurd rfl hne
  | node l x d r =>
    rw [root_node, Heap.parent, hr.2.1]

theorem IsTree.linkTo_eq (ht : IsTree h (c.plug t)) (hne : t.root ≠ 0) :
    h.linkTo t.root = c.link := by
  have hp := ht.parent_focus hne
  obtain ⟨hc, -⟩ := ht.focus
  obtain ⟨-, -, hsep⟩ := ht.separate
  rw [Heap.linkTo, hp]
  cases c with
  | top => exact if_pos rfl
  | frame s x d sib up =>
    obtain ⟨hx, hcell, -⟩ := hc
    rw [Ctx.parent, if_neg hx, Heap.left, hcell]
    cases s with
    | left => exact if_pos rfl
    | right =>
      have hsib : t.root ≠ sib.root := by
        intro he
        have hm := root_mem (he ▸ hne : sib.root ≠ 0)
        exact hsep t.root (root_mem hne) (by rw [he]; simp [Ctx.nodes, hm])
      exact if_neg hsib

theorem IsTree.get_link (ht : IsTree h (c.plug t)) : h.get c.link = t.root := by
  obtain ⟨hc, -⟩ := ht.focus
  cases c with
  | top => exact hc
  | frame s x d sib up => rw [Ctx.link, Heap.get, Heap.child, hc.2.1, Cell.child_joined]

/-- What the heap holds at a node of the tree. -/
structure Reads (h : Heap τ) (s : Side) (n near far p : ℕ) (d : τ) : Prop where
  ne_zero : n ≠ 0
  child : h.child s n = near
  other : h.child s.other n = far
  parent : h.parent n = p
  data : h.data n = d

theorem IsTree.reads {s : Side} {n : ℕ} {d : τ} (ht : IsTree h (c.plug (join s t n d u))) :
    Reads h s n t.root u.root c.parent d := by
  obtain ⟨hn, hcell, -⟩ := holds_join.mp ht.focus.2
  refine ⟨hn, ?_, ?_, ?_, ?_⟩
  · rw [Heap.child, hcell, Cell.child_joined]
  · rw [Heap.child, hcell, Cell.child_other_joined]
  · rw [Heap.parent, hcell, Cell.parent_joined]
  · rw [Heap.data, hcell, Cell.data_joined]

theorem IsTree.reads_place {l r : BinTree τ} {n : ℕ} {d : τ} (ht : IsTree h (c.plug (node l n d r))) :
    n ≠ 0 ∧ h.left n = l.root ∧ h.right n = r.root ∧ h.parent n = c.parent := by
  have hr := IsTree.reads (s := .left) ht
  exact ⟨hr.ne_zero, hr.child, hr.other, hr.parent⟩

theorem IsTree.child_ne {s : Side} {n : ℕ} {d : τ} (ht : IsTree h (c.plug (join s t n d u)))
    (hne : t.root ≠ 0) : t.root ≠ u.root := by
  obtain ⟨-, -, -, -, hd⟩ := nodup_join.mp ht.separate.1
  intro he
  exact hd _ (root_mem hne) (he ▸ root_mem (he ▸ hne))

/-- The test of the code for the side that a child is on. -/
theorem IsTree.side_eq {s : Side} {n : ℕ} {d : τ} (ht : IsTree h (c.plug (join s t n d u)))
    (hne : t.root ≠ 0) : (if t.root = h.left n then Side.left else Side.right) = s := by
  have hr := ht.reads
  cases s with
  | left => exact if_pos hr.child.symm
  | right =>
    apply if_neg
    intro he
    exact ht.child_ne hne (he.trans hr.other)

theorem IsTree.setData_join {s : Side} {n : ℕ} {d : τ} (ht : IsTree h (c.plug (join s t n d u)))
    (d' : τ) : IsTree (h.setData n d') (c.plug (join s t n d' u)) := by
  cases s with
  | left => exact ht.setData d'
  | right => exact ht.setData d'

theorem linkTo_congr {n : ℕ} (hp : h'.parent n = h.parent n)
    (hl : h.parent n ≠ 0 → h'.left (h.parent n) = h.left (h.parent n)) :
    h'.linkTo n = h.linkTo n := by
  unfold Heap.linkTo
  rw [hp]
  by_cases h0 : h.parent n = 0
  · rw [if_pos h0, if_pos h0]
  · rw [if_neg h0, if_neg h0, hl h0]

/-- The root pointer is at a node only at the top. -/
theorem IsTree.root_eq_iff (ht : IsTree h (c.plug t)) (hne : t.root ≠ 0) :
    t.root = h.root ↔ c = .top := by
  obtain ⟨hc, -⟩ := ht.focus
  obtain ⟨-, -, hsep⟩ := ht.separate
  constructor
  · intro he
    have hparent := ht.parent_focus hne
    cases c with
    | top => rfl
    | frame s x d sib up =>
      have hroot : h.parent h.root = 0 := by
        have hr := ht.holds
        have hroot := ht.root
        generalize (Ctx.frame s x d sib up).plug t = u at hr hroot
        cases u with
        | nil => exact absurd (he.trans hroot) hne
        | node l y d' r => rw [hroot, root_node, Heap.parent, hr.2.1]
      rw [← he, hparent] at hroot
      exact absurd hroot hc.1
  · rintro rfl
    exact hc.symm

end

/-! ### Rotations -/

/-- The node `n`, to which `link` points and whose parent is `p`, has gone down to side `s` of
its child `r`, and has taken over the child `b` of `r`. -/
structure Rotated (h h' : Heap τ) (s : Side) (link : Ref) (p n r b : ℕ) : Prop where
  root : h'.root = (h.set link r).root
  up : h'.cell r = ((h.cell r).setChild s n).setParent p
  down : h'.cell n = ((h.cell n).setChild s.other b).setParent r
  moved : b ≠ 0 → h'.cell b = (h.cell b).setParent n
  rest : ∀ y, y ≠ 0 → y ≠ n → y ≠ r → y ≠ b → h'.cell y = (h.set link r).cell y

theorem IsTree.rotate {h h' : Heap τ} {c : Ctx τ} {s : Side} {A B C : BinTree τ} {n r : ℕ}
    {dn dr : τ} (ht : IsTree h (c.plug (join s A n dn (join s B r dr C))))
    (hr : Rotated h h' s c.link c.parent n r B.root) :
    IsTree h' (c.plug (join s (join s A n dn B) r dr C)) := by
  have hne0 := fun y hy => ht.ne_zero (x := y) hy
  obtain ⟨-, hholds⟩ := ht.focus
  obtain ⟨hnd, -, hsep⟩ := ht.separate
  obtain ⟨hn, hcn, hA, hR⟩ := holds_join.mp hholds
  obtain ⟨hr0, hcr, hB, hC⟩ := holds_join.mp hR
  obtain ⟨hnA, hnR, hAnd, hRnd, hAR⟩ := nodup_join.mp hnd
  obtain ⟨hrB, hrC, hBnd, hCnd, hBC⟩ := nodup_join.mp hRnd
  simp only [mem_nodes_join, not_or] at hnR hAR hsep
  rw [root_join] at hcn
  have hBroot (y : ℕ) (hy : y ∉ B.nodes) (hy0 : y ≠ 0) : y ≠ B.root := by
    intro he
    exact hy (he ▸ root_mem (he ▸ hy0))
  have hctx (y : ℕ) (hy : y ∈ c.nodes) : y ≠ 0 ∧ y ≠ n ∧ y ≠ r ∧ y ≠ B.root := by
    have hy0 := hne0 y (Ctx.mem_nodes_plug.mpr (Or.inr hy))
    have hyB : y ∉ B.nodes := fun hm => hsep y (by simp [hm]) hy
    exact ⟨hy0, fun he => hsep n (by simp) (he ▸ hy), fun he => hsep r (by simp) (he ▸ hy),
      hBroot y hyB hy0⟩
  have hkeep (y : ℕ) (hy : y ∈ A.nodes ∨ y ∈ B.nodes ∨ y ∈ C.nodes) (hy' : y ≠ B.root) :
      h'.cell y = h.cell y := by
    have hyc : y ∉ c.nodes := hsep y (by tauto)
    have hy0 := hne0 y (Ctx.mem_nodes_plug.mpr (Or.inl (by simp only [mem_nodes_join]; tauto)))
    have hyn : y ≠ n := by
      rintro rfl
      tauto
    have hyr : y ≠ r := by
      rintro rfl
      rcases hy with hy | hy | hy
      · exact (hAR y hy).1 rfl
      · exact hrB hy
      · exact hrC hy
    rw [hr.rest y hy0 hyn hyr hy', set_cell_of_notMem hyc]
  have hB' : Holds h' n B := by
    apply hB.reparent hBnd hr.moved
    exact fun y hy hy' => hkeep y (by tauto) hy'
  have hA' : Holds h' n A := by
    apply hA.congr
    intro y hy
    exact hkeep y (by tauto) (hBroot y (fun hm => (hAR y hy).2.1 hm) (hA.ne_zero hy))
  have hC' : Holds h' r C := by
    apply hC.congr
    intro y hy
    exact hkeep y (by tauto) (hBroot y (fun hm => hBC y hm hy) (hC.ne_zero hy))
  refine ht.replace ?_ ?_ ?_ ?_ ?_
  · rw [root_join]
    exact hr.root
  · intro y hy
    obtain ⟨h₀, h₁, h₂, h₃⟩ := hctx y hy
    rw [root_join]
    exact hr.rest y h₀ h₁ h₂ h₃
  · refine holds_join.mpr ⟨hr0, ?_, holds_join.mpr ⟨hn, ?_, hA', hB'⟩, hC'⟩
    · rw [hr.up, hcr, Cell.setChild_joined, Cell.setParent_joined, root_join]
    · rw [hr.down, hcn, Cell.setChild_other_joined, Cell.setParent_joined]
  · refine nodup_join.mpr ⟨?_, hrC, nodup_join.mpr ⟨hnA, hnR.2.1, hAnd, hBnd, ?_⟩, hCnd, ?_⟩
    · rw [mem_nodes_join, not_or, not_or]
      exact ⟨fun he => hnR.1 he.symm, fun hm => (hAR r hm).1 rfl, hrB⟩
    · exact fun y hy => (hAR y hy).2.1
    · intro y hy
      rw [mem_nodes_join] at hy
      rcases hy with rfl | hy | hy
      · exact hnR.2.2
      · exact (hAR y hy).2.2
      · exact hBC y hy
  · intro y hy
    simp only [mem_nodes_join] at hy
    exact hsep y (by tauto)

theorem BinTree.nodes_rotate (s : Side) (A B C : BinTree τ) (n r : ℕ) (dn dr : τ) :
    (join s (join s A n dn B) r dr C).nodes = (join s A n dn (join s B r dr C)).nodes := by
  cases s <;> simp [join]

namespace BinTree

theorem node_eq_join (s : Side) (l r : BinTree τ) (x : ℕ) (d : τ) :
    ∃ A B, node l x d r = join s A x d B := by
  cases s with
  | left => exact ⟨l, r, rfl⟩
  | right => exact ⟨r, l, rfl⟩

/-- The small rotation to a side, where there is a node to come up. -/
def turned : Side → BinTree τ → BinTree τ
  | .left, node a n dn (node b r dr c) => node (node a n dn b) r dr c
  | .right, node (node c r dr b) n dn a => node c r dr (node b n dn a)
  | _, t => t

/-- The child that comes up is rotated to the other side first. -/
def bigTurned : Side → BinTree τ → BinTree τ
  | .left, node a n d b => turned .left (node a n d (turned .right b))
  | .right, node b n d a => turned .right (node (turned .left b) n d a)
  | _, nil => nil

/-- Two rotations to one side, where there are two nodes to come up. -/
def doubleTurned : Side → BinTree τ → BinTree τ
  | .left, node a n dn (node b r dr (node c q dq d)) =>
    turned .left (turned .left (node a n dn (node b r dr (node c q dq d))))
  | .right, node (node (node d q dq c) r dr b) n dn a =>
    turned .right (turned .right (node (node (node d q dq c) r dr b) n dn a))
  | _, t => t

variable (s : Side) (A B C : BinTree τ) (n r : ℕ) (dn dr : τ)

theorem turned_join :
    turned s (join s A n dn (join s B r dr C)) = join s (join s A n dn B) r dr C := by
  cases s <;> rfl

theorem turned_nil : turned s (nil : BinTree τ) = nil := by
  cases s <;> rfl

theorem turned_join_nil : turned s (join s A n dn nil) = join s A n dn nil := by
  cases s <;> rfl

theorem bigTurned_join :
    bigTurned s (join s A n dn B) = turned s (join s A n dn (turned s.other B)) := by
  cases s <;> rfl

theorem doubleTurned_join {q : ℕ} {dq : τ} {D : BinTree τ} :
    doubleTurned s (join s A n dn (join s B r dr (join s C q dq D))) =
      turned s (turned s (join s A n dn (join s B r dr (join s C q dq D)))) := by
  cases s <;> rfl

theorem doubleTurned_join_nil : doubleTurned s (join s A n dn nil) = join s A n dn nil := by
  cases s <;> rfl

theorem doubleTurned_join_join_nil :
    doubleTurned s (join s A n dn (join s B r dr nil)) = join s A n dn (join s B r dr nil) := by
  cases s <;> rfl

theorem nodes_turned (t : BinTree τ) : (turned s t).nodes = t.nodes := by
  cases t with
  | nil => cases s <;> rfl
  | node a n dn b =>
    obtain ⟨A, B, he⟩ := node_eq_join s a b n dn
    rw [he]
    cases B with
    | nil => rw [turned_join_nil]
    | node l r dr c =>
      obtain ⟨B, C, he'⟩ := node_eq_join s l c r dr
      rw [he', turned_join, nodes_rotate]

theorem nodes_join_congr {u : BinTree τ} (hu : u.nodes = B.nodes) :
    (join s A n dn u).nodes = (join s A n dn B).nodes := by
  cases s <;> simp [join, hu]

theorem nodes_bigTurned (t : BinTree τ) : (bigTurned s t).nodes = t.nodes := by
  cases t with
  | nil => cases s <;> rfl
  | node a n dn b =>
    obtain ⟨A, B, he⟩ := node_eq_join s a b n dn
    rw [he, bigTurned_join, nodes_turned]
    exact nodes_join_congr s A B n dn (nodes_turned s.other B)

theorem nodes_doubleTurned (t : BinTree τ) : (doubleTurned s t).nodes = t.nodes := by
  unfold doubleTurned
  split
  · rw [nodes_turned, nodes_turned]
  · rw [nodes_turned, nodes_turned]
  · rfl

end BinTree

/-! ### One node in the place of another -/

/-- The node `y`, from outside of the tree, has the place of `z`, whose children are at `a` and `b`
and whose parent is `p`. -/
structure Replaced (h h' : Heap τ) (link : Ref) (p z y a b : ℕ) (d : τ) : Prop where
  root : h'.root = (h.set link y).root
  at_new : h'.cell y = ⟨a, b, p, d⟩
  left : a ≠ 0 → h'.cell a = (h.cell a).setParent y
  right : b ≠ 0 → h'.cell b = (h.cell b).setParent y
  rest : ∀ w, w ≠ y → w ≠ z → w ≠ a → w ≠ b → h'.cell w = (h.set link y).cell w

theorem IsTree.replaceNode {h h' : Heap τ} {c : Ctx τ} {l r : BinTree τ} {z y : ℕ} {d : τ}
    (ht : IsTree h (c.plug (node l z d r))) (hy : y ∉ (c.plug (node l z d r)).nodes) (hy0 : y ≠ 0)
    (hr : Replaced h h' c.link c.parent z y l.root r.root d) : IsTree h' (c.plug (node l y d r)) := by
  obtain ⟨-, hz0, -, hl, hrr⟩ := ht.focus
  obtain ⟨hnd, -, hsep⟩ := ht.separate
  have hnd' := hnd
  rw [nodes_node, List.nodup_append, List.nodup_cons] at hnd'
  obtain ⟨hlnd, ⟨hzr, hrnd⟩, hlr⟩ := hnd'
  have hzl : z ∉ l.nodes := fun hm => hlr z hm z (by simp) rfl
  rw [Ctx.mem_nodes_plug, nodes_node, List.mem_append, List.mem_cons, not_or, not_or, not_or] at hy
  obtain ⟨⟨hyl, hyz, hyr⟩, hyc⟩ := hy
  have hroot {u : BinTree τ} {w : ℕ} (hw : w ∉ u.nodes) (hw0 : w ≠ 0) : w ≠ u.root :=
    fun he => hw (he ▸ BinTree.root_mem (he ▸ hw0))
  have hlc (w : ℕ) (hw : w ∈ l.nodes) (hw' : w ≠ l.root) : h'.cell w = h.cell w := by
    have hwr : w ∉ r.nodes := fun hm => hlr w hw w (List.mem_cons_of_mem _ hm) rfl
    rw [hr.rest w (fun he => hyl (he ▸ hw)) (fun he => hzl (he ▸ hw)) hw'
      (hroot hwr (hl.ne_zero hw)), set_cell_of_notMem (hsep w (by simp [hw]))]
  have hrc (w : ℕ) (hw : w ∈ r.nodes) (hw' : w ≠ r.root) : h'.cell w = h.cell w := by
    have hwl : w ∉ l.nodes := fun hm => hlr w hm w (List.mem_cons_of_mem _ hw) rfl
    rw [hr.rest w (fun he => hyr (he ▸ hw)) (fun he => hzr (he ▸ hw)) (hroot hwl (hrr.ne_zero hw))
      hw', set_cell_of_notMem (hsep w (by simp [hw]))]
  refine ht.replace hr.root ?_ ?_ ?_ ?_
  · intro w hw
    have hwt (hm : w ∈ (node l z d r).nodes) : False := hsep w hm hw
    have hw0 : w ≠ 0 := ht.ne_zero (Ctx.mem_nodes_plug.mpr (Or.inr hw))
    exact hr.rest w (fun he => hyc (he ▸ hw)) (fun he => hwt (by simp [he]))
      (hroot (fun hm => hwt (by simp [hm])) hw0) (hroot (fun hm => hwt (by simp [hm])) hw0)
  · exact ⟨hy0, hr.at_new, hl.reparent hlnd hr.left hlc, hrr.reparent hrnd hr.right hrc⟩
  · rw [nodes_node, List.nodup_append, List.nodup_cons]
    refine ⟨hlnd, ⟨hyr, hrnd⟩, ?_⟩
    intro w hw v hv
    rcases List.mem_cons.mp hv with rfl | hv
    · exact fun he => hyl (he ▸ hw)
    · exact hlr w hw v (List.mem_cons_of_mem _ hv)
  · intro w hw
    rw [nodes_node, List.mem_append, List.mem_cons] at hw
    rcases hw with hw | rfl | hw
    · exact hsep w (by simp [hw])
    · exact hyc
    · exact hsep w (by simp [hw])

/-! ### The nodes in order -/

/-- The heap holds a tree with the nodes `xs`, in this order. -/
def InOrder (h : Heap τ) (xs : List ℕ) : Prop := ∃ t, IsTree h t ∧ t.nodes = xs

namespace InOrder

variable {h h' : Heap τ} {xs : List ℕ} {x : ℕ}

theorem nodup (hi : InOrder h xs) : xs.Nodup := by
  obtain ⟨t, ht, rfl⟩ := hi
  exact ht.nodup

theorem ne_zero (hi : InOrder h xs) (hx : x ∈ xs) : x ≠ 0 := by
  obtain ⟨t, ht, rfl⟩ := hi
  exact ht.ne_zero hx

theorem focus (hi : InOrder h xs) (hx : x ∈ xs) :
    ∃ c l d r, IsTree h (Ctx.plug c (node l x d r)) ∧ (Ctx.plug c (node l x d r)).nodes = xs := by
  obtain ⟨t, ht, rfl⟩ := hi
  obtain ⟨c, l, d, r, rfl⟩ := exists_focus hx
  exact ⟨c, l, d, r, ht, rfl⟩

theorem root_mem (hi : InOrder h xs) : h.root = 0 ∨ h.root ∈ xs := by
  obtain ⟨t, ht, rfl⟩ := hi
  by_cases h0 : t.root = 0
  · exact Or.inl (ht.root.trans h0)
  · exact Or.inr (ht.root ▸ BinTree.root_mem h0)

theorem child_mem (hi : InOrder h xs) (hx : x ∈ xs) (s : Side) :
    h.child s x = 0 ∨ h.child s x ∈ xs := by
  obtain ⟨c, l, d, r, ht, rfl⟩ := hi.focus hx
  obtain ⟨-, hr⟩ := ht.focus
  have hsub (u : BinTree τ) (hu : ∀ y ∈ u.nodes, y ∈ (node l x d r).nodes) :
      u.root = 0 ∨ u.root ∈ (c.plug (node l x d r)).nodes := by
    by_cases h0 : u.root = 0
    · exact Or.inl h0
    · exact Or.inr (Ctx.mem_nodes_plug.mpr (Or.inl (hu _ (BinTree.root_mem h0))))
  rw [Heap.child, hr.2.1]
  cases s with
  | left => exact hsub l (fun y hy => by simp [hy])
  | right => exact hsub r (fun y hy => by simp [hy])

theorem parent_mem (hi : InOrder h xs) (hx : x ∈ xs) :
    h.parent x = 0 ∨ h.parent x ∈ xs := by
  obtain ⟨c, l, d, r, ht, rfl⟩ := hi.focus hx
  have hp := ht.parent_focus ht.focus.2.1
  rw [root_node] at hp
  rw [hp]
  exact ht.focus.1.parent_mem.imp id (fun hm => Ctx.mem_nodes_plug.mpr (Or.inr hm))

theorem congr (hi : InOrder h xs) (hroot : h'.root = h.root)
    (hc : ∀ y ∈ xs, h'.cell y = h.cell y) : InOrder h' xs := by
  obtain ⟨t, ht, rfl⟩ := hi
  exact ⟨t, ⟨hroot.trans ht.root, ht.holds.congr hc, ht.nodup⟩, rfl⟩

theorem setData (hi : InOrder h xs) (x : ℕ) (d : τ) : InOrder (h.setData x d) xs := by
  by_cases hx : x ∈ xs
  · obtain ⟨c, l, d', r, ht, rfl⟩ := hi.focus hx
    exact ⟨_, ht.setData d, by rw [Ctx.nodes_plug, Ctx.nodes_plug]; rfl⟩
  · refine hi.congr ?_ ?_
    · rfl
    intro y hy
    rw [Heap.cell_setData, if_neg]
    rintro rfl
    exact hx hy

end InOrder

end MaiFaSp.LinkedTree

/-!
## The pointers of a linked tree agree

A child points back to its parent and every node but the root is pointed to by its
parent. A heap whose pointers disagree at one node holds no tree with that node,
which is how a wrong change is told from a right one.
-/

namespace MaiFaSp.LinkedTree

open BinTree

variable {τ : Type*} {h h' : Heap τ} {t : BinTree τ}

namespace IsTree

theorem child_links (ht : IsTree h t) {x : ℕ} (hx : x ∈ t.nodes) {s : Side} (hs : h.child s x ≠ 0) :
    h.parent (h.child s x) = x ∧ h.child s x ∈ t.nodes := by
  obtain ⟨c, l, d, r, rfl⟩ := exists_focus hx
  obtain ⟨-, -, hcell, hl, hr⟩ := ht.focus
  have hsub {u : BinTree τ} (hu : Holds h x u) (hne : u.root ≠ 0)
      (hm : ∀ y ∈ u.nodes, y ∈ (node l x d r).nodes) :
      h.parent u.root = x ∧ u.root ∈ (c.plug (node l x d r)).nodes := by
    refine ⟨?_, Ctx.mem_nodes_plug.mpr (Or.inl (hm _ (root_mem hne)))⟩
    cases u with
    | nil => exact absurd rfl hne
    | node l' y d' r' => rw [root_node, Heap.parent, hu.2.1]
  rw [Heap.child, hcell] at hs ⊢
  cases s with
  | left => exact hsub hl hs fun y hy => by simp [hy]
  | right => exact hsub hr hs fun y hy => by simp [hy]

theorem parent_links (ht : IsTree h t) {x : ℕ} (hx : x ∈ t.nodes) :
    (h.parent x = 0 ∧ h.root = x) ∨
      (h.parent x ∈ t.nodes ∧ ∃ s, h.child s (h.parent x) = x) := by
  obtain ⟨c, l, d, r, rfl⟩ := exists_focus hx
  have hparent : h.parent x = c.parent := ht.parent_focus ht.focus.2.1
  have hget : h.get c.link = x := ht.get_link
  rw [hparent]
  cases c with
  | top => exact Or.inl ⟨rfl, hget⟩
  | frame s p dp sib up =>
    exact Or.inr ⟨Ctx.mem_nodes_plug.mpr (Or.inr (List.mem_cons_self ..)), s, hget⟩

/-- A subtree below a place comes to that place. -/
theorem promote {c : Ctx τ} {u X : BinTree τ} {p : ℕ} (ht : IsTree h (c.plug u))
    (hX : Holds h p X) (hnd : X.nodes.Nodup) (hsub : ∀ y ∈ X.nodes, y ∈ u.nodes)
    (hroot : h'.root = (h.set c.link X.root).root)
    (hat : X.root ≠ 0 → h'.cell X.root = (h.cell X.root).setParent c.parent)
    (hrest : ∀ y, y ≠ X.root → h'.cell y = (h.set c.link X.root).cell y) : IsTree h' (c.plug X) := by
  obtain ⟨-, -, hsep⟩ := ht.separate
  have hout (y : ℕ) (hy : y ∈ X.nodes) : y ∉ c.nodes := hsep y (hsub y hy)
  refine ht.replace hroot ?_ ?_ hnd hout
  · intro y hy
    apply hrest
    rintro rfl
    exact hout _ (root_mem (ht.ne_zero (Ctx.mem_nodes_plug.mpr (Or.inr hy)))) hy
  · refine hX.reparent hnd hat ?_
    intro y hy hne
    rw [hrest y hne, set_cell_of_notMem (hout y hy)]

end IsTree

/-- The tree that is read along the child pointers from `a` on. -/
def Below (h : Heap τ) : ℕ → BinTree τ → Prop
  | a, nil => a = 0
  | a, node l x d r => a = x ∧ x ≠ 0 ∧ h.data x = d ∧ Below h (h.left x) l ∧ Below h (h.right x) r

theorem Holds.below {p : ℕ} (ht : Holds h p t) : Below h t.root t := by
  induction t generalizing p with
  | nil => exact rfl
  | node l x d r ihl ihr =>
    obtain ⟨hx, hcell, hl, hr⟩ := ht
    refine ⟨rfl, hx, ?_, ?_, ?_⟩
    · rw [Heap.data, hcell]
    · rw [Heap.left, hcell]
      exact ihl hl
    · rw [Heap.right, hcell]
      exact ihr hr

end MaiFaSp.LinkedTree
