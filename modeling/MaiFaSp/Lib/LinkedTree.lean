import Mathlib.Data.List.Basic
import Mathlib.Data.List.Nodup
import Mathlib.Logic.Function.Basic
import Mathlib.Tactic

/-!
# Binary trees linked in a heap

Nodes have addresses, the null pointer is 0, and a node points to its children
and to its parent. `IsTree` says which tree a heap holds. A place in a tree is
given by the subtree there and its context, so that an operation on the heap is
followed where it works and the rest of the tree is framed.

The two directions are one parameter: `join s` builds a node from the child on
side `s` and the other one.
-/

namespace MaiFaSp.LinkedTree

inductive Side where
  | left
  | right
  deriving Repr, DecidableEq

def Side.other : Side → Side
  | .left => .right
  | .right => .left

@[simp] theorem Side.other_other (s : Side) : s.other.other = s := by cases s <;> rfl

@[simp] theorem Side.other_ne (s : Side) : s.other ≠ s := by cases s <;> decide

@[simp] theorem Side.ne_other (s : Side) : s ≠ s.other := by cases s <;> decide

@[ext] structure Cell (τ : Type*) where
  left : ℕ
  right : ℕ
  parent : ℕ
  data : τ

variable {τ : Type*}

namespace Cell

def child (c : Cell τ) : Side → ℕ
  | .left => c.left
  | .right => c.right

def setChild (c : Cell τ) : Side → ℕ → Cell τ
  | .left, v => { c with left := v }
  | .right, v => { c with right := v }

def setParent (c : Cell τ) (v : ℕ) : Cell τ := { c with parent := v }

def setData (c : Cell τ) (d : τ) : Cell τ := { c with data := d }

/-- The cell with child `near` on side `s` and child `far` on the other. -/
def joined (s : Side) (near far parent : ℕ) (d : τ) : Cell τ :=
  match s with
  | .left => ⟨near, far, parent, d⟩
  | .right => ⟨far, near, parent, d⟩

variable (s : Side) (c : Cell τ) (near far p v : ℕ) (d d' : τ)

@[simp] theorem child_joined : (joined s near far p d).child s = near := by cases s <;> rfl

@[simp] theorem child_other_joined : (joined s near far p d).child s.other = far := by
  cases s <;> rfl

@[simp] theorem parent_joined : (joined s near far p d).parent = p := by cases s <;> rfl

@[simp] theorem data_joined : (joined s near far p d).data = d := by cases s <;> rfl

@[simp] theorem setChild_joined : (joined s near far p d).setChild s v = joined s v far p d := by
  cases s <;> rfl

@[simp] theorem setChild_other_joined :
    (joined s near far p d).setChild s.other v = joined s near v p d := by cases s <;> rfl

@[simp] theorem setParent_joined :
    (joined s near far p d).setParent v = joined s near far v d := by cases s <;> rfl

@[simp] theorem setData_joined : (joined s near far p d).setData d' = joined s near far p d' := by
  cases s <;> rfl

@[simp] theorem setChild_setChild (w : ℕ) : (c.setChild s v).setChild s w = c.setChild s w := by
  cases s <;> rfl

@[simp] theorem setChild_child : c.setChild s (c.child s) = c := by cases s <;> rfl

@[simp] theorem parent_setChild : (c.setChild s v).parent = c.parent := by cases s <;> rfl

@[simp] theorem data_setChild : (c.setChild s v).data = c.data := by cases s <;> rfl

@[simp] theorem child_setChild : (c.setChild s v).child s = v := by cases s <;> rfl

@[simp] theorem child_other_setChild : (c.setChild s v).child s.other = c.child s.other := by
  cases s <;> rfl

@[simp] theorem child_setParent : (c.setParent v).child s = c.child s := by cases s <;> rfl

@[simp] theorem child_setData : (c.setData d).child s = c.child s := by cases s <;> rfl

end Cell

structure Heap (τ : Type*) where
  root : ℕ
  cell : ℕ → Cell τ

/-- A variable that holds a pointer to a node: the root pointer or a child pointer. -/
inductive Ref where
  | root
  | child (s : Side) (x : ℕ)
  deriving Repr, DecidableEq

namespace Heap

variable (h : Heap τ)

def child (s : Side) (x : ℕ) : ℕ := (h.cell x).child s

def left (x : ℕ) : ℕ := (h.cell x).left

def right (x : ℕ) : ℕ := (h.cell x).right

def parent (x : ℕ) : ℕ := (h.cell x).parent

def data (x : ℕ) : τ := (h.cell x).data

def modify (x : ℕ) (f : Cell τ → Cell τ) : Heap τ :=
  { h with cell := Function.update h.cell x (f (h.cell x)) }

def setChild (s : Side) (x v : ℕ) : Heap τ := h.modify x (·.setChild s v)

def setParent (x v : ℕ) : Heap τ := h.modify x (·.setParent v)

def setData (x : ℕ) (d : τ) : Heap τ := h.modify x (·.setData d)

def get : Ref → ℕ
  | .root => h.root
  | .child s x => h.child s x

def set : Ref → ℕ → Heap τ
  | .root, v => { h with root := v }
  | .child s x, v => h.setChild s x v

theorem cell_modify (x y : ℕ) (f : Cell τ → Cell τ) :
    (h.modify x f).cell y = if y = x then f (h.cell y) else h.cell y := by
  by_cases hy : y = x
  · rw [if_pos hy, hy]
    exact Function.update_self ..
  · rw [if_neg hy]
    exact Function.update_of_ne hy ..

theorem cell_setChild (s : Side) (x v y : ℕ) :
    (h.setChild s x v).cell y = if y = x then (h.cell y).setChild s v else h.cell y :=
  h.cell_modify x y _

theorem cell_setParent (x v y : ℕ) :
    (h.setParent x v).cell y = if y = x then (h.cell y).setParent v else h.cell y :=
  h.cell_modify x y _

theorem cell_setData (x y : ℕ) (d : τ) :
    (h.setData x d).cell y = if y = x then (h.cell y).setData d else h.cell y :=
  h.cell_modify x y _

@[simp] theorem root_setChild (s : Side) (x v : ℕ) : (h.setChild s x v).root = h.root := rfl

@[simp] theorem root_setParent (x v : ℕ) : (h.setParent x v).root = h.root := rfl

@[simp] theorem root_setData (x : ℕ) (d : τ) : (h.setData x d).root = h.root := rfl

end Heap

/-! ### Trees and places in them -/

inductive BinTree (τ : Type*) where
  | nil
  | node (l : BinTree τ) (x : ℕ) (d : τ) (r : BinTree τ)

namespace BinTree

def root : BinTree τ → ℕ
  | nil => 0
  | node _ x _ _ => x

/-- The addresses in order. -/
def nodes : BinTree τ → List ℕ
  | nil => []
  | node l x _ r => l.nodes ++ x :: r.nodes

/-- The node with `near` on side `s` and `far` on the other. -/
def join (s : Side) (near : BinTree τ) (x : ℕ) (d : τ) (far : BinTree τ) : BinTree τ :=
  match s with
  | .left => node near x d far
  | .right => node far x d near

/-- The subtree at the last node in order. -/
def last : BinTree τ → BinTree τ
  | nil => nil
  | node l x d nil => node l x d nil
  | node _ _ _ (node l x d r) => last (node l x d r)

/-- The subtree at a node. -/
def subtree (x : ℕ) : BinTree τ → BinTree τ
  | nil => nil
  | node l y d r =>
    if x = y then node l y d r else if x ∈ l.nodes then l.subtree x else r.subtree x

variable (s : Side) (t u : BinTree τ) (x : ℕ) (d : τ)

@[simp] theorem root_nil : (nil : BinTree τ).root = 0 := rfl

@[simp] theorem root_node : (node t x d u).root = x := rfl

@[simp] theorem nodes_nil : (nil : BinTree τ).nodes = [] := rfl

@[simp] theorem nodes_node : (node t x d u).nodes = t.nodes ++ x :: u.nodes := rfl

@[simp] theorem root_join : (join s t x d u).root = x := by cases s <;> rfl

theorem join_other : join s.other t x d u = join s u x d t := by cases s <;> rfl

theorem join_ne_nil : join s t x d u ≠ nil := by cases s <;> exact fun h => by cases h

theorem nodes_join_perm : (join s t x d u).nodes.Perm (x :: (t.nodes ++ u.nodes)) := by
  cases s with
  | left => exact List.perm_middle
  | right => exact List.perm_middle.trans ((List.perm_append_comm ..).cons x)

theorem mem_nodes_join {y : ℕ} :
    y ∈ (join s t x d u).nodes ↔ y = x ∨ y ∈ t.nodes ∨ y ∈ u.nodes := by
  rw [(nodes_join_perm s t u x d).mem_iff, List.mem_cons, List.mem_append]

end BinTree

open BinTree

/-- The subtree with parent `p` is in the heap. -/
def Holds (h : Heap τ) : ℕ → BinTree τ → Prop
  | _, nil => True
  | p, node l x d r =>
    x ≠ 0 ∧ h.cell x = ⟨l.root, r.root, p, d⟩ ∧ Holds h x l ∧ Holds h x r

/-- A tree with a hole at one place. The frame next to the hole is the outermost constructor. -/
inductive Ctx (τ : Type*) where
  | top
  | frame (s : Side) (x : ℕ) (d : τ) (sib : BinTree τ) (up : Ctx τ)

namespace Ctx

/-- The parent of the hole, and the variable that points to the node there. -/
def parent : Ctx τ → ℕ
  | top => 0
  | frame _ x _ _ _ => x

def link : Ctx τ → Ref
  | top => .root
  | frame s x _ _ _ => .child s x

def plug : Ctx τ → BinTree τ → BinTree τ
  | top, t => t
  | frame s x d sib up, t => up.plug (join s t x d sib)

def nodes : Ctx τ → List ℕ
  | top => []
  | frame _ x _ sib up => x :: (sib.nodes ++ up.nodes)

def before : Ctx τ → List ℕ
  | top => []
  | frame .left _ _ _ up => up.before
  | frame .right x _ sib up => up.before ++ (sib.nodes ++ [x])

def after : Ctx τ → List ℕ
  | top => []
  | frame .left x _ sib up => x :: sib.nodes ++ up.after
  | frame .right _ _ _ up => up.after

def depth : Ctx τ → ℕ
  | top => 0
  | frame _ _ _ _ up => up.depth + 1

/-- The hole of the first context is put where the second one has its hole. -/
def comp : Ctx τ → Ctx τ → Ctx τ
  | top, c => c
  | frame s x d sib up, c => frame s x d sib (up.comp c)

/-- The contexts differ in the address of one node on the path at most. -/
inductive Alike : Ctx τ → Ctx τ → Prop
  | refl (c : Ctx τ) : Alike c c
  | here {s x x' d sib up} : Alike (frame s x d sib up) (frame s x' d sib up)
  | frame {s x d sib up up'} (h : Alike up up') : Alike (frame s x d sib up) (frame s x d sib up')

/-- The tree around the hole is in the heap, with `a` where the hole is. -/
def Holds (h : Heap τ) : Ctx τ → ℕ → Prop
  | top, a => h.root = a
  | frame s x d sib up, a =>
    x ≠ 0 ∧ h.cell x = .joined s a sib.root up.parent d ∧ LinkedTree.Holds h x sib ∧ up.Holds h x

theorem nodes_plug (c : Ctx τ) (t : BinTree τ) :
    (c.plug t).nodes = c.before ++ (t.nodes ++ c.after) := by
  induction c generalizing t with
  | top => simp [plug, before, after]
  | frame s x d sib up ih =>
    rw [plug, ih]
    cases s <;> simp [join, before, after]

theorem perm_plug (c : Ctx τ) (t : BinTree τ) : (c.plug t).nodes.Perm (t.nodes ++ c.nodes) := by
  induction c generalizing t with
  | top => simp [plug, nodes]
  | frame s x d sib up ih =>
    have hj := nodes_join_perm s t sib x d
    refine (ih _).trans ((hj.append_right up.nodes).trans ?_)
    have hm : (x :: (t.nodes ++ (sib.nodes ++ up.nodes))).Perm
        (t.nodes ++ x :: (sib.nodes ++ up.nodes)) := List.perm_middle.symm
    simpa [nodes] using hm

/-- Every step on the way to the hole passes a node. -/
theorem depth_le_length (c : Ctx τ) (t : BinTree τ) : c.depth + t.nodes.length ≤ (c.plug t).nodes.length := by
  rw [(c.perm_plug t).length_eq, List.length_append]
  induction c with
  | top => simp [depth]
  | frame s x d sib up ih =>
    simp only [depth, nodes, List.length_cons, List.length_append]
    omega

theorem mem_nodes_plug {c : Ctx τ} {t : BinTree τ} {y : ℕ} :
    y ∈ (c.plug t).nodes ↔ y ∈ t.nodes ∨ y ∈ c.nodes := by
  rw [(perm_plug c t).mem_iff, List.mem_append]

theorem plug_comp (k c : Ctx τ) (t : BinTree τ) : (k.comp c).plug t = c.plug (k.plug t) := by
  induction k generalizing t with
  | top => rfl
  | frame s x d sib up ih => exact ih _

theorem after_comp (k c : Ctx τ) : (k.comp c).after = k.after ++ c.after := by
  induction k with
  | top => rfl
  | frame s x d sib up ih => cases s <;> simp [comp, after, ih]

theorem Alike.comp {c c' : Ctx τ} (h : Alike c c') (k : Ctx τ) :
    Alike (k.comp c) (k.comp c') := by
  induction k with
  | top => exact h
  | frame s x d sib up ih => exact .frame ih

theorem Alike.top_iff {c c' : Ctx τ} (h : Alike c c') : c = .top ↔ c' = .top := by
  cases h <;> simp

/-- The hole seen from its sibling. -/
theorem plug_other (s : Side) (x : ℕ) (d : τ) (sib t : BinTree τ) (up : Ctx τ) :
    (frame s.other x d t up).plug sib = (frame s x d sib up).plug t := by
  rw [plug, plug, join_other]

end Ctx

/-- Every node of a tree is at some place of it. -/
theorem BinTree.exists_focus {t : BinTree τ} {x : ℕ} (h : x ∈ t.nodes) :
    ∃ (c : Ctx τ) (l : BinTree τ) (d : τ) (r : BinTree τ), t = c.plug (node l x d r) := by
  suffices H : ∀ u : BinTree τ, x ∈ u.nodes → ∀ c : Ctx τ, c.plug u = t →
      ∃ (c : Ctx τ) (l : BinTree τ) (d : τ) (r : BinTree τ), t = c.plug (node l x d r) from
    H t h .top rfl
  intro u
  induction u with
  | nil => intro hx; cases hx
  | node l y d r ihl ihr =>
    intro hx c hc
    rw [nodes_node, List.mem_append, List.mem_cons] at hx
    rcases hx with hx | rfl | hx
    · exact ihl hx (.frame .left y d r c) hc
    · exact ⟨c, l, d, r, hc.symm⟩
    · exact ihr hx (.frame .right y d l c) hc

/-- The last node has no right child, and nothing comes after it. -/
theorem BinTree.exists_last {t : BinTree τ} (h : t ≠ nil) :
    ∃ (k : Ctx τ) (l : BinTree τ) (y : ℕ) (d : τ),
      t = k.plug (node l y d nil) ∧ k.after = [] ∧ t.last = node l y d nil := by
  induction t with
  | nil => exact absurd rfl h
  | node l x d r _ ihr =>
    cases r with
    | nil => exact ⟨.top, l, x, d, rfl, rfl, rfl⟩
    | node l' x' d' r' =>
      obtain ⟨k, l₁, y, d₁, ht, hafter, hlast⟩ := ihr (fun he => by cases he)
      refine ⟨k.comp (.frame .right x d l .top), l₁, y, d₁, ?_, ?_, hlast⟩
      · rw [Ctx.plug_comp, ← ht]
        rfl
      · rw [Ctx.after_comp, hafter]
        rfl

theorem BinTree.subtree_plug {c : Ctx τ} {l r : BinTree τ} {x : ℕ} {d : τ}
    (hnd : (c.plug (node l x d r)).nodes.Nodup) :
    (c.plug (node l x d r)).subtree x = node l x d r := by
  suffices H : ∀ u : BinTree τ, u.subtree x = node l x d r → x ∈ u.nodes →
      (c.plug u).nodes.Nodup → (c.plug u).subtree x = node l x d r from
    H _ (by simp [BinTree.subtree]) (by simp) hnd
  clear hnd
  induction c with
  | top => exact fun u h _ _ => h
  | frame s y d' sib up ih =>
    intro u h hx hnd
    have hjoin : (join s u y d' sib).nodes.Nodup :=
      ((up.perm_plug _).nodup_iff.mp hnd).of_append_left
    have hd := (nodes_join_perm s u sib y d').nodup_iff.mp hjoin
    rw [List.nodup_cons, List.mem_append, not_or, List.nodup_append] at hd
    have hne : x ≠ y := fun he => hd.1.1 (he ▸ hx)
    have hsib : x ∉ sib.nodes := fun hm => hd.2.2.2 x hx x hm rfl
    refine ih _ ?_ ?_ hnd
    · cases s with
      | left => simp [join, BinTree.subtree, hne, hx, h]
      | right => simp [join, BinTree.subtree, hne, hsib, h]
    · exact (mem_nodes_join s u sib y d').mpr (Or.inr (Or.inl hx))

/-! ### Frames -/

section

variable {h h' : Heap τ} {p : ℕ} {t u : BinTree τ} {c : Ctx τ} {a : ℕ}

theorem holds_join {s : Side} {x : ℕ} {d : τ} : Holds h p (join s t x d u) ↔
    x ≠ 0 ∧ h.cell x = .joined s t.root u.root p d ∧ Holds h x t ∧ Holds h x u := by
  cases s with
  | left => rfl
  | right => exact ⟨fun ⟨h₁, h₂, h₃, h₄⟩ => ⟨h₁, h₂, h₄, h₃⟩, fun ⟨h₁, h₂, h₃, h₄⟩ => ⟨h₁, h₂, h₄, h₃⟩⟩

theorem Holds.ne_zero {x : ℕ} (hr : Holds h p t) (hx : x ∈ t.nodes) : x ≠ 0 := by
  induction t generalizing p with
  | nil => cases hx
  | node l y d r ihl ihr =>
    obtain ⟨hy, -, hl, hr⟩ := hr
    rw [nodes_node, List.mem_append, List.mem_cons] at hx
    rcases hx with hx | rfl | hx
    · exact ihl hl hx
    · exact hy
    · exact ihr hr hx

theorem Holds.congr (hr : Holds h p t) (hc : ∀ y ∈ t.nodes, h'.cell y = h.cell y) :
    Holds h' p t := by
  induction t generalizing p with
  | nil => trivial
  | node l x d r ihl ihr =>
    obtain ⟨hx, hcell, hl, hr⟩ := hr
    refine ⟨hx, (hc x (by simp)).trans hcell, ihl hl ?_, ihr hr ?_⟩
    · exact fun y hy => hc y (by simp [hy])
    · exact fun y hy => hc y (by simp [hy])

/-- The subtree gets another parent. -/
theorem Holds.reparent {q : ℕ} (hr : Holds h p t) (hnd : t.nodes.Nodup)
    (hroot : t.root ≠ 0 → h'.cell t.root = (h.cell t.root).setParent q)
    (hc : ∀ y ∈ t.nodes, y ≠ t.root → h'.cell y = h.cell y) : Holds h' q t := by
  cases t with
  | nil => trivial
  | node l x d r =>
    obtain ⟨hx, hcell, hl, hr⟩ := hr
    obtain ⟨-, hr', hd⟩ := List.nodup_append.mp hnd
    have hxr := (List.nodup_cons.mp hr').1
    refine ⟨hx, ?_, hl.congr ?_, hr.congr ?_⟩
    · rw [root_node] at hroot
      rw [hroot hx, hcell]
      rfl
    · exact fun y hy => hc y (by simp [hy]) (hd y hy x (by simp))
    · intro y hy
      exact hc y (by simp [hy]) (fun he => hxr (by rw [← root_node l r x d, ← he]; exact hy))

theorem Ctx.Holds.congr (hr : c.Holds h a) (hroot : h'.root = h.root)
    (hc : ∀ y ∈ c.nodes, h'.cell y = h.cell y) : c.Holds h' a := by
  induction c generalizing a with
  | top => exact hroot.trans hr
  | frame s x d sib up ih =>
    obtain ⟨hx, hcell, hsib, hup⟩ := hr
    refine ⟨hx, (hc x (by simp [nodes])).trans hcell, hsib.congr ?_, ih hup ?_⟩
    · exact fun y hy => hc y (by simp [nodes, hy])
    · exact fun y hy => hc y (by simp [nodes, hy])

/-- The hole is filled with another subtree. -/
theorem Ctx.Holds.relink {v : ℕ} (hr : c.Holds h a) (hnd : c.nodes.Nodup)
    (hroot : h'.root = (h.set c.link v).root)
    (hc : ∀ y ∈ c.nodes, h'.cell y = (h.set c.link v).cell y) : c.Holds h' v := by
  cases c with
  | top => exact hroot
  | frame s x d sib up =>
    obtain ⟨hx, hcell, hsib, hup⟩ := hr
    obtain ⟨hxn, -⟩ := List.nodup_cons.mp hnd
    have hother (y : ℕ) (hy : y ∈ sib.nodes ++ up.nodes) : h'.cell y = h.cell y := by
      have hne : y ≠ x := fun he => hxn (he ▸ hy)
      rw [hc y (List.mem_cons_of_mem _ hy), link, Heap.set, Heap.cell_setChild, if_neg hne]
    refine ⟨hx, ?_, hsib.congr ?_, hup.congr hroot ?_⟩
    · rw [hc x (by simp [nodes]), link, Heap.set, Heap.cell_setChild, if_pos rfl, hcell,
        Cell.setChild_joined]
    · exact fun y hy => hother y (by simp [hy])
    · exact fun y hy => hother y (by simp [hy])

/-- Writing what a variable holds changes nothing. -/
theorem Ctx.Holds.set_self (hr : c.Holds h a) :
    (h.set c.link a).root = h.root ∧ ∀ y, (h.set c.link a).cell y = h.cell y := by
  cases c with
  | top => exact ⟨hr.symm, fun _ => rfl⟩
  | frame s x d sib up =>
    refine ⟨rfl, fun y => ?_⟩
    rw [link, Heap.set, Heap.cell_setChild]
    split
    case isTrue he => rw [he, hr.2.1, Cell.setChild_joined]
    case isFalse he => rfl

theorem holds_plug : h.root = (c.plug t).root ∧ Holds h 0 (c.plug t) ↔
    c.Holds h t.root ∧ Holds h c.parent t := by
  induction c generalizing t with
  | top => rfl
  | frame s x d sib up ih =>
    rw [Ctx.plug, ih, holds_join, root_join]
    constructor
    · rintro ⟨hup, hx, hcell, ht, hsib⟩
      exact ⟨⟨hx, hcell, hsib, hup⟩, ht⟩
    · rintro ⟨⟨hx, hcell, hsib, hup⟩, ht⟩
      exact ⟨hup, hx, hcell, ht, hsib⟩

end

/-! ### The tree of a heap -/

/-- The heap holds the tree `t`, each node of it at its own address. -/
structure IsTree (h : Heap τ) (t : BinTree τ) : Prop where
  root : h.root = t.root
  holds : Holds h 0 t
  nodup : t.nodes.Nodup

theorem holds_unique {h : Heap τ} {p : ℕ} {t u : BinTree τ} (ht : Holds h p t) (hu : Holds h p u)
    (hroot : t.root = u.root) : t = u := by
  induction t generalizing p u with
  | nil =>
    cases u with
    | nil => rfl
    | node l x d r => exact absurd hroot.symm hu.1
  | node l x d r ihl ihr =>
    cases u with
    | nil => exact absurd hroot ht.1
    | node l' x' d' r' =>
      have hx : x = x' := hroot
      subst hx
      obtain ⟨-, hcell, hl, hr⟩ := ht
      obtain ⟨-, hcell', hl', hr'⟩ := hu
      rw [hcell, Cell.mk.injEq] at hcell'
      obtain ⟨h₁, h₂, -, h₃⟩ := hcell'
      rw [ihl hl hl' h₁, ihr hr hr' h₂, h₃]

namespace IsTree

variable {h h' : Heap τ} {t u : BinTree τ} {c : Ctx τ}

/-- A heap holds one tree. -/
theorem unique (ht : IsTree h t) (hu : IsTree h u) : t = u :=
  holds_unique ht.holds hu.holds (ht.root.symm.trans hu.root)

theorem ne_zero {x : ℕ} (ht : IsTree h t) (hx : x ∈ t.nodes) : x ≠ 0 := ht.holds.ne_zero hx

theorem focus (ht : IsTree h (c.plug t)) : c.Holds h t.root ∧ Holds h c.parent t :=
  holds_plug.mp ⟨ht.root, ht.holds⟩

theorem separate (ht : IsTree h (c.plug t)) :
    t.nodes.Nodup ∧ c.nodes.Nodup ∧ ∀ y ∈ t.nodes, y ∉ c.nodes := by
  have hnd := (c.perm_plug t).nodup_iff.mp ht.nodup
  obtain ⟨h₁, h₂, h₃⟩ := List.nodup_append.mp hnd
  exact ⟨h₁, h₂, fun y hy hy' => h₃ y hy y hy' rfl⟩

/-- The subtree at a place is replaced by one with no other nodes. -/
theorem replace (ht : IsTree h (c.plug t)) (hroot : h'.root = (h.set c.link u.root).root)
    (hc : ∀ y ∈ c.nodes, h'.cell y = (h.set c.link u.root).cell y) (hu : Holds h' c.parent u)
    (hnd : u.nodes.Nodup) (hsub : ∀ y ∈ u.nodes, y ∉ c.nodes) : IsTree h' (c.plug u) := by
  obtain ⟨hctx, -⟩ := ht.focus
  obtain ⟨-, hcn, -⟩ := ht.separate
  obtain ⟨h₁, h₂⟩ := holds_plug.mpr ⟨hctx.relink hcn hroot hc, hu⟩
  refine ⟨h₁, h₂, (c.perm_plug u).nodup_iff.mpr ?_⟩
  rw [List.nodup_append]
  exact ⟨hnd, hcn, fun y hy z hz he => hsub y hy (he ▸ hz)⟩

/-- The same, where the pointer to the subtree stays. -/
theorem replaceBelow (ht : IsTree h (c.plug t)) (hroot : h'.root = h.root)
    (hsame : u.root = t.root) (hc : ∀ y ∈ c.nodes, h'.cell y = h.cell y)
    (hu : Holds h' c.parent u) (hnd : u.nodes.Nodup) (hsub : ∀ y ∈ u.nodes, y ∉ c.nodes) :
    IsTree h' (c.plug u) := by
  obtain ⟨hr, hcell⟩ := ht.focus.1.set_self
  apply ht.replace _ _ hu hnd hsub
  · rw [hsame, hr, hroot]
  · intro y hy
    rw [hsame, hcell, hc y hy]

theorem setData {l r : BinTree τ} {x : ℕ} {d : τ} (ht : IsTree h (c.plug (node l x d r))) (d' : τ) :
    IsTree (h.setData x d') (c.plug (node l x d' r)) := by
  obtain ⟨-, hx, hcell, hl, hr⟩ := ht.focus
  obtain ⟨hnd, -, hsep⟩ := ht.separate
  have hnd' := hnd
  rw [nodes_node, List.nodup_append, List.nodup_cons] at hnd'
  obtain ⟨-, ⟨hxr, -⟩, hlr⟩ := hnd'
  have hne (y : ℕ) (hy : y ≠ x) : (h.setData x d').cell y = h.cell y := by
    rw [Heap.cell_setData, if_neg hy]
  refine ht.replaceBelow ?_ ?_ ?_ ?_ hnd hsep
  · rfl
  · rfl
  · intro y hy
    exact hne y (fun he => hsep x (by simp) (he ▸ hy))
  · refine ⟨hx, ?_, hl.congr ?_, hr.congr ?_⟩
    · rw [Heap.cell_setData, if_pos rfl, hcell]
      rfl
    · exact fun y hy => hne y (hlr y hy x (by simp))
    · exact fun y hy => hne y (fun he => hxr (he ▸ hy))

end IsTree

end MaiFaSp.LinkedTree
