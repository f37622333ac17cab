import MaiFaSp.Lib.TreeSurgery

/-!
# Orders of traversal

The preorder and the postorder of a tree, with what comes before and after the subtree at a place. A
walk from a first element along a partial successor visits a list in its order just where the
successor of each element is the next one of the list.
-/

namespace MaiFaSp.LinkedTree

open BinTree

variable {τ : Type*}

namespace BinTree

def preorder : BinTree τ → List ℕ
  | nil => []
  | node l x _ r => x :: (l.preorder ++ r.preorder)

def postorder : BinTree τ → List ℕ
  | nil => []
  | node l x _ r => l.postorder ++ (r.postorder ++ [x])

/-- The subtree at the first node in order. -/
def first : BinTree τ → BinTree τ
  | nil => nil
  | node nil x d r => node nil x d r
  | node (node l x d r) _ _ _ => first (node l x d r)

variable (t : BinTree τ)

theorem preorder_perm : t.preorder.Perm t.nodes := by
  induction t with
  | nil => exact .nil
  | node l x d r ihl ihr => exact ((ihl.append ihr).cons x).trans List.perm_middle.symm

theorem postorder_perm : t.postorder.Perm t.nodes := by
  induction t with
  | nil => exact .nil
  | node l x d r ihl ihr =>
    have hr : (r.postorder ++ [x]).Perm (x :: r.nodes) :=
      List.perm_append_comm.trans (ihr.cons x)
    exact ihl.append hr

variable {t}

theorem preorder_ne_nil (h : t ≠ nil) : t.preorder ≠ [] := by
  cases t with
  | nil => exact absurd rfl h
  | node l x d r => exact List.cons_ne_nil _ _

theorem postorder_ne_nil (h : t ≠ nil) : t.postorder ≠ [] := by
  cases t with
  | nil => exact absurd rfl h
  | node l x d r => simp [postorder]

theorem nodes_ne_nil (h : t ≠ nil) : t.nodes ≠ [] := by
  cases t with
  | nil => exact absurd rfl h
  | node l x d r => simp

theorem headD_append (xs ys : List ℕ) (h : xs ≠ []) : (xs ++ ys).headD 0 = xs.headD 0 := by
  cases xs with
  | nil => exact absurd rfl h
  | cons x xs => rfl

theorem getLastD_append (xs ys : List ℕ) (a : ℕ) : (xs ++ ys).getLastD a = ys.getLastD (xs.getLastD a) := by
  induction xs generalizing a with
  | nil => rfl
  | cons x xs ih => rw [List.cons_append, List.getLastD_cons, List.getLastD_cons, ih]

theorem getLastD_of_ne {xs : List ℕ} (h : xs ≠ []) (a b : ℕ) : xs.getLastD a = xs.getLastD b := by
  cases xs with
  | nil => exact absurd rfl h
  | cons x xs => rw [List.getLastD_cons, List.getLastD_cons]

theorem root_first (u : BinTree τ) : u.first.root = u.nodes.headD 0 := by
  induction u with
  | nil => rfl
  | node l x d r ihl _ =>
    cases l with
    | nil => rfl
    | node l' x' d' r' =>
      rw [first, ihl]
      exact (headD_append _ (x :: r.nodes) (nodes_ne_nil fun he => by cases he)).symm

theorem root_last (u : BinTree τ) : u.last.root = u.nodes.getLastD 0 := by
  induction u with
  | nil => rfl
  | node l x d r _ ihr =>
    rw [nodes_node, getLastD_append, List.getLastD_cons]
    cases r with
    | nil => rfl
    | node l' x' d' r' =>
      rw [last, ihr]
      exact getLastD_of_ne (nodes_ne_nil fun he => by cases he) ..

theorem headD_preorder (t : BinTree τ) : t.preorder.headD 0 = t.root := by
  cases t <;> rfl

theorem getLastD_postorder (h : t ≠ nil) (a : ℕ) : t.postorder.getLastD a = t.root := by
  cases t with
  | nil => exact absurd rfl h
  | node l x d r => rw [postorder, getLastD_append, List.getLastD_concat, root_node]

end BinTree

namespace Ctx

def preBefore : Ctx τ → List ℕ
  | top => []
  | frame .left x _ _ up => up.preBefore ++ [x]
  | frame .right x _ sib up => up.preBefore ++ x :: sib.preorder

def preAfter : Ctx τ → List ℕ
  | top => []
  | frame .left _ _ sib up => sib.preorder ++ up.preAfter
  | frame .right _ _ _ up => up.preAfter

def postBefore : Ctx τ → List ℕ
  | top => []
  | frame .left _ _ _ up => up.postBefore
  | frame .right _ _ sib up => up.postBefore ++ sib.postorder

def postAfter : Ctx τ → List ℕ
  | top => []
  | frame .left x _ sib up => sib.postorder ++ x :: up.postAfter
  | frame .right x _ _ up => x :: up.postAfter

theorem preorder_plug (c : Ctx τ) (t : BinTree τ) :
    (c.plug t).preorder = c.preBefore ++ (t.preorder ++ c.preAfter) := by
  induction c generalizing t with
  | top => simp [plug, preBefore, preAfter]
  | frame s x d sib up ih =>
    rw [plug, ih]
    cases s <;> simp [join, preorder, preBefore, preAfter]

theorem postorder_plug (c : Ctx τ) (t : BinTree τ) :
    (c.plug t).postorder = c.postBefore ++ (t.postorder ++ c.postAfter) := by
  induction c generalizing t with
  | top => simp [plug, postBefore, postAfter]
  | frame s x d sib up ih =>
    rw [plug, ih]
    cases s <;> simp [join, postorder, postBefore, postAfter]

theorem nodes_place (c : Ctx τ) (l : BinTree τ) (x : ℕ) (d : τ) (r : BinTree τ) :
    (c.plug (node l x d r)).nodes = (c.before ++ l.nodes) ++ x :: (r.nodes ++ c.after) := by
  rw [nodes_plug]
  simp

theorem preorder_place (c : Ctx τ) (l : BinTree τ) (x : ℕ) (d : τ) (r : BinTree τ) :
    (c.plug (node l x d r)).preorder = c.preBefore ++ x :: (l.preorder ++ (r.preorder ++ c.preAfter)) := by
  rw [preorder_plug]
  simp [preorder]

theorem postorder_place (c : Ctx τ) (l : BinTree τ) (x : ℕ) (d : τ) (r : BinTree τ) :
    (c.plug (node l x d r)).postorder = (c.postBefore ++ (l.postorder ++ r.postorder)) ++ x :: c.postAfter := by
  rw [postorder_plug]
  simp [postorder]

end Ctx

/-! ### Walks -/

section Walks

variable {ε : Type*} {next prev : ℕ → Except ε ℕ} {fault : ε} {l xs ys xs' ys' : List ℕ} {x y start turns : ℕ}

/-- What a walk from `n` visits until null. -/
def visits (next : ℕ → Except ε ℕ) (fault : ε) : ℕ → ℕ → Except ε (List ℕ)
  | 0, n => if n = 0 then pure [] else throw fault
  | turns + 1, n =>
    if n = 0 then pure []
    else do
      let m ← next n
      let rest ← visits next fault turns m
      pure (n :: rest)

/-- `next` goes from each element of the list to the one behind it, and from the last one to null. -/
def Forward (next : ℕ → Except ε ℕ) (l : List ℕ) : Prop :=
  ∀ xs x ys, l = xs ++ x :: ys → next x = .ok (ys.headD 0)

/-- `prev` goes from each element of the list but the first one to the one before it. -/
def Backward (prev : ℕ → Except ε ℕ) (l : List ℕ) : Prop :=
  ∀ xs x y ys, l = xs ++ x :: y :: ys → prev y = .ok x

/-- Every element but the first one follows the last of those before it. -/
theorem backward_of_last (h : ∀ xs y ys, l = xs ++ y :: ys → xs ≠ [] → prev y = .ok (xs.getLastD 0)) :
    Backward prev l := by
  intro xs x y ys hl
  have hsplit : l = (xs ++ [x]) ++ y :: ys := by
    rw [hl]
    simp
  rw [h _ _ _ hsplit (by simp), List.getLastD_concat]

theorem Forward.tail (h : Forward next (x :: l)) : Forward next l := by
  intro ys y zs hl
  exact h (x :: ys) y zs (by rw [hl, List.cons_append])

theorem visits_iff (h0 : 0 ∉ l) (hturns : l.length ≤ turns) :
    visits next fault turns start = .ok l ↔ start = l.headD 0 ∧ Forward next l := by
  induction l generalizing start turns with
  | nil =>
    have hempty : Forward next [] := fun xs x ys h => absurd h (by simp)
    rw [and_iff_left hempty]
    cases turns with
    | zero =>
      rw [visits]
      split
      case isTrue h => exact iff_of_true rfl h
      case isFalse h => exact iff_of_false (fun he => nomatch he) h
    | succ turns =>
      rw [visits]
      split
      case isTrue h => exact iff_of_true rfl h
      case isFalse h =>
        refine iff_of_false ?_ h
        intro he
        obtain ⟨m, -, he⟩ := bind_eq_ok.mp he
        obtain ⟨rest, -, he⟩ := bind_eq_ok.mp he
        cases he
  | cons a l ih =>
    rw [List.mem_cons, not_or] at h0
    obtain ⟨turns, rfl⟩ : ∃ k, turns = k + 1 := ⟨turns - 1, by simp at hturns; omega⟩
    have hlen : l.length ≤ turns := by simpa using hturns
    rw [visits]
    constructor
    · intro he
      by_cases hs : start = 0
      · rw [if_pos hs] at he
        cases he
      · rw [if_neg hs] at he
        obtain ⟨m, hm, he⟩ := bind_eq_ok.mp he
        obtain ⟨rest, hrest, he⟩ := bind_eq_ok.mp he
        cases he
        obtain ⟨rfl, hl⟩ := (ih h0.2 hlen).mp hrest
        refine ⟨rfl, ?_⟩
        intro xs x ys hsplit
        cases xs with
        | nil =>
          cases hsplit
          exact hm
        | cons b xs =>
          cases hsplit
          exact hl xs x ys rfl
    · rintro ⟨hstart, hl⟩
      obtain rfl : start = a := hstart
      rw [if_neg (Ne.symm h0.1), hl [] start l rfl]
      show (visits next fault turns (l.headD 0) >>= fun rest => _) = _
      rw [(ih h0.2 hlen).mpr ⟨rfl, hl.tail⟩]
      rfl

/-- A list without repetitions is parted at an element in one way. -/
theorem split_unique (hnd : (xs ++ x :: ys).Nodup) (h : xs ++ x :: ys = xs' ++ x :: ys') :
    xs = xs' ∧ ys = ys' := by
  have hx : x ∉ xs := fun hm => (List.nodup_append.mp hnd).2.2 x hm x (List.mem_cons_self ..) rfl
  have hy : x ∉ ys := (List.nodup_cons.mp (List.nodup_append.mp hnd).2.1).1
  obtain ⟨h₁, -, h₂⟩ := (List.append_cons_inj_of_notMem hx hy).mp h
  exact ⟨h₁, h₂⟩

/-- The parts of an order at an element, by its place in the tree. -/
theorem order_split {u : BinTree τ} {order : BinTree τ → List ℕ} {before after : Ctx τ → BinTree τ → BinTree τ → List ℕ}
    (hperm : ∀ t, (order t).Perm t.nodes)
    (hplace : ∀ c l x d r, order (c.plug (node l x d r)) = before c l r ++ x :: after c l r)
    (hnd : u.nodes.Nodup) (h : order u = xs ++ x :: ys) :
    ∃ (c : Ctx τ) (l : BinTree τ) (d : τ) (r : BinTree τ), u = c.plug (node l x d r) ∧
      xs = before c l r ∧ ys = after c l r := by
  obtain ⟨c, l, d, r, rfl⟩ := exists_focus ((hperm u).mem_iff.mp (h ▸ by simp : x ∈ order u))
  rw [← (hperm _).nodup_iff, hplace] at hnd
  rw [hplace] at h
  obtain ⟨rfl, rfl⟩ := split_unique hnd h
  exact ⟨c, l, d, r, rfl, rfl, rfl⟩

theorem infix_split {u : BinTree τ} (hnd : u.nodes.Nodup) (h : u.nodes = xs ++ x :: ys) :
    ∃ (c : Ctx τ) (l : BinTree τ) (d : τ) (r : BinTree τ), u = c.plug (node l x d r) ∧
      xs = c.before ++ l.nodes ∧ ys = r.nodes ++ c.after :=
  order_split (fun _ => .refl _) Ctx.nodes_place hnd h

theorem preorder_split {u : BinTree τ} (hnd : u.nodes.Nodup) (h : u.preorder = xs ++ x :: ys) :
    ∃ (c : Ctx τ) (l : BinTree τ) (d : τ) (r : BinTree τ), u = c.plug (node l x d r) ∧
      xs = c.preBefore ∧ ys = l.preorder ++ (r.preorder ++ c.preAfter) :=
  order_split preorder_perm Ctx.preorder_place hnd h

theorem postorder_split {u : BinTree τ} (hnd : u.nodes.Nodup) (h : u.postorder = xs ++ x :: ys) :
    ∃ (c : Ctx τ) (l : BinTree τ) (d : τ) (r : BinTree τ), u = c.plug (node l x d r) ∧
      xs = c.postBefore ++ (l.postorder ++ r.postorder) ∧ ys = c.postAfter :=
  order_split postorder_perm Ctx.postorder_place hnd h

/-- The two directions undo each other. -/
theorem next_iff_prev (h0 : 0 ∉ l) (hnext : Forward next l) (hprev : Backward prev l)
    (hfirst : prev (l.headD 0) = .ok 0) (hx : x ∈ l) (hy : y ∈ l) : next x = .ok y ↔ prev y = .ok x := by
  obtain ⟨xs, zs, rfl⟩ := List.append_of_mem hx
  constructor
  · intro h
    rw [hnext xs x zs rfl] at h
    cases zs with
    | nil =>
      cases h
      exact absurd hy h0
    | cons z zs =>
      cases h
      exact hprev xs x z zs rfl
  · intro h
    obtain ⟨ws, vs, hl⟩ := List.append_of_mem hy
    cases ws using List.reverseRecOn with
    | nil =>
      rw [hl] at hfirst
      have hzero : prev y = .ok 0 := hfirst
      rw [hzero] at h
      cases h
      exact absurd hx h0
    | append_singleton ws w =>
      rw [List.append_assoc] at hl
      rw [hprev ws w y vs hl] at h
      obtain rfl : w = x := Except.ok.inj h
      exact hnext ws w (y :: vs) hl

end Walks

end MaiFaSp.LinkedTree
