import MaiFaSp.Lib.LinkedTree

/-!
# Red-black trees

The colours of a tree: a black root, no red node with a red child, and as many
black nodes on every path from the root to a null link. For a place in a tree the
context says which colour and black height may stand there.
-/

namespace MaiFaSp.LinkedTree

open BinTree

inductive Color where
  | red
  | black
  deriving Repr, DecidableEq

/-- The root has the colour, and every path down has `n` black nodes. -/
inductive Balanced : Color → ℕ → BinTree Color → Prop
  | nil : Balanced .black 0 nil
  | red {n l x r} (hl : Balanced .black n l) (hr : Balanced .black n r) :
      Balanced .red n (node l x .red r)
  | black {n l x r c c'} (hl : Balanced c n l) (hr : Balanced c' n r) :
      Balanced .black (n + 1) (node l x .black r)

def RedBlack (t : BinTree Color) : Prop := ∃ n, Balanced .black n t

/-- A subtree with the colour and black height makes the whole tree red-black. -/
inductive CtxBalanced : Ctx Color → Color → ℕ → Prop
  | top {n} : CtxBalanced .top .black n
  | red {n s x sib up} (hs : Balanced .black n sib) (hu : CtxBalanced up .red n) :
      CtxBalanced (.frame s x .red sib up) .black n
  | black {n s x sib up c c'} (hs : Balanced c' n sib) (hu : CtxBalanced up .black (n + 1)) :
      CtxBalanced (.frame s x .black sib up) c n

variable {t u : BinTree Color} {c c' : Color} {n n' x : ℕ} {k : Ctx Color} {s : Side}

theorem Balanced.unique (h : Balanced c n t) (h' : Balanced c' n' t) : c = c' ∧ n = n' := by
  induction h generalizing c' n' with
  | nil => cases h'; exact ⟨rfl, rfl⟩
  | red hl hr ihl _ =>
    cases h' with
    | red hl' _ => exact ⟨rfl, (ihl hl').2⟩
  | black hl hr ihl _ =>
    cases h' with
    | black hl' _ => exact ⟨rfl, by rw [(ihl hl').2]⟩

theorem balanced_join_red :
    Balanced c n (join s t x .red u) ↔ c = .red ∧ Balanced .black n t ∧ Balanced .black n u := by
  constructor
  · intro h
    cases s with
    | left => cases h with | red hl hr => exact ⟨rfl, hl, hr⟩
    | right => cases h with | red hl hr => exact ⟨rfl, hr, hl⟩
  · rintro ⟨rfl, ht, hu⟩
    cases s with
    | left => exact .red ht hu
    | right => exact .red hu ht

theorem balanced_join_black :
    Balanced c n (join s t x .black u) ↔
      c = .black ∧ ∃ m c₁ c₂, n = m + 1 ∧ Balanced c₁ m t ∧ Balanced c₂ m u := by
  constructor
  · intro h
    cases s with
    | left => cases h with | black hl hr => exact ⟨rfl, _, _, _, rfl, hl, hr⟩
    | right => cases h with | black hl hr => exact ⟨rfl, _, _, _, rfl, hr, hl⟩
  · rintro ⟨rfl, m, c₁, c₂, rfl, ht, hu⟩
    cases s with
    | left => exact .black ht hu
    | right => exact .black hu ht

/-- The root of a subtree has the colour the subtree is balanced with. -/
theorem Balanced.color_eq {l r : BinTree Color} {d : Color} (h : Balanced c n (node l x d r)) :
    d = c := by
  cases h <;> rfl

theorem redBlack_plug :
    RedBlack (k.plug t) ↔ ∃ c n, Balanced c n t ∧ CtxBalanced k c n := by
  induction k generalizing t with
  | top =>
    constructor
    · rintro ⟨n, h⟩
      exact ⟨.black, n, h, .top⟩
    · rintro ⟨c, n, h, hk⟩
      cases hk
      exact ⟨n, h⟩
  | frame s y d sib up ih =>
    rw [Ctx.plug, ih]
    constructor
    · rintro ⟨c, n, h, hk⟩
      cases d with
      | red =>
        obtain ⟨rfl, ht, hs⟩ := balanced_join_red.mp h
        exact ⟨_, _, ht, .red hs hk⟩
      | black =>
        obtain ⟨rfl, m, c₁, c₂, rfl, ht, hs⟩ := balanced_join_black.mp h
        exact ⟨_, _, ht, .black hs hk⟩
    · rintro ⟨c, n, h, hk⟩
      cases hk with
      | red hs hu => exact ⟨_, _, balanced_join_red.mpr ⟨rfl, h, hs⟩, hu⟩
      | black hs hu =>
        exact ⟨_, _, balanced_join_black.mpr ⟨rfl, _, _, _, rfl, h, hs⟩, hu⟩

/-- Where a red subtree may stand, a black one may. -/
theorem CtxBalanced.of_red (h : CtxBalanced k .red n) : CtxBalanced k .black n := by
  cases h with
  | black hs hu => exact .black hs hu

theorem CtxBalanced.alike {k' : Ctx Color} (h : CtxBalanced k c n) (ha : Ctx.Alike k k') :
    CtxBalanced k' c n := by
  induction ha generalizing c n with
  | refl => exact h
  | here =>
    cases h with
    | red hs hu => exact .red hs hu
    | black hs hu => exact .black hs hu
  | frame _ ih =>
    cases h with
    | red hs hu => exact .red hs (ih hu)
    | black hs hu => exact .black hs (ih hu)

/-- Below the top a place fixes the black height. -/
theorem CtxBalanced.unique (h : CtxBalanced k c n) (h' : CtxBalanced k c' n') (hk : k ≠ .top) :
    n = n' := by
  cases h with
  | top => exact absurd rfl hk
  | red hs _ =>
    cases h' with
    | red hs' _ => exact (hs.unique hs').2
  | black hs _ =>
    cases h' with
    | black hs' _ => exact (hs.unique hs').2

theorem Balanced.of_zero (h : Balanced c 0 t) :
    t = BinTree.nil ∨ ∃ x, t = node BinTree.nil x .red BinTree.nil := by
  cases h with
  | nil => exact Or.inl rfl
  | red hl hr =>
    cases hl with
    | nil =>
      cases hr with
      | nil => exact Or.inr ⟨_, rfl⟩

/-- A subtree with a red root has its root coloured black. -/
theorem redBlack_blacken {l r : BinTree Color} {d : Color} (h : Balanced c n (node l x d r)) :
    RedBlack (node l x .black r) := by
  cases h with
  | red hl hr => exact ⟨_, .black hl hr⟩
  | black hl hr => exact ⟨_, .black hl hr⟩

end MaiFaSp.LinkedTree
