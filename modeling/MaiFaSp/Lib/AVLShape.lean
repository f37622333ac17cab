import MaiFaSp.Lib.LinkedTree

/-!
# AVL trees

Every node stores the height of its subtree, and the heights of its children differ by
one at most. For a place in a tree the context says which height may stand there, and
which height the whole tree has then.
-/

namespace MaiFaSp.LinkedTree

open BinTree

/-- The stored heights are exact, the tree has height `n`, and every balance is in `[-1, 1]`. -/
inductive Avl : ℕ → BinTree ℕ → Prop
  | nil : Avl 0 nil
  | node {a b l x r} (hl : Avl a l) (hr : Avl b r) (hab : a ≤ b + 1) (hba : b ≤ a + 1) :
      Avl (max a b + 1) (node l x (max a b + 1) r)

/-- With a subtree of height `a` at the hole, the path and what hangs from it is an AVL tree of
height `n`. -/
inductive CtxAvl : Ctx ℕ → ℕ → ℕ → Prop
  | top {a} : CtxAvl .top a a
  | frame {s x sib up a b n} (hs : Avl b sib) (hab : a ≤ b + 1) (hba : b ≤ a + 1)
      (hup : CtxAvl up (max a b + 1) n) : CtxAvl (.frame s x (max a b + 1) sib up) a n

/-- The height that a node stores; null has height 0. -/
def BinTree.stored : BinTree ℕ → ℕ
  | nil => 0
  | node _ _ d _ => d

variable {t u A : BinTree ℕ} {a b n x d : ℕ} {k c : Ctx ℕ} {s : Side}

@[simp] theorem BinTree.stored_nil : (nil : BinTree ℕ).stored = 0 := rfl

@[simp] theorem BinTree.stored_join : (join s t x d u).stored = d := by cases s <;> rfl

theorem Avl.stored_eq (h : Avl n t) : t.stored = n := by cases h <;> rfl

theorem avl_join : Avl n (join s t x d u) ↔
    ∃ a b, Avl a t ∧ Avl b u ∧ a ≤ b + 1 ∧ b ≤ a + 1 ∧ d = max a b + 1 ∧ n = d := by
  constructor
  · intro h
    cases s with
    | left =>
      cases h with
      | node hl hr hab hba => exact ⟨_, _, hl, hr, hab, hba, rfl, rfl⟩
    | right =>
      cases h with
      | node hl hr hab hba => exact ⟨_, _, hr, hl, hba, hab, by rw [max_comm], rfl⟩
  · rintro ⟨a, b, ht, hu, hab, hba, rfl, rfl⟩
    cases s with
    | left => exact .node ht hu hab hba
    | right =>
      rw [max_comm]
      exact .node hu ht hba hab

/-- A tree that is not empty, with the child on side `s` first. -/
theorem Avl.exists_join (s : Side) (h : Avl n t) (hn : n ≠ 0) : ∃ A x B, t = join s A x n B := by
  cases h with
  | nil => exact absurd rfl hn
  | @node a b l x r _ _ _ _ =>
    cases s with
    | left => exact ⟨l, x, r, rfl⟩
    | right => exact ⟨r, x, l, rfl⟩

theorem Avl.eq_leaf (h : Avl 1 t) : ∃ x, t = .node .nil x 1 .nil := by
  obtain ⟨A, x, B, rfl⟩ := h.exists_join .left one_ne_zero
  obtain ⟨a, b, hA, hB, -, -, hd, -⟩ := avl_join.mp h
  obtain rfl : a = 0 := by omega
  obtain rfl : b = 0 := by omega
  cases hA
  cases hB
  exact ⟨x, rfl⟩

theorem avl_plug : Avl n (c.plug t) ↔ ∃ a, Avl a t ∧ CtxAvl c a n := by
  induction c generalizing t with
  | top =>
    constructor
    · intro h
      exact ⟨n, h, .top⟩
    · rintro ⟨a, h, hk⟩
      cases hk
      exact h
  | frame s y d sib up ih =>
    rw [Ctx.plug, ih]
    constructor
    · rintro ⟨m, h, hk⟩
      obtain ⟨a, b, ht, hs, hab, hba, rfl, rfl⟩ := avl_join.mp h
      exact ⟨a, ht, .frame hs hab hba hk⟩
    · rintro ⟨a, h, hk⟩
      cases hk with
      | frame hs hab hba hup => exact ⟨_, avl_join.mpr ⟨_, _, h, hs, hab, hba, rfl, rfl⟩, hup⟩

theorem CtxAvl.comp {m : ℕ} (hk : CtxAvl k a m) (hc : CtxAvl c m n) : CtxAvl (k.comp c) a n := by
  induction hk with
  | top => exact hc
  | frame hs hab hba _ ih => exact .frame hs hab hba (ih hc)

/-- The whole tree stores the height that the context gives it. -/
theorem CtxAvl.stored_plug (hk : CtxAvl k a n) (hA : A.stored = a) : (k.plug A).stored = n := by
  induction hk generalizing A with
  | top => exact hA
  | frame _ _ _ _ ih =>
    refine ih ?_
    rw [stored_join]

/-- A tree with few nodes is low. -/
theorem Avl.two_pow_le (h : Avl n t) : 2 ^ (n / 2) ≤ t.nodes.length + 1 := by
  induction h with
  | nil => exact le_refl 1
  | @node a b l x r _ _ hab hba ihl ihr =>
    rw [nodes_node, List.length_append, List.length_cons]
    have hlow : (max a b + 1) / 2 ≤ min a b / 2 + 1 := by omega
    have hpow : 2 ^ ((max a b + 1) / 2) ≤ 2 ^ (min a b / 2 + 1) :=
      Nat.pow_le_pow_right (by decide) hlow
    have hmin (c : ℕ) (hc : min a b ≤ c) : 2 ^ (min a b / 2) ≤ 2 ^ (c / 2) :=
      Nat.pow_le_pow_right (by decide) (Nat.div_le_div_right hc)
    have ha := hmin a (min_le_left a b)
    have hb := hmin b (min_le_right a b)
    rw [pow_succ] at hpow
    omega

theorem Avl.le_of_length (h : Avl n t) (hlen : t.nodes.length < 2 ^ 64) : n ≤ 129 := by
  by_contra hn
  have hpow : 2 ^ 65 ≤ 2 ^ (n / 2) := Nat.pow_le_pow_right (by decide) (by omega)
  have hle := hpow.trans h.two_pow_le
  omega

end MaiFaSp.LinkedTree
