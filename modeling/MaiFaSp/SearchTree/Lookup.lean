import MaiFaSp.SearchTree.Search

/-!
# The lookups (`binary_search_tree.h:2125-2137, 2178-2200`)

`contains`, `find` and the two `at` search in one way and differ in what they ask of the node. `contains`
asks for null; the iterator of `find` has no backup, which `end()` has as soon as there is a node; the `at`
of a constant tree calls itself.
-/

namespace MaiFaSp.SearchTree

open LinkedTree BinTree

variable {κ υ τ : Type} [DecidableEq κ]

/-- `infix_iterator`; `data` is null before the first node and behind the last. -/
structure InfixIterator where
  data : ℕ
  backup : ℕ

/-- `operator==` -/
def InfixIterator.equals (a b : InfixIterator) : Bool :=
  if a.data ≠ 0 ∨ b.data ≠ 0 then a.data = b.data else a.backup = b.backup

def infixIterator (data : ℕ) : InfixIterator := ⟨data, 0⟩

def endInfix (turns : ℕ) (h : Heap τ) : Except TreeFault InfixIterator :=
  if h.root = 0 then pure (infixIterator 0)
  else do
    let current ← rightmost h turns h.root
    pure ⟨0, current⟩

section Entries

variable (lt : κ → κ → Bool) (turns : ℕ) (t : Tree κ υ τ) (k : κ)

def contains : Except TreeFault Bool := do
  let n ← goToNodeWithKey lt t k turns t.heap.root
  pure (n = 0)

/-- Both overloads of `find`; `post_search` gets the node, and the iterator is there before. -/
def find : Except TreeFault InfixIterator := do
  let n ← goToNodeWithKey lt t k turns t.heap.root
  pure (infixIterator n)

/-- `at(const tkey &)` -/
def atKey : Except TreeFault υ := do
  let current ← goToNodeWithKey lt t k turns t.heap.root
  if current = 0 then throw .outOfRange else pure (t.entry current).2

/-- `at(const tkey &) const`: `*this` is constant in it. The first argument bounds the calls. -/
def atKeyConst : ℕ → Except TreeFault υ
  | 0 => throw .diverged
  | n + 1 => atKeyConst n

/-- `find` differs from `end()` where the key is. -/
def FindAgrees (u : BinTree τ) : Prop :=
  ∃ it e, find lt turns t k = .ok it ∧ endInfix turns t.heap = .ok e ∧
    (it.equals e = false ↔ k ∈ u.nodes.map (key t))

/-- The call returns where the key is, and throws elsewhere. -/
def AtAgrees (t : Tree κ υ τ) (k : κ) (u : BinTree τ) (result : Except TreeFault υ) : Prop :=
  if k ∈ u.nodes.map (key t) then ∃ v, result = .ok v else result = .error .outOfRange

/-- What the four entry points should say; a loop has `turns`, and the recursion `calls`. -/
structure LookupAgrees (calls : ℕ) (u : BinTree τ) : Prop where
  contains : ∃ b, contains lt turns t k = .ok b ∧ (b = true ↔ k ∈ u.nodes.map (key t))
  find : FindAgrees lt turns t k u
  atKey : AtAgrees t k u (atKey lt turns t k)
  atKeyConst : AtAgrees t k u (atKeyConst calls)

end Entries

variable {lt : κ → κ → Bool} {t : Tree κ υ τ} {u : BinTree τ} {k : κ} {turns calls : ℕ}

theorem atKeyConst_diverges (calls : ℕ) : (atKeyConst calls : Except TreeFault υ) = .error .diverged := by
  induction calls with
  | zero => rfl
  | succ n ih => exact ih

theorem not_atAgrees_diverged : ¬ AtAgrees t k u (.error .diverged) := by
  unfold AtAgrees
  split
  · rintro ⟨v, h⟩
    cases h
  · intro h
    cases h

theorem found_stored (lt : κ → κ → Bool) (t : Tree κ υ τ) (k : κ) (u : BinTree τ) :
    found lt t k u = 0 ∨ found lt t k u ∈ u.nodes ∧ key t (found lt t k u) = k := by
  induction u with
  | nil => exact Or.inl rfl
  | node l x d r ihl ihr =>
    rw [found, nodes_node]
    split
    case isTrue he => exact Or.inr ⟨by simp, he.symm⟩
    case isFalse =>
      split
      · exact ihl.imp_right fun h => ⟨List.mem_append_left _ h.1, h.2⟩
      · exact ihr.imp_right fun h => ⟨List.mem_append_right _ (List.mem_cons_of_mem _ h.1), h.2⟩

theorem found_eq_zero_iff [IsStrictTotalOrder κ fun a b => lt a b = true] (ht : IsTree t.heap u)
    (hord : Ordered lt t u.nodes) : found lt t k u = 0 ↔ k ∉ u.nodes.map (key t) := by
  constructor
  · intro h0 hk
    exact ht.ne_zero (found_spec hord hk).1 h0
  · intro hk
    obtain h0 | ⟨hmem, hkey⟩ := found_stored lt t k u
    · exact h0
    · exact absurd (hkey ▸ List.mem_map_of_mem hmem) hk

omit [DecidableEq κ] in
theorem endInfix_eq (ht : IsTree t.heap u) (hturns : u.nodes.length ≤ turns) :
    endInfix turns t.heap = .ok ⟨0, u.last.root⟩ := by
  unfold endInfix
  rw [ht.root]
  split
  case isTrue h0 =>
    obtain rfl : u = nil := by
      by_contra hne
      exact root_ne_zero ht.holds hne h0
    rfl
  case isFalse h0 =>
    have hne : u ≠ nil := fun he => h0 (he ▸ root_nil)
    rw [rightmost_eq ht.holds hne hturns]
    rfl

omit [DecidableEq κ] in
theorem root_last_ne_zero (ht : IsTree t.heap u) (hne : u ≠ nil) : u.last.root ≠ 0 := by
  obtain ⟨c, l, y, d, rfl, -, hlast⟩ := exists_last hne
  rw [hlast]
  exact ht.ne_zero (Ctx.mem_nodes_plug.mpr (Or.inl (by simp)))

theorem search_eq (ht : IsTree t.heap u) (hturns : u.nodes.length ≤ turns) :
    goToNodeWithKey lt t k turns t.heap.root = .ok (found lt t k u) := by
  rw [ht.root]
  exact goToNodeWithKey_eq ht.holds hturns

section Agreement

variable [IsStrictTotalOrder κ fun a b => lt a b = true]

/-- `contains` says that the key is not there. -/
theorem contains_iff_absent (ht : IsTree t.heap u) (hord : Ordered lt t u.nodes)
    (hturns : u.nodes.length ≤ turns) :
    ∃ b, contains lt turns t k = .ok b ∧ (b = true ↔ k ∉ u.nodes.map (key t)) := by
  refine ⟨decide (found lt t k u = 0), ?_, ?_⟩
  · unfold contains
    rw [search_eq ht hturns]
    rfl
  · rw [decide_eq_true_iff, found_eq_zero_iff ht hord]

/-- An absent key gives an iterator without a backup, and `end()` has one unless there is no node. -/
theorem findAgrees_iff (ht : IsTree t.heap u) (hord : Ordered lt t u.nodes) (hturns : u.nodes.length ≤ turns) :
    FindAgrees lt turns t k u ↔ k ∈ u.nodes.map (key t) ∨ u = nil := by
  have hfind : find lt turns t k = .ok (infixIterator (found lt t k u)) := by
    unfold find
    rw [search_eq ht hturns]
    rfl
  have hagrees : FindAgrees lt turns t k u ↔
      ((infixIterator (found lt t k u)).equals ⟨0, u.last.root⟩ = false ↔ k ∈ u.nodes.map (key t)) := by
    constructor
    · rintro ⟨it, e, hit, he, h⟩
      rw [hfind] at hit
      rw [endInfix_eq ht hturns] at he
      cases hit
      cases he
      exact h
    · exact fun h => ⟨_, _, hfind, endInfix_eq ht hturns, h⟩
  rw [hagrees]
  by_cases hk : k ∈ u.nodes.map (key t)
  · have hne : found lt t k u ≠ 0 := fun h0 => (found_eq_zero_iff ht hord).mp h0 hk
    have hdiffers : (infixIterator (found lt t k u)).equals ⟨0, u.last.root⟩ = false := by
      simp [infixIterator, InfixIterator.equals, hne]
    exact iff_of_true (iff_of_true hdiffers hk) (Or.inl hk)
  · have h0 := (found_eq_zero_iff ht hord).mpr hk
    rw [h0]
    constructor
    · intro h
      right
      by_contra hne
      have hlast : (0 : ℕ) ≠ u.last.root := (root_last_ne_zero ht hne).symm
      refine hk (h.mp ?_)
      simp [infixIterator, InfixIterator.equals, hlast]
    · rintro (hmem | rfl)
      · exact absurd hmem hk
      · refine iff_of_false ?_ hk
        simp [infixIterator, InfixIterator.equals, last]

theorem atKey_agrees (ht : IsTree t.heap u) (hord : Ordered lt t u.nodes) (hturns : u.nodes.length ≤ turns) :
    AtAgrees t k u (atKey lt turns t k) := by
  unfold AtAgrees atKey
  rw [search_eq ht hturns, ok_bind]
  by_cases hk : k ∈ u.nodes.map (key t)
  · have hne : found lt t k u ≠ 0 := fun h0 => (found_eq_zero_iff ht hord).mp h0 hk
    rw [if_pos hk, if_neg hne]
    exact ⟨_, rfl⟩
  · rw [if_neg hk, if_pos ((found_eq_zero_iff ht hord).mpr hk)]
    rfl

end Agreement

/-! ### A tree of one node -/

/-- The entry with the key 5, at the address 7. -/
def oneEntry : Tree ℕ ℕ Unit := ⟨⟨7, fun _ => ⟨0, 0, 0, ()⟩⟩, fun _ => (5, 50), 1⟩

theorem oneEntry_isTree : IsTree oneEntry.heap (node nil 7 () nil) where
  root := rfl
  holds := ⟨by decide, rfl, trivial, trivial⟩
  nodup := List.nodup_singleton 7

theorem oneEntry_ordered : Ordered natLess oneEntry (node nil 7 () nil : BinTree Unit).nodes :=
  List.pairwise_singleton ..

end MaiFaSp.SearchTree
