import MaiFaSp.RedBlack.Links
import MaiFaSp.SearchTree.AVL
import MaiFaSp.SearchTree.Splay

/-!
# `size()` of the search trees

Both overloads of `insert` return before `_size++` when the tree is empty. So the first
insertion leaves one node and the size 0, whatever the tag does afterwards.
-/

namespace MaiFaSp.SearchTree

open LinkedTree BinTree

/-! ### The red-black tag (`red_black_tree.h`) -/

section RedBlackTag

variable {κ υ : Type}

/-- `bst_impl<RB_TAG>::post_insert`; the rotations go through a pointer that the tree stores. -/
def redBlackInsert (turns : ℕ) (t : Tree κ υ Color) (x : ℕ) : Except TreeFault (Tree κ υ Color) := do
  let h ← liftLink (RedBlack.insertFix smallRotation turns t.heap x)
  pure { t with heap := h }

/-- `bst_impl<RB_TAG>::erase` -/
def redBlackErase (turns : ℕ) (t : Tree κ υ Color) (n : ℕ) : Except TreeFault (Tree κ υ Color) := do
  if n = 0 then throw .outOfRange
  else
    let (h, _) ← liftLink (RedBlack.removeNode smallRotation turns t.heap n)
    pure { t with heap := h }.shrunk

/-- The tag of `red_black_tree`. -/
def redBlackTree : BstImpl κ υ Color := ⟨.red, redBlackInsert, redBlackErase⟩

end RedBlackTag

/-! ### Runs of a search tree -/

inductive Tag where
  | plain
  | avl
  | redBlack
  | splay
  deriving Repr, DecidableEq

/-- What the nodes of a tag have besides the entry and the links. -/
def Tag.NodeData : Tag → Type
  | .plain => Unit
  | .avl => ℕ
  | .redBlack => Color
  | .splay => Unit

def Tag.impl (κ υ : Type) : (tag : Tag) → BstImpl κ υ tag.NodeData
  | .plain => SearchTree.plain
  | .avl => AVL.avlTree
  | .redBlack => redBlackTree
  | .splay => SplayTree.splayTree

section Runs

variable {κ υ τ : Type}

/-- The address is that of the node that the allocator gives. -/
inductive Op (κ υ : Type) where
  | insert (x : ℕ) (e : κ × υ)
  | insertMoved (x : ℕ) (e : κ × υ)
  | erase (k : κ)

/-- The nodes that the root pointer reaches. -/
inductive Reachable (h : Heap τ) : ℕ → Prop
  | root (h0 : h.root ≠ 0) : Reachable h h.root
  | child {x : ℕ} (s : Side) (hx : Reachable h x) (h0 : h.child s x ≠ 0) : Reachable h (h.child s x)

/-- `size()` is the number of nodes, and `empty()` says whether there are none. -/
structure SizeExact (t : Tree κ υ τ) : Prop where
  size : t.size = Set.ncard {x | Reachable t.heap x}
  empty : t.size = 0 ↔ ∀ x, ¬ Reachable t.heap x

variable [DecidableEq κ] (lt : κ → κ → Bool) (impl : BstImpl κ υ τ)

/-- A new node is at an address that is not in use, and the key to erase is found. -/
def Op.Enabled (turns : ℕ) (t : Tree κ υ τ) : Op κ υ → Prop
  | .insert x _ => x ≠ 0 ∧ ¬ Reachable t.heap x
  | .insertMoved x _ => x ≠ 0 ∧ ¬ Reachable t.heap x
  | .erase k => ∃ n ≠ 0, goToNodeWithKey lt t k turns t.heap.root = .ok n

def Op.apply (turns : ℕ) (t : Tree κ υ τ) : Op κ υ → Except TreeFault (Tree κ υ τ)
  | .insert x e => SearchTree.insert lt impl turns t x e
  | .insertMoved x e => SearchTree.insertMoved lt impl turns t x e
  | .erase k => eraseKey lt impl turns t k

/-- A run from `t` with the states after its operations. -/
inductive Steps : Tree κ υ τ → List (Op κ υ) → List (Tree κ υ τ) → Prop
  | nil (t : Tree κ υ τ) : Steps t [] []
  | cons {t t' : Tree κ υ τ} {op : Op κ υ} {ops : List (Op κ υ)} {ts : List (Tree κ υ τ)} {turns : ℕ}
      (henabled : op.Enabled lt turns t) (hok : op.apply lt impl turns t = .ok t')
      (hrest : Steps t' ops ts) : Steps t (op :: ops) (t' :: ts)

end Runs

/-! ### The first insertion -/

section First

variable {κ υ τ : Type} {turns x : ℕ}

/-- `post_insert` at the only node keeps it at the root and does not count. -/
def KeepsFirst (impl : BstImpl κ υ τ) : Prop :=
  ∀ {turns x : ℕ} {t t' : Tree κ υ τ}, x ≠ 0 → t.heap.root = x →
    t.heap.cell x = ⟨0, 0, 0, impl.newData⟩ → impl.postInsert turns t x = .ok t' →
    t'.size = t.size ∧ t'.heap.root = x

theorem liftLink_eq_ok {α : Type} {a : Except LinkFault α} {b : α} : liftLink a = .ok b ↔ a = .ok b := by
  cases a with
  | ok a => exact ⟨fun h => congrArg Except.ok (Except.ok.inj h), fun h => congrArg Except.ok (Except.ok.inj h)⟩
  | error e => exact ⟨fun h => (nomatch h), fun h => (nomatch h)⟩

theorem plain_keepsFirst : KeepsFirst (plain : BstImpl κ υ Unit) := by
  intro turns x t t' _ hroot _ hok
  cases hok
  exact ⟨rfl, hroot⟩

theorem splay_keepsFirst : KeepsFirst (SplayTree.splayTree : BstImpl κ υ Unit) := by
  intro turns x t t' _ _ _ hok
  obtain ⟨h, -, hok⟩ := bind_eq_ok.mp hok
  cases hok
  exact ⟨rfl, rfl⟩

theorem redBlack_keepsFirst : KeepsFirst (redBlackTree : BstImpl κ υ Color) := by
  intro turns x t t' hx hroot _ hok
  obtain ⟨h, hfix, hok⟩ := bind_eq_ok.mp hok
  cases hok
  refine ⟨rfl, ?_⟩
  obtain ⟨h₁, hloop, hfix⟩ := bind_eq_ok.mp (liftLink_eq_ok.mp hfix)
  obtain ⟨-, -, hfix⟩ := bind_eq_ok.mp hfix
  cases hfix
  have hsame : h₁ = t.heap := by
    cases turns with
    | zero => cases hloop
    | succ n =>
      rw [RedBlack.insertLoop, if_pos hroot.symm] at hloop
      cases hloop
      rfl
  rw [hsame]
  exact hroot

theorem avl_keepsFirst : KeepsFirst (AVL.avlTree : BstImpl κ υ ℕ) := by
  intro turns x t t' hx hroot hcell hok
  obtain ⟨h, hloop, hok⟩ := bind_eq_ok.mp hok
  cases hok
  refine ⟨rfl, ?_⟩
  refine AVL.insertLoop_alone hx ?_ ?_ ?_ hloop
  · rw [Heap.left, hcell]
  · rw [Heap.right, hcell]
  · rw [Heap.parent, hcell]

theorem keepsFirst (tag : Tag) : KeepsFirst (tag.impl κ υ) := by
  cases tag with
  | plain => exact plain_keepsFirst
  | avl => exact avl_keepsFirst
  | redBlack => exact redBlack_keepsFirst
  | splay => exact splay_keepsFirst

variable {t t' : Tree κ υ τ} {impl : BstImpl κ υ τ}

theorem not_sizeExact (hsize : t.size = 0) (hroot : t.heap.root ≠ 0) : ¬ SizeExact t := by
  intro h
  exact h.empty.mp hsize _ (Reachable.root hroot)

theorem sizeExact_empty (d : τ) (e : κ × υ) : SizeExact (empty d e) := by
  have hnone (x : ℕ) : ¬ Reachable (empty d e : Tree κ υ τ).heap x := by
    intro hx
    induction hx with
    | root h0 => exact h0 rfl
    | child s _ _ ih => exact ih
  refine ⟨?_, iff_of_true rfl hnone⟩
  have hset : {x | Reachable (empty d e : Tree κ υ τ).heap x} = ∅ := Set.eq_empty_of_forall_notMem hnone
  rw [hset, Set.ncard_empty]
  rfl

variable [DecidableEq κ] {lt : κ → κ → Bool} {op : Op κ υ}

omit [DecidableEq κ] in
theorem insertPlace_empty (k : κ) : insertPlace lt t k turns 0 0 = .ok 0 := by
  cases turns <;> rfl

/-- The first operation inserts, and is not counted. -/
theorem first_not_exact (hkeeps : KeepsFirst impl) (hroot : t.heap.root = 0) (hsize : t.size = 0)
    (henabled : op.Enabled lt turns t) (hok : op.apply lt impl turns t = .ok t') : ¬ SizeExact t' := by
  have hinsert {x : ℕ} {e : κ × υ} (hx : x ≠ 0)
      (hpost : impl.postInsert turns ((createNode impl t x 0 e).setRoot x) x = .ok t') :
      ¬ SizeExact t' := by
    have hcell : ((createNode impl t x 0 e).setRoot x).heap.cell x = ⟨0, 0, 0, impl.newData⟩ := by
      show (t.heap.modify x fun _ => ⟨0, 0, 0, impl.newData⟩).cell x = _
      rw [Heap.cell_modify, if_pos rfl]
    obtain ⟨hsize', hroot'⟩ := hkeeps hx rfl hcell hpost
    exact not_sizeExact (hsize'.trans hsize) (hroot' ▸ hx)
  cases op with
  | insert x e =>
    refine hinsert (x := x) (e := e) henabled.1 ?_
    have hok : SearchTree.insert lt impl turns t x e = .ok t' := hok
    unfold SearchTree.insert at hok
    rw [hroot, insertPlace_empty] at hok
    exact hok
  | insertMoved x e =>
    refine hinsert (x := x) (e := e) henabled.1 ?_
    have hok : SearchTree.insertMoved lt impl turns t x e = .ok t' := hok
    unfold SearchTree.insertMoved at hok
    rw [hroot, insertPlace_empty] at hok
    exact hok
  | erase k =>
    obtain ⟨n, hn, hgo⟩ := henabled
    rw [hroot] at hgo
    exfalso
    cases turns <;> cases hgo <;> exact hn rfl

end First

section Claim

variable {κ υ : Type} [DecidableEq κ] {lt : κ → κ → Bool}

/-- The size is exact in every state of a run only if the run is empty. -/
theorem size_exact_iff (tag : Tag) (d : tag.NodeData) (e : κ × υ) {ops : List (Op κ υ)}
    {ts : List (Tree κ υ tag.NodeData)} (hrun : Steps lt (tag.impl κ υ) (empty d e) ops ts) :
    (∀ t ∈ empty d e :: ts, SizeExact t) ↔ ops = [] := by
  cases hrun with
  | nil =>
    refine iff_of_true ?_ rfl
    intro t ht
    rw [List.mem_singleton.mp ht]
    exact sizeExact_empty d e
  | cons henabled hok hrest =>
    refine iff_of_false ?_ (fun he => nomatch he)
    intro hall
    exact first_not_exact (keepsFirst tag) rfl rfl henabled hok (hall _ (by simp))

theorem size_exact_no_operation :
    SizeExact (empty () (0, 0) : Tree ℕ ℕ Unit) :=
  (size_exact_iff .plain () (0, 0)
    (Steps.nil _ : Steps (fun a b : ℕ => decide (a < b)) plain _ [] [])).mpr rfl _
    (List.mem_singleton_self _)

/-- One insertion into an empty tree: a node and the size 0. -/
theorem first_insert_not_counted : ∃ t : Tree ℕ ℕ Unit,
    Steps (fun a b => decide (a < b)) plain (empty () (0, 0)) [.insert 1 (5, 5)] [t] ∧
      t.size = 0 ∧ Reachable t.heap 1 := by
  refine ⟨_, Steps.cons ?_ (rfl : Op.apply _ plain 0 _ _ = .ok _) (Steps.nil _), rfl, ?_⟩
  · refine ⟨by decide, fun hx => ?_⟩
    exact (sizeExact_empty () (0, 0)).empty.mp rfl _ hx
  · exact Reachable.root (by decide)

end Claim

end MaiFaSp.SearchTree
