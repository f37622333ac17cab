import Mathlib.Order.Interval.Finset.Nat
import MaiFaSp.SearchTree.AVLLeftChild

/-!
# The AVL tree (`AVL_tree.h:638-710`)

Whether `erase` leaves an AVL tree is told by the place of the node: a height above the place that
was left is computed again only by chance.
-/

namespace MaiFaSp.SearchTree.AVL

open LinkedTree BinTree

/-! ### The places -/

/-- The last node is the root, or a leaf beside a subtree of height 1. -/
def lastMovable : BinTree ℕ → Bool
  | node S _ _ (node nil _ _ nil) => S.stored == 1
  | node _ _ _ (node (node _ _ _ _) _ _ nil) => false
  | node _ _ _ (node l x d (node l' x' d' r')) => lastMovable (node l x d (node l' x' d' r'))
  | _ => true

/-- The node with the children `l` and `r` can go. -/
def erasable : Ctx ℕ → BinTree ℕ → BinTree ℕ → Bool
  | .top, _, nil => false
  | .frame _ _ _ S _, nil, nil => S.stored == 1
  | .frame _ _ _ S _, node _ _ _ _, nil => S.stored == 3
  | _, nil, node _ _ _ _ => false
  | _, node l x d r, node _ _ _ _ => lastMovable (node l x d r)

/-- `erasable` at the node `z` of a tree. -/
def erasableAt : Ctx ℕ → BinTree ℕ → ℕ → Bool
  | _, nil, _ => false
  | c, node l x d r, z =>
    if x = z then erasable c l r
    else erasableAt (.frame .left x d r c) l z || erasableAt (.frame .right x d l c) r z

variable {h : Heap ℕ} {c : Ctx ℕ} {l r t L S : BinTree ℕ} {n m d q dq dm N z turns : ℕ}

theorem erasableAt_of_notMem (hz : z ∉ t.nodes) : erasableAt c t z = false := by
  induction t generalizing c with
  | nil => rfl
  | node l x d r ihl ihr =>
    rw [nodes_node, List.mem_append, List.mem_cons, not_or, not_or] at hz
    rw [erasableAt, if_neg (Ne.symm hz.2.1), ihl hz.1, ihr hz.2.2]
    rfl

theorem erasableAt_plug {k : Ctx ℕ} (hz : z ∉ c.nodes) :
    erasableAt k (c.plug t) z = erasableAt (c.comp k) t z := by
  induction c generalizing t with
  | top => rfl
  | frame s x d sib up ih =>
    simp only [Ctx.nodes, List.mem_cons, List.mem_append, not_or] at hz
    obtain ⟨hx, hsib, hup⟩ := hz
    rw [Ctx.plug, ih hup, Ctx.comp]
    cases s with
    | left =>
      rw [join, erasableAt, if_neg (Ne.symm hx), erasableAt_of_notMem hsib, Bool.or_false]
    | right =>
      rw [join, erasableAt, if_neg (Ne.symm hx), erasableAt_of_notMem hsib, Bool.false_or]

theorem erasableAt_place (ht : IsTree h (c.plug (node l z d r))) :
    erasableAt .top (c.plug (node l z d r)) z = erasable c l r := by
  have hcomp (c : Ctx ℕ) : c.comp .top = c := by
    induction c with
    | top => rfl
    | frame s x d sib up ih => rw [Ctx.comp, ih]
  rw [erasableAt_plug (ht.separate.2.2 z (by simp)), hcomp, erasableAt, if_pos rfl]

/-- What is above the last two nodes does not matter. -/
theorem lastMovable_up {up : Ctx ℕ} (hafter : up.after = []) :
    lastMovable (up.plug (node S q dq (node L m dm r))) = lastMovable (node S q dq (node L m dm r)) := by
  induction up generalizing S q dq L m dm r with
  | top => rfl
  | frame s x d sib up ih =>
    cases s with
    | left => exact absurd hafter (by simp [Ctx.after])
    | right =>
      have hup : up.after = [] := by simpa [Ctx.after] using hafter
      rw [Ctx.plug, join, ih hup]
      cases S <;> cases L <;> rfl

theorem lastMovable_iff {up : Ctx ℕ} (hafter : up.after = []) :
    lastMovable ((Ctx.frame .right q dq S up).plug (node L m dm nil)) = true ↔ L = nil ∧ S.stored = 1 := by
  rw [Ctx.plug, join, lastMovable_up hafter]
  cases L with
  | nil => simp [lastMovable]
  | node _ _ _ _ => simp [lastMovable]

/-! ### The removal -/

theorem place_outcome (ht : IsTree h (c.plug (node l n d r))) (havl : Avl N (c.plug (node l n d r)))
    (hlen : (c.plug (node l n d r)).nodes.length < 2 ^ 64)
    (hturns : (c.plug (node l n d r)).nodes.length < turns) :
    Outcome turns h n (c.plug (node l n d r)).nodes (erasable c l r = true) := by
  cases r with
  | nil =>
    cases c with
    | top => exact (root_outcome ht _).of_iff (by simp [erasable])
    | frame s p dp S up =>
      cases l with
      | nil => exact (leaf_outcome ht havl).of_iff (by simp [erasable])
      | node ll xl dl rl =>
        have hl : node ll xl dl rl ≠ nil := fun he => by cases he
        exact (left_outcome ht hl havl hlen hturns).of_iff (by simp [erasable])
  | node lr xr dr rr =>
    have hr : node lr xr dr rr ≠ nil := fun he => by cases he
    have hboth (ll xl dl rl) : erasable c (node ll xl dl rl) (node lr xr dr rr) =
        lastMovable (node ll xl dl rl) := by cases c <;> rfl
    cases l with
    | nil =>
      refine (noLeft_outcome ht hr _).of_iff ?_
      cases c <;> simp [erasable]
    | node ll xl dl rl =>
      rw [hboth]
      cases rl with
      | nil => exact (near_outcome ht havl hr hlen hturns).of_iff (by cases ll <;> simp [lastMovable])
      | node l' x' d' r' =>
        have hne : node l' x' d' r' ≠ nil := fun he => by cases he
        obtain ⟨q, dq, S, up, L, m, dm, hl, hafter, hlast⟩ :=
          exists_last_below (l := ll) (x := xl) (d := dl) hne
        rw [hl] at ht havl hlen hturns hlast ⊢
        exact (far_outcome ht hlast hafter havl hr hlen hturns).of_iff (lastMovable_iff hafter).symm

section Kept

variable {κ υ : Type} (lt : κ → κ → Bool)

/-- The links of `t` are those of the AVL tree `u`, in the order of the keys; an address has 64 bits. -/
structure WellFormed (t : Tree κ υ ℕ) (u : BinTree ℕ) : Prop where
  isTree : IsTree t.heap u
  avl : ∃ N, Avl N u
  ordered : Ordered lt t u.nodes
  address : ∀ x ∈ u.nodes, x < 2 ^ 64

variable {lt}

theorem length_lt_of_address (ht : IsTree h t) (haddress : ∀ x ∈ t.nodes, x < 2 ^ 64) :
    t.nodes.length < 2 ^ 64 := by
  have hsub : t.nodes.toFinset ⊆ Finset.Ico 1 (2 ^ 64) := by
    intro x hx
    have hx := List.mem_toFinset.mp hx
    have hx0 := ht.ne_zero hx
    exact Finset.mem_Ico.mpr ⟨by omega, haddress x hx⟩
  have hcard := Finset.card_le_card hsub
  rw [List.toFinset_card_of_nodup ht.nodup, Nat.card_Ico] at hcard
  omega

theorem WellFormed.length_lt {t : Tree κ υ ℕ} {u : BinTree ℕ} (hw : WellFormed lt t u) :
    u.nodes.length < 2 ^ 64 :=
  length_lt_of_address hw.isTree hw.address

variable {t : Tree κ υ ℕ} {u : BinTree ℕ} {k : κ}

theorem erase_eq (hn : n ≠ 0) (t : Tree κ υ ℕ) : erase turns t n =
    (eraseHeap turns t.heap n).map fun h => { t with heap := h }.shrunk := by
  unfold erase eraseHeap
  rw [if_neg hn]
  cases eraseLinks turns t.heap n with
  | error e => rfl
  | ok a =>
    show (rebalanceToRoot turns (rerooted a.1 n a.2) a.2 >>= fun h => _) =
      (rebalanceToRoot turns (rerooted a.1 n a.2) a.2).map _
    cases rebalanceToRoot turns (rerooted a.1 n a.2) a.2 <;> rfl

theorem node_outcome (hw : WellFormed lt t u) (hz : z ∈ u.nodes) (hturns : u.nodes.length < turns) :
    Outcome turns t.heap z u.nodes (erasableAt .top u z = true) := by
  obtain ⟨c, l, d, r, rfl⟩ := exists_focus hz
  obtain ⟨N, havl⟩ := hw.avl
  rw [erasableAt_place hw.isTree]
  exact place_outcome hw.isTree havl hw.length_lt hturns

variable [DecidableEq κ] [IsStrictTotalOrder κ fun a b => lt a b = true]

theorem eraseKey_heap (hw : WellFormed lt t u) (hk : k ∈ u.nodes.map (key t))
    (hturns : u.nodes.length < turns) : eraseKey lt avlTree turns t k =
      (eraseHeap turns t.heap (found lt t k u)).map fun h => { t with heap := h }.shrunk := by
  obtain ⟨hmem, -⟩ := found_spec hw.ordered hk
  exact (eraseKey_eq hw.isTree hturns.le).trans (erase_eq (hw.isTree.ne_zero hmem) t)

theorem erasable_of_erasesKey (hw : WellFormed lt t u) (hk : k ∈ u.nodes.map (key t))
    (hturns : u.nodes.length < turns) (herases : ErasesKey lt avlTree (WellFormed lt) turns t u k) :
    erasableAt .top u (found lt t k u) = true := by
  obtain ⟨t', u', hok, hw', -⟩ := herases
  obtain ⟨hmem, -⟩ := found_spec hw.ordered hk
  by_contra hno
  rw [eraseKey_heap hw hk hturns] at hok
  cases hheap : eraseHeap turns t.heap (found lt t k u) with
  | error e =>
    rw [hheap] at hok
    cases hok
  | ok h' =>
    rw [hheap] at hok
    obtain rfl := Except.ok.inj hok
    exact (node_outcome hw hmem hturns).spoilt hno h' u' hheap hw'.isTree hw'.avl

/-- `erase` takes out an entry and leaves an AVL tree just where the node with the key can go. -/
theorem avl_erases_iff (hw : WellFormed lt t u) (hk : k ∈ u.nodes.map (key t))
    (hturns : u.nodes.length < turns) :
    ErasesKey lt avlTree (WellFormed lt) turns t u k ↔ erasableAt .top u (found lt t k u) = true := by
  refine ⟨erasable_of_erasesKey hw hk hturns, fun hyes => ?_⟩
  obtain ⟨hmem, hkey⟩ := found_spec hw.ordered hk
  obtain ⟨h', u', hheap, hu', havl, hnodes⟩ := (node_outcome hw hmem hturns).done hyes
  have hok : eraseKey lt avlTree turns t k = .ok { t with heap := h' }.shrunk := by
    rw [eraseKey_heap hw hk hturns, hheap]
    rfl
  have hsub {x : ℕ} (hx : x ∈ u'.nodes) : x ∈ u.nodes := by
    rw [hnodes] at hx
    exact List.mem_of_mem_erase hx
  have hord : Ordered lt t u'.nodes := hnodes ▸ hw.ordered.sublist List.erase_sublist
  exact ⟨_, u', hok, ⟨hu', havl, hord, fun x hx => hw.address x (hsub hx)⟩, _, hmem, hkey, hnodes,
    fun y _ => rfl⟩

end Kept

/-! ### A few keys -/

/-- The keys 2, 1 and 3 inserted into an empty tree, each at the node of its number. -/
def threeKeys : Tree ℕ ℕ ℕ :=
  ⟨⟨2, fun x => if x = 2 then ⟨1, 3, 0, 2⟩ else ⟨0, 0, 2, 1⟩⟩, fun x => (x, 0), 2⟩

theorem threeKeys_wellFormed : WellFormed natLess threeKeys (node (node nil 1 1 nil) 2 2 (node nil 3 1 nil)) where
  isTree :=
    { root := rfl
      holds := ⟨by decide, rfl, ⟨by decide, rfl, trivial, trivial⟩, by decide, rfl, trivial, trivial⟩
      nodup := by decide }
  avl := by
    have hleaf (x : ℕ) : Avl 1 (node nil x 1 nil) := .node .nil .nil (Nat.zero_le _) (Nat.zero_le _)
    exact ⟨2, .node (hleaf 1) (hleaf 3) (by decide) (by decide)⟩
  ordered := by
    unfold Ordered
    decide
  address := by decide

/-- A leaf beside a leaf is erased as it should be. -/
theorem leaf_key_erased : ErasesKey natLess avlTree (WellFormed natLess) 4 threeKeys
    (node (node nil 1 1 nil) 2 2 (node nil 3 1 nil)) 1 :=
  (avl_erases_iff threeKeys_wellFormed (by decide) (by decide)).mpr (by decide)

/-- The keys 2 and 1 inserted into an empty tree. -/
def twoKeys : Tree ℕ ℕ ℕ :=
  ⟨⟨2, fun x => if x = 2 then ⟨1, 0, 0, 2⟩ else ⟨0, 0, 2, 1⟩⟩, fun x => (x, 0), 1⟩

theorem twoKeys_wellFormed : WellFormed natLess twoKeys (node (node nil 1 1 nil) 2 2 nil) where
  isTree :=
    { root := rfl
      holds := ⟨by decide, rfl, ⟨by decide, rfl, trivial, trivial⟩, trivial⟩
      nodup := by decide }
  avl := ⟨2, .node (.node .nil .nil (by decide) (by decide)) .nil (by decide) (by decide)⟩
  ordered := by
    unfold Ordered
    decide
  address := by decide

def fields (h : Heap ℕ) (x : ℕ) : ℕ × ℕ × ℕ × ℕ := (h.left x, h.right x, h.parent x, h.data x)

/-- The two insertions lead to this tree. Without the leaf 1 the root still stores the height 2, and
the root itself, which has no right child, is not erased at all. -/
theorem height_kept :
    (do
      let t ← SearchTree.insert natLess avlTree 3 (empty 0 (0, 0)) 2 (2, 0)
      let t ← SearchTree.insert natLess avlTree 3 t 1 (1, 0)
      pure (t.heap.root, [1, 2].map (fields t.heap))).toOption =
        some (twoKeys.heap.root, [1, 2].map (fields twoKeys.heap)) ∧
      WellFormed natLess twoKeys (node (node nil 1 1 nil) 2 2 nil) ∧
      [1, 2].map (key twoKeys) = [1, 2] ∧
      (∀ turns, 2 < turns → ¬ ErasesKey natLess avlTree (WellFormed natLess) turns twoKeys
        (node (node nil 1 1 nil) 2 2 nil) 1) ∧
      eraseKey natLess avlTree 3 twoKeys 2 = .error .nullDereference := by
  refine ⟨by decide +kernel, twoKeys_wellFormed, rfl, ?_, rfl⟩
  intro turns hturns herases
  have hno : erasableAt .top (node (node nil 1 1 nil) 2 2 nil) 1 = false := rfl
  exact Bool.false_ne_true (hno.symm.trans (erasable_of_erasesKey twoKeys_wellFormed (by decide) hturns herases))

end MaiFaSp.SearchTree.AVL
