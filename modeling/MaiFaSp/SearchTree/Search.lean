import MaiFaSp.RedBlack.InOrder
import MaiFaSp.SearchTree.Erase
import Mathlib.Order.Defs.Unbundled

/-!
# The search in the search trees (`binary_search_tree.h:2110-2123, 3362-3436`)

`go_to_node_with_key` and the descent of `insert` are followed on the tree alone: the first node
with the key on the way down, and the missing child where the key belongs. Equal keys are kept, and
a new one comes behind those that are there.
-/

namespace MaiFaSp.SearchTree

open LinkedTree BinTree
open RedBlack (Follows descent descent_plug descent_follows parent_comp_frame link_isTree)

variable {κ υ τ : Type} {lt : κ → κ → Bool} {t : Tree κ υ τ} {u : BinTree τ} {k : κ} {turns : ℕ}

/-! ### The order of the keys -/

section Order

variable [hlt : IsStrictTotalOrder κ fun a b => lt a b = true]

theorem lt_of_lt_of_not_lt {a b : κ} (ha : lt k a = true) (hab : lt b a = false) : lt k b = true := by
  rcases trichotomous_of (fun a b => lt a b = true) k b with hk | rfl | hk
  · exact hk
  · rw [ha] at hab
    cases hab
  · rw [hlt.trans b k a hk ha] at hab
    cases hab

theorem not_lt_of_lt {a b : κ} (ha : lt a b = true) : lt b a = false := by
  cases hba : lt b a with
  | false => rfl
  | true => exact absurd (hlt.trans a b a ha hba) (hlt.irrefl a)

theorem Ordered.goLeft {xs : List ℕ} (hord : Ordered lt t xs) (k : κ) :
    xs.Pairwise fun a b => lt k (key t a) = true → lt k (key t b) = true :=
  hord.imp fun hab ha => lt_of_lt_of_not_lt ha hab

def natLess (a b : ℕ) : Bool := decide (a < b)

instance natLess_order : IsStrictTotalOrder ℕ fun a b => natLess a b = true := by
  simp only [natLess, decide_eq_true_eq]
  infer_instance

end Order

/-! ### The key is looked up -/

section Lookup

variable [DecidableEq κ]

/-- The node that the search for the key ends at; null is 0. -/
def found (lt : κ → κ → Bool) (t : Tree κ υ τ) (k : κ) : BinTree τ → ℕ
  | nil => 0
  | node l x _ r =>
    if k = key t x then x else if lt k (key t x) then found lt t k l else found lt t k r

theorem goToNodeWithKey_eq {p : ℕ} (hu : Holds t.heap p u) (hturns : u.nodes.length ≤ turns) :
    goToNodeWithKey lt t k turns u.root = .ok (found lt t k u) := by
  induction u generalizing p turns with
  | nil => cases turns <;> rfl
  | node l x d r ihl ihr =>
    obtain ⟨hx, hcell, hl, hr⟩ := hu
    rw [nodes_node, List.length_append, List.length_cons] at hturns
    obtain ⟨n, rfl⟩ : ∃ n, turns = n + 1 := ⟨turns - 1, by omega⟩
    rw [root_node, goToNodeWithKey, if_neg hx, found, Heap.left, Heap.right, hcell]
    split
    · rfl
    · split
      · exact ihl hl (by omega)
      · exact ihr hr (by omega)

theorem found_spec [IsStrictTotalOrder κ fun a b => lt a b = true] (hord : Ordered lt t u.nodes)
    (hk : k ∈ u.nodes.map (key t)) : found lt t k u ∈ u.nodes ∧ key t (found lt t k u) = k := by
  induction u with
  | nil => cases hk
  | node l x d r ihl ihr =>
    rw [nodes_node] at hord hk ⊢
    obtain ⟨hl, hr, hlr⟩ := List.pairwise_append.mp hord
    obtain ⟨hxr, hr⟩ := List.pairwise_cons.mp hr
    rw [found]
    split
    case isTrue he => exact ⟨by simp, he.symm⟩
    case isFalse hne =>
      rw [List.map_append, List.map_cons, List.mem_append, List.mem_cons] at hk
      split
      case isTrue hgo =>
        -- the keys behind `x` are not less than its key
        have hkl : k ∈ l.nodes.map (key t) := by
          refine hk.resolve_right (not_or.mpr ⟨hne, fun hm => ?_⟩)
          obtain ⟨y, hy, rfl⟩ := List.mem_map.mp hm
          rw [hxr y hy] at hgo
          cases hgo
        obtain ⟨hmem, hkey⟩ := ihl hl hkl
        exact ⟨List.mem_append_left _ hmem, hkey⟩
      case isFalse hgo =>
        have hkr : k ∈ r.nodes.map (key t) := by
          rcases hk with hm | he | hm
          · obtain ⟨y, hy, rfl⟩ := List.mem_map.mp hm
            have hle := hlr y hy x (List.mem_cons_self ..)
            rcases trichotomous_of (fun a b => lt a b = true) (key t y) (key t x) with h | h | h
            · exact absurd h hgo
            · exact absurd h hne
            · rw [hle] at h
              cases h
          · exact absurd he hne
          · exact hm
        obtain ⟨hmem, hkey⟩ := ihr hr hkr
        exact ⟨List.mem_append_right _ (List.mem_cons_of_mem _ hmem), hkey⟩

/-- `erase` takes out one entry with the key, and leaves the others in order in a tree that is well-formed
again. -/
def ErasesKey (lt : κ → κ → Bool) (impl : BstImpl κ υ τ) (WellFormed : Tree κ υ τ → BinTree τ → Prop)
    (turns : ℕ) (t : Tree κ υ τ) (u : BinTree τ) (k : κ) : Prop :=
  ∃ t' u', eraseKey lt impl turns t k = .ok t' ∧ WellFormed t' u' ∧
    ∃ z ∈ u.nodes, key t z = k ∧ u'.nodes = u.nodes.erase z ∧ ∀ y ∈ u'.nodes, t'.entry y = t.entry y

theorem eraseKey_eq {impl : BstImpl κ υ τ} (ht : IsTree t.heap u) (hturns : u.nodes.length ≤ turns) :
    eraseKey lt impl turns t k = impl.erase turns t (found lt t k u) := by
  have hgo : goToNodeWithKey lt t k turns t.heap.root = .ok (found lt t k u) := by
    rw [ht.root]
    exact goToNodeWithKey_eq ht.holds hturns
  unfold eraseKey
  rw [hgo]
  rfl

end Lookup

/-! ### The place of a new key -/

section Place

variable {c : Ctx τ} {x : ℕ} {e : κ × υ}

theorem insertPlace_below (ht : IsTree t.heap (c.plug u)) (hturns : u.nodes.length ≤ turns) :
    insertPlace lt t k turns c.parent u.root =
      .ok ((descent (fun y => lt k (key t y)) u).comp c).parent := by
  induction u generalizing c turns with
  | nil => cases turns <;> rfl
  | node l x d r ihl ihr =>
    obtain ⟨-, hx, hcell, -⟩ := ht.focus
    rw [nodes_node, List.length_append, List.length_cons] at hturns
    obtain ⟨n, rfl⟩ : ∃ n, turns = n + 1 := ⟨turns - 1, by omega⟩
    rw [root_node, insertPlace, if_neg hx, Heap.left, Heap.right, hcell, descent]
    split
    · have htl : IsTree t.heap ((Ctx.frame .left x d r c).plug l) := ht
      rw [parent_comp_frame]
      exact ihl htl (by omega)
    · have htr : IsTree t.heap ((Ctx.frame .right x d l c).plug r) := ht
      rw [parent_comp_frame]
      exact ihr htr (by omega)

theorem insertPlace_spec (lt : κ → κ → Bool) (k : κ) (ht : IsTree t.heap u) (hturns : u.nodes.length ≤ turns) :
    ∃ c : Ctx τ, u = c.plug nil ∧ Follows (fun y => lt k (key t y)) c ∧
      insertPlace lt t k turns 0 t.heap.root = .ok c.parent := by
  have htop : IsTree t.heap (Ctx.top.plug u) := ht
  refine ⟨_, (descent_plug (fun y => lt k (key t y)) u).symm, descent_follows _ u, ?_⟩
  rw [ht.root]
  refine (insertPlace_below htop hturns).trans ?_
  have hcomp (k : Ctx τ) : (k.comp Ctx.top).parent = k.parent := by cases k <;> rfl
  rw [hcomp]

variable (lt) (impl : BstImpl κ υ τ)

/-- The tree with the new node `x` below `prev`. -/
def attach (t : Tree κ υ τ) (x prev : ℕ) (e : κ × υ) : Tree κ υ τ :=
  if prev = 0 then (createNode impl t x prev e).setRoot x
  else linkNode lt (createNode impl t x prev e) x prev e

variable {lt} {impl}

theorem entry_attach (prev : ℕ) :
    (attach lt impl t x prev e).entry = Function.update t.entry x e := by
  unfold attach
  split <;> rfl

/-- The parent of the new node points to it on the side that the search left at. -/
theorem attach_isTree (ht : IsTree t.heap (c.plug nil)) (hc : Follows (fun y => lt e.1 (key t y)) c)
    (hx : x ≠ 0) (hfresh : x ∉ (c.plug (nil : BinTree τ)).nodes) :
    IsTree (attach lt impl t x c.parent e).heap (c.plug (node nil x impl.newData nil)) := by
  have hcell (y : ℕ) : (t.heap.modify x fun _ => ⟨0, 0, c.parent, impl.newData⟩).cell y =
      if y = x then ⟨0, 0, c.parent, impl.newData⟩ else t.heap.cell y := Heap.cell_modify ..
  cases c with
  | top =>
    refine link_isTree ht hx hfresh rfl ((hcell x).trans (if_pos rfl)) ?_
    intro y hy
    exact (hcell y).trans (if_neg hy)
  | frame s p d sib up =>
    have hp : p ≠ 0 := ht.focus.1.1
    have hpx : p ≠ x := by
      rintro rfl
      exact hfresh (Ctx.mem_nodes_plug.mpr (Or.inr (List.mem_cons_self ..)))
    have hkey : key (createNode impl t x p e) p = key t p :=
      congrArg Prod.fst (Function.update_of_ne hpx ..)
    have hside : (if lt e.1 (key (createNode impl t x p e) p) then Side.left else .right) = s := by
      rw [hkey]
      cases s with
      | left => exact if_pos (hc.1.mpr rfl)
      | right => exact if_neg fun hgo => absurd (hc.1.mp hgo) (by decide)
    have hheap : (attach lt impl t x p e).heap =
        (t.heap.modify x fun _ => ⟨0, 0, p, impl.newData⟩).setChild s p x := by
      unfold attach
      rw [if_neg hp]
      show Heap.setChild _ (if lt e.1 (key (createNode impl t x p e) p) then .left else .right) p x = _
      rw [hside]
      rfl
    show IsTree (attach lt impl t x p e).heap _
    rw [hheap]
    refine link_isTree ht hx hfresh rfl ?_ ?_
    · rw [Heap.cell_setChild, if_neg hpx.symm]
      exact (hcell x).trans (if_pos rfl)
    · intro y hy
      exact set_cell_congr (k := .child s p) ((hcell y).trans (if_neg hy))

theorem attach_ordered [IsStrictTotalOrder κ fun a b => lt a b = true] {d : τ} {t' : Tree κ υ τ}
    (hord : Ordered lt t (c.plug nil).nodes) (hc : Follows (fun y => lt e.1 (key t y)) c)
    (hfresh : x ∉ (c.plug (nil : BinTree τ)).nodes) (hentry : t'.entry = Function.update t.entry x e) :
    Ordered lt t' (c.plug (node nil x d nil)).nodes := by
  obtain ⟨hbefore, hafter⟩ := hc.splits nil (hord.goLeft e.1)
  rw [Ctx.nodes_plug] at hord hfresh ⊢
  simp only [nodes_nil, nodes_node, List.nil_append, List.cons_append, List.mem_append, not_or] at hord hfresh ⊢
  have hkey (y : ℕ) (hy : y ≠ x) : key t' y = key t y := by
    unfold key
    rw [hentry, Function.update_of_ne hy]
  have hnew : key t' x = e.1 := by
    unfold key
    rw [hentry, Function.update_self]
  have hold {y : ℕ} (hy : y ∈ c.before ∨ y ∈ c.after) : key t' y = key t y :=
    hkey y fun he => hy.elim (he ▸ hfresh.1) (he ▸ hfresh.2)
  obtain ⟨hb, ha, hba⟩ := List.pairwise_append.mp hord
  refine List.pairwise_append.mpr ⟨?_, List.pairwise_cons.mpr ⟨?_, ?_⟩, ?_⟩
  · refine hb.imp_of_mem ?_
    intro y z hy hz hyz
    rwa [hold (Or.inl hy), hold (Or.inl hz)]
  · intro y hy
    rw [hnew, hold (Or.inr hy)]
    exact not_lt_of_lt (hafter y hy)
  · refine ha.imp_of_mem ?_
    intro y z hy hz hyz
    rwa [hold (Or.inr hy), hold (Or.inr hz)]
  · intro y hy z hz
    rcases List.mem_cons.mp hz with rfl | hz
    · rw [hnew, hold (Or.inl hy)]
      exact hbefore y hy
    · rw [hold (Or.inl hy), hold (Or.inr hz)]
      exact hba y hy z hz

end Place

end MaiFaSp.SearchTree
