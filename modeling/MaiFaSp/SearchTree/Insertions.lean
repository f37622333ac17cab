import Mathlib.Data.List.Sort
import MaiFaSp.SearchTree.Search

/-!
# Insertion into a search tree (`binary_search_tree.h:3360-3436`)

Both overloads of `insert` end in what `post_insert` of the tag makes of the tree with the new node.
The entries are in order then, the new one behind those that it is not less than.
-/

namespace MaiFaSp.SearchTree

open LinkedTree BinTree
open RedBlack (Follows)

variable {κ υ τ : Type} (lt : κ → κ → Bool) {t t' : Tree κ υ τ} {u u' : BinTree τ} {c : Ctx τ}
  {turns x : ℕ} {e : κ × υ} {impl : BstImpl κ υ τ}

/-- The entries in the order of the nodes. -/
def entries (t : Tree κ υ τ) (u : BinTree τ) : List (κ × υ) := u.nodes.map t.entry

/-- The entries with a new one behind those that it is not less than. -/
def withEntry (e : κ × υ) (es : List (κ × υ)) : List (κ × υ) :=
  es.orderedInsert (fun a b => lt a.1 b.1 = true) e

/-- The insertion of the node `x` ends, in a well-formed tree with the new entry in order. -/
def Inserts (WellFormed : Tree κ υ τ → BinTree τ → Prop) (t : Tree κ υ τ) (u : BinTree τ) (x : ℕ)
    (e : κ × υ) (result : Except TreeFault (Tree κ υ τ)) : Prop :=
  ∃ t' u', result = .ok t' ∧ WellFormed t' u' ∧ u'.nodes.Perm (x :: u.nodes) ∧
    entries t' u' = withEntry lt e (entries t u)

variable {lt}

theorem withEntry_append {xs ys : List (κ × υ)} (hx : ∀ a ∈ xs, lt e.1 a.1 = false)
    (hy : ∀ a ∈ ys, lt e.1 a.1 = true) : withEntry lt e (xs ++ ys) = xs ++ e :: ys := by
  unfold withEntry
  induction xs with
  | nil =>
    cases ys with
    | nil => rfl
    | cons a ys => exact List.orderedInsert_cons_of_le _ ys (hy a (List.mem_cons_self ..))
  | cons a xs ih =>
    have hgo : ¬ lt e.1 a.1 = true := by
      rw [hx a (List.mem_cons_self ..)]
      exact Bool.false_ne_true
    have htail := ih fun b hb => hx b (List.mem_cons_of_mem _ hb)
    exact (List.orderedInsert_of_not_le (fun a b => lt a.1 b.1 = true) _ hgo).trans
      (congrArg (List.cons a) htail)

theorem withEntry_perm (e : κ × υ) (es : List (κ × υ)) : (withEntry lt e es).Perm (e :: es) :=
  List.perm_orderedInsert ..

theorem entries_attached [IsStrictTotalOrder κ fun a b => lt a b = true] {d : τ}
    (hord : Ordered lt t (c.plug nil).nodes) (hc : Follows (fun y => lt e.1 (key t y)) c)
    (hfresh : x ∉ (c.plug (nil : BinTree τ)).nodes) (hentry : t'.entry = Function.update t.entry x e)
    (hnodes : u'.nodes = (c.plug (node nil x d nil)).nodes) :
    entries t' u' = withEntry lt e (entries t (c.plug nil)) := by
  obtain ⟨hbefore, hafter⟩ := hc.splits nil (hord.goLeft e.1)
  rw [Ctx.nodes_plug] at hnodes hfresh
  simp only [nodes_nil, nodes_node, List.nil_append, List.cons_append, List.mem_append, not_or] at hnodes hfresh
  have hkeep {zs : List ℕ} (hz : x ∉ zs) : zs.map t'.entry = zs.map t.entry := by
    refine List.map_congr_left ?_
    intro y hy
    have hyx : y ≠ x := fun he => hz (he ▸ hy)
    rw [hentry, Function.update_of_ne hyx]
  have hnew : t'.entry x = e := by rw [hentry, Function.update_self]
  have hsplit : entries t (c.plug nil) = c.before.map t.entry ++ c.after.map t.entry := by
    unfold entries
    rw [Ctx.nodes_plug, nodes_nil, List.nil_append, List.map_append]
  rw [hsplit, withEntry_append]
  · unfold entries
    rw [hnodes, List.map_append, List.map_cons, hkeep hfresh.1, hkeep hfresh.2, hnew]
  · intro a ha
    obtain ⟨y, hy, rfl⟩ := List.mem_map.mp ha
    exact hbefore y hy
  · intro a ha
    obtain ⟨y, hy, rfl⟩ := List.mem_map.mp ha
    exact hafter y hy

/-- Both overloads of `insert` end as `post_insert` does; the count plays no part in it. -/
theorem insert_spec {P : Tree κ υ τ → Prop}
    (hplace : insertPlace lt t e.1 turns 0 t.heap.root = .ok c.parent) (hgrown : ∀ t', P t' → P t'.grown)
    (hpost : ∀ t₁ : Tree κ υ τ, t₁.heap = (attach lt impl t x c.parent e).heap →
      t₁.entry = (attach lt impl t x c.parent e).entry → ∃ t', impl.postInsert turns t₁ x = .ok t' ∧ P t') :
    (∃ t', SearchTree.insert lt impl turns t x e = .ok t' ∧ P t') ∧
      ∃ t', insertMoved lt impl turns t x e = .ok t' ∧ P t' := by
  unfold SearchTree.insert insertMoved
  rw [hplace]
  by_cases hp : c.parent = 0
  · have hattach : attach lt impl t x c.parent e = (createNode impl t x c.parent e).setRoot x := if_pos hp
    rw [hattach] at hpost
    obtain ⟨t', hok, ht'⟩ := hpost _ rfl rfl
    exact ⟨⟨t', (if_pos hp).trans hok, ht'⟩, t', (if_pos hp).trans hok, ht'⟩
  · have hattach : attach lt impl t x c.parent e =
        linkNode lt (createNode impl t x c.parent e) x c.parent e := if_neg hp
    rw [hattach] at hpost
    constructor
    · obtain ⟨t', hok, ht'⟩ := hpost (linkNode lt (createNode impl t x c.parent e) x c.parent e).grown rfl rfl
      exact ⟨t', (if_neg hp).trans hok, ht'⟩
    · obtain ⟨t', hok, ht'⟩ := hpost _ rfl rfl
      refine ⟨t'.grown, (if_neg hp).trans ?_, hgrown t' ht'⟩
      show (impl.postInsert turns (linkNode lt (createNode impl t x c.parent e) x c.parent e) x >>=
        fun t => pure t.grown) = _
      rw [hok]
      rfl

/-- It is enough to follow `post_insert` from the tree with the new node. -/
theorem insert_inserts [IsStrictTotalOrder κ fun a b => lt a b = true] {WellFormed : Tree κ υ τ → BinTree τ → Prop}
    (ht : IsTree t.heap u) (hord : Ordered lt t u.nodes) (hx : x ≠ 0) (hfresh : x ∉ u.nodes)
    (hturns : u.nodes.length ≤ turns) (hgrown : ∀ t' u', WellFormed t' u' → WellFormed t'.grown u')
    (hpost : ∀ (c : Ctx τ) (t₁ : Tree κ υ τ), u = c.plug nil →
      IsTree t₁.heap (c.plug (node nil x impl.newData nil)) →
      Ordered lt t₁ (c.plug (node nil x impl.newData nil)).nodes →
      ∃ t' u', impl.postInsert turns t₁ x = .ok t' ∧ WellFormed t' u' ∧ t'.entry = t₁.entry ∧
        u'.nodes = (c.plug (node nil x impl.newData nil)).nodes) :
    Inserts lt WellFormed t u x e (SearchTree.insert lt impl turns t x e) ∧
      Inserts lt WellFormed t u x e (insertMoved lt impl turns t x e) := by
  obtain ⟨c, rfl, hc, hplace⟩ := insertPlace_spec lt e.1 ht hturns
  let P (t' : Tree κ υ τ) : Prop := ∃ u', WellFormed t' u' ∧ u'.nodes.Perm (x :: (c.plug (nil : BinTree τ)).nodes) ∧
    entries t' u' = withEntry lt e (entries t (c.plug nil))
  have hend (t₁ : Tree κ υ τ) (hheap : t₁.heap = (attach lt impl t x c.parent e).heap)
      (hentry : t₁.entry = (attach lt impl t x c.parent e).entry) :
      ∃ t', impl.postInsert turns t₁ x = .ok t' ∧ P t' := by
    have ht₁ : IsTree (attach lt impl t x c.parent e).heap (c.plug (node nil x impl.newData nil)) :=
      attach_isTree ht hc hx hfresh
    rw [← hheap] at ht₁
    have hnew := hentry.trans (entry_attach c.parent)
    obtain ⟨t', u', hok, hw, hsame, hnodes⟩ := hpost c t₁ rfl ht₁ (attach_ordered hord hc hfresh hnew)
    refine ⟨t', hok, u', hw, ?_, entries_attached hord hc hfresh (hsame.trans hnew) hnodes⟩
    rw [hnodes, Ctx.nodes_plug, Ctx.nodes_plug]
    exact List.perm_middle
  have hkept (t' : Tree κ υ τ) (h' : P t') : P t'.grown := by
    obtain ⟨u', hw, hrest⟩ := h'
    exact ⟨u', hgrown t' u' hw, hrest⟩
  obtain ⟨⟨t₁, hok₁, u₁, h₁⟩, t₂, hok₂, u₂, h₂⟩ := insert_spec hplace hkept hend
  exact ⟨⟨t₁, u₁, hok₁, h₁⟩, t₂, u₂, hok₂, h₂⟩

/-! ### Many insertions -/

/-- A call of one of the overloads, with the node that the allocator gives. -/
structure Insertion (κ υ : Type) where
  moved : Bool
  node : ℕ
  entry : κ × υ

section Many

def Insertion.apply (lt : κ → κ → Bool) (impl : BstImpl κ υ τ) (turns : ℕ) (t : Tree κ υ τ)
    (i : Insertion κ υ) : Except TreeFault (Tree κ υ τ) :=
  if i.moved then insertMoved lt impl turns t i.node i.entry
  else SearchTree.insert lt impl turns t i.node i.entry

def insertAll (lt : κ → κ → Bool) (impl : BstImpl κ υ τ) (turns : ℕ) (t : Tree κ υ τ)
    (is : List (Insertion κ υ)) : Except TreeFault (Tree κ υ τ) :=
  is.foldlM (Insertion.apply lt impl turns) t

variable {WellFormed : Tree κ υ τ → BinTree τ → Prop} {Address : ℕ → Prop}

theorem insertAll_inserts {is : List (Insertion κ υ)}
    (hstep : ∀ {t u x e}, WellFormed t u → Address x → x ∉ u.nodes → u.nodes.length < turns →
      Inserts lt WellFormed t u x e (SearchTree.insert lt impl turns t x e) ∧
        Inserts lt WellFormed t u x e (insertMoved lt impl turns t x e))
    (hw : WellFormed t u) (hnodes : (is.map Insertion.node).Nodup) (hfresh : ∀ i ∈ is, i.node ∉ u.nodes)
    (haddress : ∀ i ∈ is, Address i.node) (hturns : u.nodes.length + is.length ≤ turns) :
    ∃ t' u', insertAll lt impl turns t is = .ok t' ∧ WellFormed t' u' ∧
      (entries t' u').Perm (entries t u ++ is.map Insertion.entry) := by
  induction is generalizing t u with
  | nil => exact ⟨t, u, rfl, hw, by simp⟩
  | cons i is ih =>
    rw [List.length_cons] at hturns
    rw [List.map_cons, List.nodup_cons] at hnodes
    have hlt : u.nodes.length < turns := by omega
    have hboth := hstep (e := i.entry) hw (haddress i (List.mem_cons_self ..))
      (hfresh i (List.mem_cons_self ..)) hlt
    have hfirst : Inserts lt WellFormed t u i.node i.entry (Insertion.apply lt impl turns t i) := by
      unfold Insertion.apply
      split
      · exact hboth.2
      · exact hboth.1
    obtain ⟨t₁, u₁, hok, hw₁, hperm, hentries⟩ := hfirst
    have hfresh₁ : ∀ j ∈ is, j.node ∉ u₁.nodes := by
      intro j hj hm
      rcases List.mem_cons.mp (hperm.mem_iff.mp hm) with he | hm
      · exact hnodes.1 (he ▸ List.mem_map_of_mem hj)
      · exact hfresh j (List.mem_cons_of_mem _ hj) hm
    have hlen := hperm.length_eq
    rw [List.length_cons] at hlen
    obtain ⟨t', u', hok', hw', hperm'⟩ := ih hw₁ hnodes.2 hfresh₁
      (fun j hj => haddress j (List.mem_cons_of_mem _ hj)) (by omega)
    refine ⟨t', u', ?_, hw', hperm'.trans ?_⟩
    · unfold insertAll at hok' ⊢
      rw [List.foldlM_cons, hok]
      exact hok'
    · rw [hentries, List.map_cons]
      exact ((withEntry_perm ..).append_right _).trans List.perm_middle.symm

theorem entries_increasing [IsStrictTotalOrder κ fun a b => lt a b = true] (hord : Ordered lt t u.nodes)
    (hkeys : ((entries t u).map Prod.fst).Nodup) :
    (entries t u).Pairwise fun a b => lt a.1 b.1 = true := by
  have hne := List.pairwise_map.mp hkeys
  have hle : (entries t u).Pairwise fun a b => lt b.1 a.1 = false := List.pairwise_map.mpr hord
  refine (hle.and hne).imp ?_
  intro a b hab
  rcases trichotomous_of (fun a b => lt a b = true) a.1 b.1 with h | h | h
  · exact h
  · exact absurd h hab.2
  · rw [hab.1] at h
    cases h

end Many

end MaiFaSp.SearchTree
