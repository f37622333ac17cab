import MaiFaSp.SearchTree.AVLTree
import MaiFaSp.SearchTree.Insertions
import MaiFaSp.SearchTree.Size

/-!
# Insertion into the AVL tree (`AVL_tree.h:611-629`)

`post_insert` climbs from the new node. At the node that it has reached the subtree is an AVL tree
again, as high as before the insertion or higher by one.
-/

namespace MaiFaSp.SearchTree.AVL

open LinkedTree BinTree

variable {h h' : Heap ℕ} {c : Ctx ℕ} {A B : BinTree ℕ} {s : Side} {a b x q d m n N turns : ℕ}

/-! ### The climb -/

/-- The loop of `post_insert` computes a height before its turn. -/
theorem insertLoop_succ (hx : x ≠ 0) (hturn : turn (recalculateHeight h x) x = .ok (h', q)) :
    insertLoop (turns + 1) h x = insertLoop turns h' q := by
  rw [insertLoop, if_neg hx]
  unfold turn at hturn
  cases hb : rebalance (recalculateHeight h x) x with
  | error e =>
    rw [hb] at hturn
    cases hturn
  | ok y =>
    rw [hb] at hturn
    have hturn : (liftLink (deref y.2) >>= fun _ => pure (climb y.1 y.2)) = .ok (h', q) := hturn
    obtain ⟨_, hy, hclimb⟩ := bind_eq_ok.mp hturn
    have hy0 : y.2 ≠ 0 := deref_eq_ok.mp (liftLink_eq_ok.mp hy)
    have hclimb : climb y.1 y.2 = (h', q) := Except.ok.inj hclimb
    show (if y.2 = 0 then pure y.1 else insertLoop turns (climb y.1 y.2).1 (climb y.1 y.2).2) = _
    rw [if_neg hy0, hclimb]

theorem insertLoop_null (turns : ℕ) (h : Heap ℕ) : insertLoop turns h 0 = .ok h := by
  cases turns <;> rfl

/-- A turn at a node whose children are AVL trees, one of which may have grown to be higher by two. -/
theorem insertTurn_spec (hs : Stands h (c.plug (join s A x d B))) (hA : Avl a A) (hB : Avl b B)
    (hlen : (join s A x d B).nodes.length < 2 ^ 64) (hab : a ≤ b + 1) (hba : b ≤ a + 2)
    (hsib : SiblingSettled c) :
    ∃ h' T r, turn (recalculateHeight h x) x = .ok (h', c.parent) ∧ Stands h' (c.plug T) ∧ Avl r T ∧
      T.nodes = (join s A x d B).nodes ∧ (c = .top → h'.root = T.root) ∧
      max a b ≤ r ∧ r ≤ max a b + 1 ∧ (b ≤ a + 1 → r = max a b + 1) := by
  obtain ⟨d', hd'⟩ : ∃ d', recalculateHeight h x = h.setData x d' := ⟨_, rfl⟩
  have hs' := stands_setData hs d'
  rw [← hd'] at hs'
  have hstored := hA.stored_eq
  rw [(nodes_join_perm ..).length_eq, List.length_cons, List.length_append] at hlen
  have hlow := hB.le_of_length (by omega)
  obtain ⟨h', k, r, hturned, hr⟩ := turn_spec hs' hB (by omega) (by omega) (by omega) hsib
  have hctx := hturned.ctx
  rw [hstored] at hctx hr
  have hnodes : (join s A x d' B).nodes = (join s A x d B).nodes := by cases s <;> rfl
  exact ⟨h', k.plug A, r, hturned.ok, hturned.stands, avl_plug.mpr ⟨a, hA, hctx⟩,
    hturned.nodes.trans hnodes, hturned.root, hr⟩

/-- At the place there was a subtree of height `m`; the child that the climb comes from is `B`. -/
theorem insertLoop_spec (hs : Stands h (c.plug (join s A x d B))) (hA : Avl a A) (hB : Avl b B)
    (hlen : (c.plug (join s A x d B)).nodes.length < 2 ^ 64) (hab : a ≤ b + 1) (hba : b ≤ a + 2)
    (hc : CtxAvl c m N) (hle : max a b ≤ m) (hge : m ≤ max a b + 1) (hheavy : a + 2 ≤ b → m = b)
    (hturns : c.depth < turns) :
    ∃ h' u N', insertLoop turns h x = .ok h' ∧ IsTree h' u ∧ Avl N' u ∧
      u.nodes = (c.plug (join s A x d B)).nodes := by
  induction c generalizing h s A x d B a b m turns with
  | top =>
    obtain ⟨j, rfl⟩ : ∃ j, turns = j + 1 := ⟨turns - 1, by omega⟩
    obtain ⟨h₁, T, r, hok, hs₁, hT, hnodes, hroot, -⟩ := insertTurn_spec hs hA hB hlen hab hba trivial
    rw [insertLoop_succ hs.reads.ne_zero hok]
    exact ⟨h₁, T, r, insertLoop_null j h₁, ⟨hroot rfl, hs₁.holds, hs₁.nodup⟩, hT, hnodes⟩
  | frame s' p dp S up ih =>
    obtain ⟨j, rfl⟩ : ∃ j, turns = j + 1 := ⟨turns - 1, by omega⟩
    have hlen' := hlen
    rw [length_plug] at hlen'
    obtain ⟨h₁, T, r, hok, hs₁, hT, hnodes, -, hr₁, hr₂, hr₃⟩ :=
      insertTurn_spec hs hA hB (by omega) hab hba (siblingSettled hc (by omega))
    rw [insertLoop_succ hs.reads.ne_zero hok]
    cases hc with
    | @frame _ _ _ _ _ e _ hS hme hem hup =>
      -- the subtree at the place has the height `m` or `m + 1` now
      have hlow : m ≤ r := by omega
      have hhigh : r ≤ m + 1 := by omega
      have hs₂ : Stands h₁ (up.plug (join s'.other S p (max m e + 1) T)) := by
        rw [join_other]
        exact hs₁
      have hplug : (up.plug (join s'.other S p (max m e + 1) T)).nodes =
          ((Ctx.frame s' p (max m e + 1) S up).plug (join s A x d B)).nodes := by
        rw [join_other, Ctx.plug, Ctx.nodes_plug, Ctx.nodes_plug]
        cases s' <;> simp only [join, nodes_node, hnodes]
      have hdepth : up.depth < j := by
        have hd : (Ctx.frame s' p (max m e + 1) S up).depth = up.depth + 1 := rfl
        omega
      rw [← hplug] at hlen ⊢
      exact ih hs₂ hS hT hlen (by omega) (by omega) hup (by omega) (by omega) (by omega) hdepth

/-! ### The container -/

section Kept

variable {κ υ : Type} {lt : κ → κ → Bool} [IsStrictTotalOrder κ fun a b => lt a b = true]
  {t : Tree κ υ ℕ} {u : BinTree ℕ} {e : κ × υ}

theorem avl_insertion (hw : WellFormed lt t u) (hx : 0 < x ∧ x < 2 ^ 64) (hfresh : x ∉ u.nodes)
    (hturns : u.nodes.length < turns) :
    Inserts lt (WellFormed lt) t u x e (SearchTree.insert lt avlTree turns t x e) ∧
      Inserts lt (WellFormed lt) t u x e (insertMoved lt avlTree turns t x e) := by
  refine insert_inserts hw.isTree hw.ordered hx.1.ne' hfresh hturns.le
    (fun t' u' h => ⟨h.isTree, h.avl, h.ordered, h.address⟩) ?_
  rintro c t₁ rfl ht₁ hord
  obtain ⟨N, havl⟩ := hw.avl
  obtain ⟨m, hnil, hc⟩ := avl_plug.mp havl
  cases hnil
  have haddress {y : ℕ} (hy : y ∈ (c.plug (node nil x 0 nil)).nodes) : y < 2 ^ 64 := by
    rcases Ctx.mem_nodes_plug.mp hy with hy | hy
    · rw [List.mem_singleton.mp hy]
      exact hx.2
    · exact hw.address y (Ctx.mem_nodes_plug.mpr (Or.inr hy))
  have hs : Stands t₁.heap (c.plug (join .left nil x 0 nil)) := stands_of_isTree ht₁
  have hdepth : c.depth < turns := (SplayTree.depth_le_turns le_rfl).trans_lt hturns
  obtain ⟨h', u', N', hok, ht', havl', hnodes⟩ := insertLoop_spec hs .nil .nil
    (length_lt_of_address ht₁ fun y hy => haddress hy) (by omega) (by omega) hc (by omega) (by omega)
    (by omega) hdepth
  have hpost : postInsert turns t₁ x = .ok { t₁ with heap := h' } := by
    unfold postInsert
    rw [hok]
    rfl
  have hnodes' : u'.nodes = (c.plug (node nil x 0 nil)).nodes := hnodes
  refine ⟨_, u', hpost, ⟨ht', ⟨N', havl'⟩, ?_, ?_⟩, rfl, hnodes'⟩
  · rw [hnodes']
    exact hord
  · intro y hy
    rw [hnodes'] at hy
    exact haddress hy

omit [IsStrictTotalOrder κ fun a b => lt a b = true] in
theorem wellFormed_empty (e : κ × υ) : WellFormed lt (empty 0 e) nil where
  isTree := ⟨rfl, trivial, List.nodup_nil⟩
  avl := ⟨0, .nil⟩
  ordered := List.Pairwise.nil
  address := fun x hx => by cases hx

/-- Insertions of distinct keys into an empty tree leave an AVL tree of just these entries with the keys
rising. -/
theorem avl_insertions (e : κ × υ) (is : List (Insertion κ υ))
    (hkeys : (is.map fun i => i.entry.1).Nodup) (hnodes : (is.map Insertion.node).Nodup)
    (haddress : ∀ i ∈ is, 0 < i.node ∧ i.node < 2 ^ 64) (hturns : is.length ≤ turns) :
    ∃ t u N, insertAll lt avlTree turns (empty 0 e) is = .ok t ∧ IsTree t.heap u ∧ Avl N u ∧
      (entries t u).Perm (is.map Insertion.entry) ∧
      (entries t u).Pairwise fun a b => lt a.1 b.1 = true := by
  have hempty : WellFormed lt (empty 0 e) nil := wellFormed_empty e
  obtain ⟨t, u, hok, hw, hperm⟩ := insertAll_inserts avl_insertion hempty hnodes
    (fun i _ => List.not_mem_nil) haddress (by simpa using hturns)
  obtain ⟨N, havl⟩ := hw.avl
  have hperm' : (entries t u).Perm (is.map Insertion.entry) := hperm
  refine ⟨t, u, N, hok, hw.isTree, havl, hperm', entries_increasing hw.ordered ?_⟩
  rw [(hperm'.map Prod.fst).nodup_iff, List.map_map]
  exact hkeys

end Kept

/-- The keys 1, 2 and 3 make the first rotation. -/
theorem avl_insertions_three :
    ∃ t u N, insertAll natLess avlTree 3 (empty 0 (0, 0))
        [⟨false, 10, (1, 7)⟩, ⟨true, 20, (2, 8)⟩, ⟨false, 30, (3, 9)⟩] = .ok t ∧ IsTree t.heap u ∧ Avl N u ∧
      (entries t u).Perm [(1, 7), (2, 8), (3, 9)] ∧
      (entries t u).Pairwise fun a b => natLess a.1 b.1 = true :=
  avl_insertions (0, 0) _ (by decide) (by decide) (by decide) (by decide)

end MaiFaSp.SearchTree.AVL
