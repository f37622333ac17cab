import MaiFaSp.SearchTree.AVLErase
import MaiFaSp.SearchTree.StaleParent

/-!
# The left child of a removed node (`AVL_tree.h:652-659`)

A node without a right child gives its place to its left one, which keeps its parent pointer to the
removed node. The rebalancing goes up through that node. A rotation at the next node sets the pointer
right; without one no other turn does.
-/

namespace MaiFaSp.SearchTree.AVL

open LinkedTree BinTree

variable {h : Heap ℕ} {c : Ctx ℕ} {A B : BinTree ℕ} {s : Side} {b d x y v turns : ℕ}

/-! ### Turns beside a stale parent pointer -/

/-- The heap with another parent in the node `y`, and the node that is gone on with. -/
def stale (y v : ℕ) (a : Heap ℕ × ℕ) : Heap ℕ × ℕ := (a.1.setParent y v, a.2)

theorem height_setParent (h : Heap ℕ) (x y v : ℕ) : height (h.setParent y v) x = height h x := by
  unfold height Heap.data
  rw [Heap.cell_setParent]
  split
  · rfl
  · split <;> rfl

theorem getBalance_setParent (h : Heap ℕ) (x y v : ℕ) :
    getBalance (h.setParent y v) x = getBalance h x := by
  unfold getBalance
  rw [left_setParent, right_setParent, height_setParent, height_setParent]

theorem recalculateHeight_setParent (h : Heap ℕ) (x y v : ℕ) :
    recalculateHeight (h.setParent y v) x = (recalculateHeight h x).setParent y v := by
  unfold recalculateHeight
  rw [left_setParent, right_setParent, height_setParent, height_setParent]
  exact setData_setParent ..

theorem recalculateChildren_setParent (h : Heap ℕ) (x y v : ℕ) :
    recalculateChildren (h.setParent y v) x = (recalculateChildren h x).setParent y v := by
  unfold recalculateChildren
  dsimp only
  rw [left_setParent, recalculateHeight_setParent]
  split
  · split
    · rw [right_setParent, recalculateHeight_setParent]
      split <;> rfl
    · rw [right_setParent, recalculateHeight_setParent]
      split <;> rfl
  · rfl

theorem climb_setParent (hxy : x ≠ y) (h : Heap ℕ) (v : ℕ) :
    climb (h.setParent y v) x = stale y v (climb h x) := by
  unfold climb
  dsimp only
  rw [recalculateHeight_setParent, parent_setParent hxy]
  split
  · have hp : ({ (recalculateHeight h x).setParent y v with root := x } : Heap ℕ).parent x =
        ({ recalculateHeight h x with root := x } : Heap ℕ).parent x := parent_setParent hxy _ v
    exact Prod.ext rfl hp
  · exact Prod.ext rfl (parent_setParent hxy _ v)

/-- A turn with a rotation that leaves the pointer alone leaves it alone. -/
theorem turn_setParent {h₁ : Heap ℕ} {z : ℕ} (hxy : x ≠ y) (hz : z ≠ y) (hok : rotate h x = .ok (h₁, z))
    (hok' : rotate (h.setParent y v) x = .ok (h₁.setParent y v, z)) :
    turn (h.setParent y v) x = (turn h x).map (stale y v) := by
  unfold turn
  rw [rebalance_eq, rebalance_eq, hok, hok']
  show (liftLink (deref z) >>= fun _ => _) = ((liftLink (deref z) >>= fun _ => _).map _)
  dsimp only
  rw [recalculateHeight_setParent, parent_setParent hxy, recalculateChildren_setParent, climb_setParent hz]
  cases liftLink (deref z) <;> rfl

theorem turn_of_rotate_eq {h' : Heap ℕ} (he : rotate h' x = rotate h x) : turn h' x = turn h x := by
  unfold turn
  rw [rebalance_eq, rebalance_eq, he]

theorem rotate_heavy_setParent {C : BinTree ℕ} {z : ℕ}
    (hs : Stands h (c.plug (join s A x d (join s B z (A.stored + 2) C)))) (hlow : A.stored + 2 < 2 ^ 14)
    (y v : ℕ) : rotate (h.setParent y v) x = .ok (if B.stored ≤ C.stored
      then rotation s (h.setParent y v) x else bigRotation s (h.setParent y v) x) := by
  obtain ⟨hbalance, hne, hnear, hfar⟩ := reads_heavy hs hlow
  rw [← getBalance_setParent h x y v] at hbalance
  rw [← child_setParent h s.other x y v] at hne
  rw [rotate_eq hbalance hne, child_setParent, child_setParent, child_setParent, height_setParent,
    height_setParent, hnear, hfar]

theorem turn_stale (hs : Stands h (c.plug (join s A x d B))) (hB : Avl b B) (hlow : b < 2 ^ 13)
    (hab : A.stored ≤ b + 1) (hba : b ≤ A.stored + 2) (hy : y ∈ A.nodes)
    (hyA : y ≠ A.root ∨ b ≤ A.stored + 1) (v : ℕ) :
    turn (h.setParent y v) x = (turn h x).map (stale y v) := by
  have hb := hB.stored_eq
  obtain ⟨-, hyx, hyB⟩ := lower_separate hs hy
  by_cases hbalanced : b ≤ A.stored + 1
  · obtain ⟨h₁, h₂⟩ := balanced_join hs.below (by omega) (by omega) (by omega) (by omega)
    refine turn_setParent hyx.symm hyx.symm (rotate_balanced h₁ h₂) (rotate_balanced ?_ ?_)
    · rwa [getBalance_setParent]
    · rwa [getBalance_setParent]
  · have hyroot := hyA.resolve_right hbalanced
    obtain rfl : b = A.stored + 2 := by omega
    obtain ⟨D, z, C, rfl⟩ := hB.exists_join s (by omega)
    obtain ⟨m, n, hD, hC, hmn, hnm, hmax, -⟩ := avl_join.mp hB
    have hd := hD.stored_eq
    have hc := hC.stored_eq
    have hrot := rotate_heavy hs (by omega)
    have hrot' := rotate_heavy_setParent hs (by omega) y v
    by_cases houter : m ≤ n
    · rw [if_pos (by omega)] at hrot hrot'
      rw [rotation_beside hs hy hyroot] at hrot'
      have hz : (rotation s h x).2 ≠ y := by
        rw [hs.rotation.1]
        rintro rfl
        exact hyB ((mem_nodes_join ..).mpr (Or.inl rfl))
      exact turn_setParent hyx.symm hz hrot hrot'
    · rw [if_neg (by omega)] at hrot hrot'
      obtain ⟨Q, w, P, rfl⟩ := hD.exists_join s.other (by omega)
      rw [← join_other s C] at hs hyB
      rw [bigRotation_beside hs hy hyroot] at hrot'
      have hw : (bigRotation s h x).2 ≠ y := by
        rw [hs.bigRotation.1]
        rintro rfl
        exact hyB (by simp [mem_nodes_join])
      exact turn_setParent hyx.symm hw hrot hrot'

theorem turn_sets (hs : Stands h (c.plug (join s A x d B))) (hB : Avl (A.stored + 2) B)
    (hlow : A.stored + 2 < 2 ^ 13) (hA : A.root ≠ 0) (v : ℕ) :
    turn (h.setParent A.root v) x = turn h x := by
  obtain ⟨D, z, C, rfl⟩ := hB.exists_join s (by omega)
  obtain ⟨m, n, hD, hC, hmn, hnm, hmax, -⟩ := avl_join.mp hB
  have hd := hD.stored_eq
  have hc := hC.stored_eq
  refine turn_of_rotate_eq ?_
  rw [rotate_heavy hs (by omega), rotate_heavy_setParent hs (by omega)]
  by_cases houter : m ≤ n
  · rw [if_pos (by omega), if_pos (by omega), rotation_sets hs hA]
  · rw [if_neg (by omega), if_neg (by omega)]
    obtain ⟨Q, w, P, rfl⟩ := hD.exists_join s.other (by omega)
    rw [← join_other s C] at hs
    rw [bigRotation_sets hs hA]

/-- No turn on the way up sets the pointer right, unless the first one rotates at its parent. -/
theorem rebalanceToRoot_stale {m n : ℕ} (hs : Stands h (c.plug (join s A x d B))) (hB : Avl b B)
    (hlen : (c.plug (join s A x d B)).nodes.length < 2 ^ 64) (hab : A.stored ≤ b + 1)
    (hba : b ≤ A.stored + 2) (hc : CtxAvl c m n) (hle : max A.stored b + 1 ≤ m)
    (hge : m ≤ max A.stored b + 2) (hheavy : A.stored + 2 ≤ b → m = max A.stored b + 1)
    (hy : y ∈ A.nodes) (hyA : y ≠ A.root ∨ b ≤ A.stored + 1) (v : ℕ) :
    rebalanceToRoot turns (h.setParent y v) x =
      (rebalanceToRoot turns h x).map fun h' => h'.setParent y v := by
  have hx : x ≠ 0 := hs.reads.ne_zero
  induction c generalizing h s A x d B b m turns with
  | top =>
    cases turns with
    | zero =>
      rw [rebalanceToRoot, rebalanceToRoot, if_neg hx, if_neg hx]
      rfl
    | succ j =>
      rw [Ctx.plug, (nodes_join_perm ..).length_eq, List.length_cons, List.length_append] at hlen
      have hlow := hB.le_of_length (by omega)
      obtain ⟨h₁, k, r, hturned, -⟩ := turn_spec hs hB (by omega) hab hba trivial
      rw [rebalanceToRoot_succ j hx, rebalanceToRoot_succ j hx,
        turn_stale hs hB (by omega) hab hba hy hyA, hturned.ok]
      show rebalanceToRoot j (h₁.setParent y v) 0 = (rebalanceToRoot j h₁ 0).map _
      rw [rebalanceToRoot_null, rebalanceToRoot_null]
      rfl
  | frame s' p dp S up ih =>
    cases turns with
    | zero =>
      rw [rebalanceToRoot, rebalanceToRoot, if_neg hx, if_neg hx]
      rfl
    | succ j =>
      have hwhole := hlen
      rw [length_plug, (nodes_join_perm ..).length_eq, List.length_cons, List.length_append] at hlen
      have hlow := hB.le_of_length (by omega)
      obtain ⟨h₁, k, r, hturned, hr, hr', hr''⟩ :=
        turn_spec hs hB (by omega) hab hba (siblingSettled hc (by omega))
      have hstored := hturned.ctx.stored_plug rfl
      rw [rebalanceToRoot_succ j hx, rebalanceToRoot_succ j hx,
        turn_stale hs hB (by omega) hab hba hy hyA, hturned.ok]
      show rebalanceToRoot j (h₁.setParent y v) p = (rebalanceToRoot j h₁ p).map _
      cases hc with
      | @frame _ _ _ _ _ e _ hS hme hem hup =>
        have hs₁ : Stands h₁ (up.plug (join s' (k.plug A) p (max m e + 1) S)) := hturned.stands
        have hnodes : (up.plug (join s' (k.plug A) p (max m e + 1) S)).nodes =
            ((Ctx.frame s' p (max m e + 1) S up).plug (join s A x d B)).nodes := hturned.nodes_plug
        rw [← hnodes] at hwhole
        have hroot : y ≠ (k.plug A).root := by
          obtain ⟨-, -, hnd, -⟩ := nodup_join.mp hs₁.isTree.separate.1
          cases k with
          | top =>
            rw [Ctx.plug] at hstored
            omega
          | frame sk pk dk Sk upk =>
            rintro rfl
            have hdis := (List.nodup_append.mp ((Ctx.perm_plug _ A).nodup_iff.mp hnd)).2.2
            exact hdis _ hy _ root_frame_mem rfl
        have hmem : y ∈ (k.plug A).nodes := Ctx.mem_nodes_plug.mpr (Or.inl hy)
        exact ih hs₁ hS hwhole (by omega) (by omega) hup (by omega) (by omega) (fun _ => by omega) hmem
          (Or.inl hroot) hs₁.reads.ne_zero

/-! ### At most a left child -/

section Few

variable {l S : BinTree ℕ} {up : Ctx ℕ} {n p dp N : ℕ}

/-- A turn at a node with the right height and balance only goes on with its parent. -/
theorem turn_still (hx : x ≠ 0) (hrot : rotate h x = .ok (h, x)) (hset : recalculateHeight h x = h)
    (hchildren : recalculateChildren h (h.parent x) = h) (hparent : h.parent x ≠ 0) :
    turn h x = .ok (h, h.parent x) := by
  have hclimb : climb h x = (h, h.parent x) := by
    unfold climb
    dsimp only
    rw [hset, if_neg hparent]
  unfold turn
  rw [rebalance_eq, hrot]
  show (liftLink (deref x) >>= fun _ => pure (climb (recalculateChildren (recalculateHeight h x)
    ((recalculateHeight h x).parent x)) x)) = _
  rw [hset, hchildren, hclimb, deref_of_ne hx]
  rfl

theorem root_outcome (ht : IsTree h ((Ctx.top : Ctx ℕ).plug (node l n d nil))) (xs : List ℕ) :
    Outcome turns h n xs False := by
  refine ⟨fun hno => hno.elim, fun _ h' u' hok _ => ?_⟩
  unfold eraseHeap at hok
  rw [eraseLinks_noRight ht] at hok
  cases hok

theorem noLeft_outcome {r : BinTree ℕ} (ht : IsTree h (c.plug (node nil n d r))) (hr : r ≠ nil)
    (xs : List ℕ) : Outcome turns h n xs False := by
  refine ⟨fun hno => hno.elim, fun _ h' u' hok _ => ?_⟩
  unfold eraseHeap at hok
  rw [eraseLinks_noLeft ht hr] at hok
  cases hok

/-- No height above a leaf is computed again. -/
theorem leaf_outcome (ht : IsTree h ((Ctx.frame s p dp S up).plug (node nil n d nil)))
    (havl : Avl N ((Ctx.frame s p dp S up).plug (node nil n d nil))) :
    Outcome turns h n ((Ctx.frame s p dp S up).plug (node nil n d nil)).nodes (S.stored = 1) := by
  have hp : p ≠ 0 := ht.focus.1.1
  have hlinks : eraseLinks turns h n = .ok (h.set (Ctx.frame s p dp S up).link 0, 0) :=
    (eraseLinks_noRight ht).trans (if_neg hp)
  have hsub : ∀ y ∈ (nil : BinTree ℕ).nodes, y ∈ (nil : BinTree ℕ).nodes ∨ y ∈ (nil : BinTree ℕ).nodes :=
    fun y hy => nomatch hy
  have hrerooted : rerooted (h.set (Ctx.frame s p dp S up).link 0) n 0 =
      h.set (Ctx.frame s p dp S up).link 0 := rerooted_promoted (X := nil) ht hsub
  have hok : eraseHeap turns h n = .ok (h.set (Ctx.frame s p dp S up).link 0) := by
    unfold eraseHeap
    rw [hlinks]
    show rebalanceToRoot turns (rerooted (h.set (Ctx.frame s p dp S up).link 0) n 0) 0 = _
    rw [hrerooted, rebalanceToRoot_null]
  have ht' : IsTree (h.set (Ctx.frame s p dp S up).link 0) ((Ctx.frame s p dp S up).plug nil) :=
    promoted_isTree (X := nil) (p := 0) ht trivial List.nodup_nil fun y hy => (nomatch hy)
  obtain ⟨a, hnode, hctx⟩ := avl_plug.mp havl
  obtain ⟨e, f, hl, hr, -, -, hd, rfl⟩ := (avl_join (s := .left)).mp hnode
  cases hl
  cases hr
  subst hd
  cases hctx with
  | @frame _ _ _ _ _ sb _ hS hab hba hup =>
    have hsb := hS.stored_eq
    constructor
    · intro hS1
      have hheight : max (max 0 0 + 1) sb + 1 = max 0 sb + 1 := by omega
      rw [hheight] at hup
      refine ⟨_, _, hok, ht', ⟨N, avl_plug.mpr ⟨0, .nil, ?_⟩⟩, ?_⟩
      · rw [hheight]
        exact .frame hS (by omega) (by omega) hup
      · rw [erase_nodes_plug ht.nodup, Ctx.nodes_plug]
        simp
    · rintro hbad h' u' hok' hu' ⟨N', hN'⟩
      obtain rfl := Except.ok.inj (hok.symm.trans hok')
      obtain rfl := ht'.unique hu'
      have hN' : Avl N' (up.plug (join s nil p (max (max 0 0 + 1) sb + 1) S)) := hN'
      obtain ⟨_, hframe, -⟩ := avl_plug.mp hN'
      obtain ⟨x, y, hx, hy, -, hyx, hheight, -⟩ := avl_join.mp hframe
      cases hx
      have hsy := hy.stored_eq
      omega

theorem nodes_of_children {h' : Heap ℕ} {t u : BinTree ℕ} {q : ℕ} (ht : Holds h p t) (hu : Holds h' q u)
    (hchild : ∀ s x, h'.child s x = h.child s x) (hroot : u.root = t.root) : u.nodes = t.nodes := by
  induction t generalizing p q u with
  | nil => rw [eq_nil_of_root hu hroot]
  | node l x d r ihl ihr =>
    cases u with
    | nil => exact absurd hroot.symm ht.1
    | node l' x' d' r' =>
      obtain rfl : x' = x := hroot
      obtain ⟨-, hcell, hl, hr⟩ := ht
      obtain ⟨-, hcell', hl', hr'⟩ := hu
      have hleft : l'.root = l.root := by
        have hc := hchild .left x'
        rwa [Heap.child, Heap.child, hcell, hcell'] at hc
      have hright : r'.root = r.root := by
        have hc := hchild .right x'
        rwa [Heap.child, Heap.child, hcell, hcell'] at hc
      rw [nodes_node, nodes_node, ihl hl hl' hleft, ihr hr hr' hright]

theorem not_isTree_setParent {t u : BinTree ℕ} (ht : IsTree h t) (hy : y ∈ t.nodes) (hv0 : v ≠ 0)
    (hv : v ∉ t.nodes) : ¬ IsTree (h.setParent y v) u := by
  intro hu
  have hroot : u.root = t.root := hu.root.symm.trans ht.root
  have hnodes := nodes_of_children ht.holds hu.holds (fun s x => child_setParent h s x y v) hroot
  have hparent : (h.setParent y v).parent y = v := by
    rw [Heap.parent, Heap.cell_setParent, if_pos rfl]
    rfl
  rcases hu.parent_links (hnodes ▸ hy) with ⟨h0, -⟩ | ⟨hmem, -⟩
  · exact hv0 (hparent.symm.trans h0)
  · rw [hparent, hnodes] at hmem
    exact hv hmem

/-- The links after the left child `y` came to the place of `n`, with the parent of `y` set right. -/
theorem leftChild_isTree (ht : IsTree h (c.plug (node (node nil y d nil) n x nil))) :
    IsTree ((h.set c.link y).setParent y c.parent) (c.plug (node nil y d nil)) ∧
      ((h.set c.link y).setParent y c.parent).setParent y n = h.set c.link y ∧
      Holds (h.set c.link y) c.parent (node (node nil y d nil) n x nil) := by
  obtain ⟨-, hn, hcelln, ⟨hy, hcelly, -⟩, -⟩ := ht.focus
  have hsep := ht.separate.2.2
  have hyc : y ∉ c.nodes := hsep y (by simp)
  refine ⟨?_, ?_, ?_⟩
  · have hpromoted : IsTree (promoted h c (node nil y d nil)) (c.plug (node nil y d nil)) :=
      promoted_isTree ht ⟨hy, hcelly, trivial, trivial⟩ (List.nodup_singleton y) fun z hz => by
        simp only [nodes_node, List.mem_append, List.mem_cons] at hz ⊢
        tauto
    unfold promoted setParentOf at hpromoted
    rw [root_node, if_pos hy] at hpromoted
    exact hpromoted
  · refine heap_eq_of_cells rfl fun z => ?_
    rw [Heap.cell_setParent, Heap.cell_setParent]
    split
    case isTrue hz =>
      rw [hz, set_cell_of_notMem hyc, hcelly]
      rfl
    case isFalse => rfl
  · exact ht.focus.2.congr fun z hz => set_cell_of_notMem (hsep z hz)

/-- The rebalancing goes through the left child and the removed node without a change. -/
theorem rebalance_through (hs : Stands ((h.set (Ctx.frame s p dp S up).link y).setParent y p)
      (up.plug (join s (node nil y 1 nil) p dp S))) (hS : Settled S)
    (hstale : ((h.set (Ctx.frame s p dp S up).link y).setParent y p).setParent y n =
      h.set (Ctx.frame s p dp S up).link y)
    (hnode : Holds (h.set (Ctx.frame s p dp S up).link y) p (node (node nil y 1 nil) n 2 nil)) (j : ℕ) :
    rebalanceToRoot (j + 2) (h.set (Ctx.frame s p dp S up).link y) y =
      rebalanceToRoot j (h.set (Ctx.frame s p dp S up).link y) p := by
  have hp : p ≠ 0 := hs.reads.ne_zero
  have hchildren : recalculateChildren (h.set (Ctx.frame s p dp S up).link y) p =
      h.set (Ctx.frame s p dp S up).link y := by
    have hkeep := recalculateChildren_settled hs.below (show Settled (node nil y 1 nil) from
      ⟨rfl, Nat.two_pow_pos 14, Nat.two_pow_pos 14⟩) hS
    rw [← hstale, recalculateChildren_setParent]
    exact congrArg (fun h => h.setParent y n) hkeep
  generalize h.set (Ctx.frame s p dp S up).link y = h₁ at *
  obtain ⟨hn, hcelln, hy, -⟩ := hnode
  have hzero : (nil : BinTree ℕ).stored < 2 ^ 14 := Nat.two_pow_pos 14
  have hone : (node nil y 1 nil).stored < 2 ^ 14 := show 1 < 2 ^ 14 by decide
  have hleaf : Settled (node nil y 1 nil) := ⟨rfl, hzero, hzero⟩
  have hsettled : Settled (node (node nil y 1 nil) n 2 nil) := ⟨rfl, hone, hzero⟩
  have hparenty : h₁.parent y = n := by rw [Heap.parent, hy.2.1]
  have hparentn : h₁.parent n = p := by rw [Heap.parent, hcelln]
  have hjn : Holds h₁ p (join .left (node nil y 1 nil) n 2 nil) := ⟨hn, hcelln, hy, trivial⟩
  have hjy : Holds h₁ n (join .left nil y 1 nil) := hy
  have hfirst : turn h₁ y = .ok (h₁, n) := by
    obtain ⟨b₁, b₂⟩ := balanced_join hjy hzero hzero (Nat.le_succ _) (Nat.le_succ _)
    have hturn := turn_still hy.1 (rotate_balanced b₁ b₂)
      (recalculateHeight_settled (t := node nil y 1 nil) hy hleaf hy.1)
      (by rw [hparenty]; exact recalculateChildren_settled hjn hleaf trivial) (by rw [hparenty]; exact hn)
    rw [hturn, hparenty]
  have hsecond : turn h₁ n = .ok (h₁, p) := by
    obtain ⟨b₁, b₂⟩ := balanced_join hjn hone hzero (Nat.le_refl 1) (Nat.zero_le _)
    have hturn := turn_still hn (rotate_balanced b₁ b₂)
      (recalculateHeight_settled (t := node (node nil y 1 nil) n 2 nil) hjn hsettled hn)
      (by rw [hparentn]; exact hchildren) (by rw [hparentn]; exact hp)
    rw [hturn, hparentn]
  rw [rebalanceToRoot_succ _ hy.1, hfirst, ok_bind, rebalanceToRoot_succ _ hn, hsecond, ok_bind]

theorem eraseHeap_left (ht : IsTree h ((Ctx.frame s p dp S up).plug (node (node nil y 1 nil) n 2 nil)))
    (hS : Settled S) (j : ℕ) : eraseHeap (j + 2) h n =
      rebalanceToRoot j (((h.set (Ctx.frame s p dp S up).link y).setParent y p).setParent y n) p := by
  have hp : p ≠ 0 := ht.focus.1.1
  have hlinks : eraseLinks (j + 2) h n = .ok (h.set (Ctx.frame s p dp S up).link y, y) :=
    (eraseLinks_noRight ht).trans (if_neg hp)
  obtain ⟨ht', hstale, hholds⟩ := leftChild_isTree ht
  have hparent : (h.set (Ctx.frame s p dp S up).link y).parent n = p := by
    rw [Heap.parent, hholds.2.1]
    rfl
  have hrerooted : rerooted (h.set (Ctx.frame s p dp S up).link y) n y =
      h.set (Ctx.frame s p dp S up).link y := by
    unfold rerooted
    rw [hparent, if_neg hp]
  have hstale' : ((h.set (Ctx.frame s p dp S up).link y).setParent y p).setParent y n =
      h.set (Ctx.frame s p dp S up).link y := hstale
  unfold eraseHeap
  rw [hlinks, hstale']
  show rebalanceToRoot (j + 2) (rerooted (h.set (Ctx.frame s p dp S up).link y) n y) y = _
  rw [hrerooted]
  exact rebalance_through (stands_of_isTree ht') hS hstale hholds j

/-- The left child's height is seen. The pointer of the child is set right only by a rotation at its
parent. -/
theorem leaf_below_outcome
    (ht : IsTree h ((Ctx.frame s p dp S up).plug (node (node nil y 1 nil) n 2 nil)))
    (hctx : CtxAvl (.frame s p dp S up) 2 N)
    (hlen : ((Ctx.frame s p dp S up).plug (node (node nil y 1 nil) n 2 nil)).nodes.length < 2 ^ 64)
    (hturns : ((Ctx.frame s p dp S up).plug (node (node nil y 1 nil) n 2 nil)).nodes.length < turns) :
    Outcome turns h n ((Ctx.frame s p dp S up).plug (node (node nil y 1 nil) n 2 nil)).nodes
      (S.stored = 3) := by
  obtain ⟨ht', -, -⟩ := leftChild_isTree ht
  have hnodes : ((Ctx.frame s p dp S up).plug (node nil y 1 nil)).nodes =
      ((Ctx.frame s p dp S up).plug (node (node nil y 1 nil) n 2 nil)).nodes.erase n := by
    rw [erase_nodes_plug ht.nodup, Ctx.nodes_plug]
    simp
  have hn : n ∈ ((Ctx.frame s p dp S up).plug (node (node nil y 1 nil) n 2 nil)).nodes :=
    Ctx.mem_nodes_plug.mpr (Or.inl (by simp))
  have hshort := congrArg List.length hnodes
  rw [List.length_erase_of_mem hn] at hshort
  have hpos := List.length_pos_of_mem hn
  obtain ⟨j, rfl⟩ : ∃ j, turns = j + 2 := ⟨turns - 2, by omega⟩
  have hdepth : (Ctx.frame s p dp S up).depth < j + 1 :=
    depth_lt (show ((Ctx.frame s p dp S up).plug (node nil y 1 nil)).nodes.length < j + 1 by omega)
  have hs : Stands ((h.set (Ctx.frame s p dp S up).link y).setParent y p)
      (up.plug (join s (node nil y 1 nil) p dp S)) := stands_of_isTree ht'
  have hlen' : (up.plug (join s (node nil y 1 nil) p dp S)).nodes.length < 2 ^ 64 :=
    show ((Ctx.frame s p dp S up).plug (node nil y 1 nil)).nodes.length < 2 ^ 64 by omega
  have hone : (node nil y 1 nil).stored = 1 := rfl
  cases hctx with
  | @frame _ _ _ _ _ sb _ hS hab hba hup =>
    have hsb := hS.stored_eq
    have hdepth : up.depth < j := Nat.lt_of_succ_lt_succ hdepth
    obtain ⟨h', k, n', hok, hu, hk, hkeep⟩ := rebalanceToRoot_spec hs hS hlen' (by omega) (by omega) hup
      (by omega) (by omega) (fun _ => by omega) hdepth
    have herase := eraseHeap_left ht (settled_of_avl hS (by omega)) j
    constructor
    · intro hS3
      obtain rfl : sb = 3 := by omega
      have hrun : rebalanceToRoot j
          (((h.set (Ctx.frame s p (max 2 3 + 1) S up).link y).setParent y p).setParent y n) p =
            rebalanceToRoot j ((h.set (Ctx.frame s p (max 2 3 + 1) S up).link y).setParent y p) p := by
        obtain ⟨i, rfl⟩ : ∃ i, j = i + 1 := ⟨j - 1, by omega⟩
        have hy : (node nil y 1 nil).root ≠ 0 := ht.focus.2.2.2.1.1
        have hturn := turn_sets hs hS (show 1 + 2 < 2 ^ 13 by decide) hy n
        rw [root_node] at hturn
        rw [rebalanceToRoot_succ i hs.reads.ne_zero, rebalanceToRoot_succ i hs.reads.ne_zero, hturn]
      rw [hrun, hok] at herase
      exact ⟨h', _, herase, hu, ⟨n', avl_plug.mpr ⟨1, .node .nil .nil (by decide) (by decide), hk⟩⟩,
        hkeep.trans hnodes⟩
    · rintro hbad h₁ u₁ hok₁ hu₁ -
      have hy : y ∈ (node nil y 1 nil).nodes := by simp
      rw [rebalanceToRoot_stale hs hS hlen' (by omega) (by omega) hup (by omega) (by omega)
        (fun _ => by omega) hy (Or.inr (by omega)) n, hok, hok₁] at herase
      obtain rfl := Except.ok.inj herase
      have hgone : n ∉ (k.plug (node nil y 1 nil)).nodes := by
        rw [hkeep]
        show n ∉ ((Ctx.frame s p (max 2 sb + 1) S up).plug (node nil y 1 nil)).nodes
        rw [hnodes]
        exact fun hmem => (ht.nodup.mem_erase_iff.mp hmem).1 rfl
      exact not_isTree_setParent hu (Ctx.mem_nodes_plug.mpr (Or.inl hy)) (ht.ne_zero hn) hgone hu₁

theorem left_outcome (ht : IsTree h ((Ctx.frame s p dp S up).plug (node l n d nil))) (hl : l ≠ nil)
    (havl : Avl N ((Ctx.frame s p dp S up).plug (node l n d nil)))
    (hlen : ((Ctx.frame s p dp S up).plug (node l n d nil)).nodes.length < 2 ^ 64)
    (hturns : ((Ctx.frame s p dp S up).plug (node l n d nil)).nodes.length < turns) :
    Outcome turns h n ((Ctx.frame s p dp S up).plug (node l n d nil)).nodes (S.stored = 3) := by
  obtain ⟨a, hnode, hctx⟩ := avl_plug.mp havl
  obtain ⟨e, f, hle, hr, hef, -, hd, rfl⟩ := (avl_join (s := .left)).mp hnode
  cases hr
  have he : e ≠ 0 := by
    rintro rfl
    exact hl (eq_nil_of_avl hle)
  obtain rfl : e = 1 := by omega
  obtain ⟨y, rfl⟩ := hle.eq_leaf
  obtain rfl : a = 2 := hd
  exact leaf_below_outcome ht hctx hlen hturns

end Few

end MaiFaSp.SearchTree.AVL
