import Mathlib.Algebra.Group.Nat.Even
import MaiFaSp.SearchTree.Erase

/-!
# The splay tree (`splay_tree.h`)

`splay` brings a node to the root, two levels a turn; the rotations work on copies of
the pointers, so the root pointer follows only the last single rotation and is set by
the callers. `erase` splays the node and joins its two subtrees. It joins them rightly only
where the left one needs no splaying, and it never counts.
-/

namespace MaiFaSp.SearchTree.SplayTree

open LinkedTree BinTree

variable {τ : Type}

/-! ### The code -/

/-- A turn of the loop in `splay`, at a node with a parent. -/
def splayTurn (h : Heap τ) (x : ℕ) : Heap τ :=
  let p := h.parent x
  let g := h.parent p
  if g = 0 then
    let (h, p) := if x = h.left p then rightRotation h p else leftRotation h p
    if h.parent p = 0 then { h with root := p } else h
  else
    let xIsLeft : Bool := x = h.left p
    let pIsLeft : Bool := p = h.left g
    if xIsLeft = pIsLeft then
      if xIsLeft then (doubleRotation .right h g).1 else (doubleRotation .left h g).1
    else if !xIsLeft && pIsLeft then (bigRotation .right h g).1
    else (bigRotation .left h g).1

def splayLoop : ℕ → Heap τ → ℕ → Except TreeFault (Heap τ)
  | 0, h, x => if h.parent x = 0 then pure h else throw .diverged
  | n + 1, h, x => if h.parent x = 0 then pure h else splayLoop n (splayTurn h x) x

def splay (turns : ℕ) (h : Heap τ) (x : ℕ) : Except TreeFault (Heap τ) :=
  if x = 0 then pure h else splayLoop turns h x

/-- The second result is what `merge` returns. -/
def merge (turns : ℕ) (h : Heap τ) (t₁ t₂ : ℕ) : Except TreeFault (Heap τ × ℕ) :=
  if t₁ = 0 then pure (h, t₂)
  else if t₂ = 0 then pure (h, t₁)
  else do
    let h := (h.setParent t₁ 0).setParent t₂ 0
    let mx ← rightmost h turns t₁
    let h ← splay turns h mx
    pure ((h.setChild .right mx t₂).setParent t₂ mx, t₁)

section Container

variable {κ υ : Type}

/-- `bst_impl<SPL_TAG>::post_insert` -/
def postInsert (turns : ℕ) (t : Tree κ υ τ) (x : ℕ) : Except TreeFault (Tree κ υ τ) := do
  let h ← splay turns t.heap x
  pure ({ t with heap := h }.setRoot x)

/-- `bst_impl<SPL_TAG>::erase` -/
def erase (turns : ℕ) (t : Tree κ υ τ) (n : ℕ) : Except TreeFault (Tree κ υ τ) := do
  let h ← splay turns t.heap n
  liftLink (deref n)
  let (h, root) ← merge turns h (h.left n) (h.right n)
  pure { t with heap := { h with root := root } }

/-- The tag of `splay_tree`. -/
def splayTree : BstImpl κ υ Unit := ⟨(), postInsert, erase⟩

end Container

/-! ### Splaying a tree -/

/-- The two subtrees of a node after it was splayed to the root, from its own subtrees `l` and `r`. -/
def lifted : Ctx τ → BinTree τ → BinTree τ → BinTree τ × BinTree τ
  | .top, l, r => (l, r)
  | .frame .left p dp C .top, l, r => (l, node r p dp C)
  | .frame .right p dp C .top, l, r => (node C p dp l, r)
  | .frame .left p dp C (.frame .left g dg D up), l, r => lifted up l (node r p dp (node C g dg D))
  | .frame .right p dp C (.frame .right g dg D up), l, r => lifted up (node (node D g dg C) p dp l) r
  | .frame .right p dp C (.frame .left g dg D up), l, r => lifted up (node C p dp l) (node r g dg D)
  | .frame .left p dp C (.frame .right g dg D up), l, r => lifted up (node D g dg l) (node r p dp C)

variable {h : Heap τ} {c up : Ctx τ} {l r t C D : BinTree τ} {s s' : Side} {x p g turns : ℕ}
  {d dp dg : τ}

theorem nodes_lifted (c : Ctx τ) (l r : BinTree τ) (x : ℕ) (d : τ) :
    (node (lifted c l r).1 x d (lifted c l r).2).nodes = (c.plug (node l x d r)).nodes := by
  fun_induction lifted c l r with
  | case1 l r => rfl
  | case2 p dp C l r => simp [Ctx.plug, join]
  | case3 p dp C l r => simp [Ctx.plug, join]
  | case4 p dp C g dg D up l r ih => simp [ih, Ctx.plug, join, Ctx.nodes_plug]
  | case5 p dp C g dg D up l r ih => simp [ih, Ctx.plug, join, Ctx.nodes_plug]
  | case6 p dp C g dg D up l r ih => simp [ih, Ctx.plug, join, Ctx.nodes_plug]
  | case7 p dp C g dg D up l r ih => simp [ih, Ctx.plug, join, Ctx.nodes_plug]

theorem eq_left_iff (hs : Stands h ((Ctx.frame s p dp C up).plug t)) (ht : t.root ≠ 0) :
    t.root = h.left p ↔ s = .left := by
  have hs' : Stands h (up.plug (join s t p dp C)) := hs
  have hr := hs'.reads
  cases s with
  | left => exact iff_of_true hr.child.symm rfl
  | right =>
    refine iff_of_false ?_ (by decide)
    intro he
    exact hs'.isTree.child_ne ht (he.trans hr.other)

theorem parent_eq (hs : Stands h (c.plug t)) (ht : t.root ≠ 0) : h.parent t.root = c.parent :=
  holds_parent hs.below ht

theorem stands_reroot {a : Heap τ × ℕ} (hs : Stands a.1 t) :
    Stands (if a.1.parent a.2 = 0 then { a.1 with root := a.2 } else a.1) t := by
  split
  · exact hs.congr fun _ _ => rfl
  · exact hs

theorem bigRotation_root (h : Heap τ) (s : Side) (a : ℕ) : (bigRotation s h a).1.root = h.root := by
  have hsmall (k : Ref) (hk : k ≠ .root) : (smallRotation s.other h k).root = h.root := by
    cases k with
    | root => exact absurd rfl hk
    | child s' y => exact rotation_root h s.other _
  unfold bigRotation
  split
  · rfl
  · rw [rotation_root, hsmall _ (fun he => by cases he)]

theorem doubleRotation_root (h : Heap τ) (s : Side) (a : ℕ) : (doubleRotation s h a).1.root = h.root := by
  unfold doubleRotation
  split
  · rfl
  · show (rotation s (rotation s h a).1 (rotation s h a).2).1.root = h.root
    rw [rotation_root, rotation_root]

theorem splayTurn_root_two (hg : h.parent (h.parent x) ≠ 0) : (splayTurn h x).root = h.root := by
  unfold splayTurn
  dsimp only
  rw [if_neg hg]
  split
  · split
    · exact doubleRotation_root ..
    · exact doubleRotation_root ..
  · split
    · exact bigRotation_root ..
    · exact bigRotation_root ..

theorem root_reroot {a : Heap τ × ℕ} (ha : a.1.parent a.2 = 0) :
    (if a.1.parent a.2 = 0 then { a.1 with root := a.2 } else a.1).root = a.2 := by
  rw [if_pos ha]

/-- One rotation below the root, which sets the root pointer. -/
theorem splayTurn_one (hs : Stands h ((Ctx.frame s p dp C .top).plug (node l x d r))) :
    Stands (splayTurn h x)
      (node (lifted (.frame s p dp C .top) l r).1 x d (lifted (.frame s p dp C .top) l r).2) ∧
      (splayTurn h x).root = x := by
  have hx : x ≠ 0 := hs.below.1
  have hleft : x = h.left p ↔ s = .left := eq_left_iff hs hx
  have hparent : h.parent x = p := parent_eq hs hx
  have hs' : Stands h (Ctx.top.plug (join s (node l x d r) p dp C)) := hs
  have hp : h.parent p = 0 := hs'.reads.parent
  unfold splayTurn
  rw [hparent]
  dsimp only
  rw [hp, if_pos rfl]
  cases s with
  | left =>
    have hrot : Stands h (Ctx.top.plug (join .right C p dp (join .right r x d l))) := hs
    obtain ⟨hsnd, hstands⟩ := hrot.rotation
    have hsnd : (rightRotation h p).2 = x := hsnd
    have htop : (rightRotation h p).1.parent (rightRotation h p).2 = 0 := by
      rw [hsnd]
      exact hstands.reads.parent
    rw [if_pos (hleft.mpr rfl)]
    exact ⟨stands_reroot hstands, (root_reroot htop).trans hsnd⟩
  | right =>
    have hrot : Stands h (Ctx.top.plug (join .left C p dp (join .left l x d r))) := hs
    obtain ⟨hsnd, hstands⟩ := hrot.rotation
    have hsnd : (leftRotation h p).2 = x := hsnd
    have htop : (leftRotation h p).1.parent (leftRotation h p).2 = 0 := by
      rw [hsnd]
      exact hstands.reads.parent
    rw [if_neg fun he => absurd (hleft.mp he) (by decide)]
    exact ⟨stands_reroot hstands, (root_reroot htop).trans hsnd⟩

theorem splayTurn_two
    (hs : Stands h ((Ctx.frame s p dp C (.frame s' g dg D up)).plug (node l x d r))) :
    ∃ l' r', Stands (splayTurn h x) (up.plug (node l' x d r')) ∧
      lifted (.frame s p dp C (.frame s' g dg D up)) l r = lifted up l' r' := by
  have hx : x ≠ 0 := hs.below.1
  have hleft : x = h.left p ↔ s = .left := eq_left_iff hs hx
  have hparent : h.parent x = p := parent_eq hs hx
  have hs' : Stands h ((Ctx.frame s' g dg D up).plug (join s (node l x d r) p dp C)) := hs
  have hp := hs'.reads
  have hparentp : h.parent p = g := hp.parent
  have hpleft := eq_left_iff hs' (by rw [root_join]; exact hp.ne_zero)
  rw [root_join] at hpleft
  have hg : g ≠ 0 := hs'.isTree.ne_zero (by simp [Ctx.mem_nodes_plug, Ctx.nodes])
  unfold splayTurn
  rw [hparent]
  dsimp only
  rw [hparentp, if_neg hg]
  have hx_right (he : s = .right) : decide (x = h.left p) = false :=
    decide_eq_false fun hl => by cases he.symm.trans (hleft.mp hl)
  have hp_right (he : s' = .right) : decide (p = h.left g) = false :=
    decide_eq_false fun hl => by cases he.symm.trans (hpleft.mp hl)
  cases s with
  | left =>
    rw [decide_eq_true (hleft.mpr rfl)]
    cases s' with
    | left =>
      have hrot : Stands h (up.plug (join .right D g dg (join .right C p dp (join .right r x d l)))) := hs
      rw [decide_eq_true (hpleft.mpr rfl)]
      exact ⟨_, _, hrot.doubleRotation, rfl⟩
    | right =>
      have hrot : Stands h (up.plug (join .left D g dg
          (join (Side.other .left) C p dp (join (Side.other .left) r x d l)))) := hs
      rw [hp_right rfl]
      exact ⟨_, _, hrot.bigRotation.2, rfl⟩
  | right =>
    rw [hx_right rfl]
    cases s' with
    | left =>
      have hrot : Stands h (up.plug (join .right D g dg
          (join (Side.other .right) C p dp (join (Side.other .right) l x d r)))) := hs
      rw [decide_eq_true (hpleft.mpr rfl)]
      exact ⟨_, _, hrot.bigRotation.2, rfl⟩
    | right =>
      have hrot : Stands h (up.plug (join .left D g dg (join .left C p dp (join .left l x d r)))) := hs
      rw [hp_right rfl]
      exact ⟨_, _, hrot.doubleRotation, rfl⟩

/-- Splaying brings the node to the root. It goes up two levels a turn, and the root pointer is set by the
single rotation of an odd depth. -/
theorem splayLoop_spec (hs : Stands h (c.plug (node l x d r))) (hturns : c.depth ≤ turns) :
    ∃ h', splayLoop turns h x = .ok h' ∧
      Stands h' (node (lifted c l r).1 x d (lifted c l r).2) ∧
      h'.root = if Odd c.depth then x else h.root := by
  induction turns using Nat.strongRecOn generalizing h c l r with
  | ind turns ih =>
    have hparent : h.parent x = c.parent := parent_eq hs hs.below.1
    cases c with
    | top =>
      refine ⟨h, ?_, hs, rfl⟩
      cases turns <;> exact if_pos hparent
    | frame s p dp C up =>
      have hp : h.parent x ≠ 0 := by
        rw [hparent]
        exact hs.isTree.ne_zero (by simp [Ctx.mem_nodes_plug, Ctx.nodes, Ctx.parent])
      obtain ⟨n, rfl⟩ : ∃ n, turns = n + 1 := ⟨turns - 1, by simp [Ctx.depth] at hturns; omega⟩
      rw [splayLoop, if_neg hp]
      cases up with
      | top =>
        obtain ⟨hone, hset⟩ := splayTurn_one hs
        obtain ⟨h', hok, hs', hroot⟩ := ih n (Nat.lt_succ_self n) (c := .top) hone (Nat.zero_le n)
        refine ⟨h', hok, hs', ?_⟩
        rw [hroot, hset]
        simp [Ctx.depth]
      | frame s' g dg D up =>
        obtain ⟨l', r', htwo, hlifted⟩ := splayTurn_two hs
        have hup : up.depth ≤ n := by
          simp only [Ctx.depth] at hturns
          omega
        obtain ⟨h', hok, hs', hroot⟩ := ih n (Nat.lt_succ_self n) htwo hup
        refine ⟨h', hok, ?_, ?_⟩
        · rw [hlifted]
          exact hs'
        · have hg : h.parent (h.parent x) ≠ 0 := by
            have hs₁ : Stands h ((Ctx.frame s' g dg D up).plug (join s (node l x d r) p dp C)) := hs
            have hpg : h.parent p = g := hs₁.reads.parent
            rw [hparent, Ctx.parent, hpg]
            exact hs₁.isTree.ne_zero (by simp [Ctx.mem_nodes_plug, Ctx.nodes])
          have hodd : Odd (Ctx.frame s p dp C (Ctx.frame s' g dg D up)).depth ↔ Odd up.depth := by
            show Odd (up.depth + 1 + 1) ↔ Odd up.depth
            rw [Nat.odd_add_one, Nat.odd_add_one, not_not]
          rw [hroot, splayTurn_root_two hg]
          simp only [hodd]

/-! ### The removal -/

/-- The two parts that `merge` joins rightly. -/
def mergeable : BinTree τ × BinTree τ → Bool
  | (nil, nil) => true
  | (node _ _ _ nil, node ..) => true
  | _ => false

section Removal

variable {κ υ : Type} {xs : List ℕ} {n : ℕ} {L R : BinTree τ}

/-- The root pointer is at a node without a parent and reaches the nodes but `n`, in order. -/
structure EntryGone (xs : List ℕ) (n : ℕ) (t t' : Tree κ υ τ) : Prop where
  reached : ∃ u, Below t'.heap t'.heap.root u ∧ u.nodes = xs.erase n
  entries : ∀ x ∈ xs.erase n, t'.entry x = t.entry x
  parentless : t'.heap.root ≠ 0 → t'.heap.parent t'.heap.root = 0

/-- The removal with its effect on `size()`. -/
structure Erased (xs : List ℕ) (n : ℕ) (t t' : Tree κ υ τ) : Prop extends EntryGone xs n t t' where
  counted : t'.size + 1 = t.size

theorem depth_le_turns (hturns : (c.plug t).nodes.length ≤ turns) : c.depth ≤ turns :=
  (Nat.le_add_right ..).trans ((c.depth_le_length t).trans hturns)

/-- What `erase` does after the node is at the root. -/
theorem erase_eq_merge {t : Tree κ υ τ} (hs : Stands t.heap (c.plug (node l n d r)))
    (hturns : (c.plug (node l n d r)).nodes.length ≤ turns) :
    ∃ h', Stands h' (node (lifted c l r).1 n d (lifted c l r).2) ∧
      erase turns t n = (merge turns h' (lifted c l r).1.root (lifted c l r).2.root).map
        fun a => { t with heap := { a.1 with root := a.2 } } := by
  have hn : n ≠ 0 := hs.below.1
  obtain ⟨h', hok, hs', -⟩ := splayLoop_spec hs (depth_le_turns hturns)
  refine ⟨h', hs', ?_⟩
  have hr : Reads h' .left n (lifted c l r).1.root (lifted c l r).2.root 0 d :=
    Stands.reads (c := .top) (s := .left) hs'
  have hleft : h'.left n = (lifted c l r).1.root := hr.child
  have hright : h'.right n = (lifted c l r).2.root := hr.other
  unfold erase splay
  rw [if_neg hn, hok, deref_of_ne hn]
  show (merge turns h' (h'.left n) (h'.right n) >>= fun a => _) = _
  rw [hleft, hright]
  cases merge turns h' (lifted c l r).1.root (lifted c l r).2.root <;> rfl

theorem parts_stand (hs : Stands h (node L n d R)) (hL : L ≠ nil) (hR : R ≠ nil) :
    Stands ((h.setParent L.root 0).setParent R.root 0) L ∧
      Stands ((h.setParent L.root 0).setParent R.root 0) R := by
  obtain ⟨-, -, hhl, hhr⟩ := hs.holds
  obtain ⟨-, -, hLnd, hRnd, hLR⟩ := nodup_join (s := .left).mp hs.nodup
  have hl0 := root_ne_zero hhl hL
  have hr0 := root_ne_zero hhr hR
  have hne : L.root ≠ R.root := fun he => hLR _ (root_mem hl0) (he ▸ root_mem hr0)
  have hcell (y : ℕ) : ((h.setParent L.root 0).setParent R.root 0).cell y =
      if y = R.root then (h.cell y).setParent 0 else if y = L.root then (h.cell y).setParent 0
      else h.cell y := by
    rw [Heap.cell_setParent, Heap.cell_setParent]
    by_cases hy : y = R.root
    · rw [if_pos hy, if_pos hy, if_neg fun he => hne (he.symm.trans hy)]
    · rw [if_neg hy, if_neg hy]
  refine ⟨⟨hhl.reparent hLnd ?_ ?_, hLnd⟩, ⟨hhr.reparent hRnd ?_ ?_, hRnd⟩⟩
  · intro _
    rw [hcell, if_neg hne, if_pos rfl]
  · intro y hy hyL
    have hyR : y ≠ R.root := fun he => hLR y hy (he ▸ root_mem hr0)
    rw [hcell, if_neg hyR, if_neg hyL]
  · intro _
    rw [hcell, if_pos rfl]
  · intro y hy hyR
    have hyL : y ≠ L.root := fun he => hLR _ (root_mem hl0) (he ▸ hy)
    rw [hcell, if_neg hyR, if_neg hyL]

theorem merge_eq (hs : Stands h (node L n d R)) (hL : L ≠ nil) (hR : R ≠ nil)
    (hturns : L.nodes.length ≤ turns) : merge turns h L.root R.root =
      (splay turns ((h.setParent L.root 0).setParent R.root 0) L.last.root).map
        fun h' => ((h'.setChild .right L.last.root R.root).setParent R.root L.last.root, L.root) := by
  obtain ⟨hleft, -⟩ := parts_stand hs hL hR
  obtain ⟨-, -, hhl, hhr⟩ := hs.holds
  unfold merge
  rw [if_neg (root_ne_zero hhl hL), if_neg (root_ne_zero hhr hR)]
  dsimp only
  rw [rightmost_eq hleft.holds hL hturns]
  show (splay turns _ L.last.root >>= fun h' => _) = _
  cases splay turns ((h.setParent L.root 0).setParent R.root 0) L.last.root <;> rfl

/-- The left part ends at its root: nothing is splayed. -/
theorem merge_joined {m : ℕ} {dm : τ} (hs : Stands h (node (node L m dm nil) n d R)) (hR : R ≠ nil)
    (hturns : L.nodes.length < turns) :
    ∃ h', merge turns h m R.root = .ok (h', m) ∧ IsTree { h' with root := m } (node L m dm R) := by
  have hL : node L m dm nil ≠ nil := fun he => by cases he
  have hmerge : merge turns h (node L m dm nil).root R.root = _ := merge_eq hs hL hR (by simp; omega)
  obtain ⟨hleft, hright⟩ := parts_stand hs hL hR
  obtain ⟨-, -, hLnd, hRnd, hLR⟩ := nodup_join (s := .left).mp hs.nodup
  obtain ⟨hmL, -, hLnd, -⟩ := nodup_join (s := .left).mp hLnd
  rw [show (node L m dm nil).last.root = m from rfl, root_node] at hmerge
  rw [root_node] at hleft hright
  generalize (h.setParent m 0).setParent R.root 0 = h₂ at hmerge hleft hright
  obtain ⟨hm, hcellm, hhl, -⟩ := hleft.holds
  have hsplay : splay turns h₂ m = .ok h₂ := by
    have hparent : h₂.parent m = 0 := by rw [Heap.parent, hcellm]
    unfold splay
    rw [if_neg hm]
    cases turns <;> exact if_pos hparent
  rw [hsplay] at hmerge
  refine ⟨_, hmerge, rfl, ?_, ?_⟩
  · have hr0 := root_ne_zero hright.holds hR
    have hmR : m ∉ R.nodes := hLR m (by simp)
    have hmr : m ≠ R.root := fun he => hmR (he ▸ root_mem hr0)
    have hcell (y : ℕ) : ((h₂.setChild .right m R.root).setParent R.root m).cell y =
        if y = R.root then (h₂.cell y).setParent m else if y = m then (h₂.cell y).setChild .right R.root
        else h₂.cell y := by
      rw [Heap.cell_setParent, Heap.cell_setChild]
      by_cases hy : y = R.root
      · rw [if_pos hy, if_pos hy, if_neg fun he => hmr (he.symm.trans hy)]
      · rw [if_neg hy, if_neg hy]
    refine ⟨hm, ?_, hhl.congr ?_, hright.holds.reparent hRnd ?_ ?_⟩
    · show ((h₂.setChild .right m R.root).setParent R.root m).cell m = _
      rw [hcell, if_neg hmr, if_pos rfl, hcellm]
      rfl
    · intro y hy
      have hyR : y ≠ R.root := fun he => hLR y (by simp [hy]) (he ▸ root_mem hr0)
      have hym : y ≠ m := fun he => hmL (he ▸ hy)
      exact (hcell y).trans (by rw [if_neg hyR, if_neg hym])
    · intro _
      exact (hcell _).trans (if_pos rfl)
    · intro y hy hyR
      have hym : y ≠ m := fun he => hmR (he ▸ hy)
      exact (hcell y).trans (by rw [if_neg hyR, if_neg hym])
  · refine nodup_join (s := .left).mpr ⟨hmL, hLR m (by simp), hLnd, hRnd, ?_⟩
    intro y hy
    exact hLR y (by simp [hy])

/-- The left part goes on: what `merge` returns is below the node that it splayed. -/
theorem merge_below {m : ℕ} {dm : τ} {l' : BinTree τ} (hs : Stands h (node (node l' m dm L) n d R))
    (hL : L ≠ nil) (hR : R ≠ nil) (hturns : (node l' m dm L).nodes.length ≤ turns) :
    ∃ h', merge turns h m R.root = .ok (h', m) ∧ h'.parent m ≠ 0 := by
  have hL' : node l' m dm L ≠ nil := fun he => by cases he
  have hmerge := merge_eq hs hL' hR hturns
  obtain ⟨hleft, -⟩ := parts_stand hs hL' hR
  obtain ⟨-, -, hhl, hhr⟩ := hs.holds
  obtain ⟨-, -, hLnd, -, hLR⟩ := nodup_join (s := .left).mp hs.nodup
  have hr0 := root_ne_zero hhr hR
  obtain ⟨k, lm, mx, dmx, hk, -, hlast⟩ := exists_last hL
  have hmxL : mx ∈ L.nodes := by
    rw [hk, Ctx.mem_nodes_plug]
    exact Or.inl (by simp)
  have hmx : m ≠ mx := fun he => (nodup_join (s := .left).mp hLnd).2.1 (he ▸ hmxL)
  have hlast' : (node l' m dm L).last = node lm mx dmx nil := by
    cases L with
    | nil => exact absurd rfl hL
    | node _ _ _ _ => exact hlast
  rw [hlast', root_node, root_node] at hmerge
  rw [root_node] at hleft
  generalize (h.setParent m 0).setParent R.root 0 = h₂ at hmerge hleft
  have hfocus : node l' m dm L = (k.comp (.frame .right m dm l' .top)).plug (node lm mx dmx nil) := by
    rw [Ctx.plug_comp, ← hk]
    rfl
  rw [hfocus] at hleft hturns
  obtain ⟨h', hok, hs', -⟩ := splayLoop_spec hleft (depth_le_turns hturns)
  have hsplay : splay turns h₂ mx = .ok h' := (if_neg hleft.below.1).trans hok
  rw [hsplay] at hmerge
  refine ⟨_, hmerge, ?_⟩
  have hm : m ∈ (node (lifted (k.comp (.frame .right m dm l' .top)) lm nil).1 mx dmx
      (lifted (k.comp (.frame .right m dm l' .top)) lm nil).2).nodes := by
    rw [nodes_lifted, ← hfocus]
    simp
  have hparent : h'.parent m ≠ 0 := by
    obtain ⟨-, he⟩ | ⟨hmem, -⟩ := hs'.isTree.parent_links hm
    · exact absurd he.symm hmx
    · exact hs'.isTree.ne_zero hmem
  have hmr : m ≠ R.root := fun he => hLR m (by simp) (he ▸ root_mem hr0)
  show ((h'.setChild .right mx R.root).setParent R.root mx).parent m ≠ 0
  rw [Heap.parent, Heap.cell_setParent, if_neg hmr, Heap.cell_setChild, if_neg hmx]
  exact hparent

/-- `splay_tree` never counts a removal. -/
theorem erase_size {t t' : Tree κ υ τ} (he : erase turns t n = .ok t') : t'.size = t.size := by
  obtain ⟨h₁, -, he⟩ := bind_eq_ok.mp he
  obtain ⟨-, -, he⟩ := bind_eq_ok.mp he
  obtain ⟨⟨h₂, root⟩, -, he⟩ := bind_eq_ok.mp he
  cases he
  rfl

theorem not_gone {t : Tree κ υ τ} {root : ℕ} (he : erase turns t n = .ok { t with heap := { h with root := root } })
    (hroot : root ≠ 0) (hparent : h.parent root ≠ 0) :
    ¬ ∃ t', erase turns t n = .ok t' ∧ EntryGone xs n t t' := by
  rintro ⟨t', ht', hgone⟩
  rw [he] at ht'
  cases ht'
  exact hparent (hgone.parentless hroot)

theorem gone_iff {t : Tree κ υ τ} (hs : Stands h (node L n d R))
    (he : erase turns t n = (merge turns h L.root R.root).map
      fun a => { t with heap := { a.1 with root := a.2 } })
    (hturns : L.nodes.length ≤ turns) :
    (∃ t', erase turns t n = .ok t' ∧ EntryGone (node L n d R).nodes n t t') ↔
      mergeable (L, R) = true := by
  have hn : n ≠ 0 := hs.holds.1
  have hnodes : (node L n d R).nodes.erase n = L.nodes ++ R.nodes := by
    have herase := erase_nodes_plug (c := .top) (l := L) (x := n) (d := d) (r := R) hs.nodup
    simpa [Ctx.before, Ctx.after, Ctx.plug] using herase
  obtain ⟨-, -, hhl, hhr⟩ := hs.holds
  cases L with
  | nil =>
    have hmerge : merge turns h 0 R.root = .ok (h, R.root) := if_pos rfl
    rw [root_nil, hmerge] at he
    cases R with
    | nil =>
      refine iff_of_true ⟨_, he, ⟨nil, rfl, hnodes.symm⟩, fun x _ => rfl, fun h0 => absurd rfl h0⟩ rfl
    | node lr xr dr rr =>
      refine iff_of_false (not_gone he hhr.1 ?_) (fun hm => by cases hm)
      rw [root_node, Heap.parent, hhr.2.1]
      exact hn
  | node ll xl dl rl =>
    cases R with
    | nil =>
      have hmerge : merge turns h xl 0 = .ok (h, xl) := (if_neg hhl.1).trans (if_pos rfl)
      rw [root_node, root_nil, hmerge] at he
      refine iff_of_false (not_gone he hhl.1 ?_) (by cases rl <;> exact fun hm => by cases hm)
      rw [Heap.parent, hhl.2.1]
      exact hn
    | node lr xr dr rr =>
      have hR : node lr xr dr rr ≠ nil := fun he => by cases he
      cases rl with
      | nil =>
        have hlen : ll.nodes.length < turns := by
          simp at hturns
          omega
        obtain ⟨h', hmerge, ht'⟩ := merge_joined hs hR hlen
        rw [root_node, hmerge] at he
        refine iff_of_true ⟨_, he, ⟨_, ht'.holds.below, ?_⟩, fun x _ => rfl, fun _ => ?_⟩ rfl
        · rw [hnodes]
          simp
        · exact holds_parent ht'.holds hhl.1
      | node l' x' d' r' =>
        have hrl : node l' x' d' r' ≠ nil := fun he => by cases he
        obtain ⟨h', hmerge, hparent⟩ := merge_below hs hrl hR hturns
        rw [root_node, hmerge] at he
        exact iff_of_false (not_gone he hhl.1 hparent) (fun hm => by cases hm)

/-- No removal from a splay tree is right, as none is counted; the entry is removed rightly where the
two parts can be joined. -/
theorem splay_erase_never {t : Tree κ υ τ} (ht : IsTree t.heap (c.plug (node l n d r)))
    (hturns : (c.plug (node l n d r)).nodes.length ≤ turns) :
    (¬ ∃ t', erase turns t n = .ok t' ∧ Erased (c.plug (node l n d r)).nodes n t t') ∧
      ((∃ t', erase turns t n = .ok t' ∧ EntryGone (c.plug (node l n d r)).nodes n t t') ↔
        mergeable (lifted c l r) = true) := by
  constructor
  · rintro ⟨t', hok, hgone⟩
    have hcount := hgone.counted
    rw [erase_size hok] at hcount
    omega
  · obtain ⟨h', hs, he⟩ := erase_eq_merge (stands_of_isTree ht) hturns
    rw [← nodes_lifted] at hturns ⊢
    refine gone_iff hs he ?_
    rw [nodes_node, List.length_append] at hturns
    omega

end Removal

/-- The keys 1 and 2 inserted into an empty tree. -/
def twoNodes : Tree ℕ ℕ Unit :=
  ⟨⟨2, fun x => if x = 2 then ⟨1, 0, 0, ()⟩ else ⟨0, 0, 2, ()⟩⟩, fun x => (x, 0), 1⟩

theorem twoNodes_isTree : IsTree twoNodes.heap (node (node nil 1 () nil) 2 () nil) where
  root := rfl
  holds := ⟨by decide, rfl, ⟨by decide, rfl, trivial, trivial⟩, trivial⟩
  nodup := by decide

theorem splay_erase_never_two :
    ¬ ∃ t', erase 2 twoNodes 2 = .ok t' ∧ Erased [1, 2] 2 twoNodes t' :=
  (splay_erase_never (c := .top) twoNodes_isTree (le_refl 2)).1

/-- The root is erased: `size()` stays, and the root pointer is at a node below the erased one. -/
theorem splay_root_not_erased : IsTree twoNodes.heap (node (node nil 1 () nil) 2 () nil) ∧
    twoNodes.size = 1 ∧
    (erase 2 twoNodes 2).map (fun t => (t.size, t.heap.root, t.heap.parent t.heap.root)) =
      .ok (1, 1, 2) :=
  ⟨twoNodes_isTree, rfl, rfl⟩

end MaiFaSp.SearchTree.SplayTree
