import MaiFaSp.Lib.AVLShape
import MaiFaSp.SearchTree.AVL
import MaiFaSp.SearchTree.Rotations

/-!
# The rebalancing of the AVL tree (`AVL_tree.h:721-737, 1559-1609`)

`rebalance_to_root` goes up from a node, and a turn of it leaves the subtree at the place in order:
its heights are exact and it is balanced, and its height has changed by one at most. The tree that
the path comes from is read only for its height, so the turns are followed for any such tree.
-/

namespace MaiFaSp.SearchTree.AVL

open LinkedTree BinTree

variable {h : Heap ℕ} {c : Ctx ℕ} {t A B C : BinTree ℕ} {s : Side} {a b x y p d : ℕ}

/-! ### Heights -/

theorem height_eq (ht : Holds h p t) : height h t.root = t.stored := by
  cases t with
  | nil => rfl
  | node l x d r =>
    obtain ⟨hx, hcell, -⟩ := ht
    rw [height, root_node, if_neg hx, Heap.data, hcell]
    rfl

theorem bmod_small {n w : ℕ} (hn : 2 * n < w) : Int.bmod n w = n := by
  exact Int.bmod_eq_of_le_mul_two (by omega) (by omega)

/-- The heights are far from the bounds of the types they are computed in. -/
theorem recalculateHeight_eq (hl : height h (h.left x) = a) (hr : height h (h.right x) = b)
    (ha : a < 2 ^ 14) (hb : b < 2 ^ 14) : recalculateHeight h x = h.setData x (max a b + 1) := by
  unfold recalculateHeight
  dsimp only
  rw [hl, hr]
  have ha' : Int.bmod a (2 ^ 32) = a := bmod_small (by omega)
  have hb' : Int.bmod b (2 ^ 32) = b := bmod_small (by omega)
  have hsum : ((1 + max (a : ℤ) b) % 2 ^ 64).toNat = max a b + 1 := by omega
  rw [ha', hb', hsum]

theorem getBalance_eq (hl : height h (h.left x) = a) (hr : height h (h.right x) = b)
    (ha : a < 2 ^ 14) (hb : b < 2 ^ 14) : getBalance h x = b - a := by
  unfold getBalance
  dsimp only
  rw [hl, hr]
  have ha' : Int.bmod a (2 ^ 16) = a := bmod_small (by omega)
  have hb' : Int.bmod b (2 ^ 16) = b := bmod_small (by omega)
  rw [ha', hb']
  exact Int.bmod_eq_of_le_mul_two (by omega) (by omega)

theorem heights_join (ht : Holds h p (join s A x d B)) :
    height h (h.child s x) = A.stored ∧ height h (h.child s.other x) = B.stored := by
  obtain ⟨-, hcell, hA, hB⟩ := holds_join.mp ht
  rw [Heap.child, Heap.child, hcell, Cell.child_joined, Cell.child_other_joined]
  exact ⟨height_eq hA, height_eq hB⟩

theorem recalculateHeight_join (ht : Holds h p (join s A x d B)) (hA : A.stored < 2 ^ 14)
    (hB : B.stored < 2 ^ 14) : recalculateHeight h x = h.setData x (max A.stored B.stored + 1) := by
  obtain ⟨hnear, hfar⟩ := heights_join ht
  cases s with
  | left => exact recalculateHeight_eq hnear hfar hA hB
  | right =>
    rw [max_comm]
    exact recalculateHeight_eq hfar hnear hB hA

/-- The balance is positive where the right subtree is higher. -/
def signed (s : Side) (e : ℤ) : ℤ := if s = .left then e else -e

theorem getBalance_join (ht : Holds h p (join s A x d B)) (hA : A.stored < 2 ^ 14)
    (hB : B.stored < 2 ^ 14) : getBalance h x = signed s (B.stored - A.stored) := by
  obtain ⟨hnear, hfar⟩ := heights_join ht
  cases s with
  | left => exact getBalance_eq hnear hfar hA hB
  | right =>
    have hright : getBalance h x = A.stored - B.stored := getBalance_eq hfar hnear hB hA
    rw [hright]
    exact (neg_sub _ _).symm

/-! ### Writes that change nothing -/

theorem setData_self (hd : h.data x = d) : h.setData x d = h := by
  subst hd
  have hcell : (h.setData x (h.data x)).cell = h.cell := Function.update_eq_self x h.cell
  exact congrArg (Heap.mk h.root) hcell

/-- The root stores one more than the higher one of its children does. -/
def Settled : BinTree ℕ → Prop
  | nil => True
  | node l _ d r => d = max l.stored r.stored + 1 ∧ l.stored < 2 ^ 14 ∧ r.stored < 2 ^ 14

theorem settled_join (hA : A.stored < 2 ^ 14) (hB : B.stored < 2 ^ 14) :
    Settled (join s A x (max A.stored B.stored + 1) B) := by
  cases s with
  | left => exact ⟨rfl, hA, hB⟩
  | right => exact ⟨by rw [max_comm], hB, hA⟩

theorem settled_of_avl (ht : Avl a t) (hlow : a < 2 ^ 14) : Settled t := by
  cases ht with
  | nil => exact trivial
  | node hl hr _ _ =>
    have hl' := hl.stored_eq
    have hr' := hr.stored_eq
    exact ⟨by rw [hl', hr'], by omega, by omega⟩

theorem recalculateHeight_settled (ht : Holds h p t) (hs : Settled t) (hne : t.root ≠ 0) :
    recalculateHeight h t.root = h := by
  cases t with
  | nil => exact absurd rfl hne
  | node l x d r =>
    obtain ⟨hd, hl, hr⟩ := hs
    have hj : Holds h p (join .left l x d r) := ht
    rw [root_node, recalculateHeight_join hj hl hr, ← hd]
    refine setData_self ?_
    rw [Heap.data, ht.2.1]

/-- What `rebalance` does to both children of the parent. -/
def recalculateChildren (h : Heap ℕ) (p : ℕ) : Heap ℕ :=
  if p ≠ 0 then
    let h := if h.left p ≠ 0 then recalculateHeight h (h.left p) else h
    if h.right p ≠ 0 then recalculateHeight h (h.right p) else h
  else h

theorem recalculateChildren_settled (ht : Holds h p (join s A x d B)) (hA : Settled A)
    (hB : Settled B) : recalculateChildren h x = h := by
  obtain ⟨l, r, hj, hl, hr⟩ : ∃ l r, join s A x d B = node l x d r ∧ Settled l ∧ Settled r := by
    cases s with
    | left => exact ⟨A, B, rfl, hA, hB⟩
    | right => exact ⟨B, A, rfl, hB, hA⟩
  rw [hj] at ht
  obtain ⟨hx, hcell, hhl, hhr⟩ := ht
  have hkeep {u : BinTree ℕ} (hu : Holds h x u) (hs : Settled u) :
      (if u.root ≠ 0 then recalculateHeight h u.root else h) = h := by
    split
    case isTrue hne => exact recalculateHeight_settled hu hs hne
    case isFalse => rfl
  have hleft : h.left x = l.root := by rw [Heap.left, hcell]
  have hright : h.right x = r.root := by rw [Heap.right, hcell]
  unfold recalculateChildren
  dsimp only
  rw [if_pos hx, hleft, hkeep hhl hl, hright, hkeep hhr hr]

/-! ### A turn -/

theorem rebalance_eq (h : Heap ℕ) (x : ℕ) : rebalance h x = (rotate h x).map fun a =>
    (recalculateChildren (recalculateHeight a.1 x) ((recalculateHeight a.1 x).parent x), a.2) := by
  unfold rebalance
  cases rotate h x <;> rfl

/-- A turn of the loop in `rebalance_to_root`. -/
def turn (h : Heap ℕ) (x : ℕ) : Except TreeFault (Heap ℕ × ℕ) := do
  let (h, cur) ← rebalance h x
  liftLink (deref cur)
  pure (climb h cur)

theorem rebalanceToRoot_succ (n : ℕ) (hx : x ≠ 0) :
    rebalanceToRoot (n + 1) h x = turn h x >>= fun a => rebalanceToRoot n a.1 a.2 := by
  rw [rebalanceToRoot, if_neg hx]
  unfold turn
  cases rebalance h x with
  | error e => rfl
  | ok a =>
    show (liftLink (deref a.2) >>= fun _ => _) = ((liftLink (deref a.2) >>= fun _ => _) >>= _)
    cases liftLink (deref a.2) <;> rfl

theorem stands_setData (hs : Stands h (c.plug (join s A x d B))) (d' : ℕ) :
    Stands (h.setData x d') (c.plug (join s A x d' B)) :=
  (stands_of_isTree (hs.isTree.setData_join d')).congr fun _ _ => rfl

theorem turn_of_rotate {h₁ h₂ : Heap ℕ} (hrot : rotate h x = .ok (h₁, y))
    (hchildren : recalculateChildren (recalculateHeight h₁ x) ((recalculateHeight h₁ x).parent x) = h₂)
    (hs : Stands h₂ (c.plug (join s A y d B))) (hA : A.stored < 2 ^ 14) (hB : B.stored < 2 ^ 14) :
    ∃ h', turn h x = .ok (h', c.parent) ∧
      Stands h' (c.plug (join s A y (max A.stored B.stored + 1) B)) ∧ (c = .top → h'.root = y) := by
  have hy : y ≠ 0 := hs.reads.ne_zero
  have hset := recalculateHeight_join hs.below hA hB
  have hs' := stands_setData hs (max A.stored B.stored + 1)
  rw [← hset] at hs'
  have hparent := hs'.reads.parent
  have hturn : turn h x = .ok (climb h₂ y) := by
    unfold turn
    rw [rebalance_eq, hrot, ← hchildren]
    show (liftLink (deref y) >>= fun _ => _) = _
    rw [deref_of_ne hy]
    rfl
  refine ⟨(climb h₂ y).1, ?_, ?_, ?_⟩
  · rw [hturn]
    have hsnd : (climb h₂ y).2 = c.parent := by
      unfold climb
      dsimp only
      split
      · exact hparent
      · exact hparent
    rw [← hsnd]
  · unfold climb
    dsimp only
    split
    · exact hs'.congr fun _ _ => rfl
    · exact hs'
  · rintro rfl
    unfold climb
    dsimp only
    rw [if_pos (show (recalculateHeight h₂ y).parent y = 0 from hparent)]

/-- What a turn at `x` makes of the subtree `t` there, of which `A` stays as it is. -/
structure Turned (h : Heap ℕ) (c : Ctx ℕ) (A t : BinTree ℕ) (x : ℕ) (h' : Heap ℕ) (k : Ctx ℕ)
    (r : ℕ) : Prop where
  ok : turn h x = .ok (h', c.parent)
  stands : Stands h' (c.plug (k.plug A))
  ctx : CtxAvl k A.stored r
  nodes : (k.plug A).nodes = t.nodes
  root : c = .top → h'.root = (k.plug A).root

theorem Turned.nodes_plug {k : Ctx ℕ} {h' : Heap ℕ} {r : ℕ} (ht : Turned h c A t x h' k r) :
    (c.plug (k.plug A)).nodes = (c.plug t).nodes := by
  rw [Ctx.nodes_plug, ht.nodes, ← Ctx.nodes_plug]

/-- The tree beside the hole. -/
def SiblingSettled : Ctx ℕ → Prop
  | .top => True
  | .frame _ _ _ sib _ => Settled sib

theorem recalculateChildren_parent (hs : Stands h (c.plug t)) (ht : Settled t) (hsib : SiblingSettled c) :
    recalculateChildren h c.parent = h := by
  cases c with
  | top => exact if_neg (not_not.mpr rfl)
  | frame s p dp S up =>
    have hp : Stands h (up.plug (join s t p dp S)) := hs
    exact recalculateChildren_settled hp.below ht hsib

theorem rotate_balanced (h₁ : getBalance h x ≠ 2) (h₂ : getBalance h x ≠ -2) :
    rotate h x = .ok (h, x) := by
  unfold rotate
  dsimp only
  rw [if_neg h₁, if_neg h₂]
  rfl

theorem balanced_join (ht : Holds h p (join s A x d B)) (hA : A.stored < 2 ^ 14) (hB : B.stored < 2 ^ 14)
    (hab : A.stored ≤ B.stored + 1) (hba : B.stored ≤ A.stored + 1) :
    getBalance h x ≠ 2 ∧ getBalance h x ≠ -2 := by
  rw [getBalance_join ht hA hB]
  unfold signed
  constructor
  · split <;> omega
  · split <;> omega

theorem turn_balanced (hs : Stands h (c.plug (join s A x d B))) (hB : Avl b B) (hlow : b < 2 ^ 13)
    (hab : A.stored ≤ b + 1) (hba : b ≤ A.stored + 1) (hsib : SiblingSettled c) :
    ∃ h' k, Turned h c A (join s A x d B) x h' k (max A.stored b + 1) := by
  have hb := hB.stored_eq
  obtain ⟨h₁, h₂⟩ := balanced_join hs.below (by omega) (by omega) (by omega) (by omega)
  have hrot := rotate_balanced h₁ h₂
  have hset := recalculateHeight_join hs.below (by omega) (by omega)
  have hs' := stands_setData hs (max A.stored B.stored + 1)
  rw [← hset] at hs'
  have hchildren : recalculateChildren (recalculateHeight h x) ((recalculateHeight h x).parent x) =
      recalculateHeight h x := by
    rw [hs'.reads.parent]
    exact recalculateChildren_parent hs' (settled_join (by omega) (by omega)) hsib
  obtain ⟨h', hok, hs'', hroot⟩ := turn_of_rotate hrot hchildren hs' (by omega) (by omega)
  rw [hb] at hs''
  refine ⟨h', .frame s x (max A.stored b + 1) B .top, hok, hs'', .frame hB hab hba .top, ?_, ?_⟩
  · cases s <;> rfl
  · intro hc
    rw [hroot hc]
    exact (root_join ..).symm

/-- Two higher on the side away from `s`: the rotations are to `s`. -/
theorem rotate_eq (hbalance : getBalance h x = signed s 2) (hc : h.child s.other x ≠ 0) :
    rotate h x = .ok (if height h (h.child s (h.child s.other x)) ≤
        height h (h.child s.other (h.child s.other x))
      then rotation s h x else bigRotation s h x) := by
  cases s with
  | left =>
    have htwo : getBalance h x = 2 := hbalance
    have hright : h.right x ≠ 0 := hc
    unfold rotate
    dsimp only
    rw [if_pos htwo, deref_of_ne hright]
    show (if height h (h.left (h.right x)) ≤ height h (h.right (h.right x)) then _ else _) = Except.ok
      (if height h (h.left (h.right x)) ≤ height h (h.right (h.right x)) then _ else _)
    split <;> rfl
  | right =>
    have htwo : getBalance h x = -2 := hbalance
    have hleft : h.left x ≠ 0 := hc
    unfold rotate
    dsimp only
    rw [htwo, if_neg (by decide), if_pos rfl, deref_of_ne hleft]
    show (if height h (h.right (h.left x)) ≤ height h (h.left (h.left x)) then _ else _) = Except.ok
      (if height h (h.right (h.left x)) ≤ height h (h.left (h.left x)) then _ else _)
    split <;> rfl

theorem reads_heavy (hs : Stands h (c.plug (join s A x d (join s B y (A.stored + 2) C))))
    (hlow : A.stored + 2 < 2 ^ 14) : getBalance h x = signed s 2 ∧ h.child s.other x ≠ 0 ∧
      height h (h.child s (h.child s.other x)) = B.stored ∧
      height h (h.child s.other (h.child s.other x)) = C.stored := by
  have hbalance := getBalance_join hs.below (by omega) (by rw [stored_join]; omega)
  rw [stored_join] at hbalance
  have htwo : ((A.stored + 2 : ℕ) : ℤ) - A.stored = 2 := by omega
  rw [htwo] at hbalance
  obtain ⟨-, -, -, hY⟩ := holds_join.mp hs.below
  obtain ⟨hnear, hfar⟩ := heights_join hY
  have hother := hs.reads.other
  rw [root_join] at hother
  rw [hother]
  exact ⟨hbalance, (holds_join.mp hY).1, hnear, hfar⟩

theorem rotate_heavy (hs : Stands h (c.plug (join s A x d (join s B y (A.stored + 2) C))))
    (hlow : A.stored + 2 < 2 ^ 14) :
    rotate h x = .ok (if B.stored ≤ C.stored then rotation s h x else bigRotation s h x) := by
  obtain ⟨hbalance, hne, hnear, hfar⟩ := reads_heavy hs hlow
  rw [rotate_eq hbalance hne, hnear, hfar]

/-- The outer subtree of the higher child is the higher one, or both are as high. -/
theorem turn_single {m n : ℕ} (hs : Stands h (c.plug (join s A x d (join s B y (A.stored + 2) C))))
    (hB : Avl m B) (hC : Avl n C) (hlow : A.stored + 2 < 2 ^ 13) (hn : n = A.stored + 1) (hmn : m ≤ n)
    (hnm : n ≤ m + 1) :
    ∃ h' k, Turned h c A (join s A x d (join s B y (A.stored + 2) C)) x h' k (m + 2) := by
  have hb := hB.stored_eq
  have hc := hC.stored_eq
  have hrot := rotate_heavy hs (by omega)
  rw [if_pos (by omega)] at hrot
  obtain ⟨hsnd, hs₁⟩ := hs.rotation
  have hrot' : rotate h x = .ok ((rotation s h x).1, y) := by rw [hrot, ← hsnd]
  have hx₁ : Stands (rotation s h x).1 ((Ctx.frame s y (A.stored + 2) C c).plug (join s A x d B)) := hs₁
  have hset := recalculateHeight_join hx₁.below (by omega) (by omega)
  have hx₂ := stands_setData hx₁ (max A.stored B.stored + 1)
  rw [← hset] at hx₂
  have hs₂ : Stands (recalculateHeight (rotation s h x).1 x) (c.plug (join s (join s A x
      (max A.stored B.stored + 1) B) y (A.stored + 2) C)) := hx₂
  have hchildren : recalculateChildren (recalculateHeight (rotation s h x).1 x)
      ((recalculateHeight (rotation s h x).1 x).parent x) = recalculateHeight (rotation s h x).1 x := by
    rw [hx₂.reads.parent]
    refine recalculateChildren_settled hs₂.below (settled_join (by omega) (by omega)) ?_
    exact settled_of_avl hC (by omega)
  obtain ⟨h', hok, hs', hroot⟩ := turn_of_rotate hrot' hchildren hs₂ (by rw [stored_join]; omega) (by omega)
  rw [stored_join, hb, hc] at hs'
  have hm : max A.stored m + 1 = m + 1 := by omega
  have hmax : max (max A.stored m + 1) n + 1 = m + 2 := by omega
  have hctx : CtxAvl (.frame s x (max A.stored m + 1) B (.frame s y (max (max A.stored m + 1) n + 1) C .top))
      A.stored (m + 2) := by
    refine .frame hB (by omega) (by omega) (.frame hC (by omega) (by omega) ?_)
    rw [hmax]
    exact .top
  refine ⟨h', .frame s x (max A.stored m + 1) B (.frame s y (max (max A.stored m + 1) n + 1) C .top), hok,
    hs', hctx, ?_, ?_⟩
  · cases s <;> simp [Ctx.plug, join]
  · intro hc
    rw [hroot hc]
    exact (root_join ..).symm

/-- The child on side `s` has its height already, the other one gets it. -/
theorem recalculateChildren_far {P Q : BinTree ℕ} {e : ℕ}
    (hs : Stands h (c.plug (join s A x d (join s.other P y e Q)))) (hA : Settled A) (hA0 : A.root ≠ 0)
    (hP : P.stored < 2 ^ 14) (hQ : Q.stored < 2 ^ 14) :
    recalculateChildren h x = h.setData y (max P.stored Q.stored + 1) := by
  have hr := hs.reads
  rw [root_join] at hr
  have hy : Stands h ((Ctx.frame s.other x d A c).plug (join s.other P y e Q)) := by
    rw [Ctx.plug_other]
    exact hs
  have hset := recalculateHeight_join hy.below hP hQ
  have hy' : Stands (h.setData y (max P.stored Q.stored + 1))
      (c.plug (join s A x d (join s.other P y (max P.stored Q.stored + 1) Q))) := by
    have hset' := stands_setData hy (max P.stored Q.stored + 1)
    rw [Ctx.plug_other] at hset'
    exact hset'
  have hx' := hy'.reads
  have hkeep : recalculateHeight h A.root = h :=
    recalculateHeight_settled (holds_join.mp hs.below).2.2.1 hA hA0
  have hkeep' : recalculateHeight (h.setData y (max P.stored Q.stored + 1)) A.root =
      h.setData y (max P.stored Q.stored + 1) :=
    recalculateHeight_settled (holds_join.mp hy'.below).2.2.1 hA hA0
  unfold recalculateChildren
  dsimp only
  rw [if_pos hr.ne_zero]
  cases s with
  | left =>
    have hleft : h.left x = A.root := hr.child
    have hright : h.right x = y := hr.other
    rw [hleft, if_pos hA0, hkeep, hright, if_pos hy.reads.ne_zero]
    exact hset
  | right =>
    have hleft : h.left x = y := hr.other
    have hright : (h.setData y (max P.stored Q.stored + 1)).right x = A.root := hx'.child
    rw [hleft, if_pos hy.reads.ne_zero, hset, hright, if_pos hA0, hkeep']

/-- The inner subtree of the higher child is the higher one, and its root comes up. -/
theorem turn_double {P Q : BinTree ℕ} {z m n : ℕ} (hs : Stands h (c.plug (join s A x d
      (join s.other C y (A.stored + 2) (join s.other Q z (A.stored + 1) P)))))
    (hC : Avl A.stored C) (hP : Avl m P) (hQ : Avl n Q) (hlow : A.stored + 2 < 2 ^ 13)
    (hmn : max m n = A.stored) (hm : m ≤ n + 1) (hn : n ≤ m + 1) :
    ∃ h' k, Turned h c A (join s A x d (join s.other C y (A.stored + 2)
      (join s.other Q z (A.stored + 1) P))) x h' k (A.stored + 2) := by
  have hp := hP.stored_eq
  have hq := hQ.stored_eq
  have hc := hC.stored_eq
  have hheavy : Stands h (c.plug (join s A x d (join s (join s.other Q z (A.stored + 1) P) y
      (A.stored + 2) C))) := by
    rw [← join_other s C]
    exact hs
  have hrot := rotate_heavy hheavy (by omega)
  rw [stored_join, if_neg (by omega)] at hrot
  obtain ⟨hsnd, hs₁⟩ := hs.bigRotation
  have hrot' : rotate h x = .ok ((bigRotation s h x).1, z) := by rw [hrot, ← hsnd]
  have hx₁ : Stands (bigRotation s h x).1 ((Ctx.frame s z (A.stored + 1) (join s.other C y (A.stored + 2)
      Q) c).plug (join s A x d P)) := hs₁
  have hset := recalculateHeight_join hx₁.below (by omega) (by omega)
  have hx₂ := stands_setData hx₁ (max A.stored P.stored + 1)
  rw [← hset] at hx₂
  have hs₂ : Stands (recalculateHeight (bigRotation s h x).1 x) (c.plug (join s (join s A x
      (max A.stored P.stored + 1) P) z (A.stored + 1) (join s.other C y (A.stored + 2) Q))) := hx₂
  have hchildren := recalculateChildren_far hs₂ (settled_join (by omega) (by omega))
    (by rw [root_join]; exact hx₂.reads.ne_zero) (by omega) (by omega)
  have hy : Stands (recalculateHeight (bigRotation s h x).1 x) ((Ctx.frame s.other z (A.stored + 1) (join s A x
      (max A.stored P.stored + 1) P) c).plug (join s.other C y (A.stored + 2) Q)) := by
    rw [Ctx.plug_other]
    exact hs₂
  have hs₃ := stands_setData hy (max C.stored Q.stored + 1)
  rw [Ctx.plug_other] at hs₃
  have hparent : (recalculateHeight (bigRotation s h x).1 x).parent x = z := hx₂.reads.parent
  obtain ⟨h', hok, hs', hroot⟩ := turn_of_rotate hrot' (by rw [hparent, hchildren]) hs₃
    (by rw [stored_join]; omega) (by rw [stored_join]; omega)
  rw [stored_join, stored_join, hp, hq, hc] at hs'
  have hY : Avl (A.stored + 1) (join s.other C y (max A.stored n + 1) Q) :=
    avl_join.mpr ⟨_, _, hC, hQ, by omega, by omega, rfl, by omega⟩
  have hmax : max A.stored n + 1 = A.stored + 1 := by omega
  have htop : max (max A.stored m + 1) (A.stored + 1) + 1 = A.stored + 2 := by omega
  have hctx : CtxAvl (.frame s x (max A.stored m + 1) P (.frame s z (max (max A.stored m + 1)
      (A.stored + 1) + 1) (join s.other C y (max A.stored n + 1) Q) .top)) A.stored (A.stored + 2) := by
    refine .frame hP (by omega) (by omega) (.frame hY (by omega) (by omega) ?_)
    rw [htop]
    exact .top
  rw [hmax] at hs' hctx
  refine ⟨h', .frame s x (max A.stored m + 1) P (.frame s z (max (max A.stored m + 1) (A.stored + 1) + 1)
    (join s.other C y (A.stored + 1) Q) .top), hok, hs', hctx, ?_, ?_⟩
  · cases s <;> simp [Ctx.plug, join, Side.other]
  · intro hc
    rw [hroot hc]
    exact (root_join ..).symm

/-- A turn at a node whose side `s` is lower by two at most, or higher by one. -/
theorem turn_spec (hs : Stands h (c.plug (join s A x d B))) (hB : Avl b B) (hlow : b < 2 ^ 13)
    (hab : A.stored ≤ b + 1) (hba : b ≤ A.stored + 2) (hsib : SiblingSettled c) :
    ∃ h' k r, Turned h c A (join s A x d B) x h' k r ∧ max A.stored b ≤ r ∧ r ≤ max A.stored b + 1 ∧
      (b ≤ A.stored + 1 → r = max A.stored b + 1) := by
  by_cases hb : b ≤ A.stored + 1
  · obtain ⟨h', k, hturned⟩ := turn_balanced hs hB hlow hab hb hsib
    exact ⟨h', k, _, hturned, by omega, le_rfl, fun _ => rfl⟩
  · obtain rfl : b = A.stored + 2 := by omega
    obtain ⟨D, y, C, rfl⟩ := hB.exists_join s (by omega)
    obtain ⟨m, n, hD, hC, hmn, hnm, hmax, -⟩ := avl_join.mp hB
    by_cases houter : m ≤ n
    · obtain ⟨h', k, hturned⟩ := turn_single hs hD hC hlow (by omega) houter hnm
      exact ⟨h', k, _, hturned, by omega, by omega, fun he => absurd he hb⟩
    · obtain rfl : n = A.stored := by omega
      obtain rfl : m = A.stored + 1 := by omega
      obtain ⟨Q, z, P, rfl⟩ := hD.exists_join s.other (by omega)
      obtain ⟨mq, mp, hQ, hP, hqp, hpq, hmax', -⟩ := avl_join.mp hD
      rw [← join_other s C] at hs ⊢
      obtain ⟨h', k, hturned⟩ := turn_double hs hC hP hQ hlow (by omega) hpq hqp
      exact ⟨h', k, _, hturned, by omega, by omega, fun he => absurd he hb⟩

/-! ### The way to the root -/

theorem length_plug (c : Ctx ℕ) (t : BinTree ℕ) :
    (c.plug t).nodes.length = t.nodes.length + c.nodes.length := by
  rw [(c.perm_plug t).length_eq, List.length_append]

theorem siblingSettled {m n : ℕ} (hc : CtxAvl c m n) (hlen : c.nodes.length < 2 ^ 64) :
    SiblingSettled c := by
  cases hc with
  | top => exact trivial
  | frame hs _ _ _ =>
    simp only [Ctx.nodes, List.length_cons, List.length_append] at hlen
    have hlow := hs.le_of_length (by omega)
    exact settled_of_avl hs (by omega)

theorem rebalanceToRoot_null (turns : ℕ) (h : Heap ℕ) : rebalanceToRoot turns h 0 = .ok h := by
  cases turns <;> rfl

/-- The subtree at the place was `m` high, and the turn there leaves it so or makes it lower by
one. Then all the way up the heights and balances are right. -/
theorem rebalanceToRoot_spec {m n turns : ℕ} (hs : Stands h (c.plug (join s A x d B))) (hB : Avl b B)
    (hlen : (c.plug (join s A x d B)).nodes.length < 2 ^ 64) (hab : A.stored ≤ b + 1)
    (hba : b ≤ A.stored + 2) (hc : CtxAvl c m n) (hle : max A.stored b + 1 ≤ m)
    (hge : m ≤ max A.stored b + 2) (hheavy : A.stored + 2 ≤ b → m = max A.stored b + 1)
    (hturns : c.depth < turns) :
    ∃ h' k n', rebalanceToRoot turns h x = .ok h' ∧ IsTree h' (k.plug A) ∧ CtxAvl k A.stored n' ∧
      (k.plug A).nodes = (c.plug (join s A x d B)).nodes := by
  induction c generalizing h s A x d B b m turns with
  | top =>
    obtain ⟨j, rfl⟩ : ∃ j, turns = j + 1 := ⟨turns - 1, by omega⟩
    rw [Ctx.plug, (nodes_join_perm ..).length_eq, List.length_cons, List.length_append] at hlen
    have hlow := hB.le_of_length (by omega)
    obtain ⟨h', k, r, hturned, -⟩ := turn_spec hs hB (by omega) hab hba trivial
    refine ⟨h', k, r, ?_, ?_, hturned.ctx, hturned.nodes⟩
    · rw [rebalanceToRoot_succ j hs.reads.ne_zero, hturned.ok]
      exact rebalanceToRoot_null j h'
    · exact ⟨hturned.root rfl, hturned.stands.holds, hturned.stands.nodup⟩
  | frame s' p dp S up ih =>
    obtain ⟨j, rfl⟩ : ∃ j, turns = j + 1 := ⟨turns - 1, by omega⟩
    have hwhole := hlen
    rw [length_plug, (nodes_join_perm ..).length_eq, List.length_cons, List.length_append] at hlen
    have hlow := hB.le_of_length (by omega)
    obtain ⟨h₁, k, r, hturned, hr, hr', hr''⟩ :=
      turn_spec hs hB (by omega) hab hba (siblingSettled hc (by omega))
    have hstored := hturned.ctx.stored_plug rfl
    cases hc with
    | @frame _ _ _ _ _ e _ hS hme hem hup =>
      have hs₁ : Stands h₁ (up.plug (join s' (k.plug A) p (max m e + 1) S)) := hturned.stands
      have hnodes : (up.plug (join s' (k.plug A) p (max m e + 1) S)).nodes =
          ((Ctx.frame s' p (max m e + 1) S up).plug (join s A x d B)).nodes := hturned.nodes_plug
      rw [← hnodes] at hwhole
      have hdepth : up.depth < j := by
        have hd : (Ctx.frame s' p (max m e + 1) S up).depth = up.depth + 1 := rfl
        omega
      obtain ⟨h', k', n', hok, ht', hctx, hnodes'⟩ := ih hs₁ hS hwhole (by omega) (by omega) hup
        (by omega) (by omega) (fun _ => by omega) hdepth
      rw [hstored] at hctx
      refine ⟨h', k.comp k', n', ?_, ?_, hturned.ctx.comp hctx, ?_⟩
      · rw [rebalanceToRoot_succ j hs.reads.ne_zero, hturned.ok]
        exact hok
      · rw [Ctx.plug_comp]
        exact ht'
      · rw [Ctx.plug_comp, hnodes', hnodes]

end MaiFaSp.SearchTree.AVL
