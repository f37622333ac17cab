import MaiFaSp.RedBlack.Links

/-!
# The red-black code keeps the nodes in order

Whatever the colours are, setting a colour and rotating at a node of the tree keep
the links consistent and the nodes in order. The two loops that set the colours
right do nothing else.
-/

namespace MaiFaSp.RedBlack

open LinkedTree BinTree

/-- A small rotation rotates where it can, and does nothing where it cannot. -/
structure LawfulRotation (rot : Rotation) : Prop where
  rotated : ∀ {h : Heap Color} {c : Ctx Color} {s : Side} {A B C : BinTree Color} {n r : ℕ}
    {dn dr : Color}, IsTree h (c.plug (join s A n dn (join s B r dr C))) →
    Rotated h (rot s h c.link) s c.link c.parent n r B.root
  stuck : ∀ {h : Heap Color} {c : Ctx Color} {s : Side} {A : BinTree Color} {n : ℕ} {dn : Color},
    IsTree h (c.plug (join s A n dn nil)) → rot s h c.link = h

variable {rot : Rotation}

theorem LawfulRotation.isTree (hrot : LawfulRotation rot) {h : Heap Color} {c : Ctx Color}
    {s : Side} {A B C : BinTree Color} {n r : ℕ} {dn dr : Color}
    (ht : IsTree h (c.plug (join s A n dn (join s B r dr C)))) :
    IsTree (rot s h c.link) (c.plug (join s (join s A n dn B) r dr C)) :=
  ht.rotate (hrot.rotated ht)

theorem LawfulRotation.parent_eq (hrot : LawfulRotation rot) {h : Heap Color} {xs : List ℕ} {n y : ℕ}
    (hi : InOrder h xs) (hn : n ∈ xs) (s : Side) (hy0 : y ≠ 0) (hy : y ∉ xs) :
    (rot s h (h.linkTo n)).parent y = h.parent y := by
  obtain ⟨c, l, d, r, ht, rfl⟩ := hi.focus hn
  have hlink : h.linkTo n = c.link := ht.linkTo_eq ht.focus.2.1
  rw [hlink]
  obtain ⟨A, B, he⟩ := node_eq_join s l r n d
  rw [he] at ht hy
  cases B with
  | nil => rw [hrot.stuck ht]
  | node l' r₁ d' r' =>
    obtain ⟨A', B', he'⟩ := node_eq_join s l' r' r₁ d'
    rw [he'] at ht hy
    simp only [Ctx.mem_nodes_plug, mem_nodes_join, not_or] at hy
    obtain ⟨⟨hyn, -, hyr, hyA, -⟩, hyc⟩ := hy
    have hne : y ≠ A'.root := fun he => hyA (he ▸ root_mem (he ▸ hy0))
    rw [Heap.parent, (hrot.rotated ht).rest y hy0 hyn hyr hne, set_cell_of_notMem hyc, Heap.parent]

theorem LawfulRotation.inOrder (hrot : LawfulRotation rot) {h : Heap Color} {xs : List ℕ} {n : ℕ}
    (hi : InOrder h xs) (hn : n ∈ xs) (s : Side) : InOrder (rot s h (h.linkTo n)) xs := by
  obtain ⟨c, l, d, r, ht, rfl⟩ := hi.focus hn
  have hlink : h.linkTo n = c.link := ht.linkTo_eq ht.focus.2.1
  rw [hlink]
  obtain ⟨A, B, he⟩ := node_eq_join s l r n d
  rw [he] at ht ⊢
  cases B with
  | nil =>
    rw [hrot.stuck ht]
    exact ⟨_, ht, rfl⟩
  | node l' y d' r' =>
    obtain ⟨A', B', he'⟩ := node_eq_join s l' r' y d'
    rw [he'] at ht ⊢
    refine ⟨_, hrot.isTree ht, ?_⟩
    rw [Ctx.nodes_plug, Ctx.nodes_plug, nodes_rotate]

/-! ### The loop after an insertion -/

theorem insertTurn_inOrder (hrot : LawfulRotation rot) {h h' : Heap Color} {xs : List ℕ}
    {side : Side} {z z' parent grand : ℕ} (hi : InOrder h xs) (hz : z ∈ xs)
    (hp : parent ∈ xs) (hg : grand ∈ xs)
    (hok : insertTurn rot side h z parent grand = .ok (h', z')) : InOrder h' xs ∧ z' ∈ xs := by
  unfold insertTurn at hok
  dsimp only at hok
  split at hok
  case isTrue hu =>
    cases hok
    exact ⟨((hi.setData _ _).setData _ _).setData _ _, hg⟩
  case isFalse hu =>
    split at hok
    case isTrue hinner =>
      obtain ⟨_, -, hok⟩ := bind_eq_ok.mp hok
      cases hok
      have h₁ := hrot.inOrder hi hp side
      exact ⟨hrot.inOrder ((h₁.setData _ _).setData _ _) hg _, hp⟩
    case isFalse hinner =>
      obtain ⟨_, -, hok⟩ := bind_eq_ok.mp hok
      cases hok
      exact ⟨hrot.inOrder ((hi.setData _ _).setData _ _) hg _, hz⟩

theorem insertLoop_inOrder (hrot : LawfulRotation rot) {n : ℕ} {h h' : Heap Color} {xs : List ℕ}
    {z : ℕ} (hi : InOrder h xs) (hz : z ∈ xs) (hok : insertLoop rot n h z = .ok h') :
    InOrder h' xs := by
  induction n generalizing h z with
  | zero => cases hok
  | succ n ih =>
    rw [insertLoop] at hok
    split at hok
    case isTrue hroot =>
      cases hok
      exact hi
    case isFalse hroot =>
      obtain ⟨_, -, hok⟩ := bind_eq_ok.mp hok
      obtain ⟨_, hparent, hok⟩ := bind_eq_ok.mp hok
      split at hok
      case isTrue hblack =>
        cases hok
        exact hi
      case isFalse hred =>
        obtain ⟨_, hgrand, hok⟩ := bind_eq_ok.mp hok
        obtain ⟨⟨h₁, z₁⟩, hturn, hok⟩ := bind_eq_ok.mp hok
        have hp := (hi.parent_mem hz).resolve_left (deref_eq_ok.mp hparent)
        have hg := (hi.parent_mem hp).resolve_left (deref_eq_ok.mp hgrand)
        obtain ⟨hi₁, hz₁⟩ := insertTurn_inOrder hrot hi hz hp hg hturn
        exact ih hi₁ hz₁ hok

theorem insertFix_inOrder (hrot : LawfulRotation rot) {n : ℕ} {h h' : Heap Color} {xs : List ℕ}
    {z : ℕ} (hi : InOrder h xs) (hz : z ∈ xs) (hok : insertFix rot n h z = .ok h') :
    InOrder h' xs := by
  obtain ⟨h₁, hloop, hok⟩ := bind_eq_ok.mp hok
  obtain ⟨_, -, hok⟩ := bind_eq_ok.mp hok
  cases hok
  exact (insertLoop_inOrder hrot hi hz hloop).setData _ _

/-! ### The loop after a removal -/

/-- What holds of a heap whatever the colours are, and comes through rotations at the nodes `xs`. -/
structure Steady (rot : Rotation) (xs : List ℕ) (P : Heap Color → Prop) : Prop where
  inOrder : ∀ {h}, P h → InOrder h xs
  setData : ∀ {h} (y : ℕ) (d : Color), P h → P (h.setData y d)
  rotate : ∀ {h n}, P h → n ∈ xs → ∀ s, P (rot s h (h.linkTo n))

section

variable {xs : List ℕ} {P : Heap Color → Prop} {h h' : Heap Color} {xp w : ℕ} {again : Bool}

theorem redSibling_keeps (hs : Steady rot xs P) (hP : P h) (hxp : xp ∈ xs) (side : Side) (w : ℕ) :
    P (redSibling rot side h xp w).1 := by
  unfold redSibling
  split
  case isTrue hred => exact hs.rotate (hs.setData _ _ (hs.setData _ _ hP)) hxp _
  case isFalse hred => exact hP

theorem redSibling_mem (hs : Steady rot xs P) (hP : P h) (hxp : xp ∈ xs) (hw : w ∈ xs) (side : Side) :
    (redSibling rot side h xp w).2 = 0 ∨ (redSibling rot side h xp w).2 ∈ xs := by
  have hP' := redSibling_keeps hs hP hxp side w
  unfold redSibling at hP' ⊢
  split
  case isTrue hred =>
    rw [if_pos hred] at hP'
    exact (hs.inOrder hP').child_mem hxp _
  case isFalse hred => exact Or.inr hw

theorem mem_of_child_red {side : Side} (hw : w = 0 ∨ w ∈ xs)
    (hred : ¬ childIsBlack h w side = true) : w ∈ xs := by
  apply hw.resolve_left
  rintro rfl
  exact hred (by unfold childIsBlack color; simp)

theorem innerRedLeft_keeps (hs : Steady rot xs P) (hP : P h) (hw : w = 0 ∨ w ∈ xs) (xp : ℕ) :
    P (innerRedLeft rot h xp w).1 := by
  unfold innerRedLeft
  split
  case isTrue hred =>
    exact hs.rotate (hs.setData _ _ (hs.setData _ _ hP)) (mem_of_child_red hw hred.1) _
  case isFalse hred => exact hP

theorem innerRedRight_keeps (hs : Steady rot xs P) (hP : P h) (hxp : xp ∈ xs) (w : ℕ) :
    P (innerRedRight rot h xp w).1 := by
  unfold innerRedRight
  split
  case isTrue hred => exact hs.rotate (hs.setData _ _ (hs.setData _ _ hP)) hxp _
  case isFalse hred => exact hP

theorem removeTurnLeft_keeps (hs : Steady rot xs P) (hP : P h) (hxp : xp ∈ xs) (hw : w ∈ xs)
    (hok : removeTurnLeft rot h xp w = .ok (h', again)) : P h' := by
  have h₁ := redSibling_keeps hs hP hxp .left w
  have hw₁ := redSibling_mem hs hP hxp hw .left
  unfold removeTurnLeft at hok
  generalize redSibling rot .left h xp w = p at hok h₁ hw₁
  dsimp only at hok
  split at hok
  case isTrue hblack =>
    cases hok
    split
    · exact hs.setData _ _ h₁
    · exact h₁
  case isFalse hred =>
    have h₂ := innerRedLeft_keeps hs h₁ hw₁ xp
    generalize innerRedLeft rot p.1 xp p.2 = q at hok h₂
    obtain ⟨_, -, hok⟩ := bind_eq_ok.mp hok
    cases hok
    have h₃ := hs.setData xp .black (hs.setData q.2 (q.1.data xp) h₂)
    split
    · exact hs.rotate (hs.setData _ _ h₃) hxp _
    · exact hs.rotate h₃ hxp _

theorem removeTurnRight_keeps (hs : Steady rot xs P) (hP : P h) (hxp : xp ∈ xs)
    (hok : removeTurnRight rot h xp w = .ok (h', again)) : P h' := by
  have h₁ := redSibling_keeps hs hP hxp .right w
  unfold removeTurnRight at hok
  generalize redSibling rot .right h xp w = p at hok h₁
  dsimp only at hok
  split at hok
  case isTrue hblack =>
    cases hok
    split
    · exact hs.setData _ _ h₁
    · exact h₁
  case isFalse hred =>
    have h₂ := innerRedRight_keeps hs h₁ hxp p.2
    generalize innerRedRight rot p.1 xp p.2 = q at hok h₂
    obtain ⟨_, -, hok⟩ := bind_eq_ok.mp hok
    obtain ⟨_, -, hok⟩ := bind_eq_ok.mp hok
    cases hok
    exact hs.rotate (hs.setData _ _ (hs.setData _ _ (hs.setData _ _ h₂))) hxp _

theorem removeLoop_keeps (hs : Steady rot xs P) {n x x' : ℕ} (hP : P h) (hx : x = 0 ∨ x ∈ xs)
    (hok : removeLoop rot n h x = .ok (h', x')) : P h' := by
  induction n generalizing h x with
  | zero => cases hok
  | succ n ih =>
    rw [removeLoop] at hok
    dsimp only at hok
    split at hok
    case isTrue hend =>
      cases hok
      exact hP
    case isFalse hgo =>
      generalize hxp : (if x ≠ 0 then h.parent x else 0) = xp at hok
      split at hok
      case isTrue htop =>
        cases hok
        split
        · exact hs.setData _ _ hP
        · exact hP
      case isFalse hne =>
        have hi := hs.inOrder hP
        have hx0 : x ≠ 0 := by
          rintro rfl
          exact hne hxp.symm
        rw [if_pos hx0] at hxp
        have hp : xp ∈ xs := by
          rw [← hxp] at hne ⊢
          exact (hi.parent_mem (hx.resolve_left hx0)).resolve_left hne
        generalize hw : (if x = h.left xp then h.right xp else h.left xp) = w at hok
        by_cases hw0 : w = 0
        · rw [if_pos hw0] at hok
          exact ih hP (Or.inr hp) hok
        · rw [if_neg hw0] at hok
          obtain ⟨⟨h₁, again⟩, hturn, hok⟩ := bind_eq_ok.mp hok
          have hP₁ : P h₁ := by
            unfold removeTurn at hturn
            split at hturn
            case isTrue hleft =>
              rw [if_pos hleft] at hw
              rw [← hw] at hw0 hturn
              have hmem := (hi.child_mem hp .right).resolve_left hw0
              exact removeTurnLeft_keeps hs hP hp hmem hturn
            case isFalse hright => exact removeTurnRight_keeps hs hP hp hturn
          dsimp only at hok
          split at hok
          · exact ih hP₁ (Or.inr hp) hok
          · cases hok
            exact hP₁

theorem removeFix_keeps (hs : Steady rot xs P) {n x x' : ℕ} {oc : Color} (hP : P h)
    (hx : x = 0 ∨ x ∈ xs) (hok : removeFix rot n h x oc = .ok (h', x')) : P h' := by
  unfold removeFix at hok
  split at hok
  case isTrue hblack =>
    obtain ⟨⟨h₁, x₁⟩, hloop, hok⟩ := bind_eq_ok.mp hok
    cases hok
    have hP₁ := removeLoop_keeps hs hP hx hloop
    split
    · exact hs.setData _ _ hP₁
    · exact hP₁
  case isFalse hred =>
    cases hok
    exact hP

end

/-- The order of the nodes, and the parent of a node that is not in the tree. -/
theorem steady_parent (hrot : LawfulRotation rot) {xs : List ℕ} {z p : ℕ} (hz0 : z ≠ 0) (hz : z ∉ xs) :
    Steady rot xs fun h => InOrder h xs ∧ h.parent z = p where
  inOrder h := h.1
  setData := by
    rintro h y d ⟨hi, hp⟩
    refine ⟨hi.setData _ _, ?_⟩
    rw [← hp, Heap.parent, Heap.cell_setData]
    split <;> rfl
  rotate := by
    rintro h n ⟨hi, hp⟩ hn s
    exact ⟨hrot.inOrder hi hn s, (hrot.parent_eq hi hn s hz0 hz).trans hp⟩

end MaiFaSp.RedBlack

/-!
## Where a node is linked in

The search goes down to a missing child. The nodes before that place are those that
the search would leave to the left, and the nodes after it the others.
-/

namespace MaiFaSp.RedBlack

open LinkedTree BinTree

variable {τ : Type*}

/-- The path to the place turns to the left where `goLeft` says so. -/
def Follows (goLeft : ℕ → Bool) : Ctx τ → Prop
  | .top => True
  | .frame s x _ _ up => (goLeft x = true ↔ s = .left) ∧ Follows goLeft up

theorem follows_comp {goLeft : ℕ → Bool} {k c : Ctx τ} :
    Follows goLeft (k.comp c) ↔ Follows goLeft k ∧ Follows goLeft c := by
  induction k with
  | top => simp [Ctx.comp, Follows]
  | frame s x d sib up ih => simp [Ctx.comp, Follows, ih, and_assoc]

/-- The way down from the root of a tree to a missing child. -/
def descent (goLeft : ℕ → Bool) : BinTree τ → Ctx τ
  | nil => .top
  | node l x d r =>
    if goLeft x then (descent goLeft l).comp (.frame .left x d r .top)
    else (descent goLeft r).comp (.frame .right x d l .top)

theorem descent_plug (goLeft : ℕ → Bool) (u : BinTree τ) : (descent goLeft u).plug nil = u := by
  induction u with
  | nil => rfl
  | node l x d r ihl ihr =>
    rw [descent]
    split
    · rw [Ctx.plug_comp, ihl]
      rfl
    · rw [Ctx.plug_comp, ihr]
      rfl

theorem descent_follows (goLeft : ℕ → Bool) (u : BinTree τ) : Follows goLeft (descent goLeft u) := by
  induction u with
  | nil => exact trivial
  | node l x d r ihl ihr =>
    rw [descent]
    split
    case isTrue hgo => exact follows_comp.mpr ⟨ihl, by simp [Follows, hgo]⟩
    case isFalse hgo => exact follows_comp.mpr ⟨ihr, by simp [Follows, hgo]⟩

theorem parent_comp_frame (k c : Ctx τ) (s : Side) (x : ℕ) (d : τ) (sib : BinTree τ) :
    ((k.comp (.frame s x d sib .top)).comp c).parent = (k.comp (.frame s x d sib c)).parent := by
  cases k <;> rfl

theorem searchParent_below (goLeft : ℕ → Bool) {h : Heap Color} {c : Ctx Color} {u : BinTree Color} {n : ℕ}
    (ht : IsTree h (c.plug u)) (hn : u.nodes.length < n) :
    searchParent h goLeft n c.parent u.root = .ok ((descent goLeft u).comp c).parent := by
  induction u generalizing c n with
  | nil =>
    obtain ⟨n, rfl⟩ : ∃ m, n = m + 1 := ⟨n - 1, by omega⟩
    rw [searchParent, root_nil, if_pos rfl]
    rfl
  | node l x d r ihl ihr =>
    obtain ⟨-, hx, hcell, -⟩ := ht.focus
    rw [nodes_node, List.length_append, List.length_cons] at hn
    obtain ⟨n, rfl⟩ : ∃ m, n = m + 1 := ⟨n - 1, by omega⟩
    rw [root_node, searchParent, if_neg hx, Heap.left, Heap.right, hcell, descent]
    split
    · have htl : IsTree h ((Ctx.frame .left x d r c).plug l) := ht
      rw [parent_comp_frame]
      exact ihl (n := n) htl (by omega)
    · have htr : IsTree h ((Ctx.frame .right x d l c).plug r) := ht
      rw [parent_comp_frame]
      exact ihr (n := n) htr (by omega)

theorem searchParent_spec (goLeft : ℕ → Bool) {h : Heap Color} {t : BinTree Color} {n : ℕ} (ht : IsTree h t)
    (hn : t.nodes.length < n) :
    ∃ c : Ctx Color, t = c.plug nil ∧ Follows goLeft c ∧
      searchParent h goLeft n 0 h.root = .ok c.parent := by
  have htop : IsTree h (Ctx.top.plug t) := ht
  refine ⟨descent goLeft t, (descent_plug goLeft t).symm, descent_follows goLeft t, ?_⟩
  rw [ht.root]
  refine (searchParent_below goLeft htop hn).trans ?_
  have hcomp : ((descent goLeft t).comp Ctx.top).parent = (descent goLeft t).parent := by
    cases descent goLeft t <;> rfl
  rw [hcomp]

/-- Where the nodes to go left at come last, they are the nodes after the place. -/
theorem Follows.splits {goLeft : ℕ → Bool} {c : Ctx τ} (hc : Follows goLeft c) (u : BinTree τ)
    (hmono : (c.plug u).nodes.Pairwise fun a b => goLeft a = true → goLeft b = true) :
    (∀ y ∈ c.before, goLeft y = false) ∧ ∀ y ∈ c.after, goLeft y = true := by
  induction c generalizing u with
  | top =>
    constructor
    · intro y hy
      cases hy
    · intro y hy
      cases hy
  | frame s x d sib up ih =>
    obtain ⟨hx, hup⟩ := hc
    obtain ⟨hbefore, hafter⟩ := ih hup _ hmono
    have hsub := hmono
    rw [Ctx.plug, Ctx.nodes_plug, List.pairwise_append] at hsub
    have hjoin := (List.pairwise_append.mp hsub.2.1).1
    cases s with
    | left =>
      have hgo := hx.mpr rfl
      have hnode : (u.nodes ++ x :: sib.nodes).Pairwise fun a b => goLeft a = true → goLeft b = true :=
        hjoin
      have hright := (List.pairwise_cons.mp (List.pairwise_append.mp hnode).2.1).1
      refine ⟨hbefore, ?_⟩
      intro y hy
      rcases List.mem_append.mp hy with hy | hy
      · rcases List.mem_cons.mp hy with rfl | hy
        · exact hgo
        · exact hright y hy hgo
      · exact hafter y hy
    | right =>
      have hgo : goLeft x = false := by
        cases hgo : goLeft x with
        | true => exact absurd (hx.mp hgo) (by decide)
        | false => rfl
      have hnode : (sib.nodes ++ x :: u.nodes).Pairwise fun a b => goLeft a = true → goLeft b = true :=
        hjoin
      refine ⟨?_, hafter⟩
      intro y hy
      rcases List.mem_append.mp hy with hy | hy
      · exact hbefore y hy
      rcases List.mem_append.mp hy with hy | hy
      · have hle := (List.pairwise_append.mp hnode).2.2 y hy x (by simp)
        cases hy' : goLeft y with
        | true => exact absurd (hle hy') (by rw [hgo]; decide)
        | false => rfl
      · rw [List.mem_singleton.mp hy]
        exact hgo

theorem link_isTree {h h' : Heap τ} {c : Ctx τ} {z : ℕ} {d : τ} (ht : IsTree h (c.plug nil))
    (hz : z ≠ 0) (hfresh : z ∉ (c.plug (nil : BinTree τ)).nodes)
    (hroot : h'.root = (h.set c.link z).root) (hcell : h'.cell z = ⟨0, 0, c.parent, d⟩)
    (hrest : ∀ y, y ≠ z → h'.cell y = (h.set c.link z).cell y) :
    IsTree h' (c.plug (node nil z d nil)) := by
  have hzc : z ∉ c.nodes := fun hm => hfresh (Ctx.mem_nodes_plug.mpr (Or.inr hm))
  refine ht.replace hroot ?_ ⟨hz, hcell, trivial, trivial⟩ (by simp) ?_
  · intro y hy
    apply hrest
    rintro rfl
    exact hzc hy
  · intro y hy
    have hyz : y = z := by simpa using hy
    rw [hyz]
    exact hzc

end MaiFaSp.RedBlack
