import MaiFaSp.RedBlack.InOrder

/-!
# Insertion into a red-black tree

The loop after an insertion keeps a tree that is red-black but for the red node `z`,
whose parent may be red as well. A turn that recolours moves `z` up by two nodes, and
a turn that rotates is the last one.
-/

namespace MaiFaSp.RedBlack

open LinkedTree BinTree

variable {rot : Rotation} {h : Heap Color} {up : Ctx Color} {Z S P U : BinTree Color}
  {s s₂ : Side} {x g u : ℕ}

/-- 1. The parent, the uncle and the grandparent change colours. -/
theorem insertTurn_recolor (ht : IsTree h (up.plug (join s₂ (join s Z x .red S) g .black
      (node P u .red U)))) :
    ∃ h', insertTurn rot s₂ h Z.root x g = .ok (h', g) ∧
      IsTree h' (up.plug (join s₂ (join s Z x .black S) g .red (node P u .black U))) := by
  have hr := ht.reads
  have htu : IsTree h ((Ctx.frame s₂.other g .black (join s Z x .red S) up).plug
      (node P u .red U)) := by
    rw [Ctx.plug, join_other]
    exact ht
  have hu := htu.reads (s := .left)
  have htx : IsTree h ((Ctx.frame s₂ g .black (node P u .red U) up).plug (join s Z x .red S)) := ht
  have h₁ := htx.setData_join .black
  have h₁' : IsTree (h.setData x .black) ((Ctx.frame s₂.other g .black (join s Z x .black S) up).plug
      (node P u .red U)) := by
    rw [Ctx.plug, join_other]
    exact h₁
  have h₂ := h₁'.setData .black
  have h₂' : IsTree ((h.setData x .black).setData u .black) (up.plug (join s₂ (join s Z x .black S) g
      .black (node P u .black U))) := by
    rw [Ctx.plug, join_other] at h₂
    exact h₂
  refine ⟨_, ?_, h₂'.setData_join .red⟩
  unfold insertTurn
  dsimp only
  rw [hr.other, if_pos ⟨hu.ne_zero, hu.data⟩]
  rfl

/-- 3. The rotation at the grandparent. -/
theorem insertTurn_rotate (hrot : LawfulRotation rot)
    (ht : IsTree h (up.plug (join s (join s Z x .red S) g .black U))) :
    IsTree (rot s.other ((h.setData x .black).setData g .red)
        (((h.setData x .black).setData g .red).linkTo g))
      (up.plug (join s Z x .black (join s S g .red U))) := by
  have htx : IsTree h ((Ctx.frame s g .black U up).plug (join s Z x .red S)) := ht
  have h₁ : IsTree (h.setData x .black) (up.plug (join s (join s Z x .black S) g .black U)) :=
    htx.setData_join .black
  have h₂ := h₁.setData_join .red
  have hg : (join s (join s Z x .black S) g .red U).root ≠ 0 := by
    rw [root_join]
    exact h₁.reads.ne_zero
  have hlink := h₂.linkTo_eq hg
  rw [root_join] at hlink
  rw [hlink]
  rw [← join_other s U, ← join_other s S] at h₂
  have h₃ := hrot.isTree h₂
  rw [join_other, join_other] at h₃
  exact h₃

theorem insertTurn_outer (hrot : LawfulRotation rot)
    (ht : IsTree h (up.plug (join s (join s Z x .red S) g .black U))) (hZ : Z.root ≠ 0)
    (huncle : ¬ (U.root ≠ 0 ∧ h.data U.root = .red)) :
    ∃ h', insertTurn rot s h Z.root x g = .ok (h', Z.root) ∧
      IsTree h' (up.plug (join s Z x .black (join s S g .red U))) := by
  have hr := ht.reads
  have htx : IsTree h ((Ctx.frame s g .black U up).plug (join s Z x .red S)) := ht
  have hx := htx.reads
  have hne := htx.child_ne hZ
  refine ⟨_, ?_, insertTurn_rotate hrot ht⟩
  unfold insertTurn
  dsimp only
  rw [hr.other, if_neg huncle, hx.other, if_neg hne]
  dsimp only
  rw [deref_of_ne hx.ne_zero]
  rfl

/-- 2. The rotation at the parent comes first. -/
theorem insertTurn_inner (hrot : LawfulRotation rot) {z : ℕ}
    (ht : IsTree h (up.plug (join s (join s S x .red (join s Z z .red P)) g .black U)))
    (huncle : ¬ (U.root ≠ 0 ∧ h.data U.root = .red)) :
    ∃ h', insertTurn rot s h z x g = .ok (h', x) ∧
      IsTree h' (up.plug (join s (join s S x .red Z) z .black (join s P g .red U))) := by
  have hr := ht.reads
  have htx : IsTree h ((Ctx.frame s g .black U up).plug (join s S x .red (join s Z z .red P))) := ht
  have hx := htx.reads
  rw [root_join] at hx
  have hx0 : (join s S x .red (join s Z z .red P)).root ≠ 0 := by
    rw [root_join]
    exact hx.ne_zero
  have hlink := htx.linkTo_eq hx0
  rw [root_join] at hlink
  have h₁ := hrot.isTree htx
  have hz := h₁.reads
  have hx₁ : IsTree (rot s h (Ctx.frame s g .black U up).link)
      ((Ctx.frame s z .red P (.frame s g .black U up)).plug (join s S x .red Z)) := h₁
  refine ⟨_, ?_, insertTurn_rotate hrot h₁⟩
  unfold insertTurn
  dsimp only
  rw [hr.other, if_neg huncle, hx.other, if_pos rfl]
  dsimp only
  rw [hlink, hx₁.reads.parent, deref_of_ne (show (Ctx.frame s z .red P (.frame s g .black U
    up)).parent ≠ 0 from hz.ne_zero)]
  rfl

/-! ### The loop -/

section Loop

variable {k : Ctx Color} {t S U : BinTree Color} {c : Color} {n m p : ℕ}

theorem data_of_balanced (ht : IsTree h (k.plug t)) (hb : Balanced c n t) (hne : t.root ≠ 0) :
    h.data t.root = c := by
  cases t with
  | nil => exact absurd rfl hne
  | node l y d r =>
    have hread : IsTree h (k.plug (join .left l y d r)) := ht
    exact hread.reads.data.trans hb.color_eq

theorem insertLoop_black (ht : IsTree h ((Ctx.frame s p .black U k).plug t)) (hz : t.root ≠ 0) :
    insertLoop rot (m + 1) h t.root = .ok h := by
  have hp := ht.parent_focus hz
  have hread : IsTree h (k.plug (join s t p .black U)) := ht
  have hdata : h.data (h.parent t.root) = .black := by
    rw [hp]
    exact hread.reads.data
  have hroot : t.root ≠ h.root := by
    intro he
    cases (ht.root_eq_iff hz).mp he
  have hparent : h.parent t.root ≠ 0 := by
    rw [hp]
    exact hread.reads.ne_zero
  unfold insertLoop
  rw [if_neg hroot, deref_of_ne hz, deref_of_ne hparent]
  show (if h.data (h.parent t.root) ≠ .red then pure h else _) = _
  rw [hdata, if_pos (by decide)]
  rfl

/-- Where a turn can lead: `z` is two nodes further up, or the tree is red-black and `z` has a
black parent. -/
inductive Turned (h' : Heap Color) (up : Ctx Color) (n : ℕ) : ℕ → Prop
  | recolored {t' : BinTree Color} (ht : IsTree h' (up.plug t')) (hb : Balanced .red (n + 1) t') :
      Turned h' up n t'.root
  | rotated {s : Side} {p : ℕ} {t' sib : BinTree Color} (hz : t'.root ≠ 0)
      (ht : IsTree h' ((Ctx.frame s p .black sib up).plug t'))
      (hb : Balanced .black (n + 1) (join s t' p .black sib)) : Turned h' up n t'.root

theorem insertTurn_spec (hrot : LawfulRotation rot)
    (ht : IsTree h ((Ctx.frame s x .red S (.frame s₂ g .black U up)).plug t))
    (hb : Balanced .red n t) (hS : Balanced .black n S) (hU : Balanced c n U) :
    ∃ h' z, insertTurn rot s₂ h t.root x g = .ok (h', z) ∧ Turned h' up n z := by
  have ht' : IsTree h (up.plug (join s₂ (join s t x .red S) g .black U)) := ht
  cases c with
  | red =>
    cases hU with
    | @red n P u Q hP hQ =>
      obtain ⟨h', hok, ht₁⟩ := insertTurn_recolor ht'
      have hbal : Balanced .red (n + 1) (join s₂ (join s t x .black S) g .red (node P u .black Q)) :=
        balanced_join_red.mpr
          ⟨rfl, balanced_join_black.mpr ⟨rfl, n, _, _, rfl, hb, hS⟩, .black hP hQ⟩
      have hturned := Turned.recolored ht₁ hbal
      rw [root_join] at hturned
      exact ⟨h', g, hok, hturned⟩
  | black =>
    have huncle : ¬ (U.root ≠ 0 ∧ h.data U.root = .red) := by
      rintro ⟨hne, hred⟩
      have htu : IsTree h ((Ctx.frame s₂.other g .black (join s t x .red S) up).plug U) := by
        rw [Ctx.plug, join_other]
        exact ht'
      rw [data_of_balanced htu hU hne] at hred
      cases hred
    by_cases hs : s = s₂
    · -- `z` is on the outer side
      subst hs
      have hne : t.root ≠ 0 := by
        cases hb with
        | red hl hr => exact ht.focus.2.1
      obtain ⟨h', hok, ht₁⟩ := insertTurn_outer hrot ht' hne huncle
      exact ⟨h', t.root, hok, .rotated hne ht₁ (balanced_join_black.mpr
        ⟨rfl, n, _, _, rfl, hb, balanced_join_red.mpr ⟨rfl, hS, hU⟩⟩)⟩
    · -- `z` is on the inner side
      obtain rfl : s = s₂.other := by cases s <;> cases s₂ <;> simp_all [Side.other]
      cases hb with
      | @red n l z r hl hr =>
        obtain ⟨Z, P, hZP⟩ := node_eq_join s₂ l r z .red
        have hbz := Balanced.red hl hr (x := z)
        rw [hZP] at ht' hbz ⊢
        rw [join_other] at ht'
        obtain ⟨-, hZ, hP⟩ := balanced_join_red.mp hbz
        obtain ⟨h', hok, ht₁⟩ := insertTurn_inner hrot ht' huncle
        have hbal : Balanced .black (n + 1)
            (join s₂ (join s₂ S x .red Z) z .black (join s₂ P g .red U)) :=
          balanced_join_black.mpr ⟨rfl, n, _, _, rfl, balanced_join_red.mpr ⟨rfl, hS, hZ⟩,
            balanced_join_red.mpr ⟨rfl, hP, hU⟩⟩
        have hx : (join s₂ S x .red Z).root ≠ 0 := by
          rw [root_join]
          exact ht.focus.1.1
        have hturned := Turned.rotated hx ht₁ hbal
        rw [root_join] at hturned ⊢
        exact ⟨h', x, hok, hturned⟩

theorem insertLoop_red
    (ht : IsTree h ((Ctx.frame s x .red S (.frame s₂ g .black U up)).plug t)) (hz : t.root ≠ 0) :
    insertLoop rot (m + 1) h t.root =
      (do let (h', z) ← insertTurn rot s₂ h t.root x g
          insertLoop rot m h' z) := by
  have hp : h.parent t.root = x := ht.parent_focus hz
  have hx : IsTree h ((Ctx.frame s₂ g .black U up).plug (join s t x .red S)) := ht
  have hxr := hx.reads
  have hpx : h.parent x = g := hxr.parent
  have hg : IsTree h (up.plug (join s₂ (join s t x .red S) g .black U)) := ht
  have hside := hg.side_eq (by rw [root_join]; exact hxr.ne_zero)
  rw [root_join] at hside
  have hroot : t.root ≠ h.root := by
    intro he
    cases (ht.root_eq_iff hz).mp he
  rw [insertLoop, if_neg hroot, deref_of_ne hz, hp, deref_of_ne hxr.ne_zero]
  show (if h.data x ≠ .red then pure h else _) = _
  rw [hxr.data, if_neg (not_not.mpr rfl)]
  dsimp only
  rw [hpx, deref_of_ne hg.reads.ne_zero, hside]
  rfl

/-- The loop ends, at a tree that is red-black but for the colour of its root. -/
theorem insertLoop_spec (hrot : LawfulRotation rot) (ht : IsTree h (k.plug t))
    (hb : Balanced .red n t) (hk : CtxBalanced k .black n) (hm : k.nodes.length < m) :
    ∃ h' t' c', insertLoop rot m h t.root = .ok h' ∧ IsTree h' t' ∧ t'.root ≠ 0 ∧
      ∃ n', Balanced c' n' t' := by
  induction m generalizing h k t n with
  | zero => exact absurd hm (Nat.not_lt_zero _)
  | succ m ih =>
    have hz : t.root ≠ 0 := by
      cases hb with
      | red hl hr => exact ht.focus.2.1
    cases k with
    | top =>
      refine ⟨h, t, .red, ?_, ht, hz, n, hb⟩
      rw [insertLoop, if_pos ((ht.root_eq_iff hz).mpr rfl)]
      rfl
    | frame s x d S up =>
      have hlen : up.nodes.length < m := by
        simp only [Ctx.nodes, List.length_cons, List.length_append] at hm
        omega
      cases hk with
      | black hS hup =>
        obtain ⟨n', hb'⟩ := redBlack_plug.mpr ⟨_, _, hb, .black hS hup⟩
        exact ⟨h, _, .black, insertLoop_black ht hz, ht,
          root_ne_zero ht.holds plug_frame_ne_nil, n', hb'⟩
      | red hS hup =>
        cases hup with
        | @black n s₂ g U up' c c' hU hup =>
          obtain ⟨h₁, z, hturn, hturned⟩ := insertTurn_spec hrot ht hb hS hU
          rw [insertLoop_red ht hz, hturn, ok_bind]
          dsimp only
          cases hturned with
          | recolored ht₁ hb₁ =>
            refine ih ht₁ hb₁ hup ?_
            simp only [Ctx.nodes, List.length_cons, List.length_append] at hlen
            omega
          | @rotated s' p t' sib hz' ht₁ hb₁ =>
            obtain ⟨m, rfl⟩ : ∃ j, m = j + 1 := ⟨m - 1, by omega⟩
            have ht₂ : IsTree h₁ (up'.plug (join s' t' p .black sib)) := ht₁
            obtain ⟨n', hb'⟩ := redBlack_plug.mpr ⟨_, _, hb₁, hup⟩
            have hne : up'.plug (join s' t' p .black sib) ≠ nil :=
              plug_frame_ne_nil
            exact ⟨h₁, _, .black, insertLoop_black ht₁ hz', ht₂, root_ne_zero ht₂.holds hne, n', hb'⟩

/-- The colours are set right again after a red node was linked in. -/
theorem insertFix_spec (hrot : LawfulRotation rot) (ht : IsTree h (k.plug t))
    (hb : Balanced .red n t) (hk : CtxBalanced k .black n) (hm : k.nodes.length < m) :
    ∃ h' t', insertFix rot m h t.root = .ok h' ∧ IsTree h' t' ∧ RedBlack t' := by
  obtain ⟨h₁, t₁, c, hloop, ht₁, hne, n₁, hb₁⟩ := insertLoop_spec hrot ht hb hk hm
  cases t₁ with
  | nil => exact absurd rfl hne
  | node l y d r =>
    have htop : IsTree h₁ (Ctx.top.plug (node l y d r)) := ht₁
    have hroot : h₁.root = y := ht₁.root
    refine ⟨h₁.setData y .black, node l y .black r, ?_, htop.setData .black, redBlack_blacken hb₁⟩
    unfold insertFix
    rw [hloop, ok_bind, hroot, deref_of_ne (show y ≠ 0 from hne), ok_bind]
    rfl

end Loop

end MaiFaSp.RedBlack
