import MaiFaSp.BTreeDisk.TwinSplit

/-!
# `insert` on two disks with one tree

A leaf is written with the new pair before it is looked at whether it is too long
(`b_tree_disk.hpp:565-579`). Both disks hold one tree after the call if no record that it writes
lies over a record in use.
-/

namespace MaiFaSp.BTreeDisk

open BoundedVector

variable {κ υ : Type} {t turns : ℕ} {codec : Codec κ υ} {s s' : DiskTree} {n n' : Node κ υ}
  {R : ℕ → ℕ → Prop} {a b i x y : ℕ} {data : κ × υ}

/-! ### The walk -/

/-- The node above the one that the walk ended at. -/
def Place.above (p : Place κ υ) : Option ℕ := p.path.tail.head?.map Prod.fst

/-- The walk read the node at the end of its path, and came to it from another node. -/
structure Visited (t : ℕ) (codec : Codec κ υ) (s : DiskTree) (p : Place κ υ) : Prop where
  head : p.path.head?.map Prod.fst = some p.prev.positionInDisk
  read : diskRead t codec s p.prev.positionInDisk = p.prev
  valid : p.prev.positionInDisk ≠ sizeMax
  other : p.above ≠ some p.prev.positionInDisk
  aboveValid : p.above ≠ some sizeMax

section Walk

variable [LinearOrder κ] {key : κ} {p p' : Place κ υ}

/-- A node that leads to itself is never left. -/
theorem insertWalk_loop (hne : n.positionInDisk ≠ sizeMax)
    (hnext : n.pointers[lowerIndex n.keyList key]? = some x) (hread : diskRead t codec s x = n) :
    insertWalk t codec s key turns n p ≠ .ok (some p') := by
  induction turns generalizing p with
  | zero =>
    intro h
    cases h
  | succ turns ih =>
    intro h
    unfold insertWalk at h
    rw [if_neg hne] at h
    obtain ⟨curKey, -, h⟩ := bind_eq_ok.mp h
    split at h
    · cases h
    · rw [hnext] at h
      dsimp only at h
      rw [hread] at h
      exact ih h

/-- How the walk came to the node `n`: it starts there, or it read it from the node of `p`. -/
def CameTo (t : ℕ) (codec : Codec κ υ) (s : DiskTree) (key : κ) (p : Place κ υ) (n : Node κ υ) : Prop :=
  p.path = [] ∨ Visited t codec s p ∧ (n.positionInDisk ≠ sizeMax →
    ∃ x, p.prev.pointers[lowerIndex p.prev.keyList key]? = some x ∧ diskRead t codec s x = n)

theorem insertWalk_visited {L : ℕ → Prop}
    (hL : ∀ x, L x → (diskRead t codec s x).positionInDisk = x ∧
      ∀ q ∈ (diskRead t codec s x).pointers, L q)
    (hn : n.positionInDisk ≠ sizeMax → L n.positionInDisk ∧ diskRead t codec s n.positionInDisk = n)
    (hcame : CameTo t codec s key p n) (hwalk : insertWalk t codec s key turns n p = .ok (some p')) :
    n.positionInDisk = sizeMax ∧ p' = p ∨ Visited t codec s p' := by
  induction turns generalizing n p with
  | zero => cases hwalk
  | succ turns ih =>
    have hstep := hwalk
    unfold insertWalk at hwalk
    split at hwalk
    case isTrue hnull => exact Or.inl ⟨hnull, (Option.some.inj (Except.ok.inj hwalk)).symm⟩
    case isFalse hne =>
      obtain ⟨hlive, hread⟩ := hn hne
      obtain ⟨curKey, -, hwalk⟩ := bind_eq_ok.mp hwalk
      split at hwalk
      case isTrue => cases hwalk
      case isFalse =>
        have hvisited : Visited t codec s
            ⟨n, lowerIndex n.keyList key, (n.positionInDisk, lowerIndex n.keyList key - 1) :: p.path⟩ := by
          refine ⟨rfl, hread, hne, fun hsame => ?_, fun hnull => ?_⟩
          · rcases hcame with hstart | ⟨hprev, hfrom⟩
            · unfold Place.above at hsame
              rw [List.tail_cons, hstart] at hsame
              cases hsame
            -- the node above would be the node itself
            obtain ⟨x, hx, hxread⟩ := hfrom hne
            have heq : p.prev.positionInDisk = n.positionInDisk :=
              Option.some.inj (hprev.head.symm.trans hsame)
            have hprevRead : p.prev = n := by rw [← hprev.read, heq, hread]
            rw [hprevRead] at hx
            exact insertWalk_loop hne hx hxread hstep
          · rcases hcame with hstart | ⟨hprev, -⟩
            · unfold Place.above at hnull
              rw [List.tail_cons, hstart] at hnull
              cases hnull
            · exact hprev.valid (Option.some.inj (hprev.head.symm.trans hnull))
        refine Or.inr ((ih ?_ (Or.inr ⟨hvisited, ?_⟩) hwalk).elim (fun heq => heq.2 ▸ hvisited) id)
        · intro hnext
          cases hpointer : n.pointers[lowerIndex n.keyList key]? with
          | none =>
            rw [hpointer] at hnext
            exact absurd rfl hnext
          | some pointer =>
            have hmem : pointer ∈ (diskRead t codec s n.positionInDisk).pointers := by
              rw [hread]
              exact List.mem_of_getElem? hpointer
            have hchild := (hL _ hlive).2 pointer hmem
            dsimp only
            rw [(hL _ hchild).1]
            exact ⟨hchild, rfl⟩
        · intro hnext
          cases hpointer : n.pointers[lowerIndex n.keyList key]? with
          | none =>
            rw [hpointer] at hnext
            exact absurd rfl hnext
          | some pointer => exact ⟨pointer, rfl, rfl⟩

end Walk

/-! ### The pair in the leaf -/

/-- Copies of the leaf with one pair more. -/
structure Longer (R : ℕ → ℕ → Prop) (n n' m m' : Node κ υ) : Prop extends Alike R m m' where
  size_eq : m.size = n.size + 1
  left : m.positionInDisk = n.positionInDisk
  right : m'.positionInDisk = n'.positionInDisk
  length : m.keys.length = n.keys.length + 1
  pointers_sub : ∀ p ∈ m.pointers, p = sizeMax ∨ p ∈ n.pointers

theorem Alike.withPair (h : Alike R n n') (i : ℕ) (data : κ × υ) :
    Lockstep .streamFailed (Longer R n n') (withPair n i data) (withPair n' i data) := by
  have hnull : Pos R sizeMax sizeMax := Or.inl ⟨rfl, rfl⟩
  have hinsert {α : Type} {xs : List α} (x : α) (hi : ¬ i ≤ xs.length) :
      vectorInsert xs i x = .error .outOfRange := if_pos (by omega)
  unfold BTreeDisk.withPair
  rw [← h.keys]
  by_cases hkeys : i ≤ n.keys.length
  · rw [vectorInsert_take hkeys, ok_bind, ok_bind]
    by_cases hi : i ≤ n.pointers.length
    · have hi' : i ≤ n'.pointers.length := h.pointers.length_eq ▸ hi
      rw [vectorInsert_take hi, vectorInsert_take hi']
      refine Lockstep.ok ⟨⟨congrArg (· + 1) h.size, h.isLeaf, h.position, rfl, ?_⟩, rfl, rfl, rfl, ?_, ?_⟩
      · exact List.rel_append (List.forall₂_take _ h.pointers)
          (List.Forall₂.cons hnull (List.forall₂_drop _ h.pointers))
      · show (n.keys.take i ++ data :: n.keys.drop i).length = _
        rw [List.length_append, List.length_take_of_le hkeys, List.length_cons, List.length_drop]
        omega
      · intro p hp
        rcases List.mem_append.mp hp with hp | hp
        · exact Or.inr (List.mem_of_mem_take hp)
        · exact (List.mem_cons.mp hp).imp_right List.mem_of_mem_drop
    · have hi' : ¬ i ≤ n'.pointers.length := h.pointers.length_eq ▸ hi
      rw [hinsert sizeMax hi, hinsert sizeMax hi']
      exact Lockstep.error _
  · rw [hinsert data hkeys]
    exact Lockstep.error _

/-! ### Writes over no record in use -/

/-- The split of the leaf leaves no pointer to it: it is the root, or the last child of the node above
and of no other. -/
structure GivenUp (t : ℕ) (st : DiskTree) (p : Place κ υ) : Prop where
  full : p.prev.keys.length = maximumKeysInNode t
  root : st.positionRoot = p.prev.positionInDisk → p.above = none
  only : ∀ {q j}, InUse t st q → (pointersAt t st q)[j]? = some p.prev.positionInDisk →
    p.above = some q ∧ j = slotSize t st q

/-- The records that `insert` writes, of the leaf and of the node above a full leaf, with one key
more each, lie over no other record in use, and over no slot that is not given out yet, if they
stay. -/
structure Harmless (t : ℕ) (st : DiskTree) (p : Place κ υ) : Prop where
  leaf : Clear t st (InUse t st) p.prev.positionInDisk (p.prev.keys.length + 1)
  stays : recordEnd t p.prev.positionInDisk (p.prev.keys.length + 1) ≤ slot t st.countOfNode ∨
    GivenUp t st p
  above : p.prev.keys.length = maximumKeysInNode t → ∀ q, p.above = some q →
    Clear t st (InUse t st) q (slotSize t st q + 1) ∧
      recordEnd t q (slotSize t st q + 1) ≤ slot t st.countOfNode

theorem Paths.above {p p' : Place κ υ} (h : Paths R p.path p'.path) :
    p.above = none ∧ p'.above = none ∨
      ∃ q q', p.above = some q ∧ p'.above = some q' ∧ Pos R q q' := by
  unfold Place.above
  rcases Forall₂.cases_head h with ⟨hp, hp'⟩ | ⟨a, b, rest, rest', hp, hp', -, hrest⟩
  · rw [hp, hp']
    exact Or.inl ⟨rfl, rfl⟩
  · rw [hp, hp', List.tail_cons, List.tail_cons]
    rcases Forall₂.cases_head hrest with ⟨hq, hq'⟩ | ⟨c, d, tail, tail', hq, hq', hcd, -⟩
    · rw [hq, hq']
      exact Or.inl ⟨rfl, rfl⟩
    · rw [hq, hq']
      exact Or.inr ⟨c.1, d.1, rfl, rfl, hcd.1⟩

/-- A record that has grown into free room is not in the way of another one that does. -/
theorem Clear.after {D : ℕ → Prop} {s₁ : DiskTree} {k j q : ℕ} (hleaf : Clear t s D x k)
    (habove : Clear t s D q j) (hx : D x) (hq : D q) (hne : q ≠ x)
    (hsizes : ∀ a, D a → a ≠ x → slotSize t s₁ a = slotSize t s a) (hgrown : slotSize t s₁ x = k) :
    Clear t s₁ D q j := by
  intro a ha haq
  by_cases hax : a = x
  · subst hax
    rw [hgrown]
    rcases hleaf q hq hne with hle | hle
    · refine Or.inr ((habove a hx haq).resolve_left fun hle' => ?_)
      have hlt := lt_of_slot_lt (slot_lt_recordEnd.trans_le hle)
      have hlt' := lt_of_slot_lt (slot_lt_recordEnd.trans_le hle')
      omega
    · exact Or.inl hle
  · rw [hsizes a ha hax]
    exact habove a ha haq

namespace Twin

section

variable {p p' : Place κ υ} {m m' : Node κ υ}

theorem givenUp (h : Twin t codec R s s') (hp : Places t s R p p')
    (hvalid : p.prev.positionInDisk ≠ sizeMax) (hg : GivenUp t s' p') : GivenUp t s p := by
  have hR : R p.prev.positionInDisk p'.prev.positionInDisk :=
    hp.prev.position.resolve_left fun hnull => hvalid hnull.1
  refine ⟨?_, fun hroot => ?_, fun {q j} hq hj => ?_⟩
  · rw [hp.prev.keys]
    exact hg.full
  · have hroots := h.root
    rw [hroot] at hroots
    have hsame := (h.unique (hroots.resolve_left fun hnull => hvalid hnull.1) hR).mp rfl
    rcases hp.path.above with ⟨hnone, -⟩ | ⟨q, q', -, hsome, -⟩
    · exact hnone
    · rw [hg.root hsame] at hsome
      cases hsome
  · obtain ⟨q', hqq, hq'⟩ := h.inUse hq
    obtain ⟨n, n', hn, hn', halike, -⟩ := h.held hqq
    rw [← hn.pointers] at hj
    rcases Forall₂.getElem? halike.pointers j with ⟨a, b, ha, hb, hab⟩ | ⟨hnone, -⟩
    · obtain rfl := Option.some.inj (hj.symm.trans ha)
      have hb' := (h.unique (hab.resolve_left fun hnull => hvalid hnull.1) hR).mp rfl
      rw [hn'.pointers, hb'] at hb
      obtain ⟨habove', hindex⟩ := hg.only hq' hb
      rcases hp.path.above with ⟨-, hnone⟩ | ⟨r, r', habove, hsome, hrr⟩
      · rw [hnone] at habove'
        cases habove'
      · obtain rfl := Option.some.inj (hsome.symm.trans habove')
        have hRr := hrr.resolve_left fun hnull => (h.valid hqq).2.ne hnull.2
        rw [habove, (h.unique hRr hqq).mpr rfl, h.slotSize_eq hqq]
        exact ⟨rfl, hindex⟩
    · rw [hj] at hnone
      cases hnone

/-- The leaf with one pair more, written over no record in use. -/
theorem clear_longer (h : Twin t codec R s s') (hused : ∀ {a b}, R a b → InUse t s a)
    (hp : Copies t s R p.prev p'.prev) (hm : Longer R p.prev p'.prev m m') (hharmless : Harmless t s p)
    (hharmless' : Harmless t s' p') : Clear t s (Left R) m.positionInDisk m.size ∧
      Clear t s' (Right R) m'.positionInDisk m.size := by
  have hsize : m.size = p.prev.keys.length + 1 := by rw [hm.size_eq, hp.size_eq]
  constructor
  · rw [hm.left, hsize]
    exact hharmless.leaf.weaken fun ⟨b, hab⟩ => hused hab
  · rw [hm.right, hsize, hp.keys]
    exact hharmless'.leaf.weaken fun ⟨a, hab⟩ => h.inUse_of_pair (hused hab) hab

/-- The end of the leaf, when it stays where it is. -/
theorem ends_longer (hp : Copies t s R p.prev p'.prev) (hm : Longer R p.prev p'.prev m m')
    (hharmless : Harmless t s p) (hharmless' : Harmless t s' p') (hstays : ¬ GivenUp t s p)
    (hstays' : ¬ GivenUp t s' p') : recordEnd t m.positionInDisk m.size ≤ slot t s.countOfNode ∧
      recordEnd t m'.positionInDisk m.size ≤ slot t s'.countOfNode := by
  have hsize : m.size = p.prev.keys.length + 1 := by rw [hm.size_eq, hp.size_eq]
  constructor
  · rw [hm.left, hsize]
    exact hharmless.stays.resolve_right hstays
  · rw [hm.right, hsize, hp.keys]
    exact hharmless'.stays.resolve_right hstays'

theorem full_longer (hp : Copies t s R p.prev p'.prev) (hm : Longer R p.prev p'.prev m m') :
    m.size = m.keys.length := by rw [hm.size_eq, hm.length, hp.size_eq]

end

end Twin

/-! ### The split -/

section Split

variable {p p' : Place κ υ} {m m' : Node κ υ} {s₁ s₁' : DiskTree} {K : ℕ → ℕ → Prop}

/-- The pairs of positions but for the leaf's. -/
def Others (R : ℕ → ℕ → Prop) (p : Place κ υ) (a b : ℕ) : Prop := R a b ∧ a ≠ p.prev.positionInDisk

/-- Both disks after the leaf was written with one pair more. -/
structure LeafWritten (t : ℕ) (codec : Codec κ υ) (R : ℕ → ℕ → Prop) (p p' : Place κ υ) (m m' : Node κ υ)
    (s s' s₁ s₁' : DiskTree) : Prop where
  count : s₁.countOfNode = s.countOfNode ∧ s₁'.countOfNode = s'.countOfNode
  root : s₁.positionRoot = s.positionRoot ∧ s₁'.positionRoot = s'.positionRoot
  pair : R p.prev.positionInDisk p'.prev.positionInDisk
  leaf : Recorded t codec s₁ p.prev.positionInDisk { m with pointers := paddedPointers t m.pointers }
  leaf' : Recorded t codec s₁' p'.prev.positionInDisk { m' with pointers := paddedPointers t m'.pointers }
  others : Linked t codec R (Others R p) s₁ s₁'
  keeps : Keeps t codec (Others R p) s s' s₁ s₁'

theorem Twin.leafWritten (h : Twin t codec R s s') (hused : ∀ {a b}, R a b → InUse t s a)
    (hp : Copies t s R p.prev p'.prev) (hm : Longer R p.prev p'.prev m m') (hharmless : Harmless t s p)
    (hharmless' : Harmless t s' p') (hR : R m.positionInDisk m'.positionInDisk)
    (hw : diskWrite t codec s m = .ok s₁) (hw' : diskWrite t codec s' m' = .ok s₁') :
    LeafWritten t codec R p p' m m' s s' s₁ s₁' := by
  have hfull : m.size = m.keys.length := full_longer hp hm
  have hfull' : m'.size = m'.keys.length := by rw [← hm.size, ← hm.keys, hfull]
  obtain ⟨hclear, hclear'⟩ := h.clear_longer hused hp hm hharmless hharmless'
  obtain ⟨hcount, hroot⟩ := diskWrite_count hw
  obtain ⟨hcount', hroot'⟩ := diskWrite_count hw'
  have hle : m.size ≤ sizeMax := (inRange_of_write hw hfull (h.pointers_le hm.toAlike).1).size
  obtain ⟨hrange, hrange'⟩ := h.inRange hm.toAlike hw hw' hle
  have hown := Recorded.own hrange (h.below hR).1 hfull.le hw
  have hown' := Recorded.own hrange' (h.below hR).2 hfull'.le hw'
  rw [hfull, List.take_length, ← hfull] at hown
  rw [hfull', List.take_length, ← hfull'] at hown'
  have hne {a b : ℕ} (hab : Others R p a b) : a ≠ m.positionInDisk ∧ b ≠ m'.positionInDisk := by
    rw [hm.left]
    refine ⟨hab.2, fun hb => hab.2 ?_⟩
    rw [← hm.left]
    exact (h.unique hab.1 hR).mpr hb
  have hothers : Linked t codec R (Others R p) s s' := h.toLinked.weaken fun hab => hab.1
  have hsize' : m'.keys.length = m.size := by rw [hfull, hm.keys]
  obtain ⟨hlinked, hkeeps⟩ := hothers.keep hw hw' hne (hfull ▸ hclear.weaken fun ⟨b, hab⟩ => ⟨b, hab.1⟩)
    (hsize' ▸ hclear'.weaken fun ⟨a, hab⟩ => ⟨a, hab.1⟩)
  refine ⟨⟨hcount, hcount'⟩, ⟨hroot, hroot'⟩, ?_, ?_, ?_, hlinked, hkeeps⟩
  · rw [← hm.left, ← hm.right]
    exact hR
  · rw [← hm.left]
    exact hown
  · rw [← hm.right]
    exact hown'

namespace LeafWritten

/-- The leaf stays, and no pointer is given up. -/
theorem linked (hl : LeafWritten t codec R p p' m m' s s' s₁ s₁') (h : Twin t codec R s s')
    (hused : ∀ {a b}, R a b → InUse t s a) (hp : Copies t s R p.prev p'.prev)
    (hm : Longer R p.prev p'.prev m m') (hharmless : Harmless t s p) (hharmless' : Harmless t s' p')
    (hstays : ¬ GivenUp t s p) (hstays' : ¬ GivenUp t s' p') : Linked t codec R R s₁ s₁' := by
  obtain ⟨hclear, hclear'⟩ := h.clear_longer hused hp hm hharmless hharmless'
  obtain ⟨hends, hends'⟩ := Twin.ends_longer hp hm hharmless hharmless' hstays hstays'
  rw [hm.left] at hclear hends
  rw [hm.right] at hclear' hends'
  have hother {a b : ℕ} (hab : Others R p a b) : R a b := hab.1
  have hsizes {a b : ℕ} (hab : Others R p a b) := (h.toLinked.weaken hother).sizes hl.keeps hab
  have hleaf : Alike R { m with pointers := paddedPointers t m.pointers }
      { m' with pointers := paddedPointers t m'.pointers } :=
    ⟨hm.size, hm.isLeaf, hm.position, hm.keys, hm.padded⟩
  refine (hl.others.add hl.pair hl.leaf hl.leaf' hleaf hm.left hm.right ?_ ?_ ?_ ?_).weaken ?_
  · rintro a ⟨b, hab⟩ hne
    rw [(hsizes hab).1]
    exact hclear a ⟨b, hab.1⟩ hne
  · rintro b ⟨a, hab⟩ hne
    rw [(hsizes hab).2, ← hm.size]
    exact hclear' b ⟨a, hab.1⟩ hne
  · rw [hl.count.1]
    exact hends
  · rw [hl.count.2, ← hm.size]
    exact hends'
  · intro a b hab
    by_cases ha : a = p.prev.positionInDisk
    · exact Or.inr ⟨ha, (h.unique hab hl.pair).mp ha⟩
    · exact Or.inl ⟨hab, ha⟩

end LeafWritten

theorem Visited.pair_above {q : ℕ} (hv : Visited t codec s p) (hp : Paths R p.path p'.path)
    (habove : p.above = some q) : ∃ q', R q q' ∧ p'.above = some q' := by
  rcases hp.above with ⟨hnone, -⟩ | ⟨r, q', hr, hq', hrq⟩
  · rw [hnone] at habove
    cases habove
  · obtain rfl := Option.some.inj (hr.symm.trans habove)
    refine ⟨q', hrq.resolve_left fun hnull => hv.aboveValid ?_, hq'⟩
    rw [hr, hnull.1]

/-- The positions of `K` are those that are left after the split: all but the leaf's, and the leaf's if
a pointer to it stays. -/
structure Kept (t : ℕ) (codec : Codec κ υ) (R K : ℕ → ℕ → Prop) (p : Place κ υ) (m m' : Node κ υ)
    (s s' s₁ s₁' : DiskTree) : Prop where
  sub : ∀ {a b}, K a b → R a b
  others : ∀ {a b}, Others R p a b → K a b
  linked : Linked t codec K (fun a b => K a b ∧ p.above ≠ some a) s₁ s₁'
  pointers : List.Forall₂ (Pos K) (paddedPointers t m.pointers) (paddedPointers t m'.pointers)
  next : ∀ {q n i c d}, p.above = some q → Recorded t codec s q n → i < n.size →
    n.pointers[i]? = some c → R c d → K c d
  root : p.above ≠ none → Pos K s.positionRoot s'.positionRoot

theorem Kept.of_stays (hlinked : Linked t codec R R s₁ s₁') (h : Twin t codec R s s')
    (hm : Longer R p.prev p'.prev m m') : Kept t codec R R p m m' s s' s₁ s₁' :=
  ⟨id, And.left, hlinked.weaken And.left, hm.padded, fun _ _ _ _ hR => hR, fun _ => h.root⟩

theorem Kept.of_givenUp (hl : LeafWritten t codec R p p' m m' s s' s₁ s₁') (h : Twin t codec R s s')
    (hused : ∀ {a b}, R a b → InUse t s a) (hm : Longer R p.prev p'.prev m m')
    (hv : Visited t codec s p) (hp : Paths R p.path p'.path) (hgiven : GivenUp t s p) :
    Kept t codec R (Others R p) p m m' s s' s₁ s₁' := by
  -- only the last pointer of the node above leads to the leaf
  have hother {a c d i : ℕ} {n : Node κ υ} (hn : Recorded t codec s a n) (ha : InUse t s a)
      (hc : n.pointers[i]? = some c) (hR : R c d) (hnot : p.above = some a → i < n.size) :
      Others R p c d := by
    refine ⟨hR, fun heq => ?_⟩
    rw [hn.pointers, heq] at hc
    obtain ⟨habove, hindex⟩ := hgiven.only ha hc
    have hlt := hnot habove
    have hsize := hn.slotSize_eq
    omega
  have hleaf := h.held hl.pair
  obtain ⟨g, g', hg, -, -⟩ := hleaf
  have hprev : g = p.prev := by rw [← hv.read, hg.diskRead]
  rw [hprev] at hg
  refine ⟨And.left, id, ?_, ?_, ?_, ?_⟩
  · refine hl.others.restrict And.left And.left And.left fun {a b c d x} hab hx hc hR => ?_
    obtain ⟨n, n', hn, -⟩ := h.held hab.1.1
    have hsame : n = x := by rw [← hx.diskRead, ((hl.keeps hab.1).1 n hn).diskRead]
    obtain ⟨i, hi⟩ := List.mem_iff_getElem?.mp hc
    exact hother (hsame ▸ hn) (hused hab.1.1) hi hR fun habove => absurd habove hab.2
  · refine List.forall₂_iff_get.mpr ⟨hm.padded.length_eq, fun i hi hi' => ?_⟩
    refine (hm.padded.get hi hi').imp_right fun hR => ?_
    have hmem := List.get_mem (paddedPointers t m.pointers) ⟨i, hi⟩
    rcases List.mem_append.mp hmem with hmem | hmem
    · rcases hm.pointers_sub _ (List.mem_of_mem_take hmem) with hnull | hmem
      · exact absurd hnull (h.valid hR).1.ne
      · obtain ⟨j, hj⟩ := List.mem_iff_getElem?.mp hmem
        exact hother hg (hused hl.pair) hj hR fun habove => absurd habove hv.other
    · exact absurd (List.eq_of_mem_replicate hmem) (h.valid hR).1.ne
  · intro q n i c d habove hn hi hc hR
    obtain ⟨q', hqq, -⟩ := hv.pair_above hp habove
    exact hother hn (hused hqq) hc hR fun _ => hi
  · intro habove
    exact h.root.imp_right fun hR => ⟨hR, fun heq => habove (hgiven.root heq)⟩

/-- A new root in an empty tree. -/
theorem Twin.writeRoot (h : Twin t codec R s s') (ht : 1 ≤ t) (data : κ × υ) :
    Lockstep .streamFailed (Twins t codec)
      (diskWrite t codec { s with countOfNode := s.countOfNode + 1, positionRoot := s.countOfNode }
        ⟨1, true, s.countOfNode, [data], [sizeMax]⟩)
      (diskWrite t codec { s' with countOfNode := s'.countOfNode + 1, positionRoot := s'.countOfNode }
        ⟨1, true, s'.countOfNode, [data], [sizeMax]⟩) := by
  have halloc : Linked t codec (extend R s.countOfNode s'.countOfNode) R
      { s with countOfNode := s.countOfNode + 1, positionRoot := s.countOfNode }
      { s' with countOfNode := s'.countOfNode + 1, positionRoot := s'.countOfNode } :=
    h.toLinked.alloc h.count_lt.1 h.count_lt.2
  have hnew : Pos (extend R s.countOfNode s'.countOfNode) s.countOfNode s'.countOfNode :=
    Or.inr (Or.inr ⟨rfl, rfl⟩)
  have hone : 1 ≤ maximumKeysInNode t := by
    unfold maximumKeysInNode
    omega
  have halike : Alike (extend R s.countOfNode s'.countOfNode)
      (⟨1, true, s.countOfNode, [data], [sizeMax]⟩ : Node κ υ) ⟨1, true, s'.countOfNode, [data], [sizeMax]⟩ :=
    ⟨rfl, rfl, hnew, rfl, List.Forall₂.cons (Or.inl ⟨rfl, rfl⟩) List.Forall₂.nil⟩
  refine (halloc.writePart halike rfl hone fun {a b} hab => ⟨h.left.ends ⟨b, hab⟩, h.right.ends ⟨a, hab⟩⟩).mono
    fun s₁ s₁' hwrote => ⟨_, hwrote.linked.weaken id, ?_, ?_⟩
  · rw [hwrote.root.1, hwrote.root.2]
    exact hnew
  · rw [hwrote.count.1, hwrote.count.2]
    exact ⟨Nat.succ_le_succ hwrote.inside.1, Nat.succ_le_succ hwrote.inside.2⟩

variable [LinearOrder κ]

theorem Kept.splitNode (hk : Kept t codec R K p m m' s s' s₁ s₁') (h : Twin t codec R s s') (ht : 1 ≤ t)
    (hl : LeafWritten t codec R p p' m m' s s' s₁ s₁') (hused : ∀ {a b}, R a b → InUse t s a)
    (hp : Places t s R p p') (hm : Longer R p.prev p'.prev m m') (hv : Visited t codec s p)
    (hharmless : Harmless t s p) (hharmless' : Harmless t s' p')
    (hfull : p.prev.keys.length = maximumKeysInNode t) :
    Lockstep .streamFailed (Twins t codec) (splitNode t codec s₁ p.path) (splitNode t codec s₁' p'.path) := by
  have hcount : s₁.countOfNode ≤ streamLimit + 1 := hl.count.1.trans_le h.count.1
  have hcount' : s₁'.countOfNode ≤ streamLimit + 1 := hl.count.2.trans_le h.count.2
  obtain ⟨top, rest, hpath, htop⟩ : ∃ top rest, p.path = top :: rest ∧ top.1 = p.prev.positionInDisk := by
    have hhead := hv.head
    cases hpath : p.path with
    | nil =>
      rw [hpath] at hhead
      cases hhead
    | cons top rest =>
      rw [hpath] at hhead
      exact ⟨top, rest, rfl, Option.some.inj hhead⟩
  have hpaths := hp.path
  rw [hpath] at hpaths
  obtain ⟨top', rest', ⟨hpos, -⟩, hrest, hpath'⟩ := List.forall₂_cons_left_iff.mp hpaths
  have htop' : top'.1 = p'.prev.positionInDisk := by
    rw [htop] at hpos
    exact (h.unique (hpos.resolve_left fun hnull => hv.valid hnull.1) hl.pair).mp rfl
  have habove : p.above = rest.head?.map Prod.fst := by
    unfold Place.above
    rw [hpath, List.tail_cons]
  have habove' : p'.above = rest'.head?.map Prod.fst := by
    unfold Place.above
    rw [hpath', List.tail_cons]
  have hN : Overfull t codec K s₁ s₁' top.1 top'.1 { m with pointers := paddedPointers t m.pointers }
      { m' with pointers := paddedPointers t m'.pointers } := by
    refine ⟨?_, ?_, hm.keys, ?_, hk.pointers⟩
    · rw [htop]
      exact hl.leaf.diskRead
    · rw [htop']
      exact hl.leaf'.diskRead
    · show m.keys.length = _
      rw [hm.length, hfull]
  rw [hpath, hpath']
  cases hq : p.above with
  | none =>
    have hnil : rest = [] := by
      rw [hq] at habove
      exact List.head?_eq_none_iff.mp (Option.map_eq_none_iff.mp habove.symm)
    have hnil' : rest' = [] := by
      rw [hnil] at hrest
      cases hrest
      rfl
    rw [hnil, hnil']
    refine (hk.linked.weaken fun hab => ⟨hab, ?_⟩).splitRoot ht hN hcount hcount'
    rw [hq]
    exact fun hsome => by cases hsome
  | some q =>
    obtain ⟨q', hqq, hq'⟩ := hv.pair_above hp.path hq
    have hne : q ≠ p.prev.positionInDisk := fun heq => hv.other (hq.trans (congrArg some heq))
    have hne' : q' ≠ p'.prev.positionInDisk := fun heq => hne ((h.unique hqq hl.pair).mpr heq)
    have hother : Others R p q q' := ⟨hqq, hne⟩
    obtain ⟨P, P', hP, hP', halike, hposition, hposition'⟩ := h.held hqq
    have hP₁ := (hl.keeps hother).1 P hP
    have hP₁' := (hl.keeps hother).2 P' hP'
    have hsizes {a b : ℕ} (hab : Others R p a b) :
        slotSize t s₁ a = slotSize t s a ∧ slotSize t s₁' b = slotSize t s' b :=
      (h.toLinked.weaken And.left).sizes hl.keeps hab
    obtain ⟨hclear, hends⟩ := hharmless.above hfull q hq
    obtain ⟨hclear', hends'⟩ := hharmless'.above (hp.prev.keys ▸ hfull) q' hq'
    obtain ⟨hleaf, hleaf'⟩ := h.clear_longer hused hp.prev hm hharmless hharmless'
    rw [hP.slotSize_eq] at hclear hends
    rw [hP'.slotSize_eq, ← halike.size] at hclear' hends'
    have hadopts : Adopts K P P' := by
      refine ⟨halike.isLeaf, ?_, halike.keys, hP.length_keys.symm, halike.size,
        halike.pointers.length_eq, ?_⟩
      · rw [hposition, hposition']
        exact hk.others hother
      · refine List.forall₂_iff_get.mpr ⟨?_, fun i hi hi' => ?_⟩
        · rw [List.length_take, List.length_take, halike.size, halike.pointers.length_eq]
        · have hlt : i < P.size ∧ i < P.pointers.length := by
            rw [List.length_take] at hi
            omega
          have hlt' : i < P'.pointers.length := halike.pointers.length_eq ▸ hlt.2
          have hpair : Pos R P.pointers[i] P'.pointers[i] := halike.pointers.get hlt.2 hlt'
          rw [List.get_eq_getElem, List.get_eq_getElem, List.getElem_take, List.getElem_take]
          exact hpair.imp_right fun hR => hk.next hq hP hlt.1 (List.getElem?_eq_getElem hlt.2) hR
    have hafter : Clear t s₁ (Left R) q (P.size + 1) := by
      rw [hm.left] at hleaf
      refine hleaf.after (hclear.weaken fun ⟨b, hab⟩ => hused hab) ⟨_, hl.pair⟩ ⟨_, hqq⟩ hne ?_
        hl.leaf.slotSize_eq
      exact fun a ⟨b, hab⟩ ha => (hsizes ⟨hab, ha⟩).1
    have hafter' : Clear t s₁' (Right R) q' (P.size + 1) := by
      rw [hm.right] at hleaf'
      refine hleaf'.after (hclear'.weaken fun ⟨a, hab⟩ => h.inUse_of_pair (hused hab) hab) ⟨_, hl.pair⟩
        ⟨_, hqq⟩ hne' ?_ (hl.leaf'.slotSize_eq.trans hm.size.symm)
      exact fun b ⟨a, hab⟩ hb => (hsizes ⟨hab, fun ha => hb ((h.unique hab hl.pair).mp ha)⟩).2
    have hrest₁ : (rest.head?.map Prod.fst).getD sizeMax = q := by
      rw [← habove, hq]
      rfl
    have hrest₁' : (rest'.head?.map Prod.fst).getD sizeMax = q' := by
      rw [← habove', hq']
      rfl
    refine hk.linked.splitBelow hN ?_ ?_ hadopts (fun {a b} hab => ?_) ?_ hcount hcount'
      ?_ ?_ ?_ ?_
    · rw [hrest₁]
      exact hP₁.diskRead
    · rw [hrest₁']
      exact hP₁'.diskRead
    · by_cases ha : a = q
      · refine Or.inr ⟨ha.trans hposition.symm, ?_⟩
        rw [hposition']
        exact (h.unique (hk.sub hab) hqq).mp ha
      · refine Or.inl ⟨hab, fun hsame => ha ?_⟩
        rw [hq] at hsame
        exact (Option.some.inj hsame).symm
    · rw [hl.root.1, hl.root.2]
      exact hk.root fun hnone => by
        rw [hnone] at hq
        cases hq
    · rw [hposition, hl.count.1]
      exact hends
    · rw [hposition', hl.count.2]
      exact hends'
    · rw [hposition]
      exact hafter.weaken fun ⟨b, hab⟩ => ⟨b, hk.sub hab.1⟩
    · rw [hposition']
      exact hafter'.weaken fun ⟨a, hab⟩ => ⟨a, hk.sub hab.1⟩

/-- Where `insert` adds a pair, what it writes lies over no record in use. -/
def InsertsHarmlessly (t turns : ℕ) (codec : Codec κ υ) (st : DiskTree) (data : κ × υ) : Prop :=
  (diskRead t codec st st.positionRoot).positionInDisk ≠ sizeMax →
    ∀ p, insertWalk t codec st data.1 turns (diskRead t codec st st.positionRoot)
      ⟨diskRead t codec st st.positionRoot, 0, []⟩ = .ok (some p) → Harmless t st p

namespace Twin

theorem visited (h : Twin t codec R s s') {key : κ}
    (hne : (diskRead t codec s s.positionRoot).positionInDisk ≠ sizeMax)
    (hwalk : BTreeDisk.insertWalk t codec s key turns (diskRead t codec s s.positionRoot)
      ⟨diskRead t codec s s.positionRoot, 0, []⟩ = .ok (some p)) : Visited t codec s p := by
  have hL : ∀ x, (∃ y, Pos R x y) → (diskRead t codec s x).positionInDisk = x ∧
      ∀ q ∈ (diskRead t codec s x).pointers, ∃ y, Pos R q y := by
    rintro x ⟨y, hxy⟩
    obtain ⟨hcopies, hpos, -⟩ := h.read hxy
    refine ⟨hpos, fun q hq => ?_⟩
    obtain ⟨i, hi⟩ := List.mem_iff_getElem?.mp hq
    rcases Forall₂.getElem? hcopies.pointers i with ⟨a, b, ha, -, hab⟩ | ⟨hnone, -⟩
    · obtain rfl := Option.some.inj (hi.symm.trans ha)
      exact ⟨b, hab⟩
    · rw [hi] at hnone
      cases hnone
  have hroot := (hL _ ⟨_, h.root⟩).1
  refine (insertWalk_visited hL (fun _ => ?_) (Or.inl rfl) hwalk).resolve_left fun hnull => hne hnull.1
  rw [hroot]
  exact ⟨⟨_, h.root⟩, rfl⟩

theorem insert (h : Twin t codec R s s') (ht : 1 ≤ t) (hused : ∀ {a b}, R a b → InUse t s a)
    (hharmless : InsertsHarmlessly t turns codec s data)
    (hharmless' : InsertsHarmlessly t turns codec s' data) :
    Lockstep .streamFailed (Results t codec) (insert t turns codec s data)
      (insert t turns codec s' data) := by
  have hroot := (h.read h.root).1
  refine Lockstep.ite (h.null_iff hroot.toAlike) (fun _ => ?_) fun hne => ?_
  · exact (h.writeRoot ht data).bind fun s₁ s₁' htwins => Lockstep.ok ⟨htwins, rfl⟩
  have hne' := (not_congr (h.null_iff hroot.toAlike)).mp hne
  have hstart : Places t s R ⟨diskRead t codec s s.positionRoot, 0, []⟩
      ⟨diskRead t codec s' s'.positionRoot, 0, []⟩ := ⟨hroot, rfl, List.Forall₂.nil⟩
  refine (h.insertWalk hroot hstart).attach.bind fun r r' ⟨hfound, hwalk, hwalk'⟩ => ?_
  match r, r', hfound with
  | none, none, _ => exact Lockstep.ok ⟨⟨R, h⟩, rfl⟩
  | some p, some p', hp =>
    have hv := h.visited hne hwalk
    have hsafe := hharmless hne p hwalk
    have hsafe' := hharmless' hne' p' hwalk'
    dsimp only
    rw [← hp.index]
    refine (hp.prev.toAlike.withPair p.i data).bind fun m m' hm => ?_
    refine (lockstep_diskWrite hm.position fun s₁ s₁' hR hw hw' => And.intro hR (And.intro hw hw')).bind
      fun s₁ s₁' ⟨hR, hw, hw'⟩ => ?_
    have hl := h.leafWritten hused hp.prev hm hsafe hsafe' hR hw hw'
    rw [← hp.prev.keys]
    refine Lockstep.ite Iff.rfl (fun hfull => ?_) fun hroom => ?_
    · have hsplit : Lockstep .streamFailed (Twins t codec) (splitNode t codec s₁ p.path)
          (splitNode t codec s₁' p'.path) := by
        by_cases hgiven : GivenUp t s p
        · exact (Kept.of_givenUp hl h hused hm hv hp.path hgiven).splitNode h ht hl hused hp hm hv hsafe
            hsafe' hfull
        · have hgiven' : ¬ GivenUp t s' p' := fun hg => hgiven (h.givenUp hp hv.valid hg)
          have hlinked := hl.linked h hused hp.prev hm hsafe hsafe' hgiven hgiven'
          exact (Kept.of_stays hlinked h hm).splitNode h ht hl hused hp hm hv hsafe hsafe' hfull
      exact hsplit.bind fun s₂ s₂' htwins => Lockstep.ok ⟨htwins, rfl⟩
    · have hgiven : ¬ GivenUp t s p := fun hg => hroom hg.full
      have hgiven' : ¬ GivenUp t s' p' := fun hg => hgiven (h.givenUp hp hv.valid hg)
      have hlinked := hl.linked h hused hp.prev hm hsafe hsafe' hgiven hgiven'
      exact Lockstep.ok ⟨⟨R, h.of_linked (Rest.of_writes hw hw') hlinked⟩, rfl⟩

end Twin

end Split

end MaiFaSp.BTreeDisk
