import MaiFaSp.BTreeDisk.TwinWalks

/-!
# `erase` on two disks with one tree

`merge` writes a node behind all others, and the writes of the other nodes of
`delete_key_from_leaf` keep the size of a record or set it to the number of the keys.
-/

namespace MaiFaSp.BTreeDisk

open BoundedVector

variable {κ υ : Type} {t : ℕ} {codec : Codec κ υ} {s s' : DiskTree}
  {n n' left left' right right' parent parent' : Node κ υ} {R R' : ℕ → ℕ → Prop} {a b i index : ℕ}
  {sizes : ℕ × ℕ}

/-- One tree on both with copies of one node, behind positions of `R`. Copies of before are still
copies. -/
def TwinsWith (t : ℕ) (codec : Codec κ υ) (s : DiskTree) (R : ℕ → ℕ → Prop)
    (r r' : DiskTree × Node κ υ) : Prop :=
  ∃ R', (∀ {a b}, R a b → R' a b) ∧ Twin t codec R' r.1 r'.1 ∧ Alike R' r.2 r'.2 ∧
    ∀ {x x' : Node κ υ}, Copies t s R x x' → Copies t r.1 R' x x'

theorem Alike.setKeys (h : Alike R n n') (keys : List (κ × υ)) :
    Alike R { n with keys := keys } { n' with keys := keys } :=
  ⟨h.size, h.isLeaf, h.position, rfl, h.pointers⟩

theorem Alike.setSize (h : Alike R n n') (g : ℕ → ℕ) :
    Alike R { n with size := g n.size } { n' with size := g n'.size } :=
  ⟨congrArg g h.size, h.isLeaf, h.position, h.keys, h.pointers⟩

theorem Alike.eraseKey (h : Alike R n n') (index : ℕ) :
    Lockstep .streamFailed (fun m m' => Alike R m m' ∧ m.size = n.size ∧
        m.positionInDisk = n.positionInDisk ∧ m.keys.length + 1 = n.keys.length)
      (eraseKey n index) (eraseKey n' index) := by
  unfold BTreeDisk.eraseKey
  rw [← h.keys]
  refine (Lockstep.refl _).bind fun keys _ ⟨heq, hkeys⟩ => ?_
  subst heq
  exact (Lockstep.eraseAt h.pointers index).bind fun pointers pointers' hpointers =>
    Lockstep.ok ⟨⟨h.size, h.isLeaf, h.position, rfl, hpointers⟩, rfl, rfl, length_eraseAt hkeys⟩

/-- A pointer that is set, or put behind the others. -/
def putPointer (pointers : List ℕ) (i p : ℕ) : List ℕ :=
  if i < pointers.length then pointers.set i p else pointers ++ [p]

theorem Forall₂.putPointer {pointers pointers' : List ℕ} (h : List.Forall₂ (Pos R) pointers pointers')
    (i : ℕ) (hab : Pos R a b) :
    List.Forall₂ (Pos R) (putPointer pointers i a) (putPointer pointers' i b) := by
  unfold BTreeDisk.putPointer
  rw [h.length_eq]
  split
  · exact Forall₂.set h i hab
  · exact List.rel_append h (List.Forall₂.cons hab List.Forall₂.nil)

/-- A turn of the merging loop, after the sizes of the siblings before. -/
def mergeTurn (t : ℕ) (codec : Codec κ υ) (st : DiskTree) (curNode parent : Node κ υ) (i : ℕ)
    (sizes : ℕ × ℕ) (path : List (ℕ × ℕ)) : Except NodeFault (DiskTree × Node κ υ) := do
  let left ← getBefore parent.pointers i
  let right ← get parent.pointers (i + 1)
  match ← mergeWithSibling t codec st curNode parent (diskRead t codec st left)
    (diskRead t codec st right) i sizes with
  | some result =>
    mergeLoop t codec result.1 result.2 (diskRead t codec st left) (diskRead t codec st right) sizes path
  | none => throw .logicError

namespace Twin

theorem merge (h : Twin t codec R s s') (hl : Alike R left left') (hr : Alike R right right')
    (hp : Copies t s R parent parent') (i : ℕ) :
    Lockstep .streamFailed (TwinsWith t codec s R) (merge t codec s left right parent i)
      (merge t codec s' left' right' parent' i) := by
  obtain ⟨hlt, hlt'⟩ := h.count_lt
  have halloc : Linked t codec (extend R s.countOfNode s'.countOfNode) R
      { s with countOfNode := s.countOfNode + 1 } { s' with countOfNode := s'.countOfNode + 1 } :=
    h.toLinked.alloc hlt hlt'
  have hnew : Pos (extend R s.countOfNode s'.countOfNode) s.countOfNode s'.countOfNode :=
    Or.inr (Or.inr ⟨rfl, rfl⟩)
  have hnull : Pos (extend R s.countOfNode s'.countOfNode) sizeMax sizeMax := Or.inl ⟨rfl, rfl⟩
  unfold BTreeDisk.merge
  rw [← hp.keys, ← hl.keys, ← hr.keys]
  refine (Lockstep.refl _).bind fun separator _ ⟨heq, _⟩ => ?_
  subst heq
  dsimp only
  refine (Lockstep.refl _).bind fun keys _ ⟨heq, hkeys⟩ => ?_
  subst heq
  refine (Lockstep.eraseAt hp.pointers i).bind fun pointers pointers' hpointers => ?_
  have hparent : Alike (extend R s.countOfNode s'.countOfNode)
      { parent with
        keys := keys
        pointers := putPointer (putPointer pointers i s.countOfNode) (i + 1) sizeMax }
      { parent' with
        keys := keys
        pointers := putPointer (putPointer pointers' i s'.countOfNode) (i + 1) sizeMax } :=
    ⟨hp.size, hp.isLeaf, hp.position.mono Or.inl, rfl, Forall₂.putPointer (Forall₂.putPointer
      (hpointers.imp fun _ _ hp => hp.mono Or.inl) i hnew) (i + 1) hnull⟩
  have hheld : extend R s.countOfNode s'.countOfNode parent.positionInDisk parent'.positionInDisk →
      R parent.positionInDisk parent'.positionInDisk := by
    rintro (hR | ⟨hc, -⟩)
    · exact hR
    · rcases hp.position with ⟨hnull, -⟩ | hR
      · exact absurd (hc.symm.trans hnull) hlt.ne
      · exact hR
  have hsize : extend R s.countOfNode s'.countOfNode parent.positionInDisk parent'.positionInDisk →
      slotSize t { s with countOfNode := s.countOfNode + 1 } parent.positionInDisk = parent.size :=
    fun hR => hp.current (h.valid (hheld hR)).1.ne
  have hshort : keys.length ≤ parent.size := by
    have hlen := length_eraseAt hkeys
    have hfull := hp.size_eq
    omega
  refine (halloc.rewrite hparent hheld hsize hshort).bind fun s₁ s₁' hwritten => ?_
  obtain ⟨hrest, hlinked, hsizes⟩ := hwritten
  have hnode : Alike (extend R s.countOfNode s'.countOfNode)
      (⟨0, true, s.countOfNode, left.keys ++ [separator] ++ right.keys,
        left.pointers ++ [sizeMax] ++ right.pointers⟩ : Node κ υ)
      ⟨0, true, s'.countOfNode, left.keys ++ [separator] ++ right.keys,
        left'.pointers ++ [sizeMax] ++ right'.pointers⟩ :=
    ⟨rfl, rfl, hnew, rfl, List.rel_append (List.rel_append (hl.mono Or.inl).pointers
      (List.Forall₂.cons hnull List.Forall₂.nil)) (hr.mono Or.inl).pointers⟩
  -- the slot that is given out lies behind all records of before
  have hbehind {a b : ℕ} (hab : R a b) : recordEnd t a (slotSize t s₁ a) ≤ slot t s.countOfNode ∧
      recordEnd t b (slotSize t s₁' b) ≤ slot t s'.countOfNode := by
    rw [(hsizes hab).1, (hsizes hab).2]
    exact ⟨h.left.ends ⟨b, hab⟩, h.right.ends ⟨a, hab⟩⟩
  refine (hlinked.write_empty hnode rfl hbehind).bind fun s₂ s₂' hwritten' => ?_
  obtain ⟨hrest', hsizes', -, hlinked'⟩ := hwritten'
  refine Lockstep.ok ⟨_, Or.inl, ⟨hlinked'.weaken id, ?_, ?_⟩, hparent, fun {x x'} hx =>
    ⟨hx.toAlike.mono Or.inl, hx.size_eq, fun hne => ?_⟩⟩
  · rw [hrest'.root.1, hrest'.root.2, hrest.root.1, hrest.root.2]
    exact h.root.mono Or.inl
  · rw [hrest'.count.1, hrest'.count.2, hrest.count.1, hrest.count.2]
    exact ⟨Nat.succ_le_succ hrest'.inside.1, Nat.succ_le_succ hrest'.inside.2⟩
  · have hR : R x.positionInDisk x'.positionInDisk := hx.position.resolve_left fun hx => hne hx.1
    rw [(hsizes' hR).1 (h.below hR).1.ne, (hsizes hR).1]
    exact hx.current hne

theorem mergeWithSibling (h : Twin t codec R s s') (hn : Alike R n n')
    (hp : Copies t s R parent parent') (hl : Alike R left left') (hr : Alike R right right') :
    Lockstep .streamFailed (Option.Rel (TwinsWith t codec s R))
      (mergeWithSibling t codec s n parent left right i sizes)
      (mergeWithSibling t codec s' n' parent' left' right' i sizes) := by
  unfold BTreeDisk.mergeWithSibling
  refine Lockstep.ite Iff.rfl (fun _ => ?_) fun _ => Lockstep.ite Iff.rfl (fun _ => ?_) fun _ => ?_
  · refine Lockstep.ite Iff.rfl (fun _ => Lockstep.error _) fun _ => ?_
    exact (h.merge hl hn hp (i - 1)).bind fun _ _ hmerged => Lockstep.ok (.some hmerged)
  · exact (h.merge hn hr hp i).bind fun _ _ hmerged => Lockstep.ok (.some hmerged)
  · exact Lockstep.ok .none

theorem getBefore {xs ys : List ℕ} (h : List.Forall₂ (Pos R) xs ys) (i : ℕ) :
    Lockstep .streamFailed (Pos R) (getBefore xs i) (getBefore ys i) :=
  Lockstep.ite Iff.rfl (fun _ => Lockstep.error _) fun _ => Lockstep.get h _

theorem length_congr (h : Twin t codec R s s') (hn : Alike R n n') (hab : Pos R a b) (k : ℕ) :
    (if a ≠ sizeMax then n.keys.length else k) = if b ≠ sizeMax then n'.keys.length else k := by
  rw [hn.keys]
  exact if_congr (not_congr (h.eq_sizeMax_iff hab)) rfl rfl

theorem mergeLoop (h : Twin t codec R s s') (hp : Alike R parent parent') (hl : Alike R left left')
    (hr : Alike R right right') {path path' : List (ℕ × ℕ)} (hpath : Paths R path path') :
    Lockstep .streamFailed (TwinsWith t codec s R)
      (mergeLoop t codec s parent left right sizes path)
      (mergeLoop t codec s' parent' left' right' sizes path') := by
  induction path generalizing R s s' parent parent' left left' right right' sizes path' with
  | nil =>
    cases hpath
    exact Lockstep.ok ⟨R, id, h, hp, id⟩
  | cons top path ih =>
    obtain ⟨top', path', ⟨hpos, hindex⟩, hbelow, rfl⟩ := List.forall₂_cons_left_iff.mp hpath
    obtain ⟨habove, -, -⟩ := h.read hpos
    have hturn {x y : ℕ × ℕ} (heq : x = y) : Lockstep .streamFailed (TwinsWith t codec s R)
        (mergeTurn t codec s parent (diskRead t codec s top.1) top.2 x path)
        (mergeTurn t codec s' parent' (diskRead t codec s' top'.1) top'.2 y path') := by
      subst heq
      unfold mergeTurn
      rw [← hindex]
      refine (getBefore habove.pointers top.2).bind fun l l' hll => ?_
      refine (Lockstep.get habove.pointers (top.2 + 1)).bind fun r r' hrr => ?_
      have hl' := (h.read hll).1.toAlike
      have hr' := (h.read hrr).1.toAlike
      refine (h.mergeWithSibling hp habove hl' hr').bind fun m m' hm => ?_
      cases hm with
      | none => exact Lockstep.error _
      | some hmerged =>
        obtain ⟨R', hsub, htwin, hparent, hkeep⟩ := hmerged
        refine (ih htwin hparent (hl'.mono hsub) (hr'.mono hsub) (Paths.mono hbelow hsub)).mono ?_
        rintro r r' ⟨R'', hsub', htwin', hlast, hkeep'⟩
        exact ⟨R'', fun hab => hsub' (hsub hab), htwin', hlast, fun hx => hkeep' (hkeep hx)⟩
    have hright := h.length_congr hr (Forall₂.getD habove.pointers (top.2 + 1) (Or.inl ⟨rfl, rfl⟩)) sizes.2
    unfold BTreeDisk.mergeLoop
    rw [← hp.keys, ← hindex]
    refine Lockstep.ite Iff.rfl (fun _ => ?_) fun _ => Lockstep.ok ⟨R, id, h, hp, id⟩
    refine Lockstep.ite Iff.rfl (fun _ => ?_) fun _ => ?_
    · refine (Lockstep.get habove.pointers (top.2 - 1)).bind fun p p' hpp => ?_
      exact hindex ▸ hturn (congrArg₂ Prod.mk (h.length_congr hl hpp sizes.1) hright)
    · exact hindex ▸ hturn (congrArg₂ Prod.mk rfl hright)

/-- The writes of a node and of two more, edited copies of what was read. -/
theorem writeThree (h : Twin t codec R s s') {m₁ m₁' m₂ m₂' m₃ m₃' : Node κ υ}
    (hn : Copies t s R n n') (hp : Copies t s R parent parent')
    (hl : Copies t s R left left') (h₁ : Alike R m₁ m₁') (h₂ : Alike R m₂ m₂')
    (h₃ : Alike R m₃ m₃') (he₁ : Edited n m₁) (he₂ : Edited parent m₂) (he₃ : Edited left m₃) :
    Lockstep .streamFailed (Twins t codec)
      (do
        let st ← diskWrite t codec s m₁
        let st ← diskWrite t codec st m₂
        diskWrite t codec st m₃)
      (do
        let st ← diskWrite t codec s' m₁'
        let st ← diskWrite t codec st m₂'
        diskWrite t codec st m₃') := by
  refine (h.rewrite hn h₁ he₁).bind fun s₁ s₁' ⟨htwin₁, hkeep₁⟩ => ?_
  refine (htwin₁.rewrite (hkeep₁ hp) h₂ he₂).bind fun s₂ s₂' ⟨htwin₂, hkeep₂⟩ => ?_
  exact (htwin₂.rewrite (hkeep₂ (hkeep₁ hl)) h₃ he₃).mono fun s₃ s₃' hwritten => ⟨R, hwritten.1⟩

theorem borrowLeft (h : Twin t codec R s s') (hn : Copies t s R n n')
    (hp : Copies t s R parent parent') (hl : Copies t s R left left') :
    Lockstep .streamFailed (Twins t codec) (borrowLeft t codec s n parent left i index)
      (borrowLeft t codec s' n' parent' left' i index) := by
  unfold BTreeDisk.borrowLeft
  rw [← hp.keys, ← hl.keys]
  refine (hn.toAlike.eraseKey index).bind fun m m' ⟨hm, hsize, hpos, hlen⟩ => ?_
  refine (Lockstep.refl _).bind fun separator _ ⟨heq, _⟩ => ?_
  subst heq
  refine (Lockstep.refl _).bind fun last _ ⟨heq, _⟩ => ?_
  subst heq
  refine (Lockstep.refl _).bind fun parentKeys _ ⟨heq, hset⟩ => ?_
  subst heq
  refine (hl.toAlike.eraseKey _).bind fun l l' ⟨hl₁, hsize₁, hpos₁, hlen₁⟩ => ?_
  have hm₁ : Alike R { m with keys := separator :: m.keys, pointers := m.pointers ++ [sizeMax] }
      { m' with keys := separator :: m'.keys, pointers := m'.pointers ++ [sizeMax] } :=
    ⟨hm.size, hm.isLeaf, hm.position, congrArg (separator :: ·) hm.keys, List.rel_append hm.pointers
      (List.Forall₂.cons (Or.inl ⟨rfl, rfl⟩) List.Forall₂.nil)⟩
  exact h.writeThree hn hp hl hm₁ (hp.toAlike.setKeys parentKeys) hl₁ ⟨hsize, hpos, hlen.le⟩
    ⟨rfl, rfl, (length_setAt hset).le⟩ ⟨hsize₁, hpos₁, by omega⟩

theorem borrowRight (h : Twin t codec R s s') (hn : Copies t s R n n')
    (hp : Copies t s R parent parent') (hr : Copies t s R right right') :
    Lockstep .streamFailed (Twins t codec) (borrowRight t codec s n parent right i index)
      (borrowRight t codec s' n' parent' right' i index) := by
  unfold BTreeDisk.borrowRight
  rw [← hp.keys, ← hr.keys]
  refine (hn.toAlike.eraseKey index).bind fun m m' ⟨hm, hsize, hpos, hlen⟩ => ?_
  refine (Lockstep.refl _).bind fun separator _ ⟨heq, _⟩ => ?_
  subst heq
  refine (Lockstep.refl _).bind fun first _ ⟨heq, _⟩ => ?_
  subst heq
  refine (Lockstep.refl _).bind fun parentKeys _ ⟨heq, hset⟩ => ?_
  subst heq
  refine (hr.toAlike.eraseKey _).bind fun r r' ⟨hr₁, hsize₁, hpos₁, hlen₁⟩ => ?_
  have hm₁ : Alike R { m with keys := m.keys ++ [separator], pointers := m.pointers ++ [sizeMax] }
      { m' with keys := m'.keys ++ [separator], pointers := m'.pointers ++ [sizeMax] } :=
    ⟨hm.size, hm.isLeaf, hm.position, congrArg (· ++ [separator]) hm.keys, List.rel_append hm.pointers
      (List.Forall₂.cons (Or.inl ⟨rfl, rfl⟩) List.Forall₂.nil)⟩
  refine h.writeThree hn hp hr hm₁ (hp.toAlike.setKeys parentKeys) hr₁ ⟨hsize, hpos, ?_⟩
    ⟨rfl, rfl, (length_setAt hset).le⟩ ⟨hsize₁, hpos₁, by omega⟩
  rw [List.length_append]
  exact hlen.le

theorem setRoot (h : Twin t codec R s s') (hab : Pos R a b) :
    Twin t codec R { s with positionRoot := a } { s' with positionRoot := b } := by
  refine ⟨⟨h.unique, h.below, h.valid, h.sub, fun hab => ?_, h.left.grow rfl le_rfl,
    h.right.grow rfl le_rfl⟩, hab, h.count⟩
  obtain ⟨n, n', hn, hn', halike, hpos⟩ := h.held hab
  exact ⟨n, n', hn.shared hn.allocated le_rfl, hn'.shared hn'.allocated le_rfl, halike, hpos⟩

/-- One key fewer, and the field `size` counted down. -/
theorem writeDecremented (h : Twin t codec R s s') {m m' : Node κ υ} (hn : Copies t s R n n')
    (hm : Alike R m m') (hpos : m.positionInDisk = n.positionInDisk) (hsize : m.size = decrement n.size)
    (hlen : m.keys.length + 1 = n.keys.length) :
    Lockstep .streamFailed (Twin t codec R) (diskWrite t codec s m) (diskWrite t codec s' m') := by
  refine h.write hn hm hpos (by omega) ?_
  have hfull := hn.size_eq
  rw [hsize, decrement, if_neg (by omega)]
  omega

theorem deleteFromRoot (h : Twin t codec R s s') (hn : Copies t s R n n') :
    Lockstep .streamFailed (Twins t codec) (deleteFromRoot t codec s n index)
      (deleteFromRoot t codec s' n' index) := by
  have hnull : Pos R sizeMax sizeMax := Or.inl ⟨rfl, rfl⟩
  unfold BTreeDisk.deleteFromRoot
  rw [← hn.keys]
  refine Lockstep.ite Iff.rfl (fun hlen => ?_) fun _ => ?_
  · refine (Lockstep.refl _).bind fun keys _ ⟨heq, herase⟩ => ?_
    subst heq
    exact (h.writeDecremented hn ((hn.toAlike.setKeys keys).setSize decrement) rfl rfl
      (length_eraseAt herase)).mono fun s₁ s₁' htwin => ⟨R, htwin⟩
  · have hwrite {root root' : ℕ} (hroot : Pos R root root') : Lockstep .streamFailed (Twins t codec)
        (diskWrite t codec { s with positionRoot := root } n)
        (diskWrite t codec { s' with positionRoot := root' } n') :=
      ((h.setRoot hroot).write ⟨hn.toAlike, hn.size_eq, hn.current⟩ hn.toAlike rfl le_rfl
        hn.size_eq).mono fun s₁ s₁' htwin => ⟨R, htwin⟩
    dsimp only
    rcases Forall₂.cases_head hn.pointers with ⟨hp, hp'⟩ | ⟨a, b, rest, rest', hp, hp', hab, hrest⟩
    · rw [hp, hp']
      exact hwrite h.root
    · rw [hp, hp']
      dsimp only
      by_cases ha : (diskRead t codec s a).positionInDisk = sizeMax
      · have hb := (h.null_iff (h.read hab).1.toAlike).mp ha
        rw [if_neg (not_not.mpr ha), if_neg (not_not.mpr hb)]
        exact hwrite (Forall₂.headD hrest hnull)
      · have hb := (not_congr (h.null_iff (h.read hab).1.toAlike)).mp ha
        rw [if_pos ha, if_pos hb]
        exact hwrite hab

theorem dropEmptyRoot (h : Twin t codec R s s') (hn : Alike R n n') :
    Twin t codec R (dropEmptyRoot s n) (dropEmptyRoot s' n') := by
  have hnull : Pos R sizeMax sizeMax := Or.inl ⟨rfl, rfl⟩
  unfold BTreeDisk.dropEmptyRoot
  rw [← hn.keys]
  split
  · rcases Forall₂.cases_head hn.pointers with ⟨hp, hp'⟩ | ⟨a, b, rest, rest', hp, hp', hab, hrest⟩
    · rw [hp, hp']
      exact h.setRoot hnull
    · rw [hp, hp']
      rcases Forall₂.cases_head hrest with ⟨hq, hq'⟩ | ⟨c, d, tail, tail', hq, hq', hcd, -⟩
      · rw [hq, hq']
        exact h.setRoot hab
      · rw [hq, hq']
        refine h.setRoot ?_
        by_cases ha : a = sizeMax
        · rw [if_neg (not_not.mpr ha), if_neg (not_not.mpr ((h.eq_sizeMax_iff hab).mp ha))]
          exact hcd
        · rw [if_pos ha, if_pos ((not_congr (h.eq_sizeMax_iff hab)).mp ha)]
          exact hab
  · exact h

theorem deleteKeyFromLeaf (h : Twin t codec R s s') (hn : Copies t s R n n')
    {path path' : List (ℕ × ℕ)} (hpath : Paths R path path') :
    Lockstep .streamFailed (Twins t codec) (deleteKeyFromLeaf t codec s index n path)
      (deleteKeyFromLeaf t codec s' index n' path') := by
  unfold BTreeDisk.deleteKeyFromLeaf
  rw [← hn.keys]
  refine Lockstep.ite Iff.rfl (fun _ => ?_) fun _ => ?_
  · refine (Lockstep.refl _).bind fun keys _ ⟨heq, herase⟩ => ?_
    subst heq
    exact (h.writeDecremented hn ((hn.toAlike.setKeys keys).setSize decrement) rfl rfl
      (length_eraseAt herase)).mono fun s₁ s₁' htwin => ⟨R, htwin⟩
  rcases Forall₂.cases_head hpath with ⟨hp, hp'⟩ | ⟨top, top', rest, rest', hp, hp', ⟨htop, hindex⟩, hrest⟩
  · rw [hp, hp']
    exact Lockstep.error _
  rw [hp, hp']
  obtain ⟨hcur, -, -⟩ := h.read htop
  rcases Forall₂.cases_head hrest with ⟨hq, hq'⟩ | ⟨above, above', rest, rest', hq, hq', ⟨habove, -⟩, hrest⟩
  · rw [hq, hq']
    exact h.deleteFromRoot hcur
  rw [hq, hq']
  obtain ⟨hparent, -, -⟩ := h.read habove
  dsimp only
  rw [← hindex]
  refine Lockstep.ite (h.null_iff hparent.toAlike) (fun _ => h.deleteFromRoot hcur) fun _ => ?_
  refine (getBefore hparent.pointers top.2).bind fun l l' hl => ?_
  refine (Lockstep.get hparent.pointers (top.2 + 1)).bind fun r r' hr => ?_
  obtain ⟨hleft, -, -⟩ := h.read hl
  obtain ⟨hright, -, -⟩ := h.read hr
  rw [← h.length_congr hleft.toAlike hleft.position 0, ← h.length_congr hright.toAlike hright.position 0]
  refine Lockstep.ite Iff.rfl (fun _ => h.borrowLeft hn hparent hleft) fun _ => ?_
  refine Lockstep.ite Iff.rfl (fun _ => h.borrowRight hn hparent hright) fun _ => ?_
  refine (hn.toAlike.eraseKey index).bind fun m m' ⟨hm, hsize, hpos, hlen⟩ => ?_
  refine (h.mergeWithSibling hcur.toAlike hparent hleft.toAlike hright.toAlike).bind
    fun merged merged' hmerged => ?_
  have hboth : TwinsWith t codec s R (merged.getD (s, diskRead t codec s above.1))
      (merged'.getD (s', diskRead t codec s' above'.1)) := by
    cases hmerged with
    | none => exact ⟨R, id, h, hparent.toAlike, id⟩
    | some hsome => exact hsome
  obtain ⟨R', hsub, htwin, hlast, hkeep⟩ := hboth
  have hm' : Alike R' { m with size := decrement m.size } { m' with size := decrement m'.size } :=
    (hm.setSize decrement).mono hsub
  refine (htwin.writeDecremented (hkeep hn) hm' hpos (congrArg decrement hsize) hlen).bind
    fun s₁ s₁' htwin₁ => ?_
  refine (htwin₁.mergeLoop hlast (hleft.toAlike.mono hsub) (hright.toAlike.mono hsub)
    (Paths.mono hrest hsub)).bind fun result result' ⟨R'', _, htwin₂, hlast₂, _⟩ => ?_
  exact Lockstep.ok ⟨R'', htwin₂.dropEmptyRoot hlast₂⟩

theorem null_congr (h : Twin t codec R s s') (hn : Alike R n n') (hi : i < n.pointers.length) :
    (diskRead t codec s (n.pointers.getD i 0)).positionInDisk = sizeMax ↔
      (diskRead t codec s' (n'.pointers.getD i 0)).positionInDisk = sizeMax := by
  rw [List.getD_eq_getElem?_getD, List.getD_eq_getElem?_getD]
  rcases Forall₂.getElem? hn.pointers i with ⟨a, b, ha, hb, hab⟩ | ⟨hnone, -⟩
  · rw [ha, hb]
    exact h.null_iff (h.read hab).1.toAlike
  · exact absurd (List.getElem?_eq_none_iff.mp hnone) (by omega)

theorem checkIfLeaf (h : Twin t codec R s s') (hn : Alike R n n') :
    checkIfLeaf t codec s n index = checkIfLeaf t codec s' n' index := by
  unfold BTreeDisk.checkIfLeaf
  rw [← hn.pointers.length_eq]
  dsimp only
  split
  case isTrue hi => exact decide_eq_decide.mpr (h.null_congr hn hi)
  case isFalse =>
    split
    case isTrue hi => exact decide_eq_decide.mpr (h.null_congr hn hi)
    case isFalse => rfl

theorem rightmost (h : Twin t codec R s s') (hn : Copies t s R n n') {turns : ℕ}
    {path path' : List (ℕ × ℕ)} (hpath : Paths R path path') :
    Lockstep .streamFailed (fun r r' => Copies t s R r.1 r'.1 ∧ Paths R r.2 r'.2)
      (rightmost t codec s turns n path) (rightmost t codec s' turns n' path') := by
  induction turns generalizing n n' path path' with
  | zero => exact Lockstep.error _
  | succ turns ih =>
    have hlast := Forall₂.getLastD hn.pointers (Or.inl ⟨rfl, rfl⟩)
    refine Lockstep.ite (not_congr (h.eq_sizeMax_iff hlast)) (fun _ => ?_) fun _ => Lockstep.ok ⟨hn, hpath⟩
    obtain ⟨hnext, -, -⟩ := h.read hlast
    refine ih hnext (List.Forall₂.cons ⟨hnext.position, ?_⟩ hpath)
    rw [hn.pointers.length_eq]

theorem erase [LinearOrder κ] {key : κ} {turns : ℕ} (h : Twin t codec R s s') :
    Lockstep .streamFailed (Results t codec) (erase t turns codec s key)
      (erase t turns codec s' key) := by
  obtain ⟨hroot, -, -⟩ := h.read h.root
  unfold BTreeDisk.erase
  refine (h.eraseWalk hroot List.Forall₂.nil).bind fun p p' hfound => ?_
  match p, p', hfound with
  | none, none, _ => exact Lockstep.ok ⟨⟨R, h⟩, rfl⟩
  | some ⟨n, index, path⟩, some ⟨n', index', path'⟩, ⟨hcur, hindex, hpath⟩ =>
    obtain rfl : index = index' := hindex
    dsimp only at hcur hpath ⊢
    rw [← h.checkIfLeaf hcur.toAlike, ← hcur.keys]
    refine Lockstep.ite Iff.rfl (fun _ => ?_) fun _ => ?_
    · exact (h.deleteKeyFromLeaf hcur hpath).bind fun s₁ s₁' htwins => Lockstep.ok ⟨htwins, rfl⟩
    · refine (Lockstep.get hcur.pointers index).bind fun a b hab => ?_
      obtain ⟨hchild, -, -⟩ := h.read hab
      have hbelow : Paths R (((diskRead t codec s a).positionInDisk, index) :: path)
          (((diskRead t codec s' b).positionInDisk, index) :: path') :=
        List.Forall₂.cons ⟨hchild.position, rfl⟩ hpath
      refine (h.rightmost hchild hbelow).bind fun found found' ⟨hfound, hpath'⟩ => ?_
      rw [← hfound.keys]
      refine (Lockstep.refl _).bind fun newData _ ⟨heq, _⟩ => ?_
      subst heq
      refine (Lockstep.refl _).bind fun keys _ ⟨heq, hset⟩ => ?_
      subst heq
      refine (h.rewrite hcur (hcur.toAlike.setKeys keys) ⟨rfl, rfl, (length_setAt hset).le⟩).bind
        fun s₁ s₁' ⟨htwin, hkeep⟩ => ?_
      exact (htwin.deleteKeyFromLeaf (hkeep hfound) hpath').bind
        fun s₂ s₂' htwins => Lockstep.ok ⟨htwins, rfl⟩

end Twin

end MaiFaSp.BTreeDisk
