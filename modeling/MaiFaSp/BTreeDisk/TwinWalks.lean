import MaiFaSp.BTreeDisk.Twins

/-!
# The walks of the calls on two disks with one tree

`at`, `update` and the walks of `insert` and `erase` take the same turns on both.
-/

namespace MaiFaSp.BTreeDisk

open BoundedVector

variable {κ υ : Type} {t turns : ℕ} {codec : Codec κ υ} {s s' : DiskTree} {n n' : Node κ υ}
  {R R' : ℕ → ℕ → Prop} {a b i : ℕ}

/-- One tree on both. -/
def Twins (t : ℕ) (codec : Codec κ υ) (s s' : DiskTree) : Prop := ∃ R, Twin t codec R s s'

/-- The record at the node's position has the size of the copy. -/
def Current (t : ℕ) (s : DiskTree) (n : Node κ υ) : Prop :=
  n.positionInDisk ≠ sizeMax → slotSize t s n.positionInDisk = n.size

/-- Copies of one node as they are read. -/
structure Copies (t : ℕ) (s : DiskTree) (R : ℕ → ℕ → Prop) (n n' : Node κ υ) : Prop
    extends Alike R n n' where
  size_eq : n.size = n.keys.length
  current : Current t s n

/-- What a call makes of a copy before it is written back: no more keys, the same field `size`. -/
structure Edited (n m : Node κ υ) : Prop where
  size : m.size = n.size
  position : m.positionInDisk = n.positionInDisk
  length : m.keys.length ≤ n.keys.length

/-- The same path at positions that belong together. -/
def Paths (R : ℕ → ℕ → Prop) : List (ℕ × ℕ) → List (ℕ × ℕ) → Prop :=
  List.Forall₂ fun x y => Pos R x.1 y.1 ∧ x.2 = y.2

theorem Paths.mono {path path' : List (ℕ × ℕ)} (h : Paths R path path')
    (hR : ∀ {a b}, R a b → R' a b) : Paths R' path path' :=
  List.Forall₂.imp (fun _ _ hp => ⟨hp.1.mono hR, hp.2⟩) h

theorem Alike.keyList (h : Alike R n n') : n'.keyList = n.keyList := by
  unfold Node.keyList
  rw [h.keys]

theorem Copies.away (h : Copies t s R n n') :
    Copies t s R { n with positionInDisk := sizeMax } { n' with positionInDisk := sizeMax } :=
  ⟨⟨h.size, h.isLeaf, Or.inl ⟨rfl, rfl⟩, h.keys, h.pointers⟩, h.size_eq, fun hne => absurd rfl hne⟩

theorem Linked.slotSize_eq {H : ℕ → ℕ → Prop} (h : Linked t codec R H s s') (hab : H a b) :
    slotSize t s a = slotSize t s' b := by
  obtain ⟨n, n', hn, hn', halike, -⟩ := h.held hab
  rw [hn.slotSize_eq, hn'.slotSize_eq]
  exact halike.size

/-- Both disks after a call, and its answer. -/
def Results (t : ℕ) (codec : Codec κ υ) {γ : Type} (r r' : DiskTree × γ) : Prop :=
  Twins t codec r.1 r'.1 ∧ r.2 = r'.2

/-- The same place in both. -/
structure Places (t : ℕ) (s : DiskTree) (R : ℕ → ℕ → Prop)
    (p p' : Place κ υ) : Prop where
  prev : Copies t s R p.prev p'.prev
  index : p.i = p'.i
  path : Paths R p.path p'.path

/-- The same place in both, or none. -/
def Found (t : ℕ) (s : DiskTree) (R : ℕ → ℕ → Prop) :
    Option (Place κ υ) → Option (Place κ υ) → Prop
  | none, none => True
  | some p, some p' => Places t s R p p'
  | _, _ => False

namespace Twin

theorem count_lt (h : Twin t codec R s s') : s.countOfNode < sizeMax ∧ s'.countOfNode < sizeMax := by
  have hlt : streamLimit + 1 < sizeMax := by
    unfold streamLimit sizeMax
    omega
  exact ⟨h.count.1.trans_lt hlt, h.count.2.trans_lt hlt⟩

theorem read (h : Twin t codec R s s') (hab : Pos R a b) :
    Copies t s R (diskRead t codec s a) (diskRead t codec s' b) ∧
      (diskRead t codec s a).positionInDisk = a ∧ (diskRead t codec s' b).positionInDisk = b := by
  rcases hab with ⟨rfl, rfl⟩ | hab
  · rw [diskRead_sizeMax h.count_lt.1.le, diskRead_sizeMax h.count_lt.2.le]
    exact ⟨⟨⟨rfl, rfl, Or.inl ⟨rfl, rfl⟩, rfl, List.Forall₂.nil⟩, rfl, fun hne => absurd rfl hne⟩,
      rfl, rfl⟩
  · obtain ⟨n, n', hn, hn', halike, hpos, hpos'⟩ := h.held hab
    rw [hn.diskRead, hn'.diskRead]
    refine ⟨⟨halike, hn.length_keys.symm, fun _ => ?_⟩, hpos, hpos'⟩
    rw [hpos]
    exact hn.slotSize_eq

theorem null_iff (h : Twin t codec R s s') (hn : Alike R n n') :
    n.positionInDisk = sizeMax ↔ n'.positionInDisk = sizeMax := h.eq_sizeMax_iff hn.position

/-- The tree after writes that keep the root and the number of nodes. -/
theorem of_linked {s₁ s₁' : DiskTree} (h : Twin t codec R s s') (hrest : Rest n n' s s' s₁ s₁')
    (hlinked : Linked t codec R R s₁ s₁') : Twin t codec R s₁ s₁' := by
  refine ⟨hlinked, ?_, hrest.count.1.trans_le h.count.1, hrest.count.2.trans_le h.count.2⟩
  rw [hrest.root.1, hrest.root.2]
  exact h.root

/-- The writes of a node whose field `size` is the number of its keys. -/
theorem write (h : Twin t codec R s s') {m m' : Node κ υ} (hn : Copies t s R n n') (hm : Alike R m m')
    (hpos : m.positionInDisk = n.positionInDisk) (hlen : m.keys.length ≤ n.keys.length)
    (hsize : m.size = m.keys.length) :
    Lockstep .streamFailed (Twin t codec R) (diskWrite t codec s m) (diskWrite t codec s' m') := by
  have hspan (hR : R m.positionInDisk m'.positionInDisk) :
      m.size ≤ slotSize t s m.positionInDisk ∧ m.size ≤ slotSize t s' m'.positionInDisk := by
    have hle : m.size ≤ slotSize t s m.positionInDisk := by
      have hsame : slotSize t s m.positionInDisk = n.size := by
        have hne := (h.valid hR).1.ne
        rw [hpos] at hne ⊢
        exact hn.current hne
      rw [hsame, hn.size_eq, hsize]
      exact hlen
    exact ⟨hle, hle.trans_eq (h.slotSize_eq hR)⟩
  refine (h.toLinked.write hm hsize (fun hR => ?_) fun hR => ?_).mono fun _ _ hnew =>
    h.of_linked hnew.toRest (hnew.linked.weaken Or.inl)
  · exact ⟨(h.left.clear ⟨_, hR⟩).mono (hspan hR).1, (h.right.clear ⟨_, hR⟩).mono (hspan hR).2⟩
  · exact ⟨(recordEnd_mono (hspan hR).1).trans (h.left.ends ⟨_, hR⟩),
      (recordEnd_mono (hspan hR).2).trans (h.right.ends ⟨_, hR⟩)⟩

theorem rewrite (h : Twin t codec R s s') {m m' : Node κ υ} (hn : Copies t s R n n')
    (hm : Alike R m m') (he : Edited n m) :
    Lockstep .streamFailed (fun s₁ s₁' => Twin t codec R s₁ s₁' ∧
        ∀ {x x' : Node κ υ}, Copies t s R x x' → Copies t s₁ R x x')
      (diskWrite t codec s m) (diskWrite t codec s' m') := by
  have hcurrent (hR : R m.positionInDisk m'.positionInDisk) : slotSize t s m.positionInDisk = m.size := by
    have hne := (h.valid hR).1.ne
    rw [he.position] at hne ⊢
    rw [he.size]
    exact hn.current hne
  have hkeys : m.keys.length ≤ m.size := by
    rw [he.size, hn.size_eq]
    exact he.length
  refine (h.toLinked.rewrite hm id hcurrent hkeys).mono fun s₁ s₁' hnew => ?_
  obtain ⟨hrest, hlinked, hsizes⟩ := hnew
  refine ⟨h.of_linked hrest hlinked, fun {x x'} hx => ⟨hx.toAlike, hx.size_eq, fun hne => ?_⟩⟩
  have hR : R x.positionInDisk x'.positionInDisk := hx.position.resolve_left fun hnull => hne hnull.1
  rw [(hsizes hR).1]
  exact hx.current hne

/-- The pointer that a walk follows, or the copy itself without a position. -/
theorem next (h : Twin t codec R s s') (hn : Copies t s R n n') (i : ℕ) :
    Copies t s R
      (match n.pointers[i]? with
        | some pointer => diskRead t codec s pointer
        | none => { n with positionInDisk := sizeMax })
      (match n'.pointers[i]? with
        | some pointer => diskRead t codec s' pointer
        | none => { n' with positionInDisk := sizeMax }) := by
  rcases Forall₂.getElem? hn.pointers i with ⟨a, b, ha, hb, hab⟩ | ⟨ha, hb⟩
  · rw [ha, hb]
    exact (h.read hab).1
  · rw [ha, hb]
    exact hn.away

variable [LinearOrder κ] {key : κ} {v : υ}

theorem atWalk (h : Twin t codec R s s') (hn : Copies t s R n n') :
    Lockstep .streamFailed (fun r r' => r = r') (atWalk t codec s key turns n)
      (atWalk t codec s' key turns n') := by
  induction turns generalizing n n' with
  | zero => exact Lockstep.error _
  | succ turns ih =>
    refine Lockstep.ite (h.null_iff hn.toAlike) (fun _ => Lockstep.ok rfl) fun _ => ?_
    dsimp only
    rw [hn.keyList, ← hn.keys]
    cases n.keys[lowerIndex n.keyList key]?.filter fun e => e.1 = key with
    | some e => exact Lockstep.ok rfl
    | none => exact (Lockstep.get hn.pointers _).bind fun a b hab => ih (h.read hab).1

theorem atKey (h : Twin t codec R s s') :
    Lockstep .streamFailed (fun r r' => r = r') (atKey t turns codec s key)
      (atKey t turns codec s' key) := by
  have hn := (h.read h.root).1
  unfold BTreeDisk.atKey
  dsimp only
  rw [← hn.keys]
  exact (Lockstep.refl _).bind fun _ _ _ => h.atWalk hn

theorem updateWalk (h : Twin t codec R s s') (hn : Copies t s R n n') :
    Lockstep .streamFailed (Results t codec) (updateWalk t codec s (key, v) turns n)
      (updateWalk t codec s' (key, v) turns n') := by
  induction turns generalizing n n' with
  | zero => exact Lockstep.error _
  | succ turns ih =>
    refine Lockstep.ite (h.null_iff hn.toAlike) (fun _ => Lockstep.ok ⟨⟨R, h⟩, rfl⟩) fun _ => ?_
    dsimp only
    rw [hn.keyList, ← hn.keys]
    refine (Lockstep.refl _).bind fun curKey _ ⟨heq, _⟩ => ?_
    subst heq
    have hnext := h.next hn (lowerIndex n.keyList key)
    rw [← hn.keys] at hnext
    refine Lockstep.ite Iff.rfl (fun _ => ?_) fun _ => ih hnext
    refine (Lockstep.refl _).bind fun keys _ ⟨heq, hset⟩ => ?_
    subst heq
    have hlen := length_setAt hset
    have hnew : Alike R { n with keys := keys } { n' with keys := keys } :=
      ⟨hn.size, hn.isLeaf, hn.position, rfl, hn.pointers⟩
    exact (h.write hn hnew rfl hlen.le (hn.size_eq.trans hlen.symm)).bind
      fun s₁ s₁' htwin => Lockstep.ok ⟨⟨R, htwin⟩, rfl⟩

theorem update (h : Twin t codec R s s') :
    Lockstep .streamFailed (Results t codec) (update t turns codec s (key, v))
      (update t turns codec s' (key, v)) := by
  have hn := (h.read h.root).1
  unfold BTreeDisk.update
  dsimp only
  rw [← hn.keys]
  exact (Lockstep.refl _).bind fun _ _ _ => h.updateWalk hn

/-! ### The walks of `insert` and `erase` -/

theorem insertWalk (h : Twin t codec R s s') {p p' : Place κ υ} (hn : Copies t s R n n')
    (hp : Places t s R p p') :
    Lockstep .streamFailed (Found t s R) (insertWalk t codec s key turns n p)
      (insertWalk t codec s' key turns n' p') := by
  induction turns generalizing n n' p p' with
  | zero => exact Lockstep.error _
  | succ turns ih =>
    refine Lockstep.ite (h.null_iff hn.toAlike) (fun _ => Lockstep.ok hp) fun _ => ?_
    dsimp only
    rw [hn.keyList, ← hn.keys]
    refine (Lockstep.refl _).bind fun curKey _ ⟨heq, _⟩ => ?_
    subst heq
    have hnext := h.next hn (lowerIndex n.keyList key)
    rw [← hn.keys] at hnext
    refine Lockstep.ite Iff.rfl (fun _ => Lockstep.ok trivial) fun _ => ih hnext ?_
    exact ⟨hn, rfl, List.Forall₂.cons ⟨hn.position, rfl⟩ hp.path⟩

theorem eraseWalk (h : Twin t codec R s s') {path path' : List (ℕ × ℕ)}
    (hn : Copies t s R n n') (hpath : Paths R path path') :
    Lockstep .streamFailed (Found t s R) (eraseWalk t codec s key turns n i path)
      (eraseWalk t codec s' key turns n' i path') := by
  induction turns generalizing n n' i path path' with
  | zero => exact Lockstep.error _
  | succ turns ih =>
    refine Lockstep.ite (h.null_iff hn.toAlike) (fun _ => Lockstep.ok trivial) fun _ => ?_
    dsimp only
    rw [hn.keyList]
    have hpath' : Paths R ((n.positionInDisk, i) :: path) ((n'.positionInDisk, i) :: path') :=
      List.Forall₂.cons ⟨hn.position, rfl⟩ hpath
    refine Lockstep.ite Iff.rfl (fun _ => Lockstep.ok ⟨hn, rfl, hpath'⟩) fun _ => ?_
    rcases Forall₂.getElem? hn.pointers (lowerIndex n.keyList key) with
      ⟨a, b, ha, hb, hab⟩ | ⟨ha, hb⟩
    · rw [ha, hb]
      exact ih (h.read hab).1 hpath'
    · rw [ha, hb]
      exact Lockstep.ok trivial

end Twin

end MaiFaSp.BTreeDisk
