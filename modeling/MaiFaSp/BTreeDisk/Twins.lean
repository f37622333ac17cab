import MaiFaSp.BTreeDisk.Leaves
import MaiFaSp.Lib.Lockstep

/-!
# Two disks with one tree at different positions

The nodes of one tree lie at some positions of one file and at other positions of another one.
What the writes of both keep of this (`b_tree_disk.hpp:659-736`).
-/

namespace MaiFaSp.BTreeDisk

open BoundedVector

variable {κ υ : Type} {t : ℕ} {codec : Codec κ υ} {s s' s₁ s₁' : DiskTree} {n n' m m' : Node κ υ}
  {D : ℕ → Prop} {R R' H H' : ℕ → ℕ → Prop} {a b c c' k p : ℕ}

/-! ### Records that do not overlap -/

/-- The records at the positions of `D` do not overlap and end before the next free slot. -/
structure Spaced (t : ℕ) (s : DiskTree) (D : ℕ → Prop) : Prop where
  apart : ∀ {a c}, D a → D c → a < c → recordEnd t a (slotSize t s a) ≤ slot t c
  ends : ∀ {a}, D a → recordEnd t a (slotSize t s a) ≤ slot t s.countOfNode

/-- A record of `k` keys at `p` lies over no other record of `D`. -/
def Clear (t : ℕ) (s : DiskTree) (D : ℕ → Prop) (p k : ℕ) : Prop :=
  ∀ a, D a → a ≠ p → recordEnd t a (slotSize t s a) ≤ slot t p ∨ recordEnd t p k ≤ slot t a

theorem Clear.mono {j : ℕ} (h : Clear t s D p k) (hj : j ≤ k) : Clear t s D p j :=
  fun a ha hne => (h a ha hne).imp_right (recordEnd_mono hj).trans

theorem Clear.weaken {E : ℕ → Prop} (h : Clear t s D p k) (hE : ∀ {a}, E a → D a) :
    Clear t s E p k := fun a ha hne => h a (hE ha) hne

theorem Spaced.weaken {E : ℕ → Prop} (h : Spaced t s D) (hE : ∀ {a}, E a → D a) : Spaced t s E :=
  ⟨fun ha hc => h.apart (hE ha) (hE hc), fun ha => h.ends (hE ha)⟩

/-- A record of `D` in its own place. -/
theorem Spaced.clear (h : Spaced t s D) (hp : D p) : Clear t s D p (slotSize t s p) := by
  intro a ha hne
  rcases Nat.lt_or_gt_of_ne hne with hlt | hgt
  · exact Or.inl (h.apart ha hp hlt)
  · exact Or.inr (h.apart hp ha hgt)

theorem Spaced.grow (h : Spaced t s D) (hfile : s₁.fileForTree = s.fileForTree)
    (hcount : s.countOfNode ≤ s₁.countOfNode) : Spaced t s₁ D := by
  have hsize : ∀ a, slotSize t s₁ a = slotSize t s a := fun a => by
    unfold slotSize
    rw [hfile]
  refine ⟨fun ha hc hlt => ?_, fun ha => ?_⟩
  · rw [hsize]
    exact h.apart ha hc hlt
  · rw [hsize]
    exact (h.ends ha).trans (slot_mono hcount)

/-- One more record, that lies over none of the others. -/
theorem Spaced.add (h : Spaced t s D) (hclear : Clear t s D p (slotSize t s p))
    (hends : recordEnd t p (slotSize t s p) ≤ slot t s.countOfNode) :
    Spaced t s fun a => D a ∨ a = p := by
  have hafter {a b : ℕ} (hlt : a < b) : ¬ recordEnd t b (slotSize t s b) ≤ slot t a := fun hle =>
    absurd (slot_lt_recordEnd.trans_le hle) (not_lt.mpr (slot_mono hlt.le))
  refine ⟨fun {a c} ha hc hlt => ?_, fun {a} ha => ?_⟩
  · by_cases hap : a = p
    · subst hap
      exact (hclear c (hc.resolve_right hlt.ne') hlt.ne').resolve_left (hafter hlt)
    · have haD : D a := ha.resolve_right hap
      by_cases hcp : c = p
      · subst hcp
        exact (hclear a haD hap).resolve_right (hafter hlt)
      · exact h.apart haD (hc.resolve_right hcp) hlt
  · rcases ha with ha | rfl
    · exact h.ends ha
    · exact hends

/-! ### Positions that belong together -/

/-- Positions that belong together, or no position in both. -/
def Pos (R : ℕ → ℕ → Prop) (a b : ℕ) : Prop := a = sizeMax ∧ b = sizeMax ∨ R a b

/-- Copies of one node at two positions. -/
structure Alike (R : ℕ → ℕ → Prop) (n n' : Node κ υ) : Prop where
  size : n.size = n'.size
  isLeaf : n.isLeaf = n'.isLeaf
  position : Pos R n.positionInDisk n'.positionInDisk
  keys : n.keys = n'.keys
  pointers : List.Forall₂ (Pos R) n.pointers n'.pointers

def Left (H : ℕ → ℕ → Prop) (a : ℕ) : Prop := ∃ b, H a b

def Right (H : ℕ → ℕ → Prop) (b : ℕ) : Prop := ∃ a, H a b

/-- The positions of `R` belong together one to one, and those of `H` hold records of one node,
with pointers to positions of `R`. -/
structure Linked (t : ℕ) (codec : Codec κ υ) (R H : ℕ → ℕ → Prop) (s s' : DiskTree) : Prop where
  unique : ∀ {a b c d}, R a b → R c d → (a = c ↔ b = d)
  below : ∀ {a b}, R a b → a < s.countOfNode ∧ b < s'.countOfNode
  valid : ∀ {a b}, R a b → a < sizeMax ∧ b < sizeMax
  sub : ∀ {a b}, H a b → R a b
  held : ∀ {a b}, H a b → ∃ n n', Recorded t codec s a n ∧ Recorded t codec s' b n' ∧ Alike R n n' ∧
    n.positionInDisk = a ∧ n'.positionInDisk = b
  left : Spaced t s (Left H)
  right : Spaced t s' (Right H)

/-- Two disks with one tree. -/
structure Twin (t : ℕ) (codec : Codec κ υ) (R : ℕ → ℕ → Prop) (s s' : DiskTree) : Prop
    extends Linked t codec R R s s' where
  root : Pos R s.positionRoot s'.positionRoot
  count : s.countOfNode ≤ streamLimit + 1 ∧ s'.countOfNode ≤ streamLimit + 1

/-- One more pair of positions. -/
def extend (R : ℕ → ℕ → Prop) (c c' : ℕ) (a b : ℕ) : Prop := R a b ∨ a = c ∧ b = c'

/-- The sizes in the records at the other positions of `H`. -/
def SameSizes (t : ℕ) (H : ℕ → ℕ → Prop) (n n' : Node κ υ) (s s' s₁ s₁' : DiskTree) : Prop :=
  ∀ {a b}, H a b → (a ≠ n.positionInDisk → slotSize t s₁ a = slotSize t s a) ∧
    (b ≠ n'.positionInDisk → slotSize t s₁' b = slotSize t s' b)

/-- The records of `H` are those of before. -/
def Keeps (t : ℕ) (codec : Codec κ υ) (H : ℕ → ℕ → Prop) (s s' s₁ s₁' : DiskTree) : Prop :=
  ∀ {a b}, H a b → (∀ x, Recorded t codec s a x → Recorded t codec s₁ a x) ∧
    ∀ x, Recorded t codec s' b x → Recorded t codec s₁' b x

theorem Pos.mono (h : Pos R a b) (hR : ∀ {a b}, R a b → R' a b) : Pos R' a b := h.imp_right hR

theorem Alike.mono (h : Alike R n n') (hR : ∀ {a b}, R a b → R' a b) : Alike R' n n' :=
  ⟨h.size, h.isLeaf, h.position.mono hR, h.keys, h.pointers.imp fun _ _ hp => hp.mono hR⟩

theorem Alike.padded (h : Alike R n n') :
    List.Forall₂ (Pos R) (paddedPointers t n.pointers) (paddedPointers t n'.pointers) := by
  unfold paddedPointers
  rw [h.pointers.length_eq]
  exact List.rel_append (List.forall₂_take _ h.pointers) (Forall₂.replicate _ (Or.inl ⟨rfl, rfl⟩))

namespace Linked

theorem le (h : Linked t codec R H s s') (hab : Pos R a b) : a ≤ sizeMax ∧ b ≤ sizeMax := by
  rcases hab with ⟨rfl, rfl⟩ | hab
  · exact ⟨le_rfl, le_rfl⟩
  · exact ⟨(h.valid hab).1.le, (h.valid hab).2.le⟩

theorem eq_sizeMax_iff (h : Linked t codec R H s s') (hab : Pos R a b) :
    a = sizeMax ↔ b = sizeMax := by
  rcases hab with ⟨rfl, rfl⟩ | hab
  · exact Iff.rfl
  · exact iff_of_false (h.valid hab).1.ne (h.valid hab).2.ne

theorem weaken (h : Linked t codec R H s s') (hH : ∀ {a b}, H' a b → H a b) :
    Linked t codec R H' s s' :=
  ⟨h.unique, h.below, h.valid, fun hab => h.sub (hH hab), fun hab => h.held (hH hab),
    h.left.weaken fun ⟨b, hab⟩ => ⟨b, hH hab⟩, h.right.weaken fun ⟨a, hab⟩ => ⟨a, hH hab⟩⟩

theorem sizes (h : Linked t codec R H s s') (hkeeps : Keeps t codec H s s' s₁ s₁') (hab : H a b) :
    slotSize t s₁ a = slotSize t s a ∧ slotSize t s₁' b = slotSize t s' b := by
  obtain ⟨x, x', hx, hx', -⟩ := h.held hab
  rw [hx.slotSize_eq, ((hkeeps hab).1 x hx).slotSize_eq, hx'.slotSize_eq,
    ((hkeeps hab).2 x' hx').slotSize_eq]
  exact ⟨rfl, rfl⟩

/-- Fewer positions, when the records keep pointers to those only. -/
theorem restrict {K : ℕ → ℕ → Prop} (h : Linked t codec R H s s') (hK : ∀ {a b}, K a b → R a b)
    (hH : ∀ {a b}, H' a b → H a b) (hsub : ∀ {a b}, H' a b → K a b)
    (hnext : ∀ {a b c d x}, H' a b → Recorded t codec s a x → c ∈ x.pointers → R c d → K c d) :
    Linked t codec K H' s s' := by
  have hweak := h.weaken hH
  refine ⟨fun hab hcd => h.unique (hK hab) (hK hcd), fun hab => h.below (hK hab),
    fun hab => h.valid (hK hab), hsub, fun {a b} hab => ?_, hweak.left, hweak.right⟩
  obtain ⟨x, x', hx, hx', halike, hpos, hpos'⟩ := hweak.held hab
  refine ⟨x, x', hx, hx', ⟨halike.size, halike.isLeaf, ?_, halike.keys, ?_⟩, hpos, hpos'⟩
  · rw [hpos, hpos']
    exact Or.inr (hsub hab)
  · refine List.forall₂_iff_get.mpr ⟨halike.pointers.length_eq, fun i hi hi' => ?_⟩
    exact (halike.pointers.get hi hi').imp_right (hnext hab hx (List.get_mem _ _))

theorem alloc (h : Linked t codec R H s s') {root root' : ℕ} (hc : s.countOfNode < sizeMax)
    (hc' : s'.countOfNode < sizeMax) :
    Linked t codec (extend R s.countOfNode s'.countOfNode) H
      { s with countOfNode := s.countOfNode + 1, positionRoot := root }
      { s' with countOfNode := s'.countOfNode + 1, positionRoot := root' } := by
  refine ⟨?_, ?_, ?_, fun hab => Or.inl (h.sub hab), ?_, h.left.grow rfl (Nat.le_succ _),
    h.right.grow rfl (Nat.le_succ _)⟩
  · rintro a b c d (hab | ⟨rfl, rfl⟩) (hcd | ⟨rfl, rfl⟩)
    · exact h.unique hab hcd
    · exact iff_of_false (h.below hab).1.ne (h.below hab).2.ne
    · exact iff_of_false (h.below hcd).1.ne' (h.below hcd).2.ne'
    · exact iff_of_true rfl rfl
  · rintro a b (hab | ⟨rfl, rfl⟩)
    · exact ⟨Nat.lt_succ_of_lt (h.below hab).1, Nat.lt_succ_of_lt (h.below hab).2⟩
    · exact ⟨Nat.lt_succ_self _, Nat.lt_succ_self _⟩
  · rintro a b (hab | ⟨rfl, rfl⟩)
    · exact h.valid hab
    · exact ⟨hc, hc'⟩
  · intro a b hab
    obtain ⟨n, n', hn, hn', halike, hpos⟩ := h.held hab
    exact ⟨n, n', hn.shared (Nat.lt_succ_of_lt hn.allocated) le_rfl,
      hn'.shared (Nat.lt_succ_of_lt hn'.allocated) le_rfl, halike.mono Or.inl, hpos⟩

/-- The records of `H` after two writes that go to other positions and lie over none of them. -/
theorem keep (h : Linked t codec R H s s') (hw : diskWrite t codec s n = .ok s₁)
    (hw' : diskWrite t codec s' n' = .ok s₁')
    (hne : ∀ {a b}, H a b → a ≠ n.positionInDisk ∧ b ≠ n'.positionInDisk)
    (hclear : Clear t s (Left H) n.positionInDisk n.keys.length)
    (hclear' : Clear t s' (Right H) n'.positionInDisk n'.keys.length) :
    Linked t codec R H s₁ s₁' ∧ Keeps t codec H s s' s₁ s₁' := by
  obtain ⟨hcount, -⟩ := diskWrite_count hw
  obtain ⟨hcount', -⟩ := diskWrite_count hw'
  have hkeeps : Keeps t codec H s s' s₁ s₁' := by
    intro a b hab
    constructor
    · intro x hx
      refine hx.kept hw ?_
      rw [← hx.slotSize_eq]
      exact hclear a ⟨b, hab⟩ (hne hab).1
    · intro x' hx'
      refine hx'.kept hw' ?_
      rw [← hx'.slotSize_eq]
      exact hclear' b ⟨a, hab⟩ (hne hab).2
  have hsizes {a b : ℕ} (hab : H a b) :
      slotSize t s₁ a = slotSize t s a ∧ slotSize t s₁' b = slotSize t s' b := h.sizes hkeeps hab
  refine ⟨⟨h.unique, fun hab => ⟨(h.below hab).1.trans_eq hcount.symm,
    (h.below hab).2.trans_eq hcount'.symm⟩, h.valid, h.sub, fun hab => ?_, ⟨?_, ?_⟩, ⟨?_, ?_⟩⟩, hkeeps⟩
  · obtain ⟨x, x', hx, hx', hrest⟩ := h.held hab
    exact ⟨x, x', (hkeeps hab).1 x hx, (hkeeps hab).2 x' hx', hrest⟩
  · rintro a c ⟨b, hab⟩ hc hlt
    rw [(hsizes hab).1]
    exact h.left.apart ⟨b, hab⟩ hc hlt
  · rintro a ⟨b, hab⟩
    rw [(hsizes hab).1, hcount]
    exact h.left.ends ⟨b, hab⟩
  · rintro b d ⟨a, hab⟩ hd hlt
    rw [(hsizes hab).2]
    exact h.right.apart ⟨a, hab⟩ hd hlt
  · rintro b ⟨a, hab⟩
    rw [(hsizes hab).2, hcount']
    exact h.right.ends ⟨a, hab⟩

/-- One more record of one node, that lies over none of the others. -/
theorem add {g g' : Node κ υ} (h : Linked t codec R H s s') (hR : R a b) (hg : Recorded t codec s a g)
    (hg' : Recorded t codec s' b g') (halike : Alike R g g') (hpos : g.positionInDisk = a)
    (hpos' : g'.positionInDisk = b) (hclear : Clear t s (Left H) a g.size)
    (hclear' : Clear t s' (Right H) b g'.size) (hends : recordEnd t a g.size ≤ slot t s.countOfNode)
    (hends' : recordEnd t b g'.size ≤ slot t s'.countOfNode) :
    Linked t codec R (extend H a b) s s' := by
  refine ⟨h.unique, h.below, h.valid, ?_, ?_, ?_, ?_⟩
  · rintro c d (hcd | ⟨rfl, rfl⟩)
    · exact h.sub hcd
    · exact hR
  · rintro c d (hcd | ⟨rfl, rfl⟩)
    · exact h.held hcd
    · exact ⟨g, g', hg, hg', halike, hpos, hpos'⟩
  · rw [← hg.slotSize_eq] at hclear hends
    refine (h.left.add hclear hends).weaken ?_
    rintro c ⟨d, hcd | ⟨rfl, -⟩⟩
    · exact Or.inl ⟨d, hcd⟩
    · exact Or.inr rfl
  · rw [← hg'.slotSize_eq] at hclear' hends'
    refine (h.right.add hclear' hends').weaken ?_
    rintro d ⟨c, hcd | ⟨-, rfl⟩⟩
    · exact Or.inl ⟨c, hcd⟩
    · exact Or.inr rfl

/-- After the writes of one node over no other record, when its slots hold records of one node
again. -/
theorem after {g g' : Node κ υ} (h : Linked t codec R H s s')
    (hpos : R n.positionInDisk n'.positionInDisk) (hw : diskWrite t codec s n = .ok s₁)
    (hw' : diskWrite t codec s' n' = .ok s₁') (hown : Recorded t codec s₁ n.positionInDisk g)
    (hown' : Recorded t codec s₁' n'.positionInDisk g') (halike : Alike R g g')
    (hg : g.positionInDisk = n.positionInDisk) (hg' : g'.positionInDisk = n'.positionInDisk)
    (hk : n.keys.length ≤ k ∧ g.size ≤ k) (hk' : n'.keys.length ≤ k ∧ g'.size ≤ k)
    (hclear : Clear t s (Left H) n.positionInDisk k)
    (hclear' : Clear t s' (Right H) n'.positionInDisk k)
    (hends : recordEnd t n.positionInDisk g.size ≤ slot t s.countOfNode)
    (hends' : recordEnd t n'.positionInDisk g'.size ≤ slot t s'.countOfNode) :
    Linked t codec R (extend H n.positionInDisk n'.positionInDisk) s₁ s₁' ∧
      SameSizes t H n n' s s' s₁ s₁' := by
  obtain ⟨hcount, -⟩ := diskWrite_count hw
  obtain ⟨hcount', -⟩ := diskWrite_count hw'
  let O (a b : ℕ) : Prop := H a b ∧ a ≠ n.positionInDisk
  have hne {a b : ℕ} (hab : O a b) : a ≠ n.positionInDisk ∧ b ≠ n'.positionInDisk :=
    ⟨hab.2, fun hb => hab.2 ((h.unique (h.sub hab.1) hpos).mpr hb)⟩
  have hleft : Clear t s (Left O) n.positionInDisk k := hclear.weaken fun ⟨b, hab⟩ => ⟨b, hab.1⟩
  have hright : Clear t s' (Right O) n'.positionInDisk k := hclear'.weaken fun ⟨a, hab⟩ => ⟨a, hab.1⟩
  have hothers : Linked t codec R O s s' := h.weaken And.left
  obtain ⟨hlinked, hkeeps⟩ := hothers.keep hw hw' hne (hleft.mono hk.1) (hright.mono hk'.1)
  have hsizes {a b : ℕ} (hab : O a b) := hothers.sizes hkeeps hab
  have hsame : SameSizes t H n n' s s' s₁ s₁' := fun {a b} hab =>
    ⟨fun ha => (hsizes ⟨hab, ha⟩).1, fun hb => (hsizes ⟨hab, fun ha =>
      hb ((h.unique (h.sub hab) hpos).mp ha)⟩).2⟩
  have hleft' : Clear t s₁ (Left O) n.positionInDisk g.size := by
    rintro a ⟨b, hab⟩ ha
    rw [(hsizes hab).1]
    exact hleft.mono hk.2 a ⟨b, hab⟩ ha
  have hright' : Clear t s₁' (Right O) n'.positionInDisk g'.size := by
    rintro b ⟨a, hab⟩ hb
    rw [(hsizes hab).2]
    exact hright.mono hk'.2 b ⟨a, hab⟩ hb
  have hadded := hlinked.add hpos hown hown' halike hg hg' hleft' hright' (hcount ▸ hends)
    (hcount' ▸ hends')
  refine ⟨hadded.weaken ?_, hsame⟩
  rintro a b (hab | hab)
  · by_cases ha : a = n.positionInDisk
    · exact Or.inr ⟨ha, (h.unique (h.sub hab) hpos).mp ha⟩
    · exact Or.inl ⟨hab, ha⟩
  · exact Or.inr hab

end Linked

/-! ### The writes of both -/

theorem diskWrite_null (hpos : n.positionInDisk = sizeMax) :
    diskWrite t codec s n = .error .streamFailed := by
  have hwrite : OkUnless .streamFailed (diskWrite t codec s n) _ := diskWrite_okUnless
  rcases hwrite with ⟨s₁, hw, -⟩ | hfail
  · exact absurd hpos (position_lt_sizeMax (diskWrite_eq_ok.mp hw).1).ne
  · exact hfail

theorem lockstep_diskWrite {P : DiskTree → DiskTree → Prop}
    (hpos : Pos R n.positionInDisk n'.positionInDisk)
    (hP : ∀ s₁ s₁', R n.positionInDisk n'.positionInDisk → diskWrite t codec s n = .ok s₁ →
      diskWrite t codec s' n' = .ok s₁' → P s₁ s₁') :
    Lockstep .streamFailed P (diskWrite t codec s n) (diskWrite t codec s' n') := by
  rcases hpos with ⟨hnull, -⟩ | hR
  · exact Or.inl (diskWrite_null hnull)
  · have hwrite : OkUnless .streamFailed (diskWrite t codec s n) _ := diskWrite_okUnless
    have hwrite' : OkUnless .streamFailed (diskWrite t codec s' n') _ := diskWrite_okUnless
    rcases hwrite with ⟨s₁, hw, -⟩ | hfail
    · rcases hwrite' with ⟨s₁', hw', -⟩ | hfail
      · rw [hw, hw']
        exact Lockstep.ok (hP s₁ s₁' hR hw hw')
      · exact Or.inr (Or.inl hfail)
    · exact Or.inl hfail

/-- What the writes of two nodes leave alone, and where they went. -/
structure Rest (n n' : Node κ υ) (s s' s₁ s₁' : DiskTree) : Prop where
  count : s₁.countOfNode = s.countOfNode ∧ s₁'.countOfNode = s'.countOfNode
  root : s₁.positionRoot = s.positionRoot ∧ s₁'.positionRoot = s'.positionRoot
  inside : n.positionInDisk ≤ streamLimit ∧ n'.positionInDisk ≤ streamLimit

theorem position_inside (hw : diskWrite t codec s n = .ok s₁) : n.positionInDisk ≤ streamLimit :=
  position_le (diskWrite_eq_ok.mp hw).1

theorem Rest.of_writes (hw : diskWrite t codec s n = .ok s₁) (hw' : diskWrite t codec s' n' = .ok s₁') :
    Rest n n' s s' s₁ s₁' :=
  ⟨⟨(diskWrite_count hw).1, (diskWrite_count hw').1⟩, ⟨(diskWrite_count hw).2, (diskWrite_count hw').2⟩,
    position_inside hw, position_inside hw'⟩

/-- After the writes of one node over no other record. -/
structure Wrote (t : ℕ) (codec : Codec κ υ) (R H : ℕ → ℕ → Prop) (n n' : Node κ υ)
    (s s' s₁ s₁' : DiskTree) : Prop extends Rest n n' s s' s₁ s₁' where
  others : SameSizes t H n n' s s' s₁ s₁'
  own : slotSize t s₁ n.positionInDisk = n.size ∧ slotSize t s₁' n'.positionInDisk = n.size
  linked : Linked t codec R (extend H n.positionInDisk n'.positionInDisk) s₁ s₁'

namespace Linked

theorem pointers_le (h : Linked t codec R H s s') (hn : Alike R n n') :
    (∀ p ∈ n.pointers, p ≤ sizeMax) ∧ ∀ p ∈ n'.pointers, p ≤ sizeMax := by
  constructor
  · intro p hp
    obtain ⟨i, hi⟩ := List.mem_iff_getElem?.mp hp
    rcases Forall₂.getElem? hn.pointers i with ⟨a, b, ha, hb, hab⟩ | ⟨hnone, -⟩
    · rw [Option.some.inj (hi.symm.trans ha)]
      exact (h.le hab).1
    · rw [hi] at hnone
      cases hnone
  · intro p hp
    obtain ⟨i, hi⟩ := List.mem_iff_getElem?.mp hp
    rcases Forall₂.getElem? hn.pointers i with ⟨a, b, ha, hb, hab⟩ | ⟨-, hnone⟩
    · rw [Option.some.inj (hi.symm.trans hb)]
      exact (h.le hab).2
    · rw [hi] at hnone
      cases hnone

theorem inRange (h : Linked t codec R H s s') (hn : Alike R n n') (hw : diskWrite t codec s n = .ok s₁)
    (hw' : diskWrite t codec s' n' = .ok s₁') (hsize : n.size ≤ sizeMax) : n.InRange ∧ n'.InRange := by
  obtain ⟨hle, hle'⟩ := h.pointers_le hn
  exact ⟨⟨hsize, (position_lt_sizeMax (diskWrite_eq_ok.mp hw).1).le, hle⟩,
    ⟨hn.size ▸ hsize, (position_lt_sizeMax (diskWrite_eq_ok.mp hw').1).le, hle'⟩⟩

/-- The writes of a node whose field `size` is the number of its keys. -/
theorem write (h : Linked t codec R H s s') (hn : Alike R n n') (hsize : n.size = n.keys.length)
    (hclear : R n.positionInDisk n'.positionInDisk → Clear t s (Left H) n.positionInDisk n.size ∧
      Clear t s' (Right H) n'.positionInDisk n.size)
    (hends : R n.positionInDisk n'.positionInDisk →
      recordEnd t n.positionInDisk n.size ≤ slot t s.countOfNode ∧
        recordEnd t n'.positionInDisk n.size ≤ slot t s'.countOfNode) :
    Lockstep .streamFailed (Wrote t codec R H n n' s s') (diskWrite t codec s n)
      (diskWrite t codec s' n') := by
  refine lockstep_diskWrite hn.position fun s₁ s₁' hR hw hw' => ?_
  have hsize' : n'.size = n'.keys.length := by rw [← hn.size, ← hn.keys, hsize]
  have hle : n.size ≤ sizeMax := (inRange_of_write hw hsize (h.pointers_le hn).1).size
  obtain ⟨hrange, hrange'⟩ := h.inRange hn hw hw' hle
  have hown := Recorded.own hrange (h.below hR).1 hsize.le hw
  have hown' := Recorded.own hrange' (h.below hR).2 hsize'.le hw'
  obtain ⟨hlinked, hsizes⟩ := h.after hR hw hw' hown hown'
    ⟨hn.size, hn.isLeaf, hn.position, by rw [hn.size, hn.keys], hn.padded⟩ rfl rfl ⟨hsize.ge, le_rfl⟩
    ⟨(hn.keys ▸ hsize.ge : n'.keys.length ≤ n.size), hn.size.ge⟩ (hclear hR).1 (hclear hR).2
    (hends hR).1 (hn.size ▸ (hends hR).2)
  exact ⟨.of_writes hw hw', hsizes, ⟨hown.slotSize_eq, hown'.slotSize_eq.trans hn.size.symm⟩, hlinked⟩

/-- The writes of a node with the size of its record, and no more keys than that. -/
theorem rewrite (h : Linked t codec R H s s') (hn : Alike R n n')
    (hH : R n.positionInDisk n'.positionInDisk → H n.positionInDisk n'.positionInDisk)
    (hsize : R n.positionInDisk n'.positionInDisk → slotSize t s n.positionInDisk = n.size)
    (hkeys : n.keys.length ≤ n.size) :
    Lockstep .streamFailed (fun s₁ s₁' => Rest n n' s s' s₁ s₁' ∧ Linked t codec R H s₁ s₁' ∧
        ∀ {a b}, H a b → slotSize t s₁ a = slotSize t s a ∧ slotSize t s₁' b = slotSize t s' b)
      (diskWrite t codec s n) (diskWrite t codec s' n') := by
  refine lockstep_diskWrite hn.position fun s₁ s₁' hR hw hw' => ?_
  have hHn := hH hR
  obtain ⟨m, m', hm, hm', hmm, -⟩ := h.held hHn
  have hnm : n.size = m.size := by rw [← hsize hR, hm.slotSize_eq]
  have hnm' : n'.size = m'.size := by rw [← hn.size, hnm, hmm.size]
  have hkeys' : n'.keys.length ≤ m'.size := by
    rw [← hn.keys, ← hmm.size, ← hnm]
    exact hkeys
  have hle : n.size ≤ sizeMax := by
    rw [hnm, ← hm.slotSize_eq]
    exact Nat.le_sub_one_of_lt (Memory.load64_lt _ _)
  obtain ⟨hrange, hrange'⟩ := h.inRange hn hw hw' hle
  have hown := hm.overwritten hrange hnm (hnm ▸ hkeys) hw
  have hown' := hm'.overwritten hrange' hnm' hkeys' hw'
  have hspan : slotSize t s n.positionInDisk = n.size := hsize hR
  have hspan' : slotSize t s' n'.positionInDisk = n.size := by
    rw [hm'.slotSize_eq, ← hnm', hn.size]
  have hleft : Left H n.positionInDisk := ⟨_, hHn⟩
  have hright : Right H n'.positionInDisk := ⟨_, hHn⟩
  obtain ⟨hlinked, hsizes⟩ := h.after hR hw hw' hown hown' ⟨hn.size, hn.isLeaf, hn.position,
    by rw [hn.keys, hmm.keys], hn.padded⟩ rfl rfl ⟨hkeys, le_rfl⟩
    ⟨(hn.keys ▸ hkeys : n'.keys.length ≤ n.size), hn.size.ge⟩ (hspan ▸ h.left.clear hleft)
    (hspan' ▸ h.right.clear hright) (hspan ▸ h.left.ends hleft) (hn.size ▸ hspan' ▸ h.right.ends hright)
  refine ⟨.of_writes hw hw', hlinked.weaken Or.inl, fun {a b} hab => ⟨?_, ?_⟩⟩
  · by_cases ha : a = n.positionInDisk
    · rw [ha, hown.slotSize_eq, hspan]
    · exact (hsizes hab).1 ha
  · by_cases hb : b = n'.positionInDisk
    · rw [hb, hown'.slotSize_eq, hspan']
      exact hn.size.symm
    · exact (hsizes hab).2 hb

/-- The writes of a node behind all records of `H`, with a field `size` of 0. -/
theorem write_empty (h : Linked t codec R H s s') (hn : Alike R n n') (hsize : n.size = 0)
    (hbehind : ∀ {a b}, H a b → recordEnd t a (slotSize t s a) ≤ slot t n.positionInDisk ∧
      recordEnd t b (slotSize t s' b) ≤ slot t n'.positionInDisk) :
    Lockstep .streamFailed (Wrote t codec R H n n' s s') (diskWrite t codec s n)
      (diskWrite t codec s' n') := by
  refine lockstep_diskWrite hn.position fun s₁ s₁' hR hw hw' => ?_
  have hsize' : n'.size = 0 := hn.size.symm.trans hsize
  obtain ⟨hrange, hrange'⟩ := h.inRange hn hw hw' (hsize.trans_le (Nat.zero_le _))
  have hown := Recorded.own hrange (h.below hR).1 (hsize.trans_le (Nat.zero_le _)) hw
  have hown' := Recorded.own hrange' (h.below hR).2 (hsize'.trans_le (Nat.zero_le _)) hw'
  have hends : recordEnd t n.positionInDisk n.size ≤ slot t s.countOfNode :=
    (recordEnd_le_slot (hsize.trans_le (Nat.zero_le _))).trans (slot_mono (h.below hR).1)
  have hends' : recordEnd t n'.positionInDisk n'.size ≤ slot t s'.countOfNode :=
    (recordEnd_le_slot (hsize'.trans_le (Nat.zero_le _))).trans (slot_mono (h.below hR).2)
  obtain ⟨hlinked, hsizes⟩ := h.after (k := n.keys.length) hR hw hw' hown hown'
    ⟨hn.size, hn.isLeaf, hn.position, by rw [hn.size, hn.keys], hn.padded⟩ rfl rfl
    ⟨le_rfl, hsize.trans_le (Nat.zero_le _)⟩ ⟨hn.keys ▸ le_rfl, hsize'.trans_le (Nat.zero_le _)⟩
    (fun _ ⟨_, hab⟩ _ => Or.inl (hbehind hab).1) (fun _ ⟨_, hab⟩ _ => Or.inl (hbehind hab).2) hends hends'
  exact ⟨.of_writes hw hw', hsizes, ⟨hown.slotSize_eq, hown'.slotSize_eq.trans hn.size.symm⟩, hlinked⟩

end Linked

end MaiFaSp.BTreeDisk
