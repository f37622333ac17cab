import MaiFaSp.BTreeDisk.TwinWalks

/-!
# The nodes in use

The positions that the pointers in the tree file lead to from the root, and what the static
members have to be for them: `_count_of_node` is the next position that is given out, and the
key-value file is written from `_last_position_in_key_value_file` on
(`b_tree_disk.hpp:704-711`, `739-749`).
-/

namespace MaiFaSp.BTreeDisk

open BoundedVector

variable {κ υ : Type} {t : ℕ} {codec : Codec κ υ} {s s' st : DiskTree} {R : ℕ → ℕ → Prop}
  {a b p x y : ℕ}

/-- The pointers in the record of `p`. -/
def pointersAt (t : ℕ) (st : DiskTree) (p : ℕ) : List ℕ :=
  st.fileForTree.readWords (slot t p + 17) (maximumPointersInNode t)

/-- The positions that the pointers lead to from the root, however far `_count_of_node` is. -/
inductive InUse (t : ℕ) (st : DiskTree) : ℕ → Prop
  | root (h : st.positionRoot ≠ sizeMax) : InUse t st st.positionRoot
  | child {p q : ℕ} (hp : InUse t st p) (hq : q ∈ pointersAt t st p) (hne : q ≠ sizeMax) :
    InUse t st q

/-- The static members are behind all that the tree uses. -/
structure Covered (t : ℕ) (codec : Codec κ υ) (st : DiskTree) : Prop where
  count : st.countOfNode ≤ streamLimit + 1
  ends : ∀ {p}, InUse t st p → recordEnd t p (slotSize t st p) ≤ slot t st.countOfNode
  written : ∀ {p}, InUse t st p →
    Written codec st (st.fileForTree.readWords (slotPositions t p) (slotSize t st p))

/-- Every node in use has a record of its own, with its own position in it. -/
structure Intact (t : ℕ) (st : DiskTree) : Prop where
  own : ∀ {p}, InUse t st p → st.fileForTree.load64 (slot t p + 9) = p
  apart : ∀ {p q}, InUse t st p → InUse t st q → p < q → recordEnd t p (slotSize t st p) ≤ slot t q

/-- Nothing is in use in a tree without a root. -/
theorem not_inUse (h : st.positionRoot = sizeMax) : ¬ InUse t st p := by
  intro hp
  induction hp with
  | root hne => exact hne h
  | child _ _ _ ih => exact ih

theorem Covered.allocated (h : Covered t codec st) (hp : InUse t st p) : p < st.countOfNode :=
  lt_of_slot_lt (slot_lt_recordEnd.trans_le (h.ends hp))

theorem Covered.recorded (h : Covered t codec st) (hp : InUse t st p) :
    Recorded t codec st p (deserialize t codec st (slot t p)) :=
  ⟨h.allocated hp, rfl, h.written hp⟩

theorem Covered.valid (h : Covered t codec st) (hp : InUse t st p) : p < sizeMax := by
  have hlt := h.allocated hp
  have hcount := h.count
  unfold streamLimit at hcount
  unfold sizeMax
  omega

theorem Recorded.pointers {n : Node κ υ} (h : Recorded t codec st p n) :
    n.pointers = pointersAt t st p := (congrArg Node.pointers h.read).symm

/-- With the same files and the same root, the same nodes are in use. -/
theorem InUse.of_files {st' : DiskTree} (h : InUse t st p) (hfile : st'.fileForTree = st.fileForTree)
    (hroot : st'.positionRoot = st.positionRoot) : InUse t st' p := by
  induction h with
  | root hne =>
    rw [← hroot] at hne ⊢
    exact .root hne
  | child _ hq hne ih =>
    refine .child ih ?_ hne
    unfold pointersAt at hq ⊢
    rw [hfile]
    exact hq

namespace Twin

/-- The partner of a node in use is in use. -/
theorem inUse (h : Twin t codec R s s') (hx : InUse t s x) : ∃ y, R x y ∧ InUse t s' y := by
  induction hx with
  | root hne =>
    have hR := h.root.resolve_left fun hnull => hne hnull.1
    exact ⟨_, hR, .root (h.valid hR).2.ne⟩
  | @child p q _ hq hne ih =>
    obtain ⟨p', hpp, hp'⟩ := ih
    obtain ⟨n, n', hn, hn', halike, -⟩ := h.held hpp
    rw [← hn.pointers] at hq
    obtain ⟨i, hi⟩ := List.mem_iff_getElem?.mp hq
    rcases Forall₂.getElem? halike.pointers i with ⟨a, b, ha, hb, hab⟩ | ⟨hnone, -⟩
    · obtain rfl := Option.some.inj (hi.symm.trans ha)
      have hR := hab.resolve_left fun hnull => hne hnull.1
      have hmem : b ∈ pointersAt t s' p' := by
        rw [← hn'.pointers]
        exact List.mem_of_getElem? hb
      exact ⟨b, hR, .child hp' hmem (h.valid hR).2.ne⟩
    · rw [hi] at hnone
      cases hnone

theorem inUse_of_pair (h : Twin t codec R s s') (hx : InUse t s x) (hR : R x y) : InUse t s' y := by
  obtain ⟨y', hR', hy'⟩ := h.inUse hx
  exact (h.unique hR hR').mp rfl ▸ hy'

/-- The positions of `R` that are in use. -/
def Used (t : ℕ) (R : ℕ → ℕ → Prop) (s : DiskTree) (a b : ℕ) : Prop := R a b ∧ InUse t s a

/-- One tree on both, also after the static members of the first have changed, as long as they are
behind all that the tree uses. -/
theorem resume (h : Twin t codec R s s') (hfile : st.fileForTree = s.fileForTree)
    (hdata : st.fileForKeyValue = s.fileForKeyValue) (hroot : st.positionRoot = s.positionRoot)
    (hcovered : Covered t codec st) : Twin t codec (Used t R st) st s' := by
  have hused {a : ℕ} (ha : InUse t st a) : InUse t s a := ha.of_files hfile.symm hroot.symm
  have hread (a : ℕ) : deserialize t codec st a = deserialize t codec s a := by
    unfold deserialize
    rw [hfile, hdata]
  have hsizes (a : ℕ) : slotSize t st a = slotSize t s a := by
    unfold slotSize
    rw [hfile]
  have hnext {a p : ℕ} (ha : InUse t st a) (hp : p ∈ pointersAt t s a) (hne : p ≠ sizeMax) :
      InUse t st p := by
    refine .child ha ?_ hne
    unfold pointersAt at hp ⊢
    rw [hfile]
    exact hp
  refine ⟨⟨fun hab hcd => h.unique hab.1 hcd.1, fun hab => ⟨hcovered.allocated hab.2, (h.below hab.1).2⟩,
    fun hab => h.valid hab.1, id, fun {a b} hab => ?_, ⟨fun {a c} ha hc hlt => ?_, fun {a} ha => ?_⟩,
    h.right.weaken fun ⟨a, hab⟩ => ⟨a, hab.1⟩⟩, ?_, hcovered.count, h.count.2⟩
  · obtain ⟨n, n', hn, hn', halike, hpos, hpos'⟩ := h.held hab.1
    have hrecorded := hcovered.recorded hab.2
    rw [hread, hn.read] at hrecorded
    refine ⟨n, n', hrecorded, hn', ⟨halike.size, halike.isLeaf, ?_, halike.keys, ?_⟩, hpos, hpos'⟩
    · rw [hpos, hpos']
      exact Or.inr hab
    · refine (List.forall₂_iff_get.mpr ⟨halike.pointers.length_eq, fun i hi hi' => ?_⟩)
      have hpair := halike.pointers.get hi hi'
      refine hpair.imp_right fun hR => ⟨hR, hnext hab.2 ?_ (h.valid hR).1.ne⟩
      rw [← hn.pointers]
      exact List.get_mem _ _
  · obtain ⟨b, hab⟩ := ha
    obtain ⟨d, hcd⟩ := hc
    rw [hsizes]
    exact h.left.apart ⟨b, hab.1⟩ ⟨d, hcd.1⟩ hlt
  · obtain ⟨b, hab⟩ := ha
    exact hcovered.ends hab.2
  · rw [hroot]
    refine h.root.imp_right fun hR => ⟨hR, ?_⟩
    have hne := (h.valid hR).1.ne
    rw [← hroot] at hne ⊢
    exact .root hne

/-- A tree with intact records is a twin of itself. -/
theorem self (hcovered : Covered t codec st) (hintact : Intact t st) :
    Twin t codec (fun a b => a = b ∧ InUse t st a) st st := by
  have hspaced {D : ℕ → Prop} (hD : ∀ {a}, D a → InUse t st a) : Spaced t st D :=
    ⟨fun ha hc => hintact.apart (hD ha) (hD hc), fun ha => hcovered.ends (hD ha)⟩
  have hpair {a : ℕ} (ha : a ≠ sizeMax → InUse t st a) : Pos (fun a b => a = b ∧ InUse t st a) a a := by
    by_cases hne : a = sizeMax
    · exact Or.inl ⟨hne, hne⟩
    · exact Or.inr ⟨rfl, ha hne⟩
  refine ⟨⟨?_, ?_, ?_, id, ?_, hspaced ?_, hspaced ?_⟩, hpair fun hne => .root hne,
    hcovered.count, hcovered.count⟩
  · rintro a b c d ⟨rfl, -⟩ ⟨rfl, -⟩
    exact Iff.rfl
  · rintro a b ⟨rfl, ha⟩
    exact ⟨hcovered.allocated ha, hcovered.allocated ha⟩
  · rintro a b ⟨rfl, ha⟩
    exact ⟨hcovered.valid ha, hcovered.valid ha⟩
  · rintro a b ⟨rfl, ha⟩
    have hown : (deserialize t codec st (slot t a)).positionInDisk = a := hintact.own ha
    refine ⟨_, _, hcovered.recorded ha, hcovered.recorded ha, ⟨rfl, rfl, ?_, rfl, ?_⟩, hown, hown⟩
    · rw [hown]
      exact hpair fun _ => ha
    · refine List.forall₂_same.mpr fun p hp => hpair fun hne => .child ha ?_ hne
      exact hp
  · rintro a ⟨b, hab⟩
    exact hab.2
  · rintro b ⟨a, rfl, ha⟩
    exact ha

end Twin

end MaiFaSp.BTreeDisk
