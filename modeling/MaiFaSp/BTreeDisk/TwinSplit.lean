import MaiFaSp.BTreeDisk.Splits
import MaiFaSp.BTreeDisk.InUse

/-!
# `split_node` on two disks with one tree

The two parts go to the next two positions, and the node above is written with one key more,
also where it then is longer than its slot (`b_tree_disk.hpp:590-657`).
-/

namespace MaiFaSp.BTreeDisk

open BoundedVector

variable {κ υ : Type} {t : ℕ} {codec : Codec κ υ} {s s' : DiskTree} {N N' P P' : Node κ υ}
  {R H K : ℕ → ℕ → Prop} {a b c c' i x x' : ℕ} {middle : κ × υ}

/-- Copies of the node above, with positions of `K` among the pointers that a split keeps. -/
structure Adopts (K : ℕ → ℕ → Prop) (P P' : Node κ υ) : Prop where
  isLeaf : P.isLeaf = P'.isLeaf
  position : K P.positionInDisk P'.positionInDisk
  keys : P.keys = P'.keys
  size_eq : P.size = P.keys.length
  same : P.size = P'.size
  length : P.pointers.length = P'.pointers.length
  pointers : List.Forall₂ (Pos K) (P.pointers.take P.size) (P'.pointers.take P'.size)

/-- The copies after the parts were taken in. -/
structure Adopted (K : ℕ → ℕ → Prop) (P P' Q Q' : Node κ υ) : Prop extends Alike K Q Q' where
  size_eq : Q.size = P.size + 1
  full : Q.size = Q.keys.length
  left : Q.positionInDisk = P.positionInDisk
  right : Q'.positionInDisk = P'.positionInDisk

theorem Adopts.mono (h : Adopts K P P') (hR : ∀ {a b}, K a b → R a b) : Adopts R P P' :=
  ⟨h.isLeaf, hR h.position, h.keys, h.size_eq, h.same, h.length, h.pointers.imp fun _ _ hp => hp.mono hR⟩

theorem Adopts.adoptParts (h : Adopts K P P') (hi : i ≤ P.keys.length) (hab : Pos K a b)
    (hcc : Pos K c c') : Lockstep .streamFailed (Adopted K P P') (adoptParts P i middle a c)
      (adoptParts P' i middle b c') := by
  have hi' : i ≤ P'.keys.length := h.keys ▸ hi
  have hsize : i ≤ P.size := h.size_eq ▸ hi
  have hsize' : i ≤ P'.size := h.same ▸ hsize
  by_cases hlen : i ≤ P.pointers.length
  · have hlen' : i ≤ P'.pointers.length := h.length ▸ hlen
    rw [adoptParts_at hi hsize hlen, adoptParts_at hi' hsize' hlen']
    have htake : List.Forall₂ (Pos K) (P.pointers.take i) (P'.pointers.take i) := by
      have hfirst := List.forall₂_take i h.pointers
      rw [List.take_take, List.take_take, Nat.min_eq_left hsize, Nat.min_eq_left hsize'] at hfirst
      exact hfirst
    refine Lockstep.ok ⟨⟨congrArg (· + 1) h.same, h.isLeaf, Or.inr h.position, ?_, ?_⟩,
      rfl, ?_, rfl, rfl⟩
    · rw [h.keys]
    · refine List.rel_append (List.rel_append htake (List.Forall₂.cons hab (List.Forall₂.cons hcc
        (List.forall₂_drop i h.pointers)))) ?_
      rw [h.length, h.same]
      exact Forall₂.replicate _ (Or.inl ⟨rfl, rfl⟩)
    · show P.size + 1 = (P.keys.take i ++ middle :: P.keys.drop i).length
      rw [List.length_append, List.length_take_of_le hi, List.length_cons, List.length_drop, h.size_eq]
      omega
  · have hlen' : ¬ i ≤ P'.pointers.length := h.length ▸ hlen
    have hfail {n : Node κ υ} (hkeys : i ≤ n.keys.length) (hshort : ¬ i ≤ n.pointers.length) (p q : ℕ) :
        BTreeDisk.adoptParts n i middle p q = .error .outOfRange := by
      unfold BTreeDisk.adoptParts
      rw [vectorInsert_take hkeys]
      show (vectorInsert n.pointers i p >>= _) = _
      unfold vectorInsert
      rw [if_pos (by omega)]
      rfl
    rw [hfail hi hlen, hfail hi' hlen']
    exact Lockstep.error _

namespace Linked

/-- Two positions given out. -/
theorem allocTwo (h : Linked t codec K H s s') (hc : s.countOfNode + 1 < sizeMax)
    (hc' : s'.countOfNode + 1 < sizeMax) :
    Linked t codec (extend (extend K s.countOfNode s'.countOfNode) (s.countOfNode + 1) (s'.countOfNode + 1))
      H { s with countOfNode := s.countOfNode + 2 } { s' with countOfNode := s'.countOfNode + 2 } := by
  have hfirst : Linked t codec (extend K s.countOfNode s'.countOfNode) H
      { s with countOfNode := s.countOfNode + 1 } { s' with countOfNode := s'.countOfNode + 1 } :=
    h.alloc (Nat.lt_of_succ_lt hc) (Nat.lt_of_succ_lt hc')
  exact hfirst.alloc hc hc'

/-- The writes of a part of a node, to a slot behind all records. -/
theorem writePart (h : Linked t codec K H s s') {n n' : Node κ υ} (hn : Alike K n n')
    (hsize : n.size = n.keys.length) (hfits : n.size ≤ maximumKeysInNode t)
    (hbehind : ∀ {a b}, H a b → recordEnd t a (slotSize t s a) ≤ slot t n.positionInDisk ∧
      recordEnd t b (slotSize t s' b) ≤ slot t n'.positionInDisk) :
    Lockstep .streamFailed (Wrote t codec K H n n' s s') (diskWrite t codec s n)
      (diskWrite t codec s' n') :=
  h.write hn hsize
    (fun _ => ⟨fun _ ⟨_, hab⟩ _ => Or.inl (hbehind hab).1, fun _ ⟨_, hab⟩ _ => Or.inl (hbehind hab).2⟩)
    fun hR => ⟨(recordEnd_le_slot hfits).trans (slot_mono (h.below hR).1),
      (recordEnd_le_slot hfits).trans (slot_mono (h.below hR).2)⟩

end Linked

/-- Both disks after the parts and the node above were written. -/
structure Parted (t : ℕ) (codec : Codec κ υ) (K H : ℕ → ℕ → Prop) (P P' : Node κ υ)
    (s s' s₁ s₁' : DiskTree) : Prop where
  count : s₁.countOfNode = s.countOfNode + 2 ∧ s₁'.countOfNode = s'.countOfNode + 2
  root : s₁.positionRoot = s.positionRoot ∧ s₁'.positionRoot = s'.positionRoot
  inside : s.countOfNode + 1 ≤ streamLimit ∧ s'.countOfNode + 1 ≤ streamLimit
  linked : Linked t codec
    (extend (extend K s.countOfNode s'.countOfNode) (s.countOfNode + 1) (s'.countOfNode + 1))
    (extend (extend (extend H s.countOfNode s'.countOfNode) (s.countOfNode + 1) (s'.countOfNode + 1))
      P.positionInDisk P'.positionInDisk) s₁ s₁'

theorem Linked.writeParts (h : Linked t codec K H s s')
    (hc : s.countOfNode + 1 < sizeMax) (hc' : s'.countOfNode + 1 < sizeMax) (hkeys : N.keys = N'.keys)
    (hover : N.keys.length = maximumKeysInNode t + 1)
    (hpointers : List.Forall₂ (Pos K) N.pointers N'.pointers) (hP : Adopts K P P')
    (hi : i ≤ P.keys.length)
    (hends : recordEnd t P.positionInDisk (P.size + 1) ≤ slot t s.countOfNode)
    (hends' : recordEnd t P'.positionInDisk (P.size + 1) ≤ slot t s'.countOfNode)
    (hclear : Clear t s (Left H) P.positionInDisk (P.size + 1))
    (hclear' : Clear t s' (Right H) P'.positionInDisk (P.size + 1)) :
    Lockstep .streamFailed (Parted t codec K H P P' s s') (writeParts t codec s N P i middle)
      (writeParts t codec s' N' P' i middle) := by
  have halloc := h.allocTwo hc hc'
  set K₂ := extend (extend K s.countOfNode s'.countOfNode) (s.countOfNode + 1) (s'.countOfNode + 1)
  have hsub {a b : ℕ} (hab : K a b) : K₂ a b := Or.inl (Or.inl hab)
  have hmid : middleInd t ≤ maximumKeysInNode t := by
    unfold middleInd maximumKeysInNode
    omega
  have hslot : slot t s.countOfNode ≤ slot t (s.countOfNode + 1) := slot_mono (Nat.le_succ _)
  have hslot' : slot t s'.countOfNode ≤ slot t (s'.countOfNode + 1) := slot_mono (Nat.le_succ _)
  refine ((hP.mono hsub).adoptParts hi
    (Or.inr (Or.inl (Or.inr ⟨rfl, rfl⟩))) (Or.inr (Or.inr ⟨rfl, rfl⟩))).bind fun Q Q' hQ => ?_
  have hleft : Alike K₂ (⟨middleInd t, true, s.countOfNode, N.keys.take (middleInd t),
      N.pointers.take (middleInd t)⟩ : Node κ υ)
      ⟨middleInd t, true, s'.countOfNode, N'.keys.take (middleInd t), N'.pointers.take (middleInd t)⟩ :=
    ⟨rfl, rfl, Or.inr (Or.inl (Or.inr ⟨rfl, rfl⟩)), by rw [hkeys],
      (List.forall₂_take _ hpointers).imp fun _ _ hp => hp.mono hsub⟩
  have hright : Alike K₂ (⟨N.keys.length - middleInd t - 1, true, s.countOfNode + 1,
      N.keys.drop (middleInd t + 1), N.pointers.drop (middleInd t + 1)⟩ : Node κ υ)
      ⟨N'.keys.length - middleInd t - 1, true, s'.countOfNode + 1, N'.keys.drop (middleInd t + 1),
        N'.pointers.drop (middleInd t + 1)⟩ :=
    ⟨by rw [hkeys], rfl, Or.inr (Or.inr ⟨rfl, rfl⟩), by rw [hkeys],
      (List.forall₂_drop _ hpointers).imp fun _ _ hp => hp.mono hsub⟩
  have hlen : middleInd t ≤ N.keys.length := by omega
  refine (halloc.writePart hleft (List.length_take_of_le hlen).symm hmid
    fun {a b} hab => ⟨h.left.ends ⟨b, hab⟩, h.right.ends ⟨a, hab⟩⟩).bind fun s₁ s₁' hw₁ => ?_
  have hold {a b : ℕ} (hab : H a b) : a < s.countOfNode ∧ b < s'.countOfNode := h.below (h.sub hab)
  have hfirst {a b : ℕ} (hab : H a b) :
      slotSize t s₁ a = slotSize t s a ∧ slotSize t s₁' b = slotSize t s' b :=
    ⟨(hw₁.others hab).1 (hold hab).1.ne, (hw₁.others hab).2 (hold hab).2.ne⟩
  have hends₁ {a b : ℕ} (hab : extend H s.countOfNode s'.countOfNode a b) :
      recordEnd t a (slotSize t s₁ a) ≤ slot t (s.countOfNode + 1) ∧
        recordEnd t b (slotSize t s₁' b) ≤ slot t (s'.countOfNode + 1) := by
    rcases hab with hab | ⟨rfl, rfl⟩
    · rw [(hfirst hab).1, (hfirst hab).2]
      exact ⟨(h.left.ends ⟨b, hab⟩).trans hslot, (h.right.ends ⟨a, hab⟩).trans hslot'⟩
    · have hown : slotSize t s₁ s.countOfNode = middleInd t := hw₁.own.1
      have hown' : slotSize t s₁' s'.countOfNode = middleInd t := hw₁.own.2
      rw [hown, hown']
      exact ⟨recordEnd_le_slot hmid, recordEnd_le_slot hmid⟩
  have hrest : N.keys.length - middleInd t - 1 ≤ maximumKeysInNode t := by omega
  have hdrop : N.keys.length - middleInd t - 1 = (N.keys.drop (middleInd t + 1)).length := by
    rw [List.length_drop]
    omega
  refine (hw₁.linked.writePart hright hdrop hrest hends₁).bind fun s₂ s₂' hw₂ => ?_
  have hsecond {a b : ℕ} (hab : H a b) :
      slotSize t s₂ a = slotSize t s a ∧ slotSize t s₂' b = slotSize t s' b := by
    have hsizes := hw₂.others (Or.inl hab)
    rw [← (hfirst hab).1, ← (hfirst hab).2]
    exact ⟨hsizes.1 (Nat.lt_succ_of_lt (hold hab).1).ne, hsizes.2 (Nat.lt_succ_of_lt (hold hab).2).ne⟩
  have hcount₂ : s₂.countOfNode = s.countOfNode + 2 := hw₂.count.1.trans hw₁.count.1
  have hcount₂' : s₂'.countOfNode = s'.countOfNode + 2 := hw₂.count.2.trans hw₁.count.2
  have hslot₂ : slot t (s.countOfNode + 1) ≤ slot t (s.countOfNode + 2) := slot_mono (Nat.le_succ _)
  have hslot₂' : slot t (s'.countOfNode + 1) ≤ slot t (s'.countOfNode + 2) := slot_mono (Nat.le_succ _)
  refine (hw₂.linked.write hQ.toAlike hQ.full (fun _ => ⟨?_, ?_⟩) fun _ => ⟨?_, ?_⟩).mono
    fun s₃ s₃' hw₃ => ?_
  · rw [hQ.left, hQ.size_eq]
    rintro a ⟨b, (hab | ⟨rfl, -⟩) | ⟨rfl, -⟩⟩ hne
    · rw [(hsecond hab).1]
      exact hclear a ⟨b, hab⟩ hne
    · exact Or.inr hends
    · exact Or.inr (hends.trans hslot)
  · rw [hQ.right, hQ.size_eq]
    rintro b ⟨a, (hab | ⟨-, rfl⟩) | ⟨-, rfl⟩⟩ hne
    · rw [(hsecond hab).2]
      exact hclear' b ⟨a, hab⟩ hne
    · exact Or.inr hends'
    · exact Or.inr (hends'.trans hslot')
  · rw [hQ.left, hQ.size_eq, hcount₂]
    exact (hends.trans hslot).trans hslot₂
  · rw [hQ.right, hQ.size_eq, hcount₂']
    exact (hends'.trans hslot').trans hslot₂'
  · have hlast := hw₃.linked
    rw [hQ.left, hQ.right] at hlast
    exact ⟨⟨hw₃.count.1.trans hcount₂, hw₃.count.2.trans hcount₂'⟩,
      ⟨hw₃.root.1.trans (hw₂.root.1.trans hw₁.root.1), hw₃.root.2.trans (hw₂.root.2.trans hw₁.root.2)⟩,
      hw₂.inside, hlast⟩

/-! ### `split_node` -/

/-- The node to split as it is read from both. -/
structure Overfull (t : ℕ) (codec : Codec κ υ) (K : ℕ → ℕ → Prop) (s s' : DiskTree) (x x' : ℕ)
    (N N' : Node κ υ) : Prop where
  read : diskRead t codec s x = N
  read' : diskRead t codec s' x' = N'
  keys : N.keys = N'.keys
  full : N.keys.length = maximumKeysInNode t + 1
  pointers : List.Forall₂ (Pos K) N.pointers N'.pointers

theorem Parted.twins {s₁ s₁' : DiskTree} (h : Parted t codec K H P P' s s' s₁ s₁')
    (hheld : ∀ {a b}, K a b → H a b ∨ a = P.positionInDisk ∧ b = P'.positionInDisk)
    (hroot : Pos K s.positionRoot s'.positionRoot) : Twins t codec s₁ s₁' := by
  refine ⟨_, h.linked.weaken ?_, ?_, ?_⟩
  · rintro a b ((hab | hc) | hc)
    · exact (hheld hab).imp (fun hH => Or.inl (Or.inl hH)) id
    · exact Or.inl (Or.inl (Or.inr hc))
    · exact Or.inl (Or.inr hc)
  · rw [h.root.1, h.root.2]
    exact hroot.mono fun hab => Or.inl (Or.inl hab)
  · rw [h.count.1, h.count.2]
    exact ⟨Nat.succ_le_succ h.inside.1, Nat.succ_le_succ h.inside.2⟩

variable [LinearOrder κ] {top top' : ℕ × ℕ} {path path' : List (ℕ × ℕ)}

/-- What `split_node` does with the middle pair. -/
def splitInto (t : ℕ) (codec : Codec κ υ) (st : DiskTree) (nodeToSplit parentNode : Node κ υ)
    (middle : κ × υ) : Except NodeFault DiskTree :=
  let target := splitTarget st parentNode middle.1
  if nodeToSplit.pointers.length < middleInd t + 1 then throw .outOfRange
  else writeParts t codec target.1 nodeToSplit target.2.1 target.2.2 middle

theorem splitNode_cons : splitNode t codec s (top :: path) =
    BoundedVector.get (diskRead t codec s top.1).keys (middleInd t) >>= splitInto t codec s
      (diskRead t codec s top.1) (diskRead t codec s ((path.head?.map Prod.fst).getD sizeMax)) := rfl

theorem Overfull.splitNode {Q : DiskTree → DiskTree → Prop}
    (hN : Overfull t codec K s s' top.1 top'.1 N N')
    (hP : diskRead t codec s ((path.head?.map Prod.fst).getD sizeMax) = P)
    (hP' : diskRead t codec s' ((path'.head?.map Prod.fst).getD sizeMax) = P')
    (hinto : ∀ middle, Lockstep .streamFailed Q
      (writeParts t codec (splitTarget s P middle.1).1 N (splitTarget s P middle.1).2.1
        (splitTarget s P middle.1).2.2 middle)
      (writeParts t codec (splitTarget s' P' middle.1).1 N' (splitTarget s' P' middle.1).2.1
        (splitTarget s' P' middle.1).2.2 middle)) :
    Lockstep .streamFailed Q (splitNode t codec s (top :: path)) (splitNode t codec s' (top' :: path')) := by
  rw [splitNode_cons, splitNode_cons, hP, hP', hN.read, hN.read', ← hN.keys]
  refine (Lockstep.refl _).bind fun middle _ ⟨heq, _⟩ => ?_
  subst heq
  unfold splitInto
  dsimp only
  rw [← hN.pointers.length_eq]
  exact Lockstep.ite Iff.rfl (fun _ => Lockstep.error _) fun _ => hinto middle

namespace Linked

/-- The root is split: the new root takes the next position, and the parts the two behind it. -/
theorem splitRoot (h : Linked t codec K K s s') (ht : 1 ≤ t) (hN : Overfull t codec K s s' top.1 top'.1 N N')
    (hcount : s.countOfNode ≤ streamLimit + 1) (hcount' : s'.countOfNode ≤ streamLimit + 1) :
    Lockstep .streamFailed (Twins t codec) (splitNode t codec s [top]) (splitNode t codec s' [top']) := by
  have hlimit : streamLimit + 4 < sizeMax := by
    unfold streamLimit sizeMax
    omega
  have hnull : diskRead t codec s sizeMax = ⟨0, true, sizeMax, [], []⟩ := diskRead_sizeMax (by omega)
  have hnull' : diskRead t codec s' sizeMax = ⟨0, true, sizeMax, [], []⟩ := diskRead_sizeMax (by omega)
  have halloc : Linked t codec (extend K s.countOfNode s'.countOfNode) K
      { s with countOfNode := s.countOfNode + 1, positionRoot := s.countOfNode }
      { s' with countOfNode := s'.countOfNode + 1, positionRoot := s'.countOfNode } :=
    h.alloc (by omega) (by omega)
  have hone : 1 ≤ maximumKeysInNode t := by
    unfold maximumKeysInNode
    omega
  refine hN.splitNode hnull hnull' fun middle => ?_
  have hP : Adopts (extend K s.countOfNode s'.countOfNode)
      (⟨0, false, s.countOfNode, [], []⟩ : Node κ υ) ⟨0, false, s'.countOfNode, [], []⟩ :=
    ⟨rfl, Or.inr ⟨rfl, rfl⟩, rfl, rfl, rfl, rfl, List.Forall₂.nil⟩
  refine (halloc.writeParts (i := 0) (by exact (by omega : s.countOfNode + 1 + 1 < sizeMax))
    (by exact (by omega : s'.countOfNode + 1 + 1 < sizeMax)) hN.keys hN.full
    (hN.pointers.imp fun _ _ hp => hp.mono Or.inl) hP le_rfl (recordEnd_le_slot hone)
    (recordEnd_le_slot hone) ?_ ?_).mono fun s₁ s₁' hparted => hparted.twins id (Or.inr (Or.inr ⟨rfl, rfl⟩))
  · rintro a ⟨b, hab⟩ -
    exact Or.inl (h.left.ends ⟨b, hab⟩)
  · rintro b ⟨a, hab⟩ -
    exact Or.inl (h.right.ends ⟨a, hab⟩)

/-- A node below another one is split. -/
theorem splitBelow (h : Linked t codec K H s s') (hN : Overfull t codec K s s' top.1 top'.1 N N')
    (hread : diskRead t codec s ((path.head?.map Prod.fst).getD sizeMax) = P)
    (hread' : diskRead t codec s' ((path'.head?.map Prod.fst).getD sizeMax) = P')
    (hP : Adopts K P P')
    (hheld : ∀ {a b}, K a b → H a b ∨ a = P.positionInDisk ∧ b = P'.positionInDisk)
    (hroot : Pos K s.positionRoot s'.positionRoot)
    (hcount : s.countOfNode ≤ streamLimit + 1) (hcount' : s'.countOfNode ≤ streamLimit + 1)
    (hends : recordEnd t P.positionInDisk (P.size + 1) ≤ slot t s.countOfNode)
    (hends' : recordEnd t P'.positionInDisk (P.size + 1) ≤ slot t s'.countOfNode)
    (hclear : Clear t s (Left H) P.positionInDisk (P.size + 1))
    (hclear' : Clear t s' (Right H) P'.positionInDisk (P.size + 1)) :
    Lockstep .streamFailed (Twins t codec) (splitNode t codec s (top :: path))
      (splitNode t codec s' (top' :: path')) := by
  have hlimit : streamLimit + 4 < sizeMax := by
    unfold streamLimit sizeMax
    omega
  refine hN.splitNode hread hread' fun middle => ?_
  obtain ⟨hvalid, hvalid'⟩ := h.valid hP.position
  unfold splitTarget
  rw [if_neg hvalid.ne, if_neg hvalid'.ne]
  dsimp only
  have hindex : lowerIndex P'.keyList middle.1 = lowerIndex P.keyList middle.1 := by
    unfold Node.keyList
    rw [hP.keys]
  have hi : lowerIndex P.keyList middle.1 ≤ P.keys.length := by
    have hle : lowerIndex P.keyList middle.1 ≤ P.keyList.length := lowerIndex_le
    unfold Node.keyList at hle ⊢
    rwa [List.length_map] at hle
  rw [hindex]
  exact (h.writeParts (by omega) (by omega) hN.keys hN.full hN.pointers hP hi hends hends' hclear
    hclear').mono fun s₁ s₁' hparted => hparted.twins hheld hroot

end Linked

end MaiFaSp.BTreeDisk
