import MaiFaSp.BTreeDisk.Leaves

/-!
# The split of a leaf

`split_node` on a leaf with `2t` keys that is the root, or the last child of a root with
room for one more key. `parent_node.pointers` keeps the old leaf behind the two new ones
(`b_tree_disk.hpp:642-650`), which is cut off only where it comes last.
-/

namespace MaiFaSp.BTreeDisk

open BoundedVector

variable {κ υ : Type} {t : ℕ} {codec : Codec κ υ} {st : DiskTree} {c p : ℕ} {cs : List ℕ}
  {l r seps : List (κ × υ)} {mid : κ × υ}

theorem middleInd_eq (ht : 2 ≤ t) : middleInd t = t := by
  unfold middleInd maximumKeysInNode
  omega

theorem leftPart_keys (ht : 2 ≤ t) (hl : l.length = t) :
    (l ++ mid :: r).take (middleInd t) = l := by
  rw [middleInd_eq ht, ← hl]
  exact List.take_left

theorem rightPart_keys (ht : 2 ≤ t) (hl : l.length = t) :
    (l ++ mid :: r).drop (middleInd t + 1) = r := by
  rw [middleInd_eq ht, ← hl, show l ++ mid :: r = (l ++ [mid]) ++ r by simp]
  exact List.drop_left' (by simp)

/-- The three writes of a split, with the node above as it comes out of `adoptParts`. -/
theorem writeParts_leaf {parent : Node κ υ} {k index : ℕ} (ht : 2 ≤ t) (hl : l.length = t)
    (hr : r.length = t - 1) (hp : p < st.countOfNode)
    (hadopt : adoptParts parent index mid st.countOfNode (st.countOfNode + 1) =
      .ok ⟨seps.length, false, p, seps, cs ++ List.replicate k sizeMax⟩)
    (hcs : ∀ a ∈ cs, a = st.countOfNode ∨ a = st.countOfNode + 1 ∨ a < sizeMax)
    (hseps : seps.length ≤ maximumKeysInNode t) (hlen : cs.length ≤ maximumPointersInNode t) :
    OkUnless .streamFailed
      (writeParts t codec st (leafNode t c (l ++ mid :: r)) parent index mid) fun st' =>
        (st'.countOfNode = st.countOfNode + 2 ∧ st'.positionRoot = st.positionRoot) ∧
        Holds t codec st' st.countOfNode (leafNode t st.countOfNode l) ∧
        Holds t codec st' (st.countOfNode + 1) (leafNode t (st.countOfNode + 1) r) ∧
        Holds t codec st' p (innerNode t p seps cs) ∧
        ∀ q m, q ≠ p → Holds t codec st q m → Holds t codec st' q m := by
  have hmid := middleInd_eq ht
  have hmax : maximumKeysInNode t = 2 * t - 1 := rfl
  have hleft : (⟨middleInd t, true, st.countOfNode, (l ++ mid :: r).take (middleInd t),
      (paddedPointers t []).take (middleInd t)⟩ : Node κ υ) =
        ⟨l.length, true, st.countOfNode, l, List.replicate t sizeMax⟩ := by
    rw [leftPart_keys ht hl, hmid, hl, paddedPointers_nil, List.take_replicate,
      Nat.min_eq_left (by unfold maximumPointersInNode; omega)]
  have hright : (⟨(l ++ mid :: r).length - middleInd t - 1, true, st.countOfNode + 1,
      (l ++ mid :: r).drop (middleInd t + 1),
      (paddedPointers t []).drop (middleInd t + 1)⟩ : Node κ υ) =
        ⟨r.length, true, st.countOfNode + 1, r,
          List.replicate (maximumPointersInNode t - (t + 1)) sizeMax⟩ := by
    rw [rightPart_keys ht hl, hmid, paddedPointers_nil, List.drop_replicate, List.length_append,
      List.length_cons, hl]
    congr 1
    omega
  show OkUnless _ (adoptParts parent index mid st.countOfNode (st.countOfNode + 1) >>=
    fun parentNode => diskWrite t codec { st with countOfNode := st.countOfNode + 2 }
      ⟨middleInd t, true, st.countOfNode, (l ++ mid :: r).take (middleInd t),
        (paddedPointers t []).take (middleInd t)⟩ >>=
    fun st => diskWrite t codec st ⟨(l ++ mid :: r).length - middleInd t - 1, true, _,
      (l ++ mid :: r).drop (middleInd t + 1), (paddedPointers t []).drop (middleInd t + 1)⟩ >>=
    fun st => diskWrite t codec st parentNode) _
  rw [hadopt, hleft, hright]
  show OkUnless _ (diskWrite t codec _ _ >>= _) _
  refine diskWrite_okUnless.bind fun st₁ hw₁ => ?_
  obtain ⟨hcount₁, hroot₁⟩ := diskWrite_count hw₁
  obtain ⟨hown₁, hother₁⟩ := diskWrite_leaf hw₁ (Nat.lt_add_of_pos_right Nat.two_pos)
    (show l.length ≤ _ by omega)
  refine diskWrite_okUnless.bind fun st₂ hw₂ => ?_
  obtain ⟨hcount₂, hroot₂⟩ := diskWrite_count hw₂
  have hlt₂ : st.countOfNode + 1 < st₁.countOfNode := by
    rw [hcount₁]
    exact Nat.lt_succ_self _
  obtain ⟨hown₂, hother₂⟩ := diskWrite_leaf hw₂ hlt₂ (show r.length ≤ _ by omega)
  have hleft₂ := hother₂ _ _ (Nat.lt_succ_self _).ne hown₁
  refine diskWrite_okUnless.mono fun st₃ hw₃ => ?_
  obtain ⟨hcount₃, hroot₃⟩ := diskWrite_count hw₃
  have hcount : st₂.countOfNode = st.countOfNode + 2 := hcount₂.trans hcount₁
  have hpointers : ∀ a ∈ cs ++ List.replicate k sizeMax, a ≤ sizeMax := by
    intro a ha
    rcases List.mem_append.mp ha with ha | ha
    · rcases hcs a ha with rfl | rfl | hlt
      · exact hown₁.valid.le
      · exact hown₂.valid.le
      · exact hlt.le
    · exact mem_replicate_le ha
  have hp₂ : p < st₂.countOfNode := by omega
  obtain ⟨hown₃, hother₃⟩ := diskWrite_node hw₃ hp₂ rfl hseps hpointers
  refine ⟨⟨hcount₃.trans hcount, hroot₃.trans (hroot₂.trans hroot₁)⟩,
    hother₃ _ _ (by exact hp.ne') hleft₂, hother₃ _ _ (by show _ ≠ p; omega) hown₂, ?_, ?_⟩
  · have hpad := paddedPointers_append_null hlen k
    dsimp only at hown₃
    rw [hpad] at hown₃
    exact hown₃
  · intro q m hq hold
    have hlt := hold.allocated
    have hold' : Holds t codec { st with countOfNode := st.countOfNode + 2 } q m :=
      hold.allocate (Nat.le_add_right _ 2)
    exact hother₃ q m hq (hother₂ q m (by omega) (hother₁ q m (by omega) hold'))

theorem adoptParts_root (a b : ℕ) : adoptParts (⟨0, false, p, [], []⟩ : Node κ υ) 0 mid a b =
    .ok ⟨1, false, p, [mid], [a, b]⟩ := rfl

theorem vectorInsert_append {α : Type} (xs ys : List α) (x : α) :
    vectorInsert (xs ++ ys) xs.length x = .ok (xs ++ x :: ys) := by
  unfold vectorInsert
  rw [if_neg (by rw [List.length_append]; omega), insertIdx_length_append]
  rfl

theorem vectorInsert_take {α : Type} {xs : List α} {i : ℕ} (h : i ≤ xs.length) (x : α) :
    vectorInsert xs i x = .ok (xs.take i ++ x :: xs.drop i) := by
  have hsplit := vectorInsert_append (xs.take i) (xs.drop i) x
  rw [List.take_append_drop, List.length_take_of_le h] at hsplit
  exact hsplit

/-- The two parts stand before the pointer that was at the index. What followed the first `size`
pointers is cut off. -/
theorem adoptParts_at {n : Node κ υ} {i : ℕ} (hkeys : i ≤ n.keys.length) (hsize : i ≤ n.size)
    (hlen : i ≤ n.pointers.length) (mid : κ × υ) (a b : ℕ) :
    adoptParts n i mid a b = .ok { n with
      size := n.size + 1
      keys := n.keys.take i ++ mid :: n.keys.drop i
      pointers := n.pointers.take i ++ a :: b :: (n.pointers.take n.size).drop i ++
        List.replicate (n.pointers.length - n.size) sizeMax } := by
  have hsecond : vectorInsert (n.pointers.take i ++ a :: n.pointers.drop i) (i + 1) b =
      .ok (n.pointers.take i ++ a :: b :: n.pointers.drop i) := by
    have h := vectorInsert_append (n.pointers.take i ++ [a]) (n.pointers.drop i) b
    rw [List.length_append, List.length_take_of_le hlen, List.append_assoc, List.append_assoc] at h
    exact h
  have htake : (n.pointers.take i ++ a :: b :: n.pointers.drop i).take (n.size + 1 + 1) =
      n.pointers.take i ++ a :: b :: (n.pointers.take n.size).drop i := by
    rw [List.take_append, List.length_take_of_le hlen, List.take_of_length_le (by simp; omega),
      show n.size + 1 + 1 - i = n.size - i + 1 + 1 by omega, List.take_succ_cons, List.take_succ_cons,
      List.drop_take]
  have hrest : (n.pointers.take i ++ a :: b :: n.pointers.drop i).length - (n.size + 1 + 1) =
      n.pointers.length - n.size := by
    simp only [List.length_append, List.length_cons, List.length_drop, List.length_take]
    omega
  show (vectorInsert n.keys i mid >>= fun keys => vectorInsert n.pointers i a >>= fun pointers =>
    vectorInsert pointers (i + 1) b >>= fun pointers => _) = _
  rw [vectorInsert_take hkeys, vectorInsert_take hlen]
  show (vectorInsert (n.pointers.take i ++ a :: n.pointers.drop i) (i + 1) b >>= fun pointers => _) = _
  rw [hsecond]
  show Except.ok _ = _
  rw [htake, hrest]

/-- The middle key comes behind all others. What followed the keys among the pointers is cut off. -/
theorem adoptParts_end {n : Node κ υ} (hsize : n.size = n.keys.length)
    (hlen : n.keys.length ≤ n.pointers.length) (mid : κ × υ) (a b : ℕ) :
    adoptParts n n.keys.length mid a b = .ok { n with
      size := n.size + 1
      keys := n.keys ++ [mid]
      pointers := n.pointers.take n.keys.length ++ [a, b] ++
        List.replicate (n.pointers.length - n.keys.length) sizeMax } := by
  rw [adoptParts_at le_rfl hsize.ge hlen, List.take_length, List.drop_length, hsize,
    List.drop_of_length_le (List.length_take_le _ _)]

/-- The parts of the last child: the child itself comes behind them and is cut off. -/
theorem adoptParts_last (mid : κ × υ) (a b : ℕ) (hlen : cs.length = seps.length)
    (hroom : seps.length < maximumKeysInNode t) :
    ∃ k, adoptParts (innerNode t p seps (cs ++ [c])) seps.length mid a b =
      .ok ⟨(seps ++ [mid]).length, false, p, seps ++ [mid],
        cs ++ [a, b] ++ List.replicate k sizeMax⟩ := by
  have hpad : paddedPointers t (cs ++ [c]) =
      cs ++ c :: List.replicate (maximumPointersInNode t - (cs.length + 1)) sizeMax := by
    unfold paddedPointers maximumPointersInNode
    rw [List.take_of_length_le (by simp; omega), List.length_append, List.length_singleton]
    simp
  have hle : (innerNode t p seps (cs ++ [c])).keys.length ≤
      (innerNode t p seps (cs ++ [c])).pointers.length := by
    show seps.length ≤ (paddedPointers t (cs ++ [c])).length
    rw [length_paddedPointers]
    unfold maximumPointersInNode
    omega
  have htake : (paddedPointers t (cs ++ [c])).take seps.length = cs := by
    rw [hpad, ← hlen]
    exact List.take_left
  have hend := adoptParts_end rfl hle mid a b
  refine ⟨(paddedPointers t (cs ++ [c])).length - seps.length, hend.trans ?_⟩
  show Except.ok (⟨seps.length + 1, false, p, seps ++ [mid],
    (paddedPointers t (cs ++ [c])).take seps.length ++ [a, b] ++ List.replicate
      ((paddedPointers t (cs ++ [c])).length - seps.length) sizeMax⟩ : Node κ υ) = _
  rw [htake, List.length_append]
  rfl

end MaiFaSp.BTreeDisk
