import MaiFaSp.BTreeDisk.Trees

/-!
# Which keys `erase` can take out, and the walk to them

The leaf that loses a key has a key to spare, or it is the root and keeps a key, or it has
siblings on both sides of which one has a key to spare. A key of an inner node is replaced
from the leaf that the last pointers of full nodes lead to, under the index of the leaf's
last key.
-/

namespace MaiFaSp.BTreeDisk

open BoundedVector

variable {κ υ : Type}

namespace Tree

section Conditions

/-- The number of keys of the sibling with the index, 0 if there is none. -/
def siblingSize {height : ℕ} (siblings : List (Tree κ υ height)) (j : ℕ) : ℕ :=
  (siblings[j]?.map fun c => c.keys.length).getD 0

/-- A key can be taken out of the leaf. -/
def Spare (t : ℕ) : Option (ℕ × List (Tree κ υ 0)) → Tree κ υ 0 → Prop
  | none, S => 1 < S.keys.length
  | some (i, siblings), S => minimumKeysInNode t < S.keys.length ∨
      0 < i ∧ i + 1 < maximumPointersInNode t ∧
        (minimumKeysInNode t < siblingSize siblings (i - 1) ∨
          minimumKeysInNode t < siblingSize siblings (i + 1))

/-- The last pointers lead through full nodes to a leaf whose last key has the index, and that
key can be taken out. -/
def LastSpare (t : ℕ) : {height : ℕ} → Option (ℕ × List (Tree κ υ height)) → Tree κ υ height →
    ℕ → Prop
  | 0, family, S, index => S.keys.length = index + 1 ∧ Spare t family S
  | _ + 1, _, S, index => S.keys.length = maximumKeysInNode t ∧
      ∀ c ∈ S.subtrees.getLast?, LastSpare t (some (S.keys.length, S.subtrees)) c index

instance decidableSpare (t : ℕ) : (family : Option (ℕ × List (Tree κ υ 0))) → (S : Tree κ υ 0) →
    Decidable (Spare t family S)
  | none, S => inferInstanceAs (Decidable (1 < S.keys.length))
  | some (_, _), _ => inferInstanceAs (Decidable (_ ∨ _ ∧ _ ∧ (_ ∨ _)))

instance decidableLastSpare (t : ℕ) : {height : ℕ} →
    (family : Option (ℕ × List (Tree κ υ height))) → (S : Tree κ υ height) → (index : ℕ) →
    Decidable (LastSpare t family S index)
  | 0, family, S, index =>
    inferInstanceAs (Decidable (S.keys.length = index + 1 ∧ Spare t family S))
  | _ + 1, _, S, index =>
    have : ∀ c, Decidable (LastSpare t (some (S.keys.length, S.subtrees)) c index) :=
      fun c => decidableLastSpare t _ c index
    inferInstanceAs (Decidable (S.keys.length = maximumKeysInNode t ∧
      ∀ c ∈ S.subtrees.getLast?, LastSpare t (some (S.keys.length, S.subtrees)) c index))

variable [LinearOrder κ]

/-- The key is not in the tree, or it can be taken out. -/
def Erasable (t : ℕ) : {height : ℕ} → Option (ℕ × List (Tree κ υ height)) → Tree κ υ height →
    κ → Prop
  | 0, family, S, key => key ∈ S.keys.map Prod.fst → Spare t family S
  | _ + 1, _, S, key => ∀ c ∈ S.subtrees[route S.keys key]?,
      if key ∈ S.keys.map Prod.fst then
        LastSpare t (some (route S.keys key, S.subtrees)) c (route S.keys key)
      else Erasable t (some (route S.keys key, S.subtrees)) c key

instance decidableErasable (t : ℕ) : {height : ℕ} →
    (family : Option (ℕ × List (Tree κ υ height))) → (S : Tree κ υ height) → (key : κ) →
    Decidable (Erasable t family S key)
  | 0, family, S, key =>
    inferInstanceAs (Decidable (key ∈ S.keys.map Prod.fst → Spare t family S))
  | _ + 1, _, S, key =>
    have : ∀ c, Decidable (Erasable t (some (route S.keys key, S.subtrees)) c key) :=
      fun c => decidableErasable t _ c key
    inferInstanceAs (Decidable (∀ c ∈ S.subtrees[route S.keys key]?,
      if key ∈ S.keys.map Prod.fst then
        LastSpare t (some (route S.keys key, S.subtrees)) c (route S.keys key)
      else Erasable t (some (route S.keys key, S.subtrees)) c key))

end Conditions

variable {t : ℕ} {codec : Codec κ υ} {st : DiskTree} {top height : ℕ} {T : Tree κ υ top}
  {S : Tree κ υ height} {i turns : ℕ} {path : List (ℕ × ℕ)} {before after : List (κ × υ)}
  {family : Option (ℕ × List (Tree κ υ height))}

variable [LinearOrder κ] {key : κ}

/-- A key that is not in the node is in the child that the search enters, or nowhere. -/
theorem mem_child_iff {P : Tree κ υ (height + 1)} {c : Tree κ υ height} (htidy : P.Tidy)
    (hs : Sorted P.contents) (hkey : key ∉ P.keys.map Prod.fst)
    (hc : P.subtrees[route P.keys key]? = some c) :
    key ∈ P.contents.map Prod.fst ↔ key ∈ c.contents.map Prod.fst := by
  obtain ⟨hi, hci⟩ := List.getElem?_eq_some_iff.mp hc
  have hparts : (P.subtrees.map contents).length = P.keys.length + 1 :=
    (List.length_map _).trans htidy.1
  have hi' : route P.keys key < (P.subtrees.map contents).length := by
    rw [List.length_map]
    exact hi
  have hiff := fun x hx => hs.settled.mem_interleave_route hparts hkey hi' (x := x) hx
  simp only [List.getElem_map, hci] at hiff
  simp only [List.mem_map]
  constructor
  · rintro ⟨x, hx, rfl⟩
    exact ⟨x, (hiff x rfl).mp hx, rfl⟩
  · rintro ⟨x, hx, rfl⟩
    exact ⟨x, (hiff x rfl).mpr hx, rfl⟩

theorem eraseWalk_found {n : Node κ υ} (hpos : n.positionInDisk ≠ sizeMax)
    (h : n.keyList[route n.keys key]? = some key) :
    eraseWalk t codec st key (turns + 1) n i path =
      .ok (some ⟨n, route n.keys key, (n.positionInDisk, i) :: path⟩) := by
  rw [eraseWalk, if_neg hpos]
  exact if_pos h

theorem eraseWalk_next {n : Node κ υ} {next : ℕ} (hpos : n.positionInDisk ≠ sizeMax)
    (h : n.keyList[route n.keys key]? ≠ some key)
    (hnext : n.pointers[route n.keys key]? = some next) :
    eraseWalk t codec st key (turns + 1) n i path =
      eraseWalk t codec st key turns (diskRead t codec st next) (route n.keys key)
        ((n.positionInDisk, i) :: path) := by
  have hroute : lowerIndex n.keyList key = route n.keys key := rfl
  rw [eraseWalk, if_neg hpos]
  refine (if_neg h).trans ?_
  rw [hroute, hnext]

theorem keyList_route_iff (hs : Sorted S.keys) :
    (S.node t).keyList[route S.keys key]? = some key ↔ key ∈ S.keys.map Prod.fst :=
  getElem?_lowerIndex hs

/-- The key is at the place `X` that the walk of `erase` ends at. -/
structure EndsAt (t : ℕ) (codec : Codec κ υ) (st : DiskTree) (key : κ) (T : Tree κ υ top)
    {height : ℕ} (X : Tree κ υ height) (family : Option (ℕ × List (Tree κ υ height)))
    (path : List (ℕ × ℕ)) (before after : List (κ × υ))
    (result : Except NodeFault (Option (Place κ υ))) : Prop where
  reaches : Reaches T X family path before after
  key_mem : key ∈ X.keys.map Prod.fst
  result_eq : result = .ok (some ⟨X.node t, route X.keys key, path⟩)

/-- The walk of `erase` ends at the key, if it is in the tree. -/
theorem eraseWalk_spec (h : Reaches T S family ((S.position, i) :: path) before after)
    (hstored : S.Stored t codec st) (htidy : S.Tidy) (hs : Sorted S.contents)
    (hcount : st.countOfNode ≤ sizeMax) (hturns : height + 2 ≤ turns) :
    (key ∉ S.contents.map Prod.fst ∧ Erasable t family S key ∧
      eraseWalk t codec st key turns (S.node t) i path = .ok none) ∨
    ∃ (height' : ℕ) (X : Tree κ υ height') (family' : Option (ℕ × List (Tree κ υ height')))
      (path' : List (ℕ × ℕ)) (before' after' : List (κ × υ)),
      EndsAt t codec st key T X family' path' before' after'
        (eraseWalk t codec st key turns (S.node t) i path) ∧
      (Erasable t family S key ↔ Erasable t family' X key) := by
  induction height generalizing i path before after turns with
  | zero =>
    obtain ⟨turns, rfl⟩ := Nat.exists_eq_add_of_le' hturns
    have hpos : (S.node t).positionInDisk ≠ sizeMax := hstored.holds.valid.ne
    by_cases hkey : key ∈ S.keys.map Prod.fst
    · exact Or.inr ⟨0, S, family, _, before, after,
        ⟨h, hkey, eraseWalk_found hpos ((keyList_route_iff hs).mpr hkey)⟩, Iff.rfl⟩
    · refine Or.inl ⟨hkey, fun hm => absurd hm hkey, ?_⟩
      have hnext : (S.node t).pointers[route (S.node t).keys key]? = some sizeMax :=
        paddedPointers_leaf hstored.keys_length_le
      rw [eraseWalk_next hpos (fun hat => hkey ((keyList_route_iff hs).mp hat)) hnext,
        diskRead_sizeMax hcount]
      rfl
  | succ height ih =>
    obtain ⟨turns, rfl⟩ := Nat.exists_eq_add_of_le' hturns
    have hpos : (S.node t).positionInDisk ≠ sizeMax := hstored.holds.valid.ne
    obtain ⟨hlen, hbelow⟩ := htidy
    have hparts : (S.subtrees.map contents).length = S.keys.length + 1 := (List.length_map _).trans hlen
    have hseps : Sorted S.keys := sorted_separators hparts hs
    by_cases hkey : key ∈ S.keys.map Prod.fst
    · exact Or.inr ⟨height + 1, S, family, _, before, after,
        ⟨h, hkey, eraseWalk_found hpos ((keyList_route_iff hseps).mpr hkey)⟩, Iff.rfl⟩
    · have hle := route_le S.keys key
      have hi : route S.keys key < S.subtrees.length := by omega
      have hi' : route S.keys key < (S.subtrees.map Cell.position).length := by
        rw [List.length_map]
        exact hi
      have hi'' : route S.keys key < (S.subtrees.map contents).length := by
        rw [List.length_map]
        exact hi
      have hc : S.subtrees[route S.keys key]? = some S.subtrees[route S.keys key] :=
        List.getElem?_eq_getElem hi
      have hmem : S.subtrees[route S.keys key] ∈ S.subtrees := List.getElem_mem hi
      have hnext : (S.node t).pointers[route (S.node t).keys key]? =
          some (S.subtrees.map Cell.position)[route S.keys key] :=
        paddedPointers_child ((List.length_map _).trans hlen) hstored.keys_length_le hi'
      have hpart : Sorted S.subtrees[route S.keys key].contents := by
        have hsplit := interleave_at hparts hi''
        rw [List.getElem_map] at hsplit
        unfold contents at hs
        rw [hsplit] at hs
        exact (sorted_append.mp (sorted_append.mp hs).1).2.1
      have hwalk : eraseWalk t codec st key (turns + (height + 2) + 1) (S.node t) i path =
          eraseWalk t codec st key (turns + (height + 2)) (S.subtrees[route S.keys key].node t)
            (route S.keys key) ((S.position, i) :: path) := by
        rw [eraseWalk_next hpos (fun hat => hkey ((keyList_route_iff hseps).mp hat)) hnext,
          List.getElem_map, (hstored.2 _ hmem).holds.read]
        rfl
      have herasable : Erasable t family S key ↔
          Erasable t (some (route S.keys key, S.subtrees)) S.subtrees[route S.keys key] key := by
        show (∀ c ∈ S.subtrees[route S.keys key]?, _) ↔ _
        rw [hc]
        simp only [Option.mem_some_iff, forall_eq', if_neg hkey]
      rw [show turns + (height + 1 + 2) = turns + (height + 2) + 1 by omega, hwalk,
        mem_child_iff ⟨hlen, hbelow⟩ hs hkey hc, herasable]
      exact ih (h.child hc) (hstored.2 _ hmem) (hbelow _ hmem) hpart (by omega)

end Tree

end MaiFaSp.BTreeDisk
