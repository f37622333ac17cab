import MaiFaSp.Allocator.BoundaryTags
import MaiFaSp.Lib.DoublyLinked
import MaiFaSp.Lib.Tiling

/-!
# `allocator_boundary_tags`: what the bytes of the pool stand for

A pool stands for a list of tiles, occupied blocks and gaps, that fill it. The
occupied blocks have their headers and form a doubly linked list; a gap leaves no
trace in memory.
-/

namespace MaiFaSp.BoundaryTags

open Memory Tiling DoublyLinked

/-- An occupied block, with what the client asked for, or a gap. -/
structure Tile where
  len : ℕ
  request : Option ℕ
  nonempty : 0 < len
  fits : ∀ r, request = some r → 32 + r ≤ len

namespace Tile

def free (t : Tile) : Bool := t.request.isNone

def gap (n : ℕ) (h : 0 < n) : Tile := ⟨n, none, h, by simp⟩

def block (n r : ℕ) (h : 32 + r ≤ n) : Tile := ⟨n, some r, by omega, by simpa using h⟩

theorem free_iff (t : Tile) : t.free = true ↔ t.request = none := Option.isNone_iff_eq_none

theorem held_iff (t : Tile) : t.free = false ↔ ∃ r, t.request = some r := by
  rw [free, Option.isNone_eq_false_iff, Option.isSome_iff_exists]

theorem len_of_held {t : Tile} (h : t.free = false) : 32 ≤ t.len := by
  obtain ⟨r, hr⟩ := t.held_iff.mp h
  have hf := t.fits r hr
  omega

@[simp] theorem len_gap (n : ℕ) (h : 0 < n) : (gap n h).len = n := rfl

@[simp] theorem len_block (n r : ℕ) (h : 32 + r ≤ n) : (block n r h).len = n := rfl

@[simp] theorem free_gap (n : ℕ) (h : 0 < n) : (gap n h).free = true := rfl

@[simp] theorem free_block (n r : ℕ) (h : 32 + r ≤ n) : (block n r h).free = false := rfl

end Tile

open Tile

/-- Drops the gaps. -/
def held (p : ℕ × Tile) : Option (ℕ × Tile) := if p.2.free then none else some p

/-- The occupied blocks with their addresses. -/
def blocks (a : ℕ) (ts : List Tile) : List (ℕ × Tile) := (placed len a ts).filterMap held

def addresses (a : ℕ) (ts : List Tile) : List ℕ := (blocks a ts).map Prod.fst

theorem held_of_free (a : ℕ) (t : Tile) (h : t.free = true) : held (a, t) = none := if_pos h

theorem held_of_held (a : ℕ) {t : Tile} (h : t.free = false) : held (a, t) = some (a, t) :=
  if_neg (by simp [h])

theorem held_eq_some {p q : ℕ × Tile} (h : held p = some q) : p = q ∧ p.2.free = false := by
  unfold held at h
  cases hf : p.2.free with
  | true => simp [hf] at h
  | false => exact ⟨by simpa [hf] using h, rfl⟩

@[simp] theorem blocks_nil (a : ℕ) : blocks a [] = [] := rfl

theorem blocks_cons_free {a : ℕ} {t : Tile} (ts : List Tile) (h : t.free = true) :
    blocks a (t :: ts) = blocks (a + t.len) ts :=
  List.filterMap_cons_none (held_of_free a t h)

theorem blocks_cons_held {a : ℕ} {t : Tile} (ts : List Tile) (h : t.free = false) :
    blocks a (t :: ts) = (a, t) :: blocks (a + t.len) ts :=
  List.filterMap_cons_some (held_of_held a h)

theorem blocks_append (a : ℕ) (xs ys : List Tile) :
    blocks a (xs ++ ys) = blocks a xs ++ blocks (a + span len xs) ys := by
  rw [blocks, placed_append, List.filterMap_append]
  rfl

@[simp] theorem addresses_nil (a : ℕ) : addresses a [] = [] := rfl

theorem addresses_cons_free {a : ℕ} {t : Tile} (ts : List Tile) (h : t.free = true) :
    addresses a (t :: ts) = addresses (a + t.len) ts := by
  rw [addresses, blocks_cons_free ts h]
  rfl

theorem addresses_cons_held {a : ℕ} {t : Tile} (ts : List Tile) (h : t.free = false) :
    addresses a (t :: ts) = a :: addresses (a + t.len) ts := by
  rw [addresses, blocks_cons_held ts h]
  rfl

theorem addresses_append (a : ℕ) (xs ys : List Tile) :
    addresses a (xs ++ ys) = addresses a xs ++ addresses (a + span len xs) ys := by
  rw [addresses, blocks_append, List.map_append]
  rfl

theorem mem_blocks {a : ℕ} {p : ℕ × Tile} {ts : List Tile} (h : p ∈ blocks a ts) :
    p ∈ placed len a ts ∧ p.2.free = false := by
  obtain ⟨q, hq, he⟩ := List.mem_filterMap.mp h
  obtain ⟨rfl, hf⟩ := held_eq_some he
  exact ⟨hq, hf⟩

theorem addresses_bounds {a x : ℕ} {ts : List Tile} (h : x ∈ addresses a ts) :
    a ≤ x ∧ x + 32 ≤ a + span len ts := by
  obtain ⟨⟨y, t⟩, hm, rfl⟩ := List.mem_map.mp h
  obtain ⟨hp, hf⟩ := mem_blocks hm
  have hb := placed_bounds len hp
  have hl := len_of_held hf
  dsimp only at hl ⊢
  omega

theorem addresses_pairwise (a : ℕ) (ts : List Tile) :
    (addresses a ts).Pairwise (fun x y => x + 32 ≤ y) := by
  rw [addresses, List.pairwise_map, blocks, List.pairwise_filterMap]
  refine (placed_pairwise len a ts).imp ?_
  intro p q hpq p' hp q' hq
  obtain ⟨rfl, hf⟩ := held_eq_some hp
  obtain ⟨rfl, -⟩ := held_eq_some hq
  have hl := len_of_held hf
  omega

theorem addresses_ascending (a : ℕ) (ts : List Tile) : (addresses a ts).Pairwise (· < ·) :=
  (addresses_pairwise a ts).imp (fun h => by omega)

/-- The first tile after a gap is occupied, so it is where the gap ends. -/
theorem headD_addresses {a : ℕ} {ts : List Tile} (h : ∀ t, ts.head? = some t → t.free = false) :
    (addresses a ts).headD 0 = if ts = [] then 0 else a := by
  cases ts with
  | nil => rfl
  | cons t ts => rw [addresses_cons_held ts (h t rfl)]; rfl

/-! ### Headers -/

/-- The headers of the two blocks do not overlap. -/
def Apart (x y : ℕ) : Prop := x + 32 ≤ y ∨ y + 32 ≤ x

/-- The headers of the given blocks have their sizes and the allocator's tag. -/
def Headers (m : Memory) (trusted : ℕ) (bs : List (ℕ × Tile)) : Prop :=
  ∀ p ∈ bs, getBlockSize m p.1 + 32 = p.2.len ∧ getTmPtr m p.1 = trusted

def SameHeader (m m' : Memory) (y : ℕ) : Prop := AgreeOn m m' y (y + 32)

section

variable {m m' : Memory} {x y v : ℕ}

theorem SameHeader.blockSize (h : SameHeader m m' y) : getBlockSize m y = getBlockSize m' y :=
  load64_congr (AgreeOn.mono h (by omega) (by omega))

theorem SameHeader.next (h : SameHeader m m' y) : getNext m y = getNext m' y :=
  load64_congr (AgreeOn.mono h (by omega) (by omega))

theorem SameHeader.prev (h : SameHeader m m' y) : getPrev m y = getPrev m' y :=
  load64_congr (AgreeOn.mono h (by omega) (by omega))

theorem SameHeader.tmPtr (h : SameHeader m m' y) : getTmPtr m y = getTmPtr m' y :=
  load64_congr (AgreeOn.mono h (by omega) (by omega))

theorem SameHeader.trans {m'' : Memory} (h : SameHeader m m' y) (h' : SameHeader m' m'' y) :
    SameHeader m m'' y := AgreeOn.trans h h'

theorem sameHeader_setNext (h : Apart x y) : SameHeader (setNext m x v) m y :=
  agreeOn_store64 m (x + 8) v _ _ (by unfold Apart at h; omega)

theorem sameHeader_setPrev (h : Apart x y) : SameHeader (setPrev m x v) m y :=
  agreeOn_store64 m (x + 16) v _ _ (by unfold Apart at h; omega)

end

/-! ### Linking the neighbours of a place in the list -/

/-- The link to a block, kept in the block before it or, without one, in `first_block_`. -/
def linkNext (m : Memory) (trusted p v : ℕ) : Memory := if p = trusted then m else setNext m p v

/-- `if (next) next->prev_ = v`. -/
def linkPrev (m : Memory) (next v : ℕ) : Memory := if next ≠ 0 then setPrev m next v else m

section

variable {m : Memory} {trusted p q y v : ℕ}

theorem getNext_linkNext (hy : p = trusted ∨ p = y ∨ Apart p y) (hv : v < 2 ^ 64) :
    getNext (linkNext m trusted p v) y = if p ≠ trusted ∧ p = y then v else getNext m y := by
  unfold linkNext
  by_cases hp : p = trusted
  · rw [if_pos hp, if_neg (fun h => h.1 hp)]
  · rw [if_neg hp]
    rcases hy with h | rfl | h
    · exact absurd h hp
    · rw [if_pos ⟨hp, rfl⟩]
      exact load64_store64 m (p + 8) v hv
    · have hne : p ≠ y := by
        rintro rfl
        unfold Apart at h
        omega
      rw [if_neg (fun h => hne h.2)]
      exact (sameHeader_setNext h).next

theorem getPrev_linkPrev (hy : q = 0 ∨ q = y ∨ Apart q y) (hv : v < 2 ^ 64) :
    getPrev (linkPrev m q v) y = if q ≠ 0 ∧ q = y then v else getPrev m y := by
  unfold linkPrev
  by_cases hq : q = 0
  · rw [if_neg (not_not.mpr hq), if_neg (fun h => h.1 hq)]
  · rw [if_pos hq]
    rcases hy with h | rfl | h
    · exact absurd h hq
    · rw [if_pos ⟨hq, rfl⟩]
      exact load64_store64 m (q + 16) v hv
    · have hne : q ≠ y := by
        rintro rfl
        unfold Apart at h
        omega
      rw [if_neg (fun h => hne h.2)]
      exact (sameHeader_setPrev h).prev

theorem sameHeader_linkNext (h : p = trusted ∨ Apart p y) :
    SameHeader (linkNext m trusted p v) m y := by
  unfold linkNext
  split
  case isTrue hp => exact fun _ _ _ => rfl
  case isFalse hp => exact sameHeader_setNext (h.resolve_left hp)

theorem sameHeader_linkPrev (h : q = 0 ∨ Apart q y) : SameHeader (linkPrev m q v) m y := by
  unfold linkPrev
  split
  case isTrue hq => exact sameHeader_setPrev (h.resolve_left hq)
  case isFalse hq => exact fun _ _ _ => rfl

theorem load64_linkNext {k : ℕ} (hy : p = trusted ∨ p = y ∨ Apart p y)
    (hk : k = 0 ∨ k = 16 ∨ k = 24) :
    load64 (linkNext m trusted p v) (y + k) = load64 m (y + k) := by
  unfold linkNext Apart at *
  split
  · rfl
  · exact load64_store64_of_disjoint m (p + 8) (y + k) v (by omega)

theorem load64_linkPrev {k : ℕ} (hy : q = 0 ∨ q = y ∨ Apart q y)
    (hk : k = 0 ∨ k = 8 ∨ k = 24) :
    load64 (linkPrev m q v) (y + k) = load64 m (y + k) := by
  unfold linkPrev Apart at *
  split
  · exact load64_store64_of_disjoint m (q + 16) (y + k) v (by omega)
  · rfl

end

/-- In `m'` the nodes `xs` and `ys`, which keep the rest of their headers, are linked to
what now stands between them. -/
structure Relinked (m m' : Memory) (xs ys : List ℕ) (before after : ℕ) : Prop where
  next : ∀ y ∈ xs ++ ys, getNext m' y = if xs.getLast? = some y then after else getNext m y
  prev : ∀ y ∈ xs ++ ys, getPrev m' y = if ys.head? = some y then before else getPrev m y
  blockSize : ∀ y ∈ xs ++ ys, getBlockSize m' y = getBlockSize m y
  tmPtr : ∀ y ∈ xs ++ ys, getTmPtr m' y = getTmPtr m y

theorem Relinked.of_same {m m₁ m' : Memory} {xs ys : List ℕ} {before after : ℕ}
    (h : Relinked m₁ m' xs ys before after) (hm : ∀ y ∈ xs ++ ys, SameHeader m₁ m y) :
    Relinked m m' xs ys before after where
  next y hy := by rw [h.next y hy, (hm y hy).next]
  prev y hy := by rw [h.prev y hy, (hm y hy).prev]
  blockSize y hy := (h.blockSize y hy).trans (hm y hy).blockSize
  tmPtr y hy := (h.tmPtr y hy).trans (hm y hy).tmPtr

theorem Relinked.headers {m m' : Memory} {trusted before after : ℕ} {bs cs : List (ℕ × Tile)}
    (h : Relinked m m' (bs.map Prod.fst) (cs.map Prod.fst) before after)
    (hh : Headers m trusted (bs ++ cs)) : Headers m' trusted (bs ++ cs) := by
  intro p hp
  have hm : p.1 ∈ bs.map Prod.fst ++ cs.map Prod.fst := by
    rw [← List.map_append]
    exact List.mem_map_of_mem hp
  rw [h.blockSize _ hm, h.tmPtr _ hm]
  exact hh p hp

section

variable {trusted : ℕ} {xs ys : List ℕ}

theorem eq_or_apart {zs : List ℕ} (h : zs.Pairwise (fun x y => x + 32 ≤ y)) {x y : ℕ}
    (hx : x ∈ zs) (hy : y ∈ zs) : x = y ∨ Apart x y := by
  have hapart : zs.Pairwise Apart := h.imp (fun h => Or.inl h)
  have hsymm : Std.Symm Apart := ⟨fun x y h => Or.symm h⟩
  by_cases he : x = y
  · exact Or.inl he
  · exact Or.inr (hapart.forall hx hy he)

/-- The last of `xs`, or `trusted`, against any node. -/
theorem last_or_apart (h : (xs ++ ys).Pairwise (fun x y => x + 32 ≤ y)) {y : ℕ}
    (hy : y ∈ xs ++ ys) :
    xs.getLastD trusted = trusted ∨ xs.getLastD trusted = y ∨ Apart (xs.getLastD trusted) y := by
  rw [List.getLastD_eq_getLast?]
  cases hl : xs.getLast? with
  | none => exact Or.inl rfl
  | some l => exact Or.inr (eq_or_apart h (List.mem_append_left _ (List.mem_of_getLast? hl)) hy)

theorem head_or_apart (h : (xs ++ ys).Pairwise (fun x y => x + 32 ≤ y)) {y : ℕ}
    (hy : y ∈ xs ++ ys) : ys.headD 0 = 0 ∨ ys.headD 0 = y ∨ Apart (ys.headD 0) y := by
  cases ys with
  | nil => exact Or.inl rfl
  | cons l ys => exact Or.inr (eq_or_apart h (List.mem_append_right _ (List.mem_cons_self ..)) hy)

theorem getLastD_eq_iff (hlow : ∀ y ∈ xs ++ ys, trusted < y) {y : ℕ} :
    (xs.getLastD trusted ≠ trusted ∧ xs.getLastD trusted = y) ↔ xs.getLast? = some y := by
  rw [List.getLastD_eq_getLast?]
  cases hl : xs.getLast? with
  | none => simp
  | some l =>
    have hlt := hlow l (List.mem_append_left _ (List.mem_of_getLast? hl))
    simp [hlt.ne']

theorem headD_eq_iff (hlow : ∀ y ∈ xs ++ ys, trusted < y) {y : ℕ} :
    (ys.headD 0 ≠ 0 ∧ ys.headD 0 = y) ↔ ys.head? = some y := by
  cases ys with
  | nil => simp
  | cons l ys =>
    have hlt := hlow l (by simp)
    simp [(Nat.zero_lt_of_lt hlt).ne']

variable {m : Memory} {before after : ℕ} (h : (xs ++ ys).Pairwise (fun x y => x + 32 ≤ y))
  (hlow : ∀ y ∈ xs ++ ys, trusted < y)

include h hlow

theorem getNext_linkLast (hafter : after < 2 ^ 64) {y : ℕ} (hy : y ∈ xs ++ ys) :
    getNext (linkNext m trusted (xs.getLastD trusted) after) y =
      if xs.getLast? = some y then after else getNext m y := by
  rw [getNext_linkNext (last_or_apart h hy) hafter]
  exact if_congr (getLastD_eq_iff hlow) rfl rfl

theorem getPrev_linkHead (hbefore : before < 2 ^ 64) {y : ℕ} (hy : y ∈ xs ++ ys) :
    getPrev (linkPrev m (ys.headD 0) before) y =
      if ys.head? = some y then before else getPrev m y := by
  rw [getPrev_linkPrev (head_or_apart h hy) hbefore]
  exact if_congr (headD_eq_iff hlow) rfl rfl

variable (hbefore : before < 2 ^ 64) (hafter : after < 2 ^ 64)

include hbefore hafter

/-- The two links can be set in either order. -/
theorem relinked_prev_next : Relinked m (linkNext (linkPrev m (ys.headD 0) before) trusted
    (xs.getLastD trusted) after) xs ys before after where
  next y hy := by
    have hkeep : getNext (linkPrev m (ys.headD 0) before) y = getNext m y :=
      load64_linkPrev (head_or_apart h hy) (by omega)
    rw [getNext_linkLast h hlow hafter hy, hkeep]
  prev y hy := (load64_linkNext (last_or_apart h hy) (by omega)).trans
    (getPrev_linkHead h hlow hbefore hy)
  blockSize y hy := (load64_linkNext (k := 0) (last_or_apart h hy) (by omega)).trans
    (load64_linkPrev (k := 0) (head_or_apart h hy) (by omega))
  tmPtr y hy := (load64_linkNext (last_or_apart h hy) (by omega)).trans
    (load64_linkPrev (head_or_apart h hy) (by omega))

theorem relinked_next_prev : Relinked m (linkPrev (linkNext m trusted (xs.getLastD trusted) after)
    (ys.headD 0) before) xs ys before after where
  next y hy := (load64_linkPrev (head_or_apart h hy) (by omega)).trans
    (getNext_linkLast h hlow hafter hy)
  prev y hy := by
    have hkeep : getPrev (linkNext m trusted (xs.getLastD trusted) after) y = getPrev m y :=
      load64_linkNext (last_or_apart h hy) (by omega)
    rw [getPrev_linkHead h hlow hbefore hy, hkeep]
  blockSize y hy := (load64_linkPrev (k := 0) (head_or_apart h hy) (by omega)).trans
    (load64_linkNext (k := 0) (last_or_apart h hy) (by omega))
  tmPtr y hy := (load64_linkPrev (head_or_apart h hy) (by omega)).trans
    (load64_linkNext (last_or_apart h hy) (by omega))

end

end MaiFaSp.BoundaryTags
