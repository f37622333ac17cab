import MaiFaSp.Allocator.RedBlackTreeNodes
import MaiFaSp.Lib.DoublyLinked
import MaiFaSp.Lib.Tiling

/-!
# `allocator_red_black_tree`: the list of the blocks

The pool stands for a list of tiles that fill it, each with a header at its start. Every
block spans the room of a free block's header, so the headers of different blocks are
apart from each other.
-/

namespace MaiFaSp.RedBlackAllocator

open Tiling DoublyLinked LinkedTree

open HeaderMemory (get)

/-- A block, with what the client asked for if it is occupied. -/
structure Tile where
  len : ℕ
  request : Option ℕ
  fits : ∀ r, request = some r → blockMetadataSize + r ≤ len

namespace Tile

def free (t : Tile) : Bool := t.request.isNone

def gap (n : ℕ) : Tile := ⟨n, none, by simp⟩

def block (n r : ℕ) (h : blockMetadataSize + r ≤ n) : Tile := ⟨n, some r, by simpa using h⟩

theorem free_iff (t : Tile) : t.free = true ↔ t.request = none := Option.isNone_iff_eq_none

theorem held_iff (t : Tile) : t.free = false ↔ ∃ r, t.request = some r := by
  rw [free, Option.isNone_eq_false_iff, Option.isSome_iff_exists]

@[simp] theorem len_gap (n : ℕ) : (gap n).len = n := rfl

@[simp] theorem len_block (n r : ℕ) (h : blockMetadataSize + r ≤ n) : (block n r h).len = n := rfl

@[simp] theorem free_gap (n : ℕ) : (gap n).free = true := rfl

@[simp] theorem free_block (n r : ℕ) (h : blockMetadataSize + r ≤ n) : (block n r h).free = false := rfl

end Tile

open Tile

def addresses (a : ℕ) (ts : List Tile) : List ℕ := (placed len a ts).map Prod.fst

@[simp] theorem addresses_nil (a : ℕ) : addresses a [] = [] := rfl

@[simp] theorem addresses_cons (a : ℕ) (t : Tile) (ts : List Tile) :
    addresses a (t :: ts) = a :: addresses (a + t.len) ts := rfl

theorem addresses_append (a : ℕ) (xs ys : List Tile) :
    addresses a (xs ++ ys) = addresses a xs ++ addresses (a + span len xs) ys := by
  rw [addresses, placed_append, List.map_append]
  rfl

theorem headD_addresses (a : ℕ) (ts : List Tile) :
    (addresses a ts).headD 0 = if ts = [] then 0 else a := by
  cases ts with
  | nil => rfl
  | cons t ts => rfl

theorem getLastD_addresses (a p : ℕ) (ts : List Tile) (t : Tile) :
    (addresses a (ts ++ [t])).getLastD p = a + span len ts := by
  rw [addresses_append]
  simp [List.getLastD_eq_getLast?]

/-- The address of a free block. -/
def freeAt (p : ℕ × Tile) : Option ℕ := if p.2.free then some p.1 else none

def freeAddresses (a : ℕ) (ts : List Tile) : List ℕ := (placed len a ts).filterMap freeAt

@[simp] theorem freeAddresses_nil (a : ℕ) : freeAddresses a [] = [] := rfl

theorem freeAddresses_cons_free {a : ℕ} {t : Tile} (ts : List Tile) (h : t.free = true) :
    freeAddresses a (t :: ts) = a :: freeAddresses (a + t.len) ts :=
  List.filterMap_cons_some (if_pos h)

theorem freeAddresses_cons_held {a : ℕ} {t : Tile} (ts : List Tile) (h : t.free = false) :
    freeAddresses a (t :: ts) = freeAddresses (a + t.len) ts :=
  List.filterMap_cons_none (if_neg (by simp [h]))

theorem freeAddresses_append (a : ℕ) (xs ys : List Tile) :
    freeAddresses a (xs ++ ys) = freeAddresses a xs ++ freeAddresses (a + span len xs) ys := by
  rw [freeAddresses, placed_append, List.filterMap_append]
  rfl

theorem mem_freeAddresses {a x : ℕ} {ts : List Tile} :
    x ∈ freeAddresses a ts ↔ ∃ t, (x, t) ∈ placed len a ts ∧ t.free = true := by
  rw [freeAddresses, List.mem_filterMap]
  constructor
  · rintro ⟨⟨y, t⟩, hm, hf⟩
    unfold freeAt at hf
    split at hf
    case isTrue hfree =>
      cases hf
      exact ⟨t, hm, hfree⟩
    case isFalse => cases hf
  · rintro ⟨t, hm, hf⟩
    exact ⟨(x, t), hm, if_pos hf⟩

theorem mem_addresses {a x : ℕ} {ts : List Tile} :
    x ∈ addresses a ts ↔ ∃ t, (x, t) ∈ placed len a ts := by
  constructor
  · intro hx
    obtain ⟨⟨y, t⟩, hm, rfl⟩ := List.mem_map.mp hx
    exact ⟨t, hm⟩
  · rintro ⟨t, hm⟩
    exact List.mem_map.mpr ⟨_, hm, rfl⟩

theorem addresses_of_free {a x : ℕ} {ts : List Tile} (hx : x ∈ freeAddresses a ts) :
    x ∈ addresses a ts := by
  obtain ⟨t, hm, -⟩ := mem_freeAddresses.mp hx
  exact mem_addresses.mpr ⟨t, hm⟩

theorem addresses_pairwise {g : ℕ} (a : ℕ) {ts : List Tile} (hg : ∀ t ∈ ts, g ≤ t.len) :
    (addresses a ts).Pairwise fun x y => x + g ≤ y := by
  rw [addresses, List.pairwise_map]
  refine (placed_pairwise len a ts).imp_of_mem ?_
  intro p q hp _ hpq
  obtain ⟨pre, post, hts, -⟩ := (mem_placed_iff len).mp hp
  have hlen := hg p.2 (by simp [hts])
  omega

theorem addresses_bounds {g a x : ℕ} {ts : List Tile} (hg : ∀ t ∈ ts, g ≤ t.len)
    (hx : x ∈ addresses a ts) : a ≤ x ∧ x + g ≤ a + span len ts := by
  obtain ⟨t, hm⟩ := mem_addresses.mp hx
  obtain ⟨pre, post, hts, -⟩ := (mem_placed_iff len).mp hm
  have hb := placed_bounds len hm
  have hlen := hg t (by simp [hts])
  omega

/-! ### The setters -/

variable {σ : Type} [HeaderMemory σ] {g : ℕ} {Within : σ → σ → ℕ → ℕ → Prop}
  {s s' : RedBlackAllocator σ} {x y z v : ℕ}

/-- Headers at the two addresses are one header or apart. -/
def Grid (g x y : ℕ) : Prop := y = x ∨ Apart g x y

theorem Grid.symm (h : Grid g x y) : Grid g y x := h.imp Eq.symm Apart.symm

/-- The header at `y` after a change of the header at `x`. -/
theorem get_of_grid (hL : LawfulHeaders σ g Within) {m m' : σ} {h : Header}
    (hw : Within m m' x (x + blockMetadataSize)) (hx : get m' x = h) (hy : Grid g x y) :
    get m' y = if y = x then h else get m y := by
  split
  case isTrue he => rw [he, hx]
  case isFalse hne =>
    have hroom := hL.room
    have hapart := hy.resolve_left hne
    unfold Apart at hapart
    exact hL.get_eq hw (by omega)

section

variable (hL : LawfulHeaders σ g Within) (hy : Grid g x y)

include hL hy

theorem setOccupied_get (o : Bool) : get (setOccupied s x o).memory y =
    if y = x then { get s.memory x with occupied := o } else get s.memory y :=
  get_of_grid hL (hL.within_setOccupied s.memory x o) (hL.get_setOccupied s.memory x o) hy

theorem setBack_get (hv : v < 2 ^ 64) : get (setBack s x v).memory y =
    if y = x then { get s.memory x with back := v } else get s.memory y :=
  get_of_grid hL (hL.within_setBack s.memory x v) (hL.get_setBack s.memory x hv) hy

theorem setForward_get (hv : v < 2 ^ 64) : get (setForward s x v).memory y =
    if y = x then { get s.memory x with forward := v } else get s.memory y :=
  get_of_grid hL (hL.within_setForward s.memory x v) (hL.get_setForward s.memory x hv) hy

theorem setParent_get (hv : v < 2 ^ 64) : get (setParent s x v).memory y =
    if y = x then { get s.memory x with node := (get s.memory x).node.setParent v }
    else get s.memory y :=
  get_of_grid hL (hL.within_setParent s.memory x v) (hL.get_setParent s.memory x hv) hy

end

/-- Two free blocks behind each other become one. -/
def absorb (s : RedBlackAllocator σ) (x y : ℕ) : RedBlackAllocator σ :=
  let s := setForward s x (forward s y)
  if forward s x ≠ 0 then setBack s (forward s x) x else s

theorem absorb_get (hL : LawfulHeaders σ g Within) {f w : ℕ} (hf : forward s y = f)
    (hf64 : f < 2 ^ 64) (hx64 : x < 2 ^ 64) (hxf : x ≠ f) (hfx : f ≠ 0 → Grid g x f) (hw : Grid g x w)
    (hfw : f ≠ 0 → Grid g f w) : get (absorb s x y).memory w =
      if w = x then { get s.memory x with forward := f }
      else if f ≠ 0 ∧ w = f then { get s.memory w with back := x } else get s.memory w := by
  have hset {u : ℕ} (hu : Grid g x u) := setForward_get (s := s) (v := f) hL hu hf64
  have hforward : forward (setForward s x f) x = f := by
    unfold forward
    rw [hset (Or.inl rfl), if_pos rfl]
  unfold absorb
  dsimp only
  rw [hf, hforward]
  by_cases hf0 : f = 0
  · rw [if_neg (not_not.mpr hf0), hset hw, if_neg (show ¬ (f ≠ 0 ∧ w = f) from fun he => he.1 hf0)]
  · rw [if_pos hf0, setBack_get hL (hfw hf0) hx64]
    by_cases hwf : w = f
    · subst hwf
      rw [if_pos rfl, hset (hfx hf0), if_neg hxf.symm, if_neg hxf.symm, if_pos ⟨hf0, rfl⟩]
    · rw [if_neg hwf, hset hw]
      split
      · rfl
      · rw [if_neg (show ¬ (f ≠ 0 ∧ w = f) from fun he => hwf he.2)]

/-- The new block's links, before the block behind it is linked back. -/
theorem linked_get (hL : LawfulHeaders σ g Within) {f w : ℕ} (hf64 : f < 2 ^ 64) (hx64 : x < 2 ^ 64)
    (hz64 : z < 2 ^ 64) (hne : z ≠ x) (hxz : Grid g z x) (hx : Grid g x w) (hz : Grid g z w) :
    get (setForward (setBack (setForward s z f) z x) x z).memory w =
      if w = z then { get s.memory z with back := x, forward := f }
      else if w = x then { get s.memory x with forward := z } else get s.memory w := by
  have h₁ {u : ℕ} (hu : Grid g z u) := setForward_get (s := s) (v := f) hL hu hf64
  have h₂ {u : ℕ} (hu : Grid g z u) := setBack_get (s := setForward s z f) (v := x) hL hu hx64
  rw [setForward_get hL hx hz64]
  by_cases hwz : w = z
  · subst hwz
    rw [if_neg hne, h₂ (Or.inl rfl), if_pos rfl, h₁ (Or.inl rfl), if_pos rfl, if_pos rfl]
  · rw [if_neg hwz, h₂ hxz, h₂ hz, if_neg hne.symm, if_neg hwz, h₁ hxz, h₁ hz, if_neg hne.symm,
      if_neg hwz]

theorem splitBlock_get (hL : LawfulHeaders σ g Within) {f w : ℕ} (hf : forward s x = f)
    (hf64 : f < 2 ^ 64) (hx64 : x < 2 ^ 64) (hz64 : z < 2 ^ 64) (hne : z ≠ x) (hxz : Grid g z x)
    (hxf : x ≠ f) (hzf : z ≠ f) (hfx : f ≠ 0 → Grid g f x) (hfz : f ≠ 0 → Grid g f z)
    (hx : Grid g x w) (hz : Grid g z w) (hfw : f ≠ 0 → Grid g f w) :
    get (splitBlock s x z).memory w =
      if w = z then ⟨false, x, f, (get s.memory z).node.setParent 0⟩
      else if w = x then { get s.memory x with forward := z }
      else if f ≠ 0 ∧ w = f then { get s.memory w with back := z } else get s.memory w := by
  have h₃ {u : ℕ} (hu : Grid g x u) (hu' : Grid g z u) :=
    linked_get (s := s) hL hf64 hx64 hz64 hne hxz hu hu'
  have hforward : forward (setForward (setBack (setForward s z f) z x) x z) z = f := by
    unfold forward
    rw [h₃ hxz.symm (Or.inl rfl), if_pos rfl]
  unfold splitBlock
  dsimp only
  rw [hf, hforward]
  generalize hk : setForward (setBack (setForward s z f) z x) x z = k at h₃ hforward
  -- the block behind is linked back, then the flag and the parent are set
  have h₄ {u : ℕ} (hu : Grid g x u) (hu' : Grid g z u) (hu'' : f ≠ 0 → Grid g f u) :
      get (if f ≠ 0 then setBack k f z else k).memory u =
        if f ≠ 0 ∧ u = f then { get s.memory u with back := z } else get k.memory u := by
    by_cases hf0 : f = 0
    · rw [if_neg (not_not.mpr hf0), if_neg (show ¬ (f ≠ 0 ∧ u = f) from fun he => he.1 hf0)]
    · rw [if_pos hf0, setBack_get hL (hu'' hf0) hz64]
      by_cases huf : u = f
      · subst huf
        rw [if_pos rfl, if_pos ⟨hf0, rfl⟩, h₃ hu hu', if_neg hzf.symm, if_neg hxf.symm]
      · rw [if_neg huf, if_neg (show ¬ (f ≠ 0 ∧ u = f) from fun he => huf he.2)]
  generalize (if f ≠ 0 then setBack k f z else k) = k₄ at h₄
  have h₅ {u : ℕ} (hu : Grid g z u) := setOccupied_get (s := k₄) hL hu false
  have hzz : ¬ (f ≠ 0 ∧ z = f) := fun he => hzf he.2
  rw [setParent_get hL hz (Nat.two_pow_pos 64), h₅ (Or.inl rfl), h₅ hz]
  by_cases hwz : w = z
  · subst hwz
    simp only [if_true]
    rw [h₄ hxz.symm (Or.inl rfl) hfz, if_neg hzz, h₃ hxz.symm (Or.inl rfl), if_pos rfl]
  · rw [if_neg hwz, if_neg hwz, if_neg hwz, h₄ hx hz hfw, h₃ hx hz, if_neg hwz]
    by_cases hwx : w = x
    · rw [if_pos hwx, if_neg (show ¬ (f ≠ 0 ∧ w = f) from fun he => hxf (hwx ▸ he.2)), if_pos hwx]
    · rw [if_neg hwx, if_neg hwx]

end MaiFaSp.RedBlackAllocator
