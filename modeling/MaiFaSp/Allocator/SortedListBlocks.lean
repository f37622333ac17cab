import MaiFaSp.Allocator.SortedList

/-!
# `allocator_sorted_list`: what the bytes of the pool stand for

A pool stands for a list of blocks when the headers, read from the first block
on, have their sizes and link the free ones in order. `Linked` says so for a
part of the pool, so that an operation that rewrites a few headers is followed
part by part.
-/

namespace MaiFaSp.SortedList

open Memory Tiling

/-- A block with what the client asked for, if it is occupied. -/
structure Block where
  size : ℕ
  request : Option ℕ
  fits : ∀ r, request = some r → r ≤ size

namespace Block

def free (b : Block) : Bool := b.request.isNone

def len (b : Block) : ℕ := blockMetadataSize + b.size

def vacant (n : ℕ) : Block := ⟨n, none, by simp⟩

def held (n r : ℕ) (h : r ≤ n) : Block := ⟨n, some r, by simpa using h⟩

theorem free_iff (b : Block) : b.free = true ↔ b.request = none := Option.isNone_iff_eq_none

theorem len_eq (b : Block) : b.len = 16 + b.size := rfl

@[simp] theorem len_vacant (n : ℕ) : (vacant n).len = 16 + n := rfl

@[simp] theorem len_held (n r : ℕ) (h : r ≤ n) : (held n r h).len = 16 + n := rfl

@[simp] theorem free_vacant (n : ℕ) : (vacant n).free = true := rfl

@[simp] theorem free_held (n r : ℕ) (h : r ≤ n) : (held n r h).free = false := rfl

end Block

open Block

/-- The first free block, or `nf` when there is none. -/
def firstFreeOf : ℕ → List Block → ℕ → ℕ
  | _, [], nf => nf
  | a, b :: bs, nf => if b.free then a else firstFreeOf (a + b.len) bs nf

/-- The last free block, or `p` when there is none. -/
def lastFreeOf : ℕ → List Block → ℕ → ℕ
  | _, [], p => p
  | a, b :: bs, p => lastFreeOf (a + b.len) bs (if b.free then a else p)

/-- The headers from `a` on are those of `bs`; the free block after them is `nf`.
With a tag, every occupied block carries it. -/
def Linked (m : Memory) (tag : Option ℕ) : ℕ → List Block → ℕ → Prop
  | _, [], _ => True
  | a, b :: bs, nf =>
    getSize m a = b.size ∧
      (if b.free then getNextPtr m a = firstFreeOf (a + b.len) bs nf
        else ∀ t, tag = some t → getNextPtr m a = t) ∧
      Linked m tag (a + b.len) bs nf

/-! ### Headers -/

theorem getNextPtr_of_pos {m : Memory} {a : ℕ} (h : 0 < a) :
    getNextPtr m a = load64 m (a + 8) := if_neg h.ne'

theorem getNextPtr_congr {m m' : Memory} {a : ℕ} (h : AgreeOn m m' a (a + 16)) :
    getNextPtr m a = getNextPtr m' a := by
  unfold getNextPtr
  split
  · rfl
  · exact load64_congr (h.mono (by omega) (by omega))

theorem getSize_congr {m m' : Memory} {a : ℕ} (h : AgreeOn m m' a (a + 16)) :
    getSize m a = getSize m' a := load64_congr (h.mono le_rfl (by omega))

theorem getSize_setSize {m : Memory} {a n : ℕ} (h : n < 2 ^ 64) : getSize (setSize m a n) a = n :=
  load64_store64 m a n h

theorem getSize_setNextPtr (m : Memory) (a p : ℕ) : getSize (setNextPtr m a p) a = getSize m a :=
  load64_store64_of_disjoint m (a + 8) a p (Or.inl le_rfl)

theorem getNextPtr_setNextPtr {m : Memory} {a p : ℕ} (ha : 0 < a) (h : p < 2 ^ 64) :
    getNextPtr (setNextPtr m a p) a = p := by
  rw [getNextPtr_of_pos ha]
  exact load64_store64 m (a + 8) p h

theorem agreeOn_setSize (m : Memory) (a n lo hi : ℕ) (h : hi ≤ a ∨ a + 16 ≤ lo) :
    AgreeOn (setSize m a n) m lo hi := agreeOn_store64 m a n lo hi (by omega)

theorem agreeOn_setNextPtr (m : Memory) (a p lo hi : ℕ) (h : hi ≤ a ∨ a + 16 ≤ lo) :
    AgreeOn (setNextPtr m a p) m lo hi := agreeOn_store64 m (a + 8) p lo hi (by omega)

/-! ### Parts of a pool -/

theorem firstFreeOf_append (a : ℕ) (xs ys : List Block) (nf : ℕ) :
    firstFreeOf a (xs ++ ys) nf = firstFreeOf a xs (firstFreeOf (a + span len xs) ys nf) := by
  induction xs generalizing a with
  | nil => rfl
  | cons b xs ih =>
    rw [List.cons_append, firstFreeOf, firstFreeOf, ih, span_cons, Nat.add_assoc]

theorem lastFreeOf_append (a : ℕ) (xs ys : List Block) (p : ℕ) :
    lastFreeOf a (xs ++ ys) p = lastFreeOf (a + span len xs) ys (lastFreeOf a xs p) := by
  induction xs generalizing a p with
  | nil => rfl
  | cons b xs ih =>
    rw [List.cons_append, lastFreeOf, lastFreeOf, ih, span_cons, Nat.add_assoc]

/-- Either no block is free, or the first one does not depend on what comes after. -/
theorem firstFreeOf_cases (a : ℕ) (bs : List Block) :
    (∀ nf, firstFreeOf a bs nf = nf) ∨
      ∃ x, a ≤ x ∧ x < a + span len bs ∧ ∀ nf, firstFreeOf a bs nf = x := by
  induction bs generalizing a with
  | nil => exact Or.inl (fun _ => rfl)
  | cons b bs ih =>
    have hb := b.len_eq
    simp only [firstFreeOf, span_cons]
    cases b.free with
    | true => exact Or.inr ⟨a, le_rfl, by omega, fun _ => rfl⟩
    | false =>
      rcases ih (a + b.len) with h | ⟨x, hlo, hhi, hx⟩
      · exact Or.inl h
      · exact Or.inr ⟨x, by omega, by omega, hx⟩

theorem firstFreeOf_bounds (a : ℕ) (bs : List Block) (nf : ℕ) :
    firstFreeOf a bs nf = nf ∨ (a ≤ firstFreeOf a bs nf ∧ firstFreeOf a bs nf < a + span len bs) := by
  rcases firstFreeOf_cases a bs with h | ⟨x, hlo, hhi, hx⟩
  · exact Or.inl (h nf)
  · rw [hx]
    exact Or.inr ⟨hlo, hhi⟩

theorem lastFreeOf_bounds (a : ℕ) (bs : List Block) (p : ℕ) :
    lastFreeOf a bs p = p ∨ (a ≤ lastFreeOf a bs p ∧ lastFreeOf a bs p + 16 ≤ a + span len bs) := by
  induction bs generalizing a p with
  | nil => exact Or.inl rfl
  | cons b bs ih =>
    have hb := b.len_eq
    rw [lastFreeOf, span_cons]
    cases b.free with
    | true =>
      have h := ih (a + b.len) a
      rw [if_pos rfl]
      omega
    | false =>
      have h := ih (a + b.len) p
      rw [if_neg Bool.false_ne_true]
      omega

theorem linked_append (m : Memory) (tag : Option ℕ) (a : ℕ) (xs ys : List Block) (nf : ℕ) :
    Linked m tag a (xs ++ ys) nf ↔
      Linked m tag a xs (firstFreeOf (a + span len xs) ys nf) ∧
        Linked m tag (a + span len xs) ys nf := by
  induction xs generalizing a with
  | nil => simp [Linked]
  | cons b xs ih =>
    rw [List.cons_append, Linked, Linked, ih, firstFreeOf_append, span_cons, Nat.add_assoc,
      and_assoc, and_assoc]

theorem Linked.congr {m m' : Memory} {tag : Option ℕ} {a : ℕ} {bs : List Block} {nf : ℕ}
    (h : Linked m tag a bs nf) (hm : AgreeOn m' m a (a + span len bs)) :
    Linked m' tag a bs nf := by
  induction bs generalizing a with
  | nil => trivial
  | cons b bs ih =>
    have hb := b.len_eq
    rw [span_cons] at hm
    obtain ⟨hs, hn, hr⟩ := h
    have hhead : AgreeOn m' m a (a + 16) := hm.mono le_rfl (by omega)
    have hrest := ih hr (hm.mono (by omega) (by omega))
    refine ⟨(getSize_congr hhead).trans hs, ?_, hrest⟩
    rwa [getNextPtr_congr hhead]

theorem Linked.forgetTag {m : Memory} {tag : Option ℕ} {a : ℕ} {bs : List Block} {nf : ℕ}
    (h : Linked m tag a bs nf) : Linked m none a bs nf := by
  induction bs generalizing a with
  | nil => trivial
  | cons b bs ih =>
    obtain ⟨hs, hn, hr⟩ := h
    refine ⟨hs, ?_, ih hr⟩
    cases hf : b.free with
    | true =>
      rw [hf, if_pos rfl] at hn
      exact hn
    | false =>
      intro t ht
      cases ht

/-- Without a free block it does not matter what comes after. -/
theorem firstFreeOf_eq_of_lastFreeOf {a p nf : ℕ} {bs : List Block} (hp : p < a)
    (h : lastFreeOf a bs p = p) : firstFreeOf a bs nf = nf := by
  induction bs generalizing a with
  | nil => rfl
  | cons b bs ih =>
    have hb := b.len_eq
    rw [lastFreeOf] at h
    rw [firstFreeOf]
    split at h
    · have hl := lastFreeOf_bounds (a + b.len) bs a
      omega
    · rename_i hf
      rw [if_neg hf]
      exact ih (by omega) h

theorem firstFreeOf_eq_of_ne {a p nf nf' : ℕ} {bs : List Block}
    (h : lastFreeOf a bs p ≠ p) : firstFreeOf a bs nf = firstFreeOf a bs nf' := by
  induction bs generalizing a with
  | nil => exact absurd rfl h
  | cons b bs ih =>
    rw [lastFreeOf] at h
    rw [firstFreeOf, firstFreeOf]
    split
    · rfl
    · rename_i hf
      rw [if_neg hf] at h
      exact ih h

/-- `if (prev != nullptr) set_next_ptr(prev, p)`. -/
def relink (m : Memory) (prev p : ℕ) : Memory := if prev ≠ 0 then setNextPtr m prev p else m

theorem agreeOn_relink (m : Memory) (prev p lo hi : ℕ)
    (h : prev = 0 ∨ hi ≤ prev ∨ prev + 16 ≤ lo) : AgreeOn (relink m prev p) m lo hi := by
  unfold relink
  split
  · exact agreeOn_setNextPtr m prev p lo hi (by omega)
  · exact fun _ _ _ => rfl

theorem Linked.relink {m : Memory} {tag : Option ℕ} {a : ℕ} {bs : List Block} {nf nf' p : ℕ}
    (h : Linked m tag a bs nf) (ha : 0 < a) (hp : p = 0 ∨ p + 16 ≤ a) (hnf : nf' < 2 ^ 64) :
    Linked (relink m (lastFreeOf a bs p) nf') tag a bs nf' := by
  induction bs generalizing a p with
  | nil => trivial
  | cons b bs ih =>
    have hb := b.len_eq
    obtain ⟨hs, hn, hr⟩ := h
    rw [lastFreeOf]
    cases hf : b.free with
    | true =>
      rw [hf, if_pos rfl] at hn
      have hrec := ih hr (by omega) (p := a) (Or.inr (by omega))
      rw [if_pos rfl]
      have hbd := lastFreeOf_bounds (a + b.len) bs a
      by_cases hl : lastFreeOf (a + b.len) bs a = a
      · rw [hl] at hrec ⊢
        have hm : SortedList.relink m a nf' = setNextPtr m a nf' := if_pos ha.ne'
        rw [hm] at hrec ⊢
        refine ⟨(getSize_setNextPtr m a nf').trans hs, ?_, hrec⟩
        rw [hf, if_pos rfl, getNextPtr_setNextPtr ha hnf]
        exact (firstFreeOf_eq_of_lastFreeOf (by omega) hl).symm
      · have hag := agreeOn_relink m (lastFreeOf (a + b.len) bs a) nf' a (a + 16) (by omega)
        refine ⟨(getSize_congr hag).trans hs, ?_, hrec⟩
        rw [hf, if_pos rfl, getNextPtr_congr hag, hn]
        exact firstFreeOf_eq_of_ne hl
    | false =>
      rw [hf, if_neg Bool.false_ne_true] at hn
      have hrec := ih hr (by omega) (p := p) (by omega)
      rw [if_neg Bool.false_ne_true]
      have hbd := lastFreeOf_bounds (a + b.len) bs p
      have hag := agreeOn_relink m (lastFreeOf (a + b.len) bs p) nf' a (a + 16) (by omega)
      refine ⟨(getSize_congr hag).trans hs, ?_, hrec⟩
      rw [hf, if_neg Bool.false_ne_true, getNextPtr_congr hag]
      exact hn

end MaiFaSp.SortedList
