import MaiFaSp.Allocator.SortedListBlocks

/-!
# `allocator_sorted_list`: the loops over a linked pool

The loops of the code follow either the free blocks or all blocks. On a linked
pool each of them ends and finds what the list of blocks says.
-/

namespace MaiFaSp.SortedList

open Memory Tiling Block

/-! ### Along the free blocks -/

/-- What the search for a block may end with: nothing new, or a free block that is
large enough, with the free block before it. -/
def Chosen (a size prev : ℕ) (bs : List Block) (c c' : Choice) : Prop :=
  c' = c ∨ ∃ pre b post, bs = pre ++ b :: post ∧ b.free = true ∧
    sizeAdd size blockMetadataSize ≤ b.size ∧
    c' = ⟨lastFreeOf a pre prev, a + span len pre, b.size⟩

theorem Chosen.cons_held {a size prev : ℕ} {b : Block} {bs : List Block} {c c' : Choice}
    (h : Chosen (a + b.len) size prev bs c c') (hf : b.free = false) :
    Chosen a size prev (b :: bs) c c' := by
  cases h with
  | inl h => exact Or.inl h
  | inr h =>
    obtain ⟨pre, d, post, hbs, hd, hsize, hc⟩ := h
    refine Or.inr ⟨b :: pre, d, post, by rw [hbs]; rfl, hd, hsize, ?_⟩
    rw [hc, lastFreeOf, hf, if_neg Bool.false_ne_true, span_cons, Nat.add_assoc]

theorem Chosen.cons_free {a size prev : ℕ} {b : Block} {bs : List Block} {c c' : Choice}
    (h : Chosen (a + b.len) size a bs c c') (hf : b.free = true) :
    Chosen a size prev (b :: bs) c c' := by
  cases h with
  | inl h => exact Or.inl h
  | inr h =>
    obtain ⟨pre, d, post, hbs, hd, hsize, hc⟩ := h
    refine Or.inr ⟨b :: pre, d, post, by rw [hbs]; rfl, hd, hsize, ?_⟩
    rw [hc, lastFreeOf, hf, if_pos rfl, span_cons, Nat.add_assoc]

/-- Choosing the first of the blocks before the others are looked at. -/
theorem Chosen.here {a size prev : ℕ} {b : Block} {bs : List Block} {c c' : Choice}
    (hf : b.free = true) (hsize : sizeAdd size blockMetadataSize ≤ b.size)
    (h : Chosen (a + b.len) size a bs ⟨prev, a, b.size⟩ c') :
    Chosen a size prev (b :: bs) c c' := by
  cases h with
  | inl h => exact Or.inr ⟨[], b, bs, rfl, hf, hsize, h⟩
  | inr h => exact Chosen.cons_free (Or.inr h) hf

theorem fitLoop_spec {m : Memory} {tag : Option ℕ} {a n : ℕ} {bs : List Block}
    (mode : FitMode) (size : ℕ) (hl : Linked m tag a bs 0) (ha : 0 < a) (hn : bs.length ≤ n) (prev : ℕ) (c : Choice) :
    ∃ c', fitLoop m mode size n (firstFreeOf a bs 0) prev c = .ok c' ∧
      Chosen a size prev bs c c' := by
  induction bs generalizing a n prev c with
  | nil =>
    refine ⟨c, ?_, Or.inl rfl⟩
    cases n <;> rfl
  | cons b bs ih =>
    obtain ⟨hs, hnext, hr⟩ := hl
    rw [List.length_cons] at hn
    cases hf : b.free with
    | false =>
      obtain ⟨c', hc, hch⟩ := ih hr (by omega) (Nat.le_of_succ_le hn) prev c
      refine ⟨c', ?_, hch.cons_held hf⟩
      rw [firstFreeOf, hf, if_neg Bool.false_ne_true]
      exact hc
    | true =>
      rw [hf, if_pos rfl] at hnext
      obtain ⟨k, rfl⟩ : ∃ k, n = k + 1 := ⟨n - 1, by omega⟩
      rw [firstFreeOf, hf, if_pos rfl, fitLoop, if_neg ha.ne', hs, hnext]
      dsimp only
      split
      case isTrue hfit =>
        split
        case isTrue hmode => exact ⟨_, rfl, Chosen.here hf hfit.1 (Or.inl rfl)⟩
        case isFalse hmode =>
          obtain ⟨c', hc, hch⟩ := ih hr (by omega) (by omega : bs.length ≤ k) a
            ⟨prev, a, b.size⟩
          exact ⟨c', hc, Chosen.here hf hfit.1 hch⟩
      case isFalse hfit =>
        obtain ⟨c', hc, hch⟩ := ih hr (by omega) (by omega : bs.length ≤ k) a c
        exact ⟨c', hc, hch.cons_free hf⟩

/-- The addresses of the free blocks, in order. -/
def freeAddresses (a : ℕ) (bs : List Block) : List ℕ :=
  ((placed len a bs).filter (fun p => p.2.free)).map Prod.fst

theorem freeBlocksFrom_ok {m : Memory} {tag : Option ℕ} {a : ℕ} {bs : List Block} {n : ℕ}
    (hl : Linked m tag a bs 0) (ha : 0 < a) (hn : bs.length ≤ n) :
    freeBlocksFrom m n (firstFreeOf a bs 0) = .ok (freeAddresses a bs) := by
  induction bs generalizing a n with
  | nil => cases n <;> rfl
  | cons b bs ih =>
    obtain ⟨-, hnext, hr⟩ := hl
    rw [List.length_cons] at hn
    cases hf : b.free with
    | false =>
      have hrec := ih hr (by omega) (Nat.le_of_succ_le hn)
      rw [firstFreeOf, hf, if_neg Bool.false_ne_true, hrec]
      simp [freeAddresses, hf]
    | true =>
      rw [hf, if_pos rfl] at hnext
      obtain ⟨k, rfl⟩ : ∃ k, n = k + 1 := ⟨n - 1, by omega⟩
      have hrec := ih hr (by omega) (by omega : bs.length ≤ k)
      rw [firstFreeOf, hf, if_pos rfl, freeBlocksFrom, if_neg ha.ne', hnext, hrec]
      simp [freeAddresses, hf]

/-! ### Along all blocks -/

/-- Only a single block may have an empty payload and end the pool: the iterator
stops at the pool's size, 16 bytes below its end. -/
def TopRoom (bs : List Block) : Prop :=
  ∀ b, bs.getLast? = some b → bs.length ≤ 1 ∨ 1 ≤ b.size

theorem length_le_span (bs : List Block) : 16 * bs.length ≤ span len bs := by
  induction bs with
  | nil => simp
  | cons b bs ih =>
    rw [span_cons, b.len_eq, List.length_cons]
    omega

theorem getLast?_append_cons (pre : List Block) (b : Block) (post : List Block) :
    (pre ++ b :: post).getLast? = some (post.getLast?.getD b) := by
  rw [List.getLast?_append, List.getLast?_cons]
  rfl

theorem TopRoom.of_cons {b : Block} {bs : List Block} (h : TopRoom (b :: bs)) (hne : bs ≠ []) :
    16 < span len bs ∧ TopRoom bs := by
  obtain ⟨c, hc⟩ := List.getLast?_isSome.mpr hne |> Option.isSome_iff_exists.mp
  have hlast : (b :: bs).getLast? = some c := by
    rw [List.getLast?_cons, hc]
    rfl
  have hpos := List.length_pos_of_ne_nil hne
  have hsize : 1 ≤ c.size := by
    rcases h c hlast with hl | hl
    · rw [List.length_cons] at hl
      omega
    · exact hl
  constructor
  · obtain ⟨pre, hpre⟩ := List.getLast?_eq_some_iff.mp hc
    rw [hpre, span_append, span_cons, c.len_eq]
    omega
  · intro d hd
    rw [hc] at hd
    cases hd
    exact Or.inr hsize

/-- The iterator on the first of the blocks `bs`, which lie from `a` on. -/
def iterAt (a : ℕ) : List Block → Iterator
  | [] => ⟨0, 0⟩
  | b :: bs => ⟨firstFreeOf a (b :: bs) 0, a⟩

theorem iterAt_occupied {a : ℕ} {b : Block} {bs : List Block} (ha : 0 < a) :
    (iterAt a (b :: bs)).occupied = !b.free := by
  have hb := b.len_eq
  cases hf : b.free with
  | true => simp [Iterator.occupied, iterAt, firstFreeOf, hf]
  | false =>
    have h := firstFreeOf_bounds (a + b.len) bs 0
    have hne : a ≠ firstFreeOf (a + b.len) bs 0 := by omega
    simp [Iterator.occupied, iterAt, firstFreeOf, hf, hne]

variable {s : SortedList} {tag : Option ℕ} {a : ℕ}

theorem iterAt_next {b : Block} {bs : List Block} (hl : Linked s.memory tag a (b :: bs) 0)
    (ha : 0 < a) (hend : a + span len (b :: bs) = s.trusted + s.spaceSize + 92)
    (ht : TopRoom (b :: bs)) : (iterAt a (b :: bs)).next s = iterAt (a + b.len) bs := by
  have hb := b.len_eq
  obtain ⟨hs, hn, -⟩ := hl
  rw [span_cons] at hend
  have hfree : (if a = firstFreeOf a (b :: bs) 0 then
      getNextPtr s.memory (firstFreeOf a (b :: bs) 0) else firstFreeOf a (b :: bs) 0) =
      firstFreeOf (a + b.len) bs 0 := by
    rw [firstFreeOf]
    cases hf : b.free with
    | true =>
      rw [hf, if_pos rfl] at hn
      rw [if_pos rfl, if_pos rfl, hn]
    | false =>
      have h := firstFreeOf_bounds (a + b.len) bs 0
      rw [if_neg Bool.false_ne_true, if_neg (by omega)]
  have hnext : (iterAt a (b :: bs)).next s =
      ⟨if a = firstFreeOf a (b :: bs) 0 then getNextPtr s.memory (firstFreeOf a (b :: bs) 0)
        else firstFreeOf a (b :: bs) 0,
        if s.trusted + s.spaceSize + 76 ≤ a + 16 + getSize s.memory a then 0
        else a + 16 + getSize s.memory a⟩ := rfl
  rw [hnext, hfree, hs]
  cases bs with
  | nil =>
    rw [span_nil] at hend
    rw [if_pos (by omega)]
    rfl
  | cons c cs =>
    have hroom := (ht.of_cons (List.cons_ne_nil c cs)).1
    rw [if_neg (by omega), Nat.add_assoc, ← hb]
    rfl

theorem blocksFrom_ok {bs : List Block} {n : ℕ} (hl : Linked s.memory tag a bs 0) (ha : 0 < a)
    (hend : a + span len bs = s.trusted + s.spaceSize + 92) (ht : TopRoom bs)
    (hn : bs.length ≤ n) :
    blocksFrom s n (iterAt a bs) = .ok (bs.map (fun b => (b.size, !b.free))) := by
  induction bs generalizing a n with
  | nil => cases n <;> rfl
  | cons b bs ih =>
    have hb := b.len_eq
    have hnext := iterAt_next hl ha hend ht
    obtain ⟨hs, -, hr⟩ := hl
    rw [List.length_cons] at hn
    obtain ⟨k, rfl⟩ : ∃ k, n = k + 1 := ⟨n - 1, by omega⟩
    have hrec : blocksFrom s k (iterAt (a + b.len) bs) =
        .ok (bs.map (fun b => (b.size, !b.free))) := by
      cases bs with
      | nil => cases k <;> rfl
      | cons c cs =>
        apply ih hr (by omega) _ (ht.of_cons (List.cons_ne_nil c cs)).2 (by omega)
        rw [span_cons] at hend
        omega
    have hcur : (iterAt a (b :: bs)).current = a := rfl
    rw [blocksFrom, hcur, if_neg ha.ne', hnext, hrec, iterAt_occupied ha, hs]
    rfl

/-- The loop of the deallocation ends at the block, with the last free one before it. -/
theorem prevFreeFrom_ok {pre post : List Block} {b : Block} {n : ℕ}
    (hl : Linked s.memory tag a (pre ++ b :: post) 0) (ha : 0 < a)
    (hend : a + span len (pre ++ b :: post) = s.trusted + s.spaceSize + 92)
    (ht : TopRoom (pre ++ b :: post)) (hn : pre.length + 1 ≤ n) (prev : ℕ) :
    prevFreeFrom s (a + span len pre) n (iterAt a (pre ++ b :: post)) prev =
      .ok (lastFreeOf a pre prev) := by
  induction pre generalizing a n prev with
  | nil =>
    obtain ⟨k, rfl⟩ : ∃ k, n = k + 1 := ⟨n - 1, by omega⟩
    have hcur : (iterAt a ([] ++ b :: post)).current = a + span len [] := rfl
    rw [prevFreeFrom, if_pos (Or.inr hcur)]
    rfl
  | cons c pre ih =>
    have hc := c.len_eq
    rw [List.cons_append] at hl hend ht ⊢
    have hnext := iterAt_next hl ha hend ht
    obtain ⟨-, -, hr⟩ := hl
    rw [List.length_cons] at hn
    obtain ⟨k, rfl⟩ : ∃ k, n = k + 1 := ⟨n - 1, by omega⟩
    have hroom := (ht.of_cons (by simp)).2
    have hcur : (iterAt a (c :: (pre ++ b :: post))).current = a := rfl
    rw [span_cons] at hend ⊢
    have hrec := ih hr (by omega) (by omega) hroom (by omega : pre.length + 1 ≤ k)
      (if c.free then a else prev)
    rw [prevFreeFrom, hcur, if_neg (by omega), hnext, iterAt_occupied ha, ← Nat.add_assoc]
    rw [lastFreeOf, ← hrec]
    cases c.free <;> rfl

end MaiFaSp.SortedList
