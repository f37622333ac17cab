import MaiFaSp.Allocator.Buddies

/-!
# `allocator_buddies_system`: the bytes of the pool and the buddy tree

`Headers` says that the blocks of a list have their headers in memory. The walk
over the pool then visits just these blocks, and each search returns one of them
that is free and large enough, or none.
-/

namespace MaiFaSp.Buddies

open Memory Tiling BuddyTree

/-- The length of a block; `min_k` is 4. -/
abbrev len : Block → ℕ := Block.len 4

/-- The headers from `a` on are those of `bs`. -/
def Headers (m : Memory) (tag : ℕ) : ℕ → List Block → Prop
  | _, [] => True
  | a, b :: bs =>
    (m a).toNat = 2 * b.level + (!b.free).toNat ∧ (b.free = false → load64 m (a + 1) = tag) ∧
      Headers m tag (a + len b) bs

theorem len_ge (b : Block) : 16 ≤ len b := by
  show 16 ≤ 2 ^ (b.level + 4)
  have h := Nat.pow_le_pow_right (n := 2) (by decide) (Nat.le_add_left 4 b.level)
  omega

theorem headers_append (m : Memory) (tag a : ℕ) (xs ys : List Block) :
    Headers m tag a (xs ++ ys) ↔ Headers m tag a xs ∧ Headers m tag (a + span len xs) ys := by
  induction xs generalizing a with
  | nil => simp [Headers]
  | cons b xs ih =>
    rw [List.cons_append, Headers, Headers, ih, span_cons, Nat.add_assoc, and_assoc, and_assoc]

theorem Headers.congr {m m' : Memory} {tag a : ℕ} {bs : List Block} (h : Headers m tag a bs)
    (hm : AgreeOn m' m a (a + span len bs)) : Headers m' tag a bs := by
  induction bs generalizing a with
  | nil => trivial
  | cons b bs ih =>
    have hb := len_ge b
    rw [span_cons] at hm
    obtain ⟨hs, ht, hr⟩ := h
    refine ⟨?_, fun hf => ?_, ih hr (hm.mono (by omega) (by omega))⟩
    · rw [hm a le_rfl (by omega)]
      exact hs
    · rw [load64_congr (hm.mono (by omega) (by omega))]
      exact ht hf

/-! ### One header -/

theorem occupied_of_header {m : Memory} {a : ℕ} {b : Block}
    (h : (m a).toNat = 2 * b.level + (!b.free).toNat) : occupied m a = !b.free := by
  unfold occupied
  rw [h]
  cases b.free with
  | true => simp
  | false =>
    simp only [Bool.not_false, Bool.toNat_true, decide_eq_true_eq]
    omega

theorem blockSizeK_of_header {m : Memory} {a : ℕ} {b : Block}
    (h : (m a).toNat = 2 * b.level + (!b.free).toNat) : blockSizeK m a = b.level := by
  have hle := Bool.toNat_le (!b.free)
  unfold blockSizeK
  omega

theorem blockSize_of_header {m : Memory} {a : ℕ} {b : Block}
    (h : (m a).toNat = 2 * b.level + (!b.free).toNat) : blockSize m a = len b := by
  rw [blockSize, blockSizeK_of_header h, minK_eq]
  rfl

theorem setOccupied_self (m : Memory) (a : ℕ) (occ : Bool) :
    (setOccupied m a occ a).toNat = 2 * blockSizeK m a + occ.toNat := by
  have hlt := (m a).toNat_lt
  have hle := Bool.toNat_le occ
  rw [setOccupied, Function.update_self, UInt8.toNat_ofNat']
  apply Nat.mod_eq_of_lt
  unfold blockSizeK
  omega

theorem setSizeK_self (m : Memory) (a n : ℕ) (hn : n < 128) :
    (setSizeK m a n a).toNat = 2 * n + (m a).toNat % 2 := by
  rw [setSizeK, Function.update_self, UInt8.toNat_ofNat', Nat.mod_eq_of_lt hn]
  apply Nat.mod_eq_of_lt
  omega

theorem agreeOn_setOccupied (m : Memory) (a : ℕ) (occ : Bool) (lo hi : ℕ) (h : a < lo ∨ hi ≤ a) :
    AgreeOn (setOccupied m a occ) m lo hi := agreeOn_update m a _ lo hi h

theorem agreeOn_setSizeK (m : Memory) (a n lo hi : ℕ) (h : a < lo ∨ hi ≤ a) :
    AgreeOn (setSizeK m a n) m lo hi := agreeOn_update m a _ lo hi h

/-! ### The walk -/

theorem blocksFrom_ok {m : Memory} {tag a n : ℕ} {bs : List Block} (h : Headers m tag a bs)
    (hn : bs.length ≤ n) :
    blocksFrom m (a + span len bs) n a = .ok ((placed len a bs).map Prod.fst) := by
  induction bs generalizing a n with
  | nil =>
    rw [span_nil, Nat.add_zero]
    cases n with
    | zero => rw [blocksFrom, if_pos rfl]; rfl
    | succ n => rw [blocksFrom, if_pos rfl]; rfl
  | cons b bs ih =>
    have hb := len_ge b
    obtain ⟨hs, -, hr⟩ := h
    rw [List.length_cons] at hn
    obtain ⟨k, rfl⟩ : ∃ k, n = k + 1 := ⟨n - 1, by omega⟩
    have hrec := ih hr (by omega : bs.length ≤ k)
    rw [span_cons, ← Nat.add_assoc, blocksFrom, if_neg (by omega), blockSize_of_header hs, hrec]
    rfl

theorem header_of_placed {m : Memory} {tag a x : ℕ} {b : Block} {bs : List Block}
    (h : Headers m tag a bs) (hx : (x, b) ∈ placed len a bs) :
    (m x).toNat = 2 * b.level + (!b.free).toNat ∧ (b.free = false → load64 m (x + 1) = tag) := by
  obtain ⟨pre, post, rfl, rfl⟩ := (mem_placed_iff len).mp hx
  obtain ⟨-, hs, ht, -⟩ := (headers_append ..).mp h
  exact ⟨hs, ht⟩

theorem length_le_span (bs : List Block) : bs.length ≤ span len bs := by
  induction bs with
  | nil => simp
  | cons b bs ih =>
    have hb := len_ge b
    rw [span_cons, List.length_cons]
    omega

/-! ### The searches -/

theorem getBlock_suits (mode : FitMode) (m : Memory) (size : ℕ) (xs : List ℕ) :
    getBlock mode m size xs = 0 ∨
      (getBlock mode m size xs ∈ xs ∧ suits m size (getBlock mode m size xs) = true) := by
  have hfold (f : ℕ → ℕ → ℕ) (hf : ∀ r it, f r it = r ∨ (f r it = it ∧ suits m size it = true))
      (r : ℕ) : xs.foldl f r = r ∨
        (xs.foldl f r ∈ xs ∧ suits m size (xs.foldl f r) = true) := by
    induction xs generalizing r with
    | nil => exact Or.inl rfl
    | cons x xs ih =>
      rw [List.foldl_cons]
      rcases ih (f r x) with h | ⟨hm, hs⟩
      · rw [h]
        rcases hf r x with hr | ⟨hx, hs⟩
        · exact Or.inl hr
        · rw [hx]
          exact Or.inr ⟨List.mem_cons_self .., hs⟩
      · exact Or.inr ⟨List.mem_cons_of_mem _ hm, hs⟩
  cases mode with
  | firstFit =>
    unfold getBlock getBlockFirstFit
    cases hfind : xs.find? (suits m size) with
    | none => exact Or.inl rfl
    | some x => exact Or.inr ⟨List.mem_of_find?_eq_some hfind, List.find?_some hfind⟩
  | theBestFit =>
    apply hfold
    intro r it
    split
    case isTrue h => exact Or.inr ⟨rfl, h.1⟩
    case isFalse h => exact Or.inl rfl
  | theWorstFit =>
    apply hfold
    intro r it
    split
    case isTrue h => exact Or.inr ⟨rfl, h⟩
    case isFalse h => exact Or.inl rfl

theorem getBlock_spec {m : Memory} {tag a : ℕ} {bs : List Block} (mode : FitMode) (size : ℕ)
    (h : Headers m tag a bs) :
    getBlock mode m size ((placed len a bs).map Prod.fst) = 0 ∨
      ∃ pre b post, bs = pre ++ b :: post ∧ b.free = true ∧ size ≤ len b ∧
        getBlock mode m size ((placed len a bs).map Prod.fst) = a + span len pre := by
  rcases getBlock_suits mode m size ((placed len a bs).map Prod.fst) with h0 | ⟨hm, hs⟩
  · exact Or.inl h0
  · obtain ⟨⟨x, b⟩, hx, he⟩ := List.mem_map.mp hm
    rw [← he] at hs ⊢
    have hh := (header_of_placed h hx).1
    obtain ⟨pre, post, hbs, hp⟩ := (mem_placed_iff len).mp hx
    simp only [suits, occupied_of_header hh, blockSize_of_header hh, Bool.not_not,
      Bool.and_eq_true, decide_eq_true_eq] at hs
    exact Or.inr ⟨pre, b, post, hbs, hs.1, hs.2, hp⟩

end MaiFaSp.Buddies
