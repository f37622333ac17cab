import MaiFaSp.Allocator.BuddiesBlocks

/-!
# `allocator_buddies_system`: splitting and merging (`allocator_buddies_system.cpp:68-172, 284-296`)

Both loops work at a hole of the buddy tree. Splitting goes down: the block
stays where it is and its upper half becomes a free buddy. Merging goes up as
long as the buddy is one free block of the same size.
-/

namespace MaiFaSp.Buddies

open Memory Tiling BuddyTree

variable {k j : ℕ}

/-- The first address of the pool. -/
abbrev poolStart (trusted : ℕ) : ℕ := trusted + 64

/-- The address of a hole. -/
def holeAt (trusted : ℕ) (c : Ctx k j) : ℕ := poolStart trusted + span len c.before

/-- The blocks around a free block in the hole. -/
def freeHole (c : Ctx k j) : List Block := c.before ++ ⟨j, none⟩ :: c.after

theorem len_free (j : ℕ) : len ⟨j, none⟩ = 2 ^ (j + 4) := rfl

theorem getBuddy_of_blockSize {trusted x n : ℕ} {m : Memory}
    (h : blockSize m (poolStart trusted + x) = n) :
    getBuddy trusted m (poolStart trusted + x) = poolStart trusted + (x ^^^ n) := by
  have hx : poolStart trusted + x - trusted - allocatorMetadataSize = x := by
    simp only [poolStart, allocatorMetadataSize]
    omega
  rw [getBuddy, hx, h]
  rfl

theorem getBuddy_upper {trusted x j : ℕ} {m : Memory} (hd : 2 ^ (j + 1 + 4) ∣ x)
    (h : blockSize m (poolStart trusted + x) = 2 ^ (j + 4)) :
    getBuddy trusted m (poolStart trusted + x) = poolStart trusted + x + 2 ^ (j + 4) := by
  rw [getBuddy_of_blockSize h, xor_two_pow_of_dvd (by rwa [show j + 4 + 1 = j + 1 + 4 by omega])]
  exact (Nat.add_assoc ..).symm

theorem getBuddy_lower {trusted x j : ℕ} {m : Memory} (hd : 2 ^ (j + 1 + 4) ∣ x)
    (h : blockSize m (poolStart trusted + (x + 2 ^ (j + 4))) = 2 ^ (j + 4)) :
    getBuddy trusted m (poolStart trusted + (x + 2 ^ (j + 4))) = poolStart trusted + x := by
  rw [getBuddy_of_blockSize h,
    add_xor_two_pow_of_dvd (by rwa [show j + 4 + 1 = j + 1 + 4 by omega])]

/-- The headers around a hole, with the blocks `bs` in it and after it. -/
theorem headers_hole {m : Memory} {tag trusted : ℕ} (c : Ctx k j) (bs : List Block) :
    Headers m tag (poolStart trusted) (c.before ++ bs) ↔
      Headers m tag (poolStart trusted) c.before ∧ Headers m tag (holeAt trusted c) bs :=
  headers_append ..

theorem headers_free_cons (m : Memory) (tag a n : ℕ) (bs : List Block) :
    Headers m tag a (⟨n, none⟩ :: bs) ↔
      (m a).toNat = 2 * n ∧ Headers m tag (a + 2 ^ (n + 4)) bs := by
  simp [Headers, Block.free, len_free]

/-! ### Splitting -/

theorem splitOnce_headers {m : Memory} {tag trusted : ℕ} (c : Ctx k (j + 1)) (hk : k ≤ 26)
    (h : Headers m tag (poolStart trusted) (freeHole c)) :
    Headers (splitOnce trusted m (holeAt trusted c)) tag (poolStart trusted)
      (freeHole (Ctx.left (leaf none) c)) := by
  have hj := c.level_le
  have hlen : 2 ^ (j + 1 + 4) = 2 ^ (j + 4) + 2 ^ (j + 4) := by
    rw [show j + 1 + 4 = j + 4 + 1 by omega, pow_succ]
    omega
  have hpos := Nat.two_pow_pos (j + 4)
  obtain ⟨hbefore, hrest⟩ := (headers_hole c _).mp h
  obtain ⟨hb, hafter⟩ := (headers_free_cons ..).mp hrest
  have hlow : poolStart trusted + span len c.before = holeAt trusted c := rfl
  have hk₀ : blockSizeK m (holeAt trusted c) = j + 1 := by
    unfold blockSizeK
    omega
  generalize hm₁ : setSizeK m (holeAt trusted c) (blockSizeK m (holeAt trusted c) - 1) = m₁
  have hb₁ : (m₁ (holeAt trusted c)).toNat = 2 * j := by
    rw [← hm₁, setSizeK_self _ _ _ (by omega), hk₀, hb]
    omega
  have hsize₁ : blockSize m₁ (holeAt trusted c) = 2 ^ (j + 4) := by
    rw [blockSize, minK_eq, blockSizeK, hb₁, Nat.mul_div_cancel_left j (by decide)]
  have hbuddy : getBuddy trusted m₁ (holeAt trusted c) = holeAt trusted c + 2 ^ (j + 4) :=
    getBuddy_upper (c.offset_dvd 4) hsize₁
  generalize hu : holeAt trusted c + 2 ^ (j + 4) = upper at hbuddy
  have hsplit : splitOnce trusted m (holeAt trusted c) =
      setSizeK (setOccupied m₁ upper false) upper
        (blockSizeK (setOccupied m₁ upper false) (holeAt trusted c)) := by
    rw [← hbuddy, ← hm₁]
    rfl
  have hb₂ : blockSizeK (setOccupied m₁ upper false) (holeAt trusted c) = j := by
    rw [blockSizeK, agreeOn_setOccupied m₁ upper false (holeAt trusted c) (holeAt trusted c + 1)
      (by omega) _ le_rfl (Nat.lt_succ_self _), hb₁]
    omega
  rw [hsplit, hb₂]
  have hup := setSizeK_self (setOccupied m₁ upper false) upper j (by omega)
  rw [setOccupied_self] at hup
  have hframe (lo hi : ℕ) (h : upper < lo ∨ hi ≤ upper) :
      AgreeOn (setSizeK (setOccupied m₁ upper false) upper j) m₁ lo hi :=
    (agreeOn_setSizeK _ upper j lo hi h).trans (agreeOn_setOccupied m₁ upper false lo hi h)
  have hframe₁ (lo hi : ℕ) (h : holeAt trusted c < lo ∨ hi ≤ holeAt trusted c) :
      AgreeOn m₁ m lo hi := by
    rw [← hm₁]
    exact agreeOn_setSizeK m _ _ lo hi h
  apply (headers_hole (Ctx.left (leaf none) c) _).mpr
  refine ⟨(hbefore.congr (hframe₁ _ _ (by omega))).congr (hframe _ _ (by omega)), ?_⟩
  apply (headers_free_cons ..).mpr
  show _ ∧ Headers _ _ (holeAt trusted c + 2 ^ (j + 4)) (⟨j, none⟩ :: c.after)
  rw [hu]
  refine ⟨?_, (headers_free_cons ..).mpr ⟨?_, ?_⟩⟩
  · exact (congrArg UInt8.toNat (hframe _ (holeAt trusted c + 1) (by omega) _ le_rfl
      (Nat.lt_succ_self _))).trans hb₁
  · rw [hup]
    simp
  · rw [show holeAt trusted c + 2 ^ (j + 1 + 4) = upper + 2 ^ (j + 4) by omega] at hafter
    exact (hafter.congr (hframe₁ _ _ (by omega))).congr (hframe _ _ (by omega))

theorem blockSizeK_free {m : Memory} {tag trusted : ℕ} {c : Ctx k j}
    (h : Headers m tag (poolStart trusted) (freeHole c)) :
    blockSizeK m (holeAt trusted c) = j ∧ blockSize m (holeAt trusted c) = 2 ^ (j + 4) := by
  have hb := ((headers_free_cons ..).mp ((headers_hole c _).mp h).2).1
  have hk : blockSizeK m (holeAt trusted c) = j := by
    unfold blockSizeK
    omega
  exact ⟨hk, by rw [blockSize, hk, minK_eq]⟩

/-- The loop leaves a free block that is still large enough at the same address, and not
twice as large unless it is of the smallest kind. -/
theorem splitLoop_spec {m : Memory} {tag trusted need : ℕ} (c : Ctx k j) (hk : k ≤ 26)
    (hclean : c.Clean) (hneed : need ≤ 2 ^ (j + 4))
    (h : Headers m tag (poolStart trusted) (freeHole c)) :
    ∃ i, ∃ c' : Ctx k i, c'.Clean ∧
      (need ≤ 2 ^ (i + 4) ∧ (i = 0 ∨ 2 ^ (i + 4) < need * 2)) ∧ c'.before = c.before ∧
      Headers (splitLoop trusted need j m (holeAt trusted c)) tag (poolStart trusted)
        (freeHole c') ∧
      (∀ b ∈ c'.after, b.request = none ∨ b ∈ c.after) ∧
      ∀ a, grants len Block.request 9 (a + 2 ^ (i + 4)) c'.after =
        grants len Block.request 9 (a + 2 ^ (j + 4)) c.after := by
  induction j generalizing m with
  | zero => exact ⟨0, c, hclean, ⟨hneed, Or.inl rfl⟩, rfl, h, fun _ => Or.inr, fun _ => rfl⟩
  | succ j ih =>
    have hj := c.level_le
    obtain ⟨hk₀, hsize⟩ := blockSizeK_free h
    have hlen : 2 ^ (j + 1 + 4) = 2 ^ (j + 4) + 2 ^ (j + 4) := by
      rw [show j + 1 + 4 = j + 4 + 1 by omega, pow_succ]
      omega
    have hbig : 2 ^ (j + 1 + 4) ≤ 2 ^ 30 := Nat.pow_le_pow_right (by decide) (by omega)
    have hmul : sizeMul need 2 = need * 2 := Nat.mod_eq_of_lt (by omega)
    rw [splitLoop, hk₀, hsize, hmul]
    split
    case isFalse hstop =>
      have hlt : 2 ^ (j + 1 + 4) < need * 2 := by
        by_contra hle
        exact hstop ⟨Nat.succ_pos j, not_lt.mp hle⟩
      exact ⟨j + 1, c, hclean, ⟨hneed, Or.inr hlt⟩, rfl, h, fun _ => Or.inr, fun _ => rfl⟩
    case isTrue hturn =>
      obtain ⟨i, c', hc', hn', hb', hh', hm', hg'⟩ := ih (Ctx.left (leaf none) c)
        ⟨trivial, hclean⟩ (by omega) (splitOnce_headers c hk h)
      refine ⟨i, c', hc', hn', hb', hh', fun b hb => ?_, fun a => ?_⟩
      · rcases hm' b hb with hr | hr
        · exact Or.inl hr
        · cases hr with
          | head => exact Or.inl rfl
          | tail _ hr => exact Or.inr hr
      · rw [hg' a, hlen, ← Nat.add_assoc]
        exact grants_cons_none len Block.request 9 rfl

/-! ### Merging -/

/-- The first header of the buddy decides whether the loop goes on. -/
theorem buddy_header {m : Memory} {tag a : ℕ} {t : BuddyTree j} {bs : List Block}
    (h : Headers m tag a (t.blocks ++ bs)) :
    (blockSize m a = 2 ^ (j + 4) ∧ ¬ occupied m a = true) ↔ t.free = true := by
  obtain ⟨b, rest, hb, hle, hleaf⟩ := t.blocks_head
  rw [hb] at h
  obtain ⟨hs, -, -⟩ := h
  rw [blockSize_of_header hs, occupied_of_header hs]
  constructor
  · rintro ⟨hlen, hocc⟩
    have hl : b.level = j := by
      have hinj := Nat.pow_right_injective (le_refl 2) hlen
      omega
    rw [← (hleaf hl).1]
    simpa using hocc
  · intro hf
    rw [eq_leaf_of_free hf] at hb
    cases hb
    exact ⟨rfl, by simp [Block.free]⟩

theorem merge_headers {m : Memory} {tag trusted : ℕ} (c : Ctx k (j + 1)) (hk : k ≤ 26)
    (h : Headers m tag (poolStart trusted) (c.before ++ ⟨j, none⟩ :: ⟨j, none⟩ :: c.after)) :
    Headers (setSizeK m (holeAt trusted c) (blockSizeK m (holeAt trusted c) + 1)) tag
      (poolStart trusted) (freeHole c) := by
  have hj := c.level_le
  have hlen : 2 ^ (j + 1 + 4) = 2 ^ (j + 4) + 2 ^ (j + 4) := by
    rw [show j + 1 + 4 = j + 4 + 1 by omega, pow_succ]
    omega
  have hlow : poolStart trusted + span len c.before = holeAt trusted c := rfl
  obtain ⟨hbefore, hrest⟩ := (headers_hole c _).mp h
  obtain ⟨hb, hrest⟩ := (headers_free_cons ..).mp hrest
  obtain ⟨-, hafter⟩ := (headers_free_cons ..).mp hrest
  have hk₀ : blockSizeK m (holeAt trusted c) = j := by
    unfold blockSizeK
    omega
  rw [hk₀]
  have hpos := Nat.two_pow_pos (j + 4)
  have hframe := agreeOn_setSizeK m (holeAt trusted c) (j + 1)
  apply (headers_hole c _).mpr
  refine ⟨hbefore.congr (hframe _ _ (by omega)), (headers_free_cons ..).mpr ⟨?_, ?_⟩⟩
  · rw [setSizeK_self _ _ _ (by omega), hb]
    omega
  · rw [hlen, ← Nat.add_assoc]
    exact hafter.congr (hframe _ _ (by omega))

theorem grants_merged (c : Ctx k (j + 1)) (a : ℕ) :
    grants len Block.request 9 a (freeHole c) =
      grants len Block.request 9 a (c.before ++ ⟨j, none⟩ :: ⟨j, none⟩ :: c.after) := by
  have hlen : len ⟨j + 1, none⟩ = len ⟨j, none⟩ + len ⟨j, none⟩ := by
    rw [len_free, len_free, show j + 1 + 4 = j + 4 + 1 by omega, pow_succ]
    omega
  rw [freeHole, grants_append, grants_append, grants_cons_none len Block.request 9 rfl,
    grants_cons_none len Block.request 9 rfl, grants_cons_none len Block.request 9 rfl, hlen,
    ← Nat.add_assoc (a + span len c.before)]

theorem mem_merged {c : Ctx k (j + 1)} {b : Block} (h : b ∈ freeHole c) :
    b.request = none ∨ b ∈ c.before ++ ⟨j, none⟩ :: ⟨j, none⟩ :: c.after := by
  rcases List.mem_append.mp h with h | h
  · exact Or.inr (List.mem_append_left _ h)
  · cases h with
    | head => exact Or.inl rfl
    | tail _ h =>
      exact Or.inr (List.mem_append_right _ (List.mem_cons_of_mem _ (List.mem_cons_of_mem _ h)))

theorem mergeLoop_stop {s : Buddies} {n : ℕ} {m : Memory} {block buddy : ℕ}
    (h : ¬ (blockSize m block < s.size ∧ blockSize m block = blockSize m buddy ∧
      ¬ occupied m buddy = true)) : mergeLoop s n m block buddy = .ok m := by
  cases n with
  | zero => exact if_neg h
  | succ n => exact if_neg h

theorem mergeLoop_turn {s : Buddies} {n : ℕ} {m : Memory} {block buddy lower : ℕ}
    (h : blockSize m block < s.size ∧ blockSize m block = blockSize m buddy ∧
      ¬ occupied m buddy = true) (hl : (if buddy < block then buddy else block) = lower) :
    mergeLoop s (n + 1) m block buddy =
      mergeLoop s n (setSizeK m lower (blockSizeK m lower + 1)) lower
        (getBuddy s.trusted (setSizeK m lower (blockSizeK m lower + 1)) lower) := by
  rw [mergeLoop, if_pos h, hl]

/-- The loop ends with a free block whose buddy is not one free block. -/
theorem mergeLoop_spec {s : Buddies} {m : Memory} {tag n : ℕ} (c : Ctx k j)
    (hs : s.sizeK = k + 4) (hk : k ≤ 26) (hclean : c.Clean) (hn : k ≤ j + n)
    (h : Headers m tag (poolStart s.trusted) (freeHole c)) :
    ∃ m' i, ∃ c' : Ctx k i,
      mergeLoop s n m (holeAt s.trusted c) (getBuddy s.trusted m (holeAt s.trusted c)) = .ok m' ∧
      c'.Clean ∧ c'.buddyFree = false ∧ Headers m' tag (poolStart s.trusted) (freeHole c') ∧
      (∀ b ∈ freeHole c', b.request = none ∨ b ∈ freeHole c) ∧
      ∀ a, grants len Block.request 9 a (freeHole c') =
        grants len Block.request 9 a (freeHole c) := by
  induction c generalizing m n with
  | top =>
    obtain ⟨-, hsize⟩ := blockSizeK_free h
    refine ⟨m, k, Ctx.top, mergeLoop_stop ?_, trivial, rfl, h, fun _ => Or.inr, fun _ => rfl⟩
    rw [hsize, Buddies.size, hs]
    exact fun hc => absurd hc.1 (lt_irrefl _)
  | @left j r c ih =>
    have hj := c.level_le
    obtain ⟨-, hsize⟩ := blockSizeK_free h
    have hbuddy := getBuddy_upper (m := m) (c.offset_dvd 4) hsize
    have hroom : 2 ^ (j + 4) < s.size := by
      rw [Buddies.size, hs]
      exact Nat.pow_lt_pow_right (by decide) (by omega)
    have hupper : Headers m tag (holeAt s.trusted c + 2 ^ (j + 4)) (r.blocks ++ c.after) :=
      ((headers_free_cons ..).mp ((headers_hole c _).mp h).2).2
    have hiff := buddy_header hupper
    cases hf : r.free with
    | false =>
      refine ⟨m, j, Ctx.left r c, mergeLoop_stop ?_, hclean, hf, h, fun _ => Or.inr, fun _ => rfl⟩
      rintro ⟨-, he, ho⟩
      rw [show getBuddy s.trusted m (holeAt s.trusted (Ctx.left r c)) = _ from hbuddy] at he ho
      rw [hsize] at he
      rw [hiff.mp ⟨he.symm, ho⟩] at hf
      cases hf
    | true =>
      obtain ⟨he, ho⟩ := hiff.mpr hf
      rw [eq_leaf_of_free hf] at h ⊢
      obtain ⟨n, rfl⟩ : ∃ i, n = i + 1 := ⟨n - 1, by omega⟩
      obtain ⟨m', i, c', hok, hrest, hbf, hh, hm, hg⟩ := ih hclean.2 (by omega : k ≤ j + 1 + n)
        (merge_headers c hk h)
      refine ⟨m', i, c', ?_, hrest, hbf, hh, fun b hb => (hm b hb).elim Or.inl mem_merged,
        fun a => (hg a).trans (grants_merged c a)⟩
      rw [← hok]
      have hat : holeAt s.trusted (Ctx.left (leaf none) c) = holeAt s.trusted c := rfl
      have hat' : getBuddy s.trusted m (holeAt s.trusted c) =
          holeAt s.trusted c + 2 ^ (j + 4) := hbuddy
      have hsize' : blockSize m (holeAt s.trusted c) = 2 ^ (j + 4) := hsize
      rw [hat]
      apply mergeLoop_turn
      · rw [hat', hsize', he]
        exact ⟨hroom, rfl, ho⟩
      · rw [hat', if_neg (by omega)]
  | @right j l c ih =>
    have hj := c.level_le
    obtain ⟨-, hsize⟩ := blockSizeK_free h
    have hpos := Nat.two_pow_pos (j + 4)
    have hat : holeAt s.trusted (Ctx.right l c) = holeAt s.trusted c + 2 ^ (j + 4) := by
      simp only [holeAt, Ctx.before, span_append, len, span_blocks, Nat.add_assoc]
    have hbuddy : getBuddy s.trusted m (holeAt s.trusted (Ctx.right l c)) =
        holeAt s.trusted c := by
      rw [hat, holeAt, Nat.add_assoc] at hsize ⊢
      exact getBuddy_lower (c.offset_dvd 4) hsize
    have hroom : 2 ^ (j + 4) < s.size := by
      rw [Buddies.size, hs]
      exact Nat.pow_lt_pow_right (by decide) (by omega)
    have hall : Headers m tag (poolStart s.trusted)
        (c.before ++ (l.blocks ++ ⟨j, none⟩ :: c.after)) := by
      rw [← List.append_assoc]
      exact h
    have hiff := buddy_header ((headers_hole c _).mp hall).2
    cases hf : l.free with
    | false =>
      refine ⟨m, j, Ctx.right l c, mergeLoop_stop ?_, hclean, hf, h, fun _ => Or.inr, fun _ => rfl⟩
      rintro ⟨-, he, ho⟩
      rw [hbuddy] at he ho
      rw [hsize] at he
      rw [hiff.mp ⟨he.symm, ho⟩] at hf
      cases hf
    | true =>
      obtain ⟨he, ho⟩ := hiff.mpr hf
      rw [eq_leaf_of_free hf] at hall
      obtain ⟨n, rfl⟩ : ∃ i, n = i + 1 := ⟨n - 1, by omega⟩
      obtain ⟨m', i, c', hok, hrest, hbf, hh, hm, hg⟩ := ih hclean.2 (by omega : k ≤ j + 1 + n)
        (merge_headers c hk hall)
      have hlist : freeHole (Ctx.right l c) =
          c.before ++ ⟨j, none⟩ :: ⟨j, none⟩ :: c.after := by
        rw [eq_leaf_of_free hf, freeHole, Ctx.before, List.append_assoc]
        rfl
      refine ⟨m', i, c', ?_, hrest, hbf, hh, fun b hb => ?_, fun a => ?_⟩
      · rw [← hok]
        apply mergeLoop_turn
        · rw [hbuddy, hsize, he]
          exact ⟨hroom, rfl, ho⟩
        · rw [hbuddy, hat, if_pos (by omega)]
      · rw [hlist]
        exact (hm b hb).elim Or.inl mem_merged
      · rw [hg a, grants_merged c a, hlist]

end MaiFaSp.Buddies
