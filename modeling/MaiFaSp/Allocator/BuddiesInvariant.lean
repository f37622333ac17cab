import MaiFaSp.Allocator.BuddiesLoops

/-!
# `allocator_buddies_system`: every reachable state

The pool of `2 ^ (k + 4)` bytes always is a buddy tree of level `k` in which no
two buddies are both free. When nothing is granted that tree is one free block.
-/

namespace MaiFaSp.Buddies

open Memory Tiling BuddyTree

variable {k : ℕ}

/-- The bytes of the pool are the blocks of the tree `t`. -/
structure Pool (s : Buddies) (t : BuddyTree k) : Prop where
  sizeK : s.sizeK = k + 4
  small : k ≤ 26
  nonnull : 0 < s.trusted
  bounded : s.trusted + 64 + 2 ^ (k + 4) ≤ 2 ^ 64
  headers : Headers s.memory s.trusted (poolStart s.trusted) t.blocks
  fits : ∀ b ∈ t.blocks, ∀ r, b.request = some r → r + 8 ≤ len b
  clean : t.Clean

/-- What the code's own walk and headers show of the pool. -/
structure PoolInvariant (s : Buddies) (live : List (ℕ × ℕ)) (t : BuddyTree k) : Prop where
  tiles : poolStart s.trusted + span len t.blocks = poolStart s.trusted + s.size
  visited : s.blocks = .ok ((placed len (poolStart s.trusted) t.blocks).map Prod.fst)
  walk : s.getBlocksInfo = .ok (t.blocks.map (fun b => (2 ^ (b.level + 4), !b.free)))
  aligned : ∀ x b, (x, b) ∈ placed len 0 t.blocks →
    blockSize s.memory (poolStart s.trusted + x) = 2 ^ (b.level + 4) ∧
      blockSize s.memory (poolStart s.trusted + x) ∣ x
  buddies : ∀ x b, (x, b) ∈ placed len (poolStart s.trusted) t.blocks →
    occupied s.memory x = false → blockSize s.memory x < s.size →
    ¬ (blockSize s.memory (getBuddy s.trusted s.memory x) = blockSize s.memory x ∧
      occupied s.memory (getBuddy s.trusted s.memory x) = false)
  granted : live.Perm (grants len Block.request 9 (poolStart s.trusted) t.blocks)

theorem Pool.trusted_lt {s : Buddies} {t : BuddyTree k} (h : Pool s t) : s.trusted < 2 ^ 64 := by
  have hb := h.bounded
  have hpos := Nat.two_pow_pos (k + 4)
  omega

theorem span_tree (t : BuddyTree k) : span len t.blocks = 2 ^ (k + 4) := span_blocks 4 t

theorem Pool.blocks {s : Buddies} {t : BuddyTree k} (h : Pool s t) :
    s.blocks = .ok ((placed len (poolStart s.trusted) t.blocks).map Prod.fst) := by
  have hspan := span_tree t
  have hlen := length_le_span t.blocks
  have hsize : s.size = 2 ^ (k + 4) := by rw [Buddies.size, h.sizeK]
  have hw := blocksFrom_ok (n := s.size) h.headers (by omega)
  rw [hspan, ← hsize] at hw
  exact hw

theorem Pool.getBlocksInfo {s : Buddies} {t : BuddyTree k} (h : Pool s t) :
    s.getBlocksInfo = .ok (t.blocks.map (fun b => (2 ^ (b.level + 4), !b.free))) := by
  have hmap : ((placed len (poolStart s.trusted) t.blocks).map Prod.fst).map
      (fun it => (blockSize s.memory it, occupied s.memory it)) =
      t.blocks.map (fun b => (2 ^ (b.level + 4), !b.free)) := by
    conv_rhs => rw [← map_snd_placed len (poolStart s.trusted) t.blocks]
    rw [List.map_map, List.map_map]
    apply List.map_congr_left
    rintro ⟨x, b⟩ hx
    have hh := (header_of_placed h.headers hx).1
    simp only [Function.comp, blockSize_of_header hh, occupied_of_header hh]
    rfl
  rw [Buddies.getBlocksInfo, h.blocks, ← hmap]
  rfl

theorem Pool.report {s : Buddies} {t : BuddyTree k} (h : Pool s t) : s.report = .ok () := by
  rw [Buddies.report, availableMemory, h.blocks, h.getBlocksInfo]
  rfl

theorem Pool.hole {s : Buddies} {t : BuddyTree k} (h : Pool s t) {pre post : List Block}
    {b : Block} (hb : t.blocks = pre ++ b :: post) :
    ∃ c : Ctx k b.level, c.fill (leaf b.request) = t ∧ c.before = pre ∧ c.after = post ∧
      c.Clean ∧ ¬ (b.free = true ∧ c.buddyFree = true) := by
  obtain ⟨c, hfill, hbefore, hafter⟩ := Ctx.exists_hole Ctx.top hb
  have hclean := h.clean
  rw [show t = c.fill (leaf b.request) from hfill.symm] at hclean
  obtain ⟨-, hc, hpair⟩ := (Ctx.clean_fill c _).mp hclean
  exact ⟨c, hfill, hbefore, by rw [hafter]; exact List.append_nil post, hc, hpair⟩

/-- Of a free block and its buddy at most one is a free block of that size. -/
theorem Pool.buddies {s : Buddies} {t : BuddyTree k} (h : Pool s t) {x : ℕ} {b : Block}
    (hx : (x, b) ∈ placed len (poolStart s.trusted) t.blocks)
    (hfree : occupied s.memory x = false) (hroom : blockSize s.memory x < s.size) :
    ¬ (blockSize s.memory (getBuddy s.trusted s.memory x) = blockSize s.memory x ∧
      occupied s.memory (getBuddy s.trusted s.memory x) = false) := by
  obtain ⟨pre, post, hb, rfl⟩ := (mem_placed_iff len).mp hx
  have hheader := (header_of_placed h.headers hx).1
  have hsize := blockSize_of_header hheader
  rw [occupied_of_header hheader] at hfree
  rw [hsize, Buddies.size, h.sizeK] at hroom
  obtain ⟨c, -, rfl, rfl, -, hpair⟩ := h.hole hb
  have hhead := h.headers
  rw [hb] at hhead
  obtain ⟨j, request⟩ := b
  have hnot : c.buddyFree = false := by
    have hf : (Block.mk j request).free = true := by simpa using hfree
    simpa [hf] using hpair
  rintro ⟨hbsize, hbocc⟩
  have hocc : ¬ occupied s.memory (getBuddy s.trusted s.memory
      (poolStart s.trusted + span len c.before)) = true := by simp [hbocc]
  rw [hsize] at hbsize
  cases c with
  | top => exact absurd hroom (lt_irrefl _)
  | left r c =>
    have hat := getBuddy_upper (m := s.memory) (c.offset_dvd 4) hsize
    have hbefore : (Ctx.left r c).before = c.before := rfl
    rw [hbefore, hat] at hbsize hocc
    obtain ⟨-, -, -, hrest⟩ := (headers_append ..).mp hhead
    have hr := (buddy_header hrest).mp ⟨hbsize, hocc⟩
    have hnot' : r.free = false := hnot
    rw [hr] at hnot'
    cases hnot'
  | right l c =>
    have hspan : span len (Ctx.right l c).before = span len c.before + 2 ^ (j + 4) := by
      rw [Ctx.before, span_append, span_tree]
    rw [hspan] at hsize hbsize hocc
    have hat := getBuddy_lower (m := s.memory) (c.offset_dvd 4) hsize
    rw [hat] at hbsize hocc
    rw [Ctx.before, List.append_assoc] at hhead
    have hl := (buddy_header ((headers_append ..).mp hhead).2).mp ⟨hbsize, hocc⟩
    have hnot' : l.free = false := hnot
    rw [hl] at hnot'
    cases hnot'

theorem Pool.invariant {s : Buddies} {t : BuddyTree k} {live : List (ℕ × ℕ)} (h : Pool s t)
    (hlive : live.Perm (grants len Block.request 9 (poolStart s.trusted) t.blocks)) :
    PoolInvariant s live t where
  tiles := by rw [span_tree, Buddies.size, h.sizeK]
  visited := h.blocks
  walk := h.getBlocksInfo
  aligned x b hx := by
    have hd := block_dvd 4 hx
    obtain ⟨pre, post, hb, rfl⟩ := (mem_placed_iff len).mp hx
    have hplace : (poolStart s.trusted + span len pre, b) ∈
        placed len (poolStart s.trusted) t.blocks :=
      (mem_placed_iff len).mpr ⟨pre, post, hb, rfl⟩
    have hsize := blockSize_of_header (header_of_placed h.headers hplace).1
    rw [Nat.zero_add] at hd ⊢
    rw [hsize]
    exact ⟨rfl, hd⟩
  buddies x b hx := h.buddies hx
  granted := hlive

/-! ### What a call keeps -/

/-- Marking the free block of a hole as occupied, with the tag behind its header. -/
theorem occupy_headers {m : Memory} {tag trusted j r : ℕ} (c : Ctx k j) (htag : tag < 2 ^ 64)
    (h : Headers m tag (poolStart trusted) (freeHole c)) :
    Headers (store64 (setOccupied m (holeAt trusted c) true) (holeAt trusted c + 1) tag) tag
      (poolStart trusted) (c.before ++ ⟨j, some r⟩ :: c.after) := by
  have hlow : poolStart trusted + span len c.before = holeAt trusted c := rfl
  have hlen : 16 ≤ 2 ^ (j + 4) := len_ge ⟨j, some r⟩
  obtain ⟨hk₀, -⟩ := blockSizeK_free h
  obtain ⟨hbefore, hrest⟩ := (headers_hole c _).mp h
  obtain ⟨-, hafter⟩ := (headers_free_cons ..).mp hrest
  have hframe (lo hi : ℕ) (h : hi ≤ holeAt trusted c ∨ holeAt trusted c + 9 ≤ lo) :
      AgreeOn (store64 (setOccupied m (holeAt trusted c) true) (holeAt trusted c + 1) tag) m
        lo hi :=
    (agreeOn_store64 _ _ tag lo hi (by omega)).trans
      (agreeOn_setOccupied m _ true lo hi (by omega))
  apply (headers_hole c _).mpr
  refine ⟨hbefore.congr (hframe _ _ (by omega)), ?_, fun _ => load64_store64 _ _ tag htag,
    hafter.congr (hframe _ _ (by omega))⟩
  rw [agreeOn_store64 _ (holeAt trusted c + 1) tag (holeAt trusted c) (holeAt trusted c + 1)
    (Or.inl le_rfl) _ le_rfl (Nat.lt_succ_self _), setOccupied_self, hk₀]
  rfl

theorem vacate_headers {m : Memory} {tag trusted j : ℕ} {request : Option ℕ} (c : Ctx k j)
    (h : Headers m tag (poolStart trusted) (c.before ++ ⟨j, request⟩ :: c.after)) :
    Headers (setOccupied m (holeAt trusted c) false) tag (poolStart trusted) (freeHole c) := by
  have hlow : poolStart trusted + span len c.before = holeAt trusted c := rfl
  have hlen : 16 ≤ 2 ^ (j + 4) := len_ge ⟨j, request⟩
  obtain ⟨hbefore, hb, -, hafter⟩ := (headers_hole c _).mp h
  have hframe := agreeOn_setOccupied m (holeAt trusted c) false
  apply (headers_hole c _).mpr
  refine ⟨hbefore.congr (hframe _ _ (by omega)), (headers_free_cons ..).mpr ⟨?_, ?_⟩⟩
  · rw [setOccupied_self, blockSizeK_of_header hb]
    rfl
  · have hafter' : Headers m tag (holeAt trusted c + 2 ^ (j + 4)) c.after := hafter
    exact hafter'.congr (hframe _ _ (by omega))

theorem allocate_spec {s : Buddies} {t : BuddyTree k} {size : ℕ} (h : Pool s t)
    (hsize : size + 8 < 2 ^ 64) :
    s.allocate size = .error .badAlloc ∨
      ∃ p s', ∃ t' : BuddyTree k, s.allocate size = .ok (p, s') ∧ s'.trusted = s.trusted ∧
        Pool s' t' ∧
        (grants len Block.request 9 (poolStart s.trusted) t'.blocks).Perm
          ((p, size) :: grants len Block.request 9 (poolStart s.trusted) t.blocks) ∧
        ∃ pre b post, t'.blocks = pre ++ b :: post ∧ b.request = some size ∧
          p = poolStart s.trusted + span len pre + 9 ∧
          (b.level = 0 ∨ len b < (size + 8) * 2) := by
  have hadd : sizeAdd size 8 = size + 8 := sizeAdd_of_lt hsize
  rcases getBlock_spec s.fitMode (size + 8) h.headers with
    h0 | ⟨pre, b, post, hb, hf, hfit, hat⟩
  · left
    rw [allocate, h.blocks, hadd]
    simp only [bind, Except.bind, h0]
    rfl
  right
  obtain ⟨c, hfill, hbefore, hafter, hclean, -⟩ := h.hole hb
  obtain ⟨j, request⟩ := b
  have hnone : request = none := Option.isNone_iff_eq_none.mp hf
  cases hnone
  have hhead := h.headers
  rw [hb, ← hbefore, ← hafter] at hhead
  have hhole : holeAt s.trusted c = poolStart s.trusted + span len pre := by
    rw [holeAt, hbefore]
  rw [← hhole] at hat
  obtain ⟨hk₀, -⟩ := blockSizeK_free hhead
  obtain ⟨i, c', hc', ⟨hneed, htight⟩, hb', hh', hm', hg'⟩ :=
    splitLoop_spec c h.small hclean hfit hhead
  have hhole' : holeAt s.trusted c = holeAt s.trusted c' := by rw [holeAt, holeAt, hb']
  have hnew := occupy_headers (r := size) c' h.trusted_lt hh'
  rw [← hhole'] at hnew
  generalize hm : store64 (setOccupied (splitLoop s.trusted (size + 8) j s.memory
    (holeAt s.trusted c)) (holeAt s.trusted c) true) (holeAt s.trusted c + 1) s.trusted = m at hnew
  have hblocks : (c'.fill (leaf (some size))).blocks = c'.before ++ ⟨i, some size⟩ :: c'.after :=
    Ctx.blocks_fill c' _
  have hpool : Pool { s with memory := m } (c'.fill (leaf (some size))) := by
    refine ⟨h.sizeK, h.small, h.nonnull, h.bounded, ?_, ?_, ?_⟩
    · rw [hblocks]
      exact hnew
    · intro d hd r hr
      rw [hblocks, hb', List.mem_append, List.mem_cons] at hd
      rcases hd with hd | rfl | hd
      · exact h.fits d (by rw [hb, ← hbefore]; exact List.mem_append_left _ hd) r hr
      · cases hr
        exact hneed
      · rcases hm' d hd with hn | hd
        · rw [hn] at hr
          cases hr
        · refine h.fits d ?_ r hr
          rw [hb, ← hafter]
          exact List.mem_append_right _ (List.mem_cons_of_mem _ hd)
    · exact (Ctx.clean_fill c' _).mpr ⟨trivial, hc', by simp [BuddyTree.free]⟩
  refine ⟨holeAt s.trusted c + 9, { s with memory := m }, c'.fill (leaf (some size)), ?_, rfl,
    hpool, ?_, c'.before, ⟨i, some size⟩, c'.after, hblocks, rfl, by rw [hhole']; rfl, htight⟩
  · have hne : ¬ holeAt s.trusted c = 0 := by
      rw [hhole, poolStart]
      omega
    rw [allocate, h.blocks, hadd]
    simp only [bind, Except.bind, hat, if_neg hne, hk₀, hm, hpool.report]
    rfl
  · have hold : t.blocks = c.before ++ ⟨j, none⟩ :: c.after := by rw [hb, hbefore, hafter]
    rw [hblocks, hold, hb', grants_append, grants_append, grants_cons_some len _ 9 rfl,
      grants_cons_none len _ 9 rfl]
    rw [show len ⟨i, some size⟩ = 2 ^ (i + 4) from rfl, hg']
    exact List.perm_middle

theorem deallocate_spec {s : Buddies} {t : BuddyTree k} {pre post : List Block} {b : Block}
    (h : Pool s t) (hb : t.blocks = pre ++ b :: post) (hf : b.free = false) :
    ∃ s', ∃ t' : BuddyTree k,
      s.deallocate (poolStart s.trusted + span len pre + 9) = .ok s' ∧ s'.trusted = s.trusted ∧
        Pool s' t' ∧
        grants len Block.request 9 (poolStart s.trusted) t'.blocks =
          grants len Block.request 9 (poolStart s.trusted) pre ++
            grants len Block.request 9 (poolStart s.trusted + span len pre + len b) post := by
  obtain ⟨c, hfill, hbefore, hafter, hclean, -⟩ := h.hole hb
  obtain ⟨j, request⟩ := b
  have hhead := h.headers
  rw [hb, ← hbefore, ← hafter] at hhead
  have hhole : holeAt s.trusted c = poolStart s.trusted + span len pre := by
    rw [holeAt, hbefore]
  have htag : load64 s.memory (holeAt s.trusted c + 1) = s.trusted :=
    ((headers_hole c _).mp hhead).2.2.1 hf
  have hj := c.level_le
  obtain ⟨m', i, c', hok, hc', hbuddy, hh', hm', hg'⟩ := mergeLoop_spec (s := s) c h.sizeK h.small
    hclean (by rw [h.sizeK]; omega : k ≤ j + s.sizeK) (vacate_headers c hhead)
  have hblocks : (c'.fill (leaf none)).blocks = freeHole c' := Ctx.blocks_fill c' _
  have hpool : Pool { s with memory := m' } (c'.fill (leaf none)) := by
    refine ⟨h.sizeK, h.small, h.nonnull, h.bounded, ?_, ?_, ?_⟩
    · rw [hblocks]
      exact hh'
    · intro d hd r hr
      rw [hblocks] at hd
      rcases hm' d hd with hn | hd
      · rw [hn] at hr
        cases hr
      · rw [freeHole, hbefore, hafter, List.mem_append, List.mem_cons] at hd
        rcases hd with hd | rfl | hd
        · exact h.fits d (by rw [hb]; exact List.mem_append_left _ hd) r hr
        · cases hr
        · refine h.fits d ?_ r hr
          rw [hb]
          exact List.mem_append_right _ (List.mem_cons_of_mem _ hd)
    · exact (Ctx.clean_fill c' _).mpr ⟨trivial, hc', by simp [hbuddy]⟩
  refine ⟨{ s with memory := m' }, c'.fill (leaf none), ?_, rfl, hpool, ?_⟩
  · rw [← hhole]
    have hblock : holeAt s.trusted c + 9 - occupiedBlockMetadataSize = holeAt s.trusted c :=
      Nat.add_sub_cancel ..
    rw [deallocate, hblock, if_neg (not_not.mpr htag)]
    simp only [bind, Except.bind, hok, hpool.report]
    rfl
  · rw [hblocks, hg', freeHole, grants_append, grants_cons_none len _ 9 rfl, hbefore, hafter]
    rfl

/-- What is kept along a run. -/
def Kept (k trusted : ℕ) (s : Buddies) (live : List (ℕ × ℕ)) : Prop :=
  s.trusted = trusted ∧ ∃ t : BuddyTree k, Pool s t ∧
    live.Perm (grants len Block.request 9 (poolStart s.trusted) t.blocks)

/-- Sizes to which `sizeof(size_t)` can be added. -/
def NoWrap (size : ℕ) : Prop := size + 8 < 2 ^ 64

variable {trusted : ℕ}

theorem Kept.deallocate {s : Buddies} {live : List (ℕ × ℕ)} {size p : ℕ}
    (h : Kept k trusted s live) (hm : (p, size) ∈ live) :
    ∃ s', s.deallocate p = .ok s' ∧ Kept k trusted s' (live.erase (p, size)) := by
  obtain ⟨ht, t, hpool, hlive⟩ := h
  obtain ⟨pre, b, post, hb, hr, rfl⟩ := mem_grants len Block.request 9 (hlive.mem_iff.mp hm)
  have hf : b.free = false := by
    rw [Block.free, hr]
    rfl
  obtain ⟨s', t', hok, ht', hp, hg⟩ := deallocate_spec hpool hb hf
  refine ⟨s', hok, ht'.trans ht, t', hp, ?_⟩
  rw [hb, grants_append, grants_cons_some len Block.request 9 hr] at hlive
  rw [ht', hg]
  exact ((List.perm_cons_erase hm).symm.trans (hlive.trans List.perm_middle)).cons_inv

theorem Kept.allocate {s s' : Buddies} {live : List (ℕ × ℕ)} {size p : ℕ}
    (h : Kept k trusted s live) (hsize : size + 8 < 2 ^ 64)
    (ha : s.allocate size = .ok (p, s')) : Kept k trusted s' ((p, size) :: live) := by
  obtain ⟨ht, t, hpool, hlive⟩ := h
  rcases allocate_spec hpool hsize with herr | ⟨q, s'', t', hok, ht', hp, hg, -⟩
  · rw [ha] at herr
    cases herr
  · rw [ha] at hok
    cases hok
    refine ⟨ht'.trans ht, t', hp, ?_⟩
    rw [ht']
    exact (hlive.cons _).trans hg.symm

theorem Kept.setMode {s : Buddies} {live : List (ℕ × ℕ)} (h : Kept k trusted s live)
    (mode : FitMode) : Kept k trusted { s with fitMode := mode } live := by
  obtain ⟨ht, t, hpool, hlive⟩ := h
  exact ⟨ht, t, ⟨hpool.sizeK, hpool.small, hpool.nonnull, hpool.bounded, hpool.headers,
    hpool.fits, hpool.clean⟩, hlive⟩

/-- A store behind the header of a block, and not behind the block, reaches no header. -/
theorem Headers.write {m : Memory} {tag a x : ℕ} {pre post : List Block} {b : Block}
    (h : Headers m tag a (pre ++ b :: post)) (v : UInt8) (hlo : a + span len pre + 9 ≤ x)
    (hhi : x < a + span len pre + len b) :
    Headers (Function.update m x v) tag a (pre ++ b :: post) := by
  obtain ⟨hpre, hs, ht, hpost⟩ := (headers_append ..).mp h
  have hframe (lo hi : ℕ) (h : x < lo ∨ hi ≤ x) := agreeOn_update m x v lo hi h
  apply (headers_append ..).mpr
  refine ⟨hpre.congr (hframe _ _ (by omega)), ?_, fun hf => ?_,
    hpost.congr (hframe _ _ (by omega))⟩
  · rw [hframe _ (x + 1 - 1) (by omega) (a + span len pre) le_rfl (by omega)]
    exact hs
  · rw [load64_congr (hframe _ _ (by omega))]
    exact ht hf

/-- A store inside a grant that lies in every block large enough for the call. -/
theorem Kept.write {s : Buddies} {live : List (ℕ × ℕ)} {size p x : ℕ}
    (h : Kept k trusted s live) (hm : (p, size) ∈ live) (v : UInt8) (hlo : p ≤ x)
    (hhi : ∀ j, size + 8 ≤ 2 ^ (j + 4) → x + 9 < p + 2 ^ (j + 4)) :
    Kept k trusted { s with memory := Function.update s.memory x v } live := by
  obtain ⟨ht, t, hpool, hlive⟩ := h
  obtain ⟨pre, b, post, hb, hr, rfl⟩ := mem_grants len Block.request 9 (hlive.mem_iff.mp hm)
  have hroom := hhi b.level (hpool.fits b (by simp [hb]) size hr)
  rw [show 2 ^ (b.level + 4) = len b from rfl] at hroom
  have hhead := hpool.headers
  rw [hb] at hhead
  refine ⟨ht, t, ⟨hpool.sizeK, hpool.small, hpool.nonnull, hpool.bounded, ?_, hpool.fits,
    hpool.clean⟩, hlive⟩
  rw [hb]
  exact hhead.write v hlo (by omega)

theorem keeps : ops.Keeps NoWrap (Kept k trusted) where
  allocate h hsize ha := h.allocate hsize ha
  deallocate h hm hd := by
    obtain ⟨s', hok, hk⟩ := h.deallocate hm
    rw [show ops.deallocate _ _ = _ from hok] at hd
    cases hd
    exact hk
  setMode mode h := h.setMode mode
  write v h hm hw := by
    have hlt := hw.2
    exact h.write hm v hw.1 fun j hj => by omega

theorem total : ops.Total NoWrap (Kept k trusted) where
  allocate h hsize := by
    obtain ⟨-, t, hpool, -⟩ := h
    rcases allocate_spec hpool hsize with herr | ⟨p, s', t', hok, -⟩
    · exact Or.inr herr
    · exact Or.inl ⟨p, s', hok⟩
  deallocate h hm := by
    obtain ⟨s', hok, -⟩ := h.deallocate hm
    exact ⟨s', hok⟩

theorem Kept.all_free {s : Buddies} (h : Kept k trusted s []) :
    s.getBlocksInfo = .ok [(2 ^ (k + 4), false)] := by
  obtain ⟨-, t, hpool, hlive⟩ := h
  have hnone := request_eq_none_of_grants len Block.request 9 (List.nil_perm.mp hlive)
  have ht := hpool.clean.leaf_of_free hnone
  have hw := hpool.getBlocksInfo
  rw [ht] at hw
  exact hw

/-! ### The constructor -/

theorem scanBits_two_pow_low (k n : ℕ) (hn : n ≤ k) (ones : ℕ) (index : ℤ) :
    scanBits (2 ^ k) n ones index = (ones, index) := by
  induction n with
  | zero => rfl
  | succ n ih =>
    have hbit : (2 ^ k).testBit n = false := by
      rw [Nat.testBit_two_pow]
      simp only [decide_eq_false_iff_not]
      omega
    rw [scanBits, hbit, if_neg Bool.false_ne_true]
    exact ih (by omega)

theorem scanBits_two_pow (k n : ℕ) (hn : k < n) : scanBits (2 ^ k) n 0 (-1) = (1, (k : ℤ)) := by
  induction n with
  | zero => omega
  | succ n ih =>
    rw [scanBits]
    by_cases h : k = n
    · rw [← h, Nat.testBit_two_pow_self, if_pos rfl]
      exact scanBits_two_pow_low k k le_rfl 1 k
    · have hbit : (2 ^ k).testBit n = false := by
        rw [Nat.testBit_two_pow]
        simpa using h
      rw [hbit, if_neg Bool.false_ne_true]
      exact ih (by omega)

theorem nearestGreaterKOf2_two_pow (k : ℕ) (hk : k < 64) : nearestGreaterKOf2 (2 ^ k) = k := by
  rw [nearestGreaterKOf2, scanBits_two_pow k 64 hk]
  dsimp only
  rw [if_pos le_rfl]
  omega

theorem construct_kept {n : ℕ} (hnear : nearestGreaterKOf2 n = k + 4) (mode : FitMode) (m : Memory)
    (hk : k ≤ 26) (ht : 0 < trusted) (hregion : trusted + 64 + 2 ^ (k + 4) ≤ 2 ^ 64) :
    ∃ s, construct trusted n mode m = .ok s ∧ Kept k trusted s [] := by
  have hlt : ¬ k + 4 < minK := by
    rw [minK_eq]
    omega
  generalize hmem : setSizeK (setOccupied m (trusted + 64) false) (trusted + 64) k = m'
  refine ⟨⟨trusted, mode, k + 4, m'⟩, ?_, rfl, leaf none, ?_, List.Perm.refl _⟩
  · rw [construct, hnear]
    dsimp only
    rw [if_neg hlt, minK_eq, Nat.add_sub_cancel, Nat.mod_eq_of_lt (by omega : k + 4 < 256), ← hmem]
    rfl
  · refine ⟨rfl, hk, ht, hregion, ?_, ?_, trivial⟩
    · apply (headers_free_cons ..).mpr
      refine ⟨?_, trivial⟩
      rw [← hmem, poolStart, setSizeK_self _ _ _ (by omega), setOccupied_self]
      simp
    · intro b hb r hr
      cases hb with
      | head => cases hr
      | tail _ hb => cases hb

end MaiFaSp.Buddies
