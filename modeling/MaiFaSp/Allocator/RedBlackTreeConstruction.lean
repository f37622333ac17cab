import MaiFaSp.Allocator.RedBlackTreeRuns

/-!
# `allocator_red_black_tree`: construction (`allocator_red_black_tree.cpp:34-69`)

Only a pool of no bytes is refused. The first block is written whatever room there is for it, and
`get_size` takes its header off the pool's size without a check.
-/

namespace MaiFaSp.RedBlackAllocator

open Tiling LinkedTree Tile

variable {σ : Type} [HeaderMemory σ] {g trusted n size p : ℕ} {Within : σ → σ → ℕ → ℕ → Prop}
  {mode : FitMode} {m : σ} {s s' fresh : RedBlackAllocator σ} {live : List (ℕ × ℕ)}

/-- The bytes that the constructor asks its parent allocator for. -/
def regionSize (n : ℕ) : ℕ := sizeAdd allocatorMetadataSize n

/-- What a pool of `n` bytes in the region at `trusted` is to start with, and what comes of it in
every run of the steps `Step`. -/
structure SoundConstruction (trusted n : ℕ)
    (Step : Client (RedBlackAllocator σ) → Client (RedBlackAllocator σ) → Prop)
    (fresh : RedBlackAllocator σ) : Prop where
  inside : fresh.root + freeBlockMetadataSize ≤ trusted + regionSize n
  size : getSize fresh fresh.root ≤ n
  grants : ∀ c, Relation.ReflTransGen Step ⟨fresh, []⟩ c → ∀ size p s',
    allocate c.state size = .ok (p, s') →
      trusted + allocatorMetadataSize ≤ p ∧ p + size ≤ trusted + regionSize n

theorem regionSize_of_lt (h : allocatorMetadataSize + n < 2 ^ 64) :
    regionSize n = allocatorMetadataSize + n := sizeAdd_of_lt h

/-- The first block and its size, which has wrapped if there is no room for the header. -/
theorem first_block (hL : LawfulHeaders σ g Within) (hn : n < 2 ^ 64)
    (hc : construct trusted n mode m = .ok fresh) :
    fresh.root = trusted + allocatorMetadataSize ∧
      getSize fresh fresh.root = sizeSub n blockMetadataSize := by
  obtain ⟨htrusted, hsize, hroot, hx⟩ := construct_header hL hc
  have hforward : forward fresh fresh.root = 0 := by
    rw [hroot]
    exact congrArg Header.forward hx
  have hbase : base fresh = trusted + allocatorMetadataSize := by rw [base, htrusted]
  refine ⟨hroot.trans hbase, ?_⟩
  have hspan : sizeSub (allocatorEnd fresh) fresh.root = n := by
    rw [allocatorEnd, hroot, hsize]
    unfold sizeSub
    omega
  rw [getSize, hforward, if_neg (not_not.mpr rfl), hspan]

theorem getSize_first_le_iff (hL : LawfulHeaders σ g Within) (hn : n < 2 ^ 64)
    (hc : construct trusted n mode m = .ok fresh) :
    getSize fresh fresh.root ≤ n ↔ blockMetadataSize ≤ n := by
  rw [(first_block hL hn hc).2]
  unfold sizeSub blockMetadataSize
  omega

theorem header_inside_iff (hL : LawfulHeaders σ g Within) (hn : n < 2 ^ 64)
    (hc : construct trusted n mode m = .ok fresh) :
    fresh.root + freeBlockMetadataSize ≤ trusted + regionSize n ↔
      freeBlockMetadataSize ≤ n ∧ allocatorMetadataSize + n < 2 ^ 64 := by
  rw [(first_block hL hn hc).1]
  unfold regionSize sizeAdd allocatorMetadataSize freeBlockMetadataSize
  omega

theorem allocate_payload (hok : s.allocate size = .ok (p, s')) :
    ∃ b, getFreeBlock s size = .ok b ∧ b ≠ 0 ∧ p = b + blockMetadataSize := by
  obtain ⟨b, hb, hok⟩ := bind_eq_ok.mp hok
  split at hok
  case isTrue => cases hok
  case isFalse hb0 =>
    obtain ⟨s₁, -, hok⟩ := bind_eq_ok.mp hok
    dsimp only at hok
    refine ⟨b, hb, hb0, ?_⟩
    split at hok
    all_goals
      obtain ⟨s₂, -, hok⟩ := bind_eq_ok.mp hok
      obtain ⟨_, -, hok⟩ := bind_eq_ok.mp hok
      cases hok
      rfl

/-- A call that returns grants a part of a free block. -/
theorem Kept.granted_inside (hL : LawfulHeaders σ g Within) (h : Kept g trusted n s live)
    (hok : s.allocate size = .ok (p, s')) :
    trusted + allocatorMetadataSize ≤ p ∧ p + size ≤ trusted + allocatorMetadataSize + n := by
  obtain ⟨htrusted, hsize, ts, hpool, -⟩ := h
  obtain ⟨b, hb, hb0, rfl⟩ := allocate_payload hok
  obtain ⟨xs, htree, hxs⟩ := hpool.tree
  obtain ⟨hm, hfit⟩ := (getFreeBlock_suits htree.inOrder hb).resolve_left hb0
  obtain ⟨t, hplaced, -⟩ := mem_freeAddresses.mp (hxs.mem_iff.mp hm)
  have hlen := hpool.getSize_of_mem hL hplaced
  have hbounds := placed_bounds len hplaced
  have htiles := hpool.listing.tiles
  have hbase : base s = trusted + allocatorMetadataSize := by rw [base, htrusted]
  dsimp only at hlen
  omega

/-- In runs that keep what the constructor has established. -/
theorem soundConstruction_iff (hL : LawfulHeaders σ g Within)
    {Step : Client (RedBlackAllocator σ) → Client (RedBlackAllocator σ) → Prop} (ht : 0 < trusted)
    (hn : n < 2 ^ 64) (hregion : trusted + regionSize n < 2 ^ 64)
    (hc : construct trusted n mode m = .ok fresh)
    (hkept : Kept g trusted n fresh [] → ∀ c, Relation.ReflTransGen Step ⟨fresh, []⟩ c →
      Kept g trusted n c.state c.live) :
    SoundConstruction trusted n Step fresh ↔
      freeBlockMetadataSize ≤ n ∧ allocatorMetadataSize + n < 2 ^ 64 := by
  have hinside := header_inside_iff hL hn hc
  constructor
  · exact fun h => hinside.mp h.inside
  · intro h
    have hregionSize := regionSize_of_lt h.2
    have hroom := hL.roomy
    have hwide : blockMetadataSize ≤ n := (by decide : blockMetadataSize ≤ 41).trans h.1
    rw [hregionSize] at hregion
    obtain ⟨hpool, htrusted, hsize, -⟩ := construct_pool hL ht
      (by unfold allocatorMetadataSize at hregion; omega) (hroom.trans h.1) hc
    have hfresh : Kept g trusted n fresh [] :=
      ⟨htrusted, hsize, _, hpool, by rw [grants_cons_none len request _ rfl, grants_nil]⟩
    refine ⟨hinside.mpr h, (getSize_first_le_iff hL hn hc).mpr hwide, fun c hr size p s' hok => ?_⟩
    rw [hregionSize, ← Nat.add_assoc]
    exact (hkept hfresh c hr).granted_inside hL hok

end MaiFaSp.RedBlackAllocator
