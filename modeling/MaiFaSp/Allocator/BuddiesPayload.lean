import MaiFaSp.Allocator.BuddiesInvariant

/-!
# `allocator_buddies_system`: payloads and their blocks (`allocator_buddies_system.cpp:68-129`)

The call makes room for `sizeof(size_t)` bytes besides the request, and the payload starts
9 bytes behind the start of the block.
-/

namespace MaiFaSp.Buddies

open Memory Tiling BuddyTree

variable {k trusted : ℕ} {s s' : Buddies} {live : List (ℕ × ℕ)} {size p : ℕ}

/-! ### The searches find a block when there is one -/

theorem foldl_keeps {f : ℕ → ℕ → ℕ} {xs : List ℕ} (hf : ∀ r it, f r it = r ∨ f r it = it)
    (hpos : ∀ x ∈ xs, x ≠ 0) {r : ℕ} (hr : r ≠ 0) : xs.foldl f r ≠ 0 := by
  induction xs generalizing r with
  | nil => exact hr
  | cons x xs ih =>
    rw [List.foldl_cons]
    refine ih (fun y hy => hpos y (List.mem_cons_of_mem _ hy)) ?_
    rcases hf r x with h | h
    · rw [h]
      exact hr
    · rw [h]
      exact hpos x (List.mem_cons_self ..)

/-- A search that starts from null and takes `hit` when it comes with null to it. -/
theorem foldl_finds {f : ℕ → ℕ → ℕ} {xs : List ℕ} {hit : ℕ}
    (hf : ∀ r it, f r it = r ∨ f r it = it) (hpos : ∀ x ∈ xs, x ≠ 0) (hhit : f 0 hit = hit)
    (hm : hit ∈ xs) (r : ℕ) : xs.foldl f r ≠ 0 := by
  induction xs generalizing r with
  | nil => cases hm
  | cons x xs ih =>
    have hrest := fun y (hy : y ∈ xs) => hpos y (List.mem_cons_of_mem _ hy)
    rw [List.foldl_cons]
    by_cases hr : f r x = 0
    · rcases List.mem_cons.mp hm with rfl | hm
      · rcases hf r hit with h | h
        · rw [h] at hr
          rw [hr, hhit] at h
          exact absurd h (hpos hit (List.mem_cons_self ..))
        · rw [h] at hr
          exact absurd hr (hpos hit (List.mem_cons_self ..))
      · exact ih hrest hm _
    · exact foldl_keeps hf hrest hr

theorem getBlock_finds {mode : FitMode} {m : Memory} {need hit : ℕ} {xs : List ℕ}
    (hpos : ∀ x ∈ xs, x ≠ 0) (hm : hit ∈ xs) (hsuits : suits m need hit = true) :
    getBlock mode m need xs ≠ 0 := by
  cases mode with
  | firstFit =>
    show (xs.find? (suits m need)).getD 0 ≠ 0
    cases hfind : xs.find? (suits m need) with
    | none => exact absurd hsuits (List.find?_eq_none.mp hfind hit hm)
    | some x => exact hpos x (List.mem_of_find?_eq_some hfind)
  | theBestFit =>
    refine foldl_finds (fun r it => ?_) hpos ?_ hm 0
    · split
      · exact Or.inr rfl
      · exact Or.inl rfl
    · exact if_pos ⟨hsuits, Or.inl rfl⟩
  | theWorstFit =>
    refine foldl_finds (fun r it => ?_) hpos ?_ hm 0
    · split
      · exact Or.inr rfl
      · exact Or.inl rfl
    · exact if_pos hsuits

/-! ### Refusals -/

/-- No block passes the fit test. -/
def NothingFits (s : Buddies) (size : ℕ) : Prop :=
  ∀ blocks, s.blocks = .ok blocks → ∀ x ∈ blocks, suits s.memory (sizeAdd size 8) x = false

theorem blocksFrom_fault {m : Memory} {stop n it : ℕ} {e : AllocFault}
    (h : blocksFrom m stop n it = .error e) : e = .diverged := by
  induction n generalizing it with
  | zero =>
    unfold blocksFrom at h
    split at h <;> cases h
    rfl
  | succ n ih =>
    unfold blocksFrom at h
    split at h
    · cases h
    · cases hrest : blocksFrom m stop n (it + blockSize m it) with
      | error f =>
        rw [hrest] at h
        cases h
        exact ih hrest
      | ok rest =>
        rw [hrest] at h
        cases h

theorem report_fault {e : AllocFault} (h : report s = .error e) : e = .diverged := by
  unfold report availableMemory getBlocksInfo at h
  cases hblocks : s.blocks with
  | error f =>
    rw [hblocks] at h
    cases h
    exact blocksFrom_fault hblocks
  | ok bs =>
    rw [hblocks] at h
    cases h

theorem Pool.blocks_nonnull {t : BuddyTree k} (h : Pool s t) :
    ∀ x ∈ (placed len (poolStart s.trusted) t.blocks).map Prod.fst, x ≠ 0 := by
  intro x hx
  obtain ⟨⟨y, b⟩, hy, rfl⟩ := List.mem_map.mp hx
  have hbounds := (placed_bounds len hy).1
  have hpos := h.nonnull
  unfold poolStart at hbounds
  dsimp only
  omega

theorem Pool.allocate_refused_iff {t : BuddyTree k} (h : Pool s t) :
    s.allocate size = .error .badAlloc ↔ NothingFits s size := by
  unfold NothingFits allocate
  simp only [h.blocks, bind, Except.bind]
  constructor
  · intro hbad blocks hblocks x hx
    cases hblocks
    by_contra hsuits
    rw [if_neg (getBlock_finds h.blocks_nonnull hx (Bool.not_eq_false _ ▸ hsuits))] at hbad
    split at hbad
    case h_1 e hreport =>
      cases hbad
      cases report_fault hreport
    case h_2 => cases hbad
  · intro hfits
    have hnone := hfits _ rfl
    rcases getBlock_suits s.fitMode s.memory (sizeAdd size 8)
      ((placed len (poolStart s.trusted) t.blocks).map Prod.fst) with hnull | ⟨hm, hsuits⟩
    · rw [if_pos hnull]
      rfl
    · rw [hnone _ hm] at hsuits
      cases hsuits

/-! ### Sizes whose payload fits -/

/-- The size that is searched for is computed without a wrap, and is not a block's size. -/
def Fits (size : ℕ) : Prop := size + 8 < 2 ^ 64 ∧ ∀ j, 4 ≤ j → size + 8 ≠ 2 ^ j

/-- The operations as a client sees them that may store in all of its grant. -/
def payloadOps : AllocatorOps Buddies FitMode :=
  { ops with writable := fun p size a => p ≤ a ∧ a < p + size }

/-- What is kept along a run of requests that fit. -/
def KeptFitting (k trusted : ℕ) (s : Buddies) (live : List (ℕ × ℕ)) : Prop :=
  Kept k trusted s live ∧ ∀ p size, (p, size) ∈ live → Fits size

theorem keepsFitting : payloadOps.Keeps Fits (KeptFitting k trusted) where
  allocate h hsize ha := by
    refine ⟨h.1.allocate hsize.1 ha, fun p size hm => ?_⟩
    rcases List.mem_cons.mp hm with heq | hm
    · cases heq
      exact hsize
    · exact h.2 p size hm
  deallocate h hm hd := by
    obtain ⟨s', hok, hk⟩ := h.1.deallocate hm
    rw [show payloadOps.deallocate _ _ = _ from hok] at hd
    cases hd
    exact ⟨hk, fun p size hp => h.2 p size (List.mem_of_mem_erase hp)⟩
  setMode mode h := ⟨h.1.setMode mode, h.2⟩
  write v h hm hw := by
    refine ⟨h.1.write hm v hw.1 fun j hj => ?_, h.2⟩
    have hne := (h.2 _ _ hm).2 (j + 4) (Nat.le_add_left 4 j)
    have hlt := hw.2
    omega

/-! ### Safe requests -/

/-- The request is refused, or the grant lies inside its block, behind the metadata, and
the block in the pool and apart from every other one. -/
def PayloadSafe (s : Buddies) (size : ℕ) : Prop :=
  s.allocate size = .error .badAlloc ∨
    ∃ x s' blocks, s.allocate size = .ok (x + occupiedBlockMetadataSize, s') ∧
      s'.blocks = .ok blocks ∧ x ∈ blocks ∧
      occupiedBlockMetadataSize + size ≤ blockSize s'.memory x ∧
      ∀ y ∈ blocks, poolStart s.trusted ≤ y ∧
        y + blockSize s'.memory y ≤ poolStart s.trusted + s.size ∧
        (y = x ∨ y + blockSize s'.memory y ≤ x ∨ x + blockSize s'.memory x ≤ y)

theorem Pool.block_apart {t : BuddyTree k} (h : Pool s t) {pre post : List Block} {b : Block}
    (hb : t.blocks = pre ++ b :: post) :
    blockSize s.memory (poolStart s.trusted + span len pre) = len b ∧
      ∀ y ∈ (placed len (poolStart s.trusted) t.blocks).map Prod.fst,
        poolStart s.trusted ≤ y ∧
        y + blockSize s.memory y ≤ poolStart s.trusted + s.size ∧
        (y = poolStart s.trusted + span len pre ∨
          y + blockSize s.memory y ≤ poolStart s.trusted + span len pre ∨
          poolStart s.trusted + span len pre + len b ≤ y) := by
  have hsizes {y : ℕ} {d : Block} (hy : (y, d) ∈ placed len (poolStart s.trusted) t.blocks) :
      blockSize s.memory y = len d := blockSize_of_header (header_of_placed h.headers hy).1
  have hsize : s.size = 2 ^ (k + 4) := by rw [Buddies.size, h.sizeK]
  refine ⟨hsizes ((mem_placed_iff len).mpr ⟨pre, post, hb, rfl⟩), fun y hy => ?_⟩
  obtain ⟨⟨z, d⟩, hz, rfl⟩ := List.mem_map.mp hy
  have hbounds := placed_bounds len hz
  rw [span_tree, ← hsize] at hbounds
  rw [hsizes hz]
  refine ⟨hbounds.1, hbounds.2, ?_⟩
  rw [hb, placed_append, placed_cons, List.mem_append, List.mem_cons] at hz
  rcases hz with hz | hz | hz
  · exact Or.inr (Or.inl (placed_bounds len hz).2)
  · cases hz
    exact Or.inl rfl
  · exact Or.inr (Or.inr (placed_bounds len hz).1)

/-- The block that is chosen for `size` bytes, and what its size says about them. -/
theorem Pool.allocate_block {t : BuddyTree k} (h : Pool s t) (hsize : NoWrap size)
    (hok : s.allocate size = .ok (p, s')) :
    ∃ x blocks, p = x + occupiedBlockMetadataSize ∧ s'.blocks = .ok blocks ∧ x ∈ blocks ∧
      (occupiedBlockMetadataSize + size ≤ blockSize s'.memory x ↔ Fits size) ∧
      ∀ y ∈ blocks, poolStart s.trusted ≤ y ∧
        y + blockSize s'.memory y ≤ poolStart s.trusted + s.size ∧
        (y = x ∨ y + blockSize s'.memory y ≤ x ∨ x + blockSize s'.memory x ≤ y) := by
  rcases allocate_spec h hsize with
    herr | ⟨q, s'', t', hok', ht', hpool, -, pre, b, post, hb, hr, hp, htight⟩
  · rw [hok] at herr
    cases herr
  · rw [hok] at hok'
    cases hok'
    obtain ⟨hblock, hapart⟩ := hpool.block_apart hb
    rw [ht'] at hblock hapart
    have hs : s'.size = s.size := by rw [Buddies.size, Buddies.size, hpool.sizeK, h.sizeK]
    rw [hs] at hapart
    have hvisited := hpool.blocks
    rw [ht'] at hvisited
    refine ⟨_, _, hp, hvisited, ?_, ?_, ?_⟩
    · rw [hb]
      exact List.mem_map_of_mem ((mem_placed_iff len).mpr ⟨pre, post, rfl, rfl⟩)
    · rw [hblock]
      have hfit := hpool.fits b (by simp [hb]) size hr
      have hlen : len b = 2 ^ (b.level + 4) := rfl
      show 9 + size ≤ len b ↔ Fits size
      constructor
      · intro hle
        refine ⟨hsize, fun j hj heq => ?_⟩
        have hlevel : b.level + 4 ≤ j := by
          rcases htight with h0 | hlt
          · omega
          · rw [heq, ← pow_succ, hlen] at hlt
            exact Nat.lt_succ_iff.mp ((Nat.pow_lt_pow_iff_right (by decide)).mp hlt)
        have hpow : 2 ^ (b.level + 4) ≤ 2 ^ j := Nat.pow_le_pow_right (by decide) hlevel
        omega
      · intro hfits
        have hne := hfits.2 (b.level + 4) (Nat.le_add_left 4 b.level)
        omega
    · rw [hblock]
      exact hapart

/-- A payload lies inside its block exactly if the size that is searched for, computed
without a wrap, is not a power of two from 16 on, or no block suits. -/
theorem buddies_payloadSafe_iff (n trusted : ℕ) (mode : FitMode) (m : Memory)
    (hn : nearestGreaterKOf2 n ≤ 30) (ht : 0 < trusted)
    (hregion : trusted + 64 + 2 ^ nearestGreaterKOf2 n ≤ 2 ^ 64) (fresh : Buddies)
    (hc : construct trusted n mode m = .ok fresh) (c : Client Buddies)
    (hr : payloadOps.Reachable Fits fresh c) (size : ℕ) :
    PayloadSafe c.state size ↔ Fits size ∨ NothingFits c.state size := by
  obtain ⟨k, hk⟩ : ∃ k, nearestGreaterKOf2 n = k + 4 := by
    refine ⟨nearestGreaterKOf2 n - 4, ?_⟩
    have hmin : ¬ nearestGreaterKOf2 n < minK := by
      intro hlt
      unfold construct at hc
      rw [if_pos hlt] at hc
      cases hc
    rw [minK_eq] at hmin
    omega
  rw [hk] at hn hregion
  obtain ⟨s, hok, hkept⟩ := construct_kept hk mode m (by omega : k ≤ 26) ht hregion
  rw [hok] at hc
  cases hc
  have hfresh : KeptFitting k trusted fresh [] := ⟨hkept, fun p size hm => by cases hm⟩
  obtain ⟨hkept', -⟩ := keepsFitting.reachable hfresh hr
  obtain ⟨-, t, hpool, -⟩ := id hkept'
  constructor
  · rintro (hbad | ⟨x, s', blocks, hok, hblocks, hx, hle, hall⟩)
    · exact Or.inr (hpool.allocate_refused_iff.mp hbad)
    · left
      have hsize : NoWrap size := by
        have hbound := hpool.bounded
        have hpoolsize : c.state.size = 2 ^ (k + 4) := by rw [Buddies.size, hpool.sizeK]
        obtain ⟨hlo, hhi, -⟩ := hall x hx
        have h9 : occupiedBlockMetadataSize = 9 := rfl
        unfold NoWrap
        omega
      obtain ⟨x', -, hp, -, -, hfits, -⟩ := hpool.allocate_block hsize hok
      obtain rfl := Nat.add_right_cancel hp
      exact hfits.mp hle
  · rintro (hfits | hnone)
    · rcases total.allocate hkept' hfits.1 with ⟨p, s', hok⟩ | hbad
      · obtain ⟨x, blocks, rfl, hblocks, hx, hle, hall⟩ := hpool.allocate_block hfits.1 hok
        exact Or.inr ⟨x, s', blocks, hok, hblocks, hx, hle.mpr hfits, hall⟩
      · exact Or.inl hbad
    · exact Or.inl (hpool.allocate_refused_iff.mpr hnone)

theorem buddies_payloadSafe_iff_small :
    ∃ fresh, construct 4096 256 .firstFit (fun _ => 0) = .ok fresh ∧ PayloadSafe fresh 20 := by
  refine ⟨_, rfl, (buddies_payloadSafe_iff 256 4096 .firstFit (fun _ => 0) (by decide) (by decide)
    (by decide) _ rfl ⟨_, []⟩ Relation.ReflTransGen.refl 20).mpr (Or.inl ⟨by decide, ?_⟩)⟩
  intro j hj heq
  have hne : j ≠ 4 := by
    rintro rfl
    cases heq
  have hpow : 2 ^ 5 ≤ 2 ^ j := Nat.pow_le_pow_right (by decide) (by omega)
  omega

/-- The payload of 24 bytes ends one byte behind its block of 32. -/
theorem buddies_payload_behind_block :
    ∃ fresh, construct 4096 256 .firstFit (fun _ => 0) = .ok fresh ∧ ¬ PayloadSafe fresh 24 := by
  refine ⟨_, rfl, ?_⟩
  generalize hfresh : Buddies.mk _ _ _ _ = fresh
  have hsize : (fresh.allocate 24).map (fun r => blockSize r.2.memory (r.1 - 9)) = .ok 32 := by
    rw [← hfresh]
    decide +kernel
  rintro (hbad | ⟨x, s', blocks, hok, -, -, hle, -⟩)
  · rw [hbad] at hsize
    cases hsize
  · rw [hok] at hsize
    change Except.ok (blockSize s'.memory (x + 9 - 9)) = _ at hsize
    rw [Nat.add_sub_cancel, Except.ok.injEq] at hsize
    rw [hsize] at hle
    exact absurd hle (by decide)

end MaiFaSp.Buddies
