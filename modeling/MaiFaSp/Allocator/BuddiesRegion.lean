import MaiFaSp.Allocator.BuddiesPayload

/-!
# `allocator_buddies_system`: the pool and the region of the parent allocator

The constructor asks the parent for `space_size_power_of_two` bytes above the
metadata, and lays a block of the next power of two over them. So the blocks stay
in the region for a power of two only.
-/

namespace MaiFaSp.Buddies

open Memory Tiling BuddyTree

/-! ### The rounding helper -/

section Rounding

variable {size n : ℕ}

theorem scanBits_rest (ones : ℕ) (index : ℤ) (hones : ones ≠ 0) :
    ∃ c, scanBits size n ones index = (ones + c, index) ∧ (c = 0 → size % 2 ^ n = 0) := by
  induction n generalizing ones with
  | zero => exact ⟨0, rfl, fun _ => Nat.mod_one size⟩
  | succ n ih =>
    rw [scanBits]
    by_cases hbit : size.testBit n = true
    · obtain ⟨c, hc, -⟩ := ih (ones + 1) (Nat.succ_ne_zero _)
      rw [if_pos hbit, if_neg hones, hc]
      exact ⟨c + 1, by rw [Nat.add_assoc, Nat.add_comm 1 c], fun h => absurd h (Nat.succ_ne_zero _)⟩
    · obtain ⟨c, hc, hrest⟩ := ih ones hones
      rw [if_neg hbit, hc]
      refine ⟨c, rfl, fun h => ?_⟩
      rw [Nat.mod_pow_succ, hrest h, ← Nat.toNat_testBit, Bool.eq_false_of_not_eq_true hbit]
      rfl

theorem scanBits_top (hpos : 0 < size) (hlt : size < 2 ^ n) :
    ∃ i < n, 2 ^ i ≤ size ∧ size < 2 ^ (i + 1) ∧ scanBits size n 0 (-1) = scanBits size i 1 i := by
  induction n with
  | zero => omega
  | succ n ih =>
    rw [scanBits]
    by_cases hbit : size.testBit n = true
    · rw [if_pos hbit, if_pos rfl]
      exact ⟨n, Nat.lt_succ_self n, Nat.ge_two_pow_of_testBit hbit, hlt, rfl⟩
    · have hlow : size < 2 ^ n := by
        by_contra hge
        exact hbit (Nat.testBit_of_two_pow_le_and_two_pow_add_one_gt (not_lt.mp hge) hlt)
      obtain ⟨i, hi, hrest⟩ := ih hlow
      rw [if_neg hbit]
      exact ⟨i, by omega, hrest⟩

theorem nearestGreaterKOf2_bounds (hpos : 0 < size) (hlt : size < 2 ^ 64) :
    nearestGreaterKOf2 size ≤ 64 ∧ size ≤ 2 ^ nearestGreaterKOf2 size := by
  obtain ⟨i, hi, hlo, hhi, htop⟩ := scanBits_top hpos hlt
  obtain ⟨c, hc, hrest⟩ : ∃ c, scanBits size i 1 i = (1 + c, (i : ℤ)) ∧ (c = 0 → size % 2 ^ i = 0) :=
    scanBits_rest 1 i Nat.one_ne_zero
  unfold nearestGreaterKOf2
  rw [htop, hc]
  dsimp only
  by_cases hzero : c = 0
  · have hindex : ((i : ℤ) % 2 ^ 64).toNat = i := by omega
    rw [if_pos (by omega), hindex]
    refine ⟨hi.le, ?_⟩
    have hdiv := Nat.div_add_mod size (2 ^ i)
    have hone : size / 2 ^ i = 1 :=
      Nat.div_eq_of_lt_le (by omega) (by rw [pow_succ] at hhi; omega)
    rw [hrest hzero, hone] at hdiv
    omega
  · have hindex : (((i : ℤ) + 1) % 2 ^ 64).toNat = i + 1 := by omega
    rw [if_neg (by omega), hindex]
    exact ⟨hi, hhi.le⟩

theorem nearestGreaterKOf2_zero : nearestGreaterKOf2 0 = 2 ^ 64 - 1 := by decide

end Rounding

/-! ### Blocks in the region -/

/-- `1 << n`, an `int` that becomes a `size_t`; it is not defined from 32 on. -/
def shiftOne (n : ℕ) : Option ℕ :=
  if n < 31 then some (2 ^ n) else if n = 31 then some (2 ^ 64 - 2 ^ 31) else none

/-- The blocks an iterator comes to. -/
inductive IsBlock (s : Buddies) : ℕ → Prop
  | first : IsBlock s (poolStart s.trusted)
  | next {it n e} (h : IsBlock s it) (hn : shiftOne (blockSizeK s.memory it + minK) = some n)
      (he : shiftOne s.sizeK = some e) (hend : it + n ≠ poolStart s.trusted + e) : IsBlock s (it + n)

/-- Every block has a defined size and lies in what the parent was asked for. -/
def BlocksInside (spaceSize : ℕ) (s : Buddies) : Prop :=
  ∀ it, IsBlock s it → ∃ n, shiftOne (blockSizeK s.memory it + minK) = some n ∧
    s.trusted ≤ it ∧ it + n ≤ s.trusted + sizeAdd spaceSize allocatorMetadataSize

/-- Runs of allocations and deallocations alone. -/
def poolOps : AllocatorOps Buddies FitMode := { ops with writable := fun _ _ _ => False }

theorem shiftOne_small {n : ℕ} (h : n ≤ 30) : shiftOne n = some (2 ^ n) := if_pos (by omega)

section Blocks

variable {k : ℕ} {s : Buddies} {t : BuddyTree k}

theorem Pool.level_le (h : Pool s t) {it : ℕ} {b : Block}
    (hb : (it, b) ∈ placed len (poolStart s.trusted) t.blocks) :
    shiftOne (blockSizeK s.memory it + minK) = some (len b) ∧
      it + len b ≤ poolStart s.trusted + 2 ^ (k + 4) ∧ poolStart s.trusted ≤ it := by
  have hbounds := placed_bounds len hb
  rw [span_tree] at hbounds
  have hlevel : b.level + 4 ≤ k + 4 := by
    have hlen : 2 ^ (b.level + 4) ≤ 2 ^ (k + 4) := by
      have hsize : len b = 2 ^ (b.level + 4) := rfl
      omega
    exact (Nat.pow_le_pow_iff_right (by decide)).mp hlen
  have hsmall := h.small
  rw [blockSizeK_of_header (header_of_placed h.headers hb).1, minK_eq, shiftOne_small (by omega)]
  exact ⟨rfl, hbounds.2, hbounds.1⟩

theorem Pool.isBlock_placed (h : Pool s t) {it : ℕ} (hit : IsBlock s it) :
    ∃ b, (it, b) ∈ placed len (poolStart s.trusted) t.blocks := by
  have hspan := span_tree t
  induction hit with
  | first =>
    cases hbs : t.blocks with
    | nil =>
      rw [hbs, span_nil] at hspan
      exact absurd hspan.symm (Nat.two_pow_pos _).ne'
    | cons b bs => exact ⟨b, List.mem_cons_self ..⟩
  | @next it n e _ hn he hend ih =>
    obtain ⟨b, hb⟩ := ih
    have hsmall := h.small
    rw [(h.level_le hb).1] at hn
    rw [h.sizeK, shiftOne_small (by omega)] at he
    cases hn
    cases he
    obtain ⟨pre, post, hbs, hx⟩ := (mem_placed_iff len).mp hb
    cases post with
    | nil =>
      rw [hbs, span_append, span_cons, span_nil] at hspan
      exact absurd (by omega) hend
    | cons b' post =>
      refine ⟨b', (mem_placed_iff len).mpr ⟨pre ++ [b], post, ?_, ?_⟩⟩
      · rw [hbs, List.append_assoc]
        rfl
      · rw [hx, span_append, span_cons, span_nil]
        omega

theorem Pool.blocksInside (h : Pool s t) : BlocksInside (2 ^ (k + 4)) s := by
  intro it hit
  obtain ⟨b, hb⟩ := h.isBlock_placed hit
  obtain ⟨hshift, hend, hstart⟩ := h.level_le hb
  have hbound := h.bounded
  have hnonnull := h.nonnull
  have hadd : sizeAdd (2 ^ (k + 4)) allocatorMetadataSize = 2 ^ (k + 4) + 64 :=
    sizeAdd_of_lt (by unfold allocatorMetadataSize; omega)
  unfold poolStart at hstart hend
  exact ⟨_, hshift, by omega, by omega⟩

end Blocks

/-! ### Runs with every size -/

section Runs

variable {k trusted : ℕ} {s s' : Buddies} {live : List (ℕ × ℕ)}

theorem suits_small {m : Memory} {need it : ℕ} (h : need ≤ 16) : suits m need it = !occupied m it := by
  have hge : 2 ^ 4 ≤ blockSize m it :=
    Nat.pow_le_pow_right (by decide) (by rw [minK_eq]; omega)
  have hfits : need ≤ blockSize m it := by omega
  simp [suits, hfits]

theorem getBlock_small {mode : FitMode} {m : Memory} {need : ℕ} {bs : List ℕ} (h : need ≤ 16) :
    getBlock mode m need bs = getBlock mode m 8 bs := by
  have hsuits : suits m need = suits m 8 :=
    funext fun it => (suits_small h).trans (suits_small (by decide)).symm
  cases mode <;> simp only [getBlock, getBlockFirstFit, getBlockBestFit, getBlockWorstFit, hsuits]

theorem splitLoop_small {need n block : ℕ} {m : Memory} (h : need ≤ 8) :
    splitLoop trusted need n m block = splitLoop trusted 8 n m block := by
  induction n generalizing m with
  | zero => rfl
  | succ n ih =>
    have hge : 2 ^ 4 ≤ blockSize m block :=
      Nat.pow_le_pow_right (by decide) (by rw [minK_eq]; omega)
    have hneed : sizeMul need 2 ≤ blockSize m block := by
      have hmod := Nat.mod_le (need * 2) (2 ^ 64)
      unfold sizeMul
      omega
    have height : sizeMul 8 2 ≤ blockSize m block := hge
    rw [splitLoop, splitLoop, ih]
    simp only [ge_iff_le, hneed, height]

/-- A size whose sum with the metadata wraps is served like the size 0. -/
theorem allocate_wrap {size : ℕ} (hsize : size < 2 ^ 64) (h : ¬ NoWrap size) :
    s.allocate size = s.allocate 0 := by
  have hsum : sizeAdd size 8 = size + 8 - 2 ^ 64 := by
    unfold NoWrap at h
    unfold sizeAdd
    omega
  have hneed : sizeAdd size 8 ≤ 8 := by omega
  have hzero : sizeAdd 0 8 = 8 := rfl
  rw [allocate, allocate, hzero]
  simp only [getBlock_small (hneed.trans (by decide)), splitLoop_small hneed]

instance (size : ℕ) : Decidable (NoWrap size) := inferInstanceAs (Decidable (size + 8 < 2 ^ 64))

/-- The grant as the pool keeps it. -/
def keptGrant (g : ℕ × ℕ) : ℕ × ℕ := (g.1, if NoWrap g.2 then g.2 else 0)

theorem keepsPool : poolOps.Keeps (fun size => size < 2 ^ 64)
    (fun s live => Kept k trusted s (live.map keptGrant)) where
  allocate := by
    intro s s' live size p h hsize ha
    by_cases hw : NoWrap size
    · have hgrant : keptGrant (p, size) = (p, size) := by
        unfold keptGrant
        rw [if_pos hw]
      rw [List.map_cons, hgrant]
      exact h.allocate hw ha
    · have hgrant : keptGrant (p, size) = (p, 0) := by
        unfold keptGrant
        rw [if_neg hw]
      rw [List.map_cons, hgrant]
      exact h.allocate (by decide) ((allocate_wrap hsize hw).symm.trans ha)
  deallocate := by
    intro s s' live size p h hm hd
    obtain ⟨s'', hok, hk⟩ := h.deallocate (List.mem_map_of_mem hm : keptGrant (p, size) ∈ _)
    rw [show poolOps.deallocate s p = _ from hok] at hd
    cases hd
    obtain ⟨ht, t, hpool, hlive⟩ := hk
    refine ⟨ht, t, hpool, List.Perm.trans ?_ hlive⟩
    have hperm := (List.perm_cons_erase hm).map keptGrant
    exact (hperm.symm.trans (List.perm_cons_erase (List.mem_map_of_mem hm))).cons_inv
  setMode := fun mode h => h.setMode mode
  write := fun _ _ _ hw => hw.elim

end Runs

theorem construct_eq {spaceSize trusted : ℕ} {mode : FitMode} {m : Memory} {fresh : Buddies}
    (hc : construct trusted spaceSize mode m = .ok fresh) :
    4 ≤ nearestGreaterKOf2 spaceSize ∧ fresh.trusted = trusted ∧
      blockSizeK fresh.memory (poolStart trusted) = (nearestGreaterKOf2 spaceSize - 4) % 128 := by
  unfold construct at hc
  rw [minK_eq] at hc
  by_cases hlt : nearestGreaterKOf2 spaceSize < 4
  · rw [if_pos hlt] at hc
    cases hc
  · rw [if_neg hlt] at hc
    cases hc
    refine ⟨not_lt.mp hlt, rfl, ?_⟩
    generalize setOccupied m (trusted + allocatorMetadataSize) false = m'
    have hn : (nearestGreaterKOf2 spaceSize - 4) % 128 < 128 := Nat.mod_lt _ (by decide)
    have hself := setSizeK_self m' (poolStart trusted) _ hn
    have hsame : setSizeK m' (poolStart trusted) ((nearestGreaterKOf2 spaceSize - 4) % 128) =
        setSizeK m' (poolStart trusted) (nearestGreaterKOf2 spaceSize - 4) := by
      unfold setSizeK
      rw [Nat.mod_mod]
    rw [hsame] at hself
    have hbit := Nat.mod_lt (m' (poolStart trusted)).toNat (by decide : 0 < 2)
    unfold blockSizeK
    show (setSizeK m' (poolStart trusted) (nearestGreaterKOf2 spaceSize - 4)
      (poolStart trusted)).toNat / 2 = _
    omega

/-- The block of a new pool lies in the region for a power of two only. -/
theorem two_pow_of_inside {spaceSize trusted : ℕ} {mode : FitMode} {m : Memory} {fresh : Buddies}
    (hsize : spaceSize < 2 ^ 64) (hc : construct trusted spaceSize mode m = .ok fresh)
    (h : BlocksInside spaceSize fresh) : ∃ k ≤ 30, spaceSize = 2 ^ k := by
  obtain ⟨hmin, htrusted, hlevel⟩ := construct_eq hc
  obtain ⟨n, hshift, -, hend⟩ := h _ IsBlock.first
  rw [htrusted, hlevel, minK_eq] at hshift
  rw [htrusted, poolStart] at hend
  rcases Nat.eq_zero_or_pos spaceSize with hzero | hpos
  · rw [hzero, nearestGreaterKOf2_zero] at hshift
    cases hshift
  · obtain ⟨hmax, hup⟩ := nearestGreaterKOf2_bounds hpos hsize
    rw [Nat.mod_eq_of_lt (by omega), Nat.sub_add_cancel hmin] at hshift
    have hadd : sizeAdd spaceSize allocatorMetadataSize ≤ spaceSize + 64 := Nat.mod_le _ _
    generalize hk : nearestGreaterKOf2 spaceSize = k at hshift hup
    unfold shiftOne at hshift
    by_cases hsmall : k < 31
    · rw [if_pos hsmall] at hshift
      cases hshift
      exact ⟨k, by omega, by omega⟩
    · rw [if_neg hsmall] at hshift
      by_cases hint : k = 31
      · rw [if_pos hint] at hshift
        cases hshift
        rw [hint] at hup
        omega
      · rw [if_neg hint] at hshift
        cases hshift

/-- The pool stays in the region exactly for a power of two whose shift is an `int`. -/
theorem blocksInside_iff (spaceSize trusted : ℕ) (mode : FitMode) (m : Memory)
    (hsize : spaceSize < 2 ^ 64) (ht : 0 < trusted)
    (hregion : trusted + sizeAdd spaceSize allocatorMetadataSize ≤ 2 ^ 64) (fresh : Buddies)
    (hc : construct trusted spaceSize mode m = .ok fresh) :
    (∀ c, poolOps.Reachable (fun size => size < 2 ^ 64) fresh c → BlocksInside spaceSize c.state) ↔
      ∃ k ≤ 30, spaceSize = 2 ^ k := by
  constructor
  · intro h
    exact two_pow_of_inside hsize hc (h ⟨fresh, []⟩ Relation.ReflTransGen.refl)
  · rintro ⟨K, hK, rfl⟩ c hr
    have hnear := nearestGreaterKOf2_two_pow K (by omega)
    have hmin := (construct_eq hc).1
    rw [hnear] at hmin
    obtain ⟨k, rfl⟩ : ∃ k, K = k + 4 := ⟨K - 4, by omega⟩
    have hpow : 2 ^ (k + 4) ≤ 2 ^ 30 := Nat.pow_le_pow_right (by decide) hK
    have hadd : sizeAdd (2 ^ (k + 4)) allocatorMetadataSize = 2 ^ (k + 4) + 64 :=
      sizeAdd_of_lt (by unfold allocatorMetadataSize; omega)
    obtain ⟨s, hok, hkept⟩ := construct_kept hnear mode m (by omega : k ≤ 26) ht (by omega)
    rw [hok] at hc
    cases hc
    obtain ⟨-, t, hpool, -⟩ := keepsPool.reachable hkept hr
    exact hpool.blocksInside

theorem blocksInside_sixteen :
    ∃ fresh, construct 4096 16 .firstFit (fun _ => 0) = .ok fresh ∧ BlocksInside 16 fresh :=
  ⟨_, rfl, (blocksInside_iff 16 4096 .firstFit (fun _ => 0) (by decide) (by decide) (by decide) _
    rfl).mpr ⟨4, by decide, rfl⟩ ⟨_, []⟩ Relation.ReflTransGen.refl⟩

/-- The pool of the test with 4090 bytes has a block of 4096. -/
theorem block_behind_region :
    ∃ fresh, construct 4096 4090 .firstFit (fun _ => 0) = .ok fresh ∧
      blockSize fresh.memory (poolStart 4096) = 4096 ∧ ¬ BlocksInside 4090 fresh := by
  refine ⟨_, rfl, by decide +kernel, ?_⟩
  intro h
  obtain ⟨k, hk, hpow⟩ := two_pow_of_inside (by decide)
    (rfl : construct 4096 4090 .firstFit (fun _ => 0) = .ok _) h
  interval_cases k <;> omega

end MaiFaSp.Buddies
