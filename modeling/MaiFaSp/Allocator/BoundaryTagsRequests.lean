import MaiFaSp.Allocator.BoundaryTagsInvariant

/-!
# `allocator_boundary_tags`: which requests are safe (`allocator_boundary_tags.cpp:57-145`)

The size of the header is added to the request modulo `2 ^ 64`. A total that wrapped is
below the size of a header, and the size that is recorded is then wrapped as well.
-/

namespace MaiFaSp.BoundaryTags

open Memory Tiling Tile

variable {s : BoundaryTags} {pre post ts : List Tile} {t : Tile}

/-! ### What the logger's walks may end with -/

theorem loop_fault {α : Type} {body : α → Iterator → ForInStep α} {n : ℕ} {it : Iterator} {r : α}
    {e : AllocFault} (h : loop s body n it r = .error e) : e = .diverged := by
  induction n generalizing it r with
  | zero =>
    unfold loop at h
    split at h <;> cases h
    rfl
  | succ n ih =>
    unfold loop at h
    split at h
    · cases h
    · split at h
      · cases h
      · exact ih h

theorem report_fault {e : AllocFault} (h : report s = .error e) :
    e = .diverged ∨ e = .nullDereference := by
  unfold report printBlocks at h
  cases havailable : getAvailableMemory s with
  | error f =>
    rw [havailable] at h
    cases h
    exact Or.inl (loop_fault havailable)
  | ok available =>
    rw [havailable] at h
    cases hblocks : getBlocksInfo s with
    | error f =>
      rw [hblocks] at h
      cases h
      exact Or.inl (loop_fault hblocks)
    | ok blocks =>
      rw [hblocks] at h
      simp only [bind, Except.bind] at h
      split at h <;> cases h
      exact Or.inr rfl

/-! ### Refusals -/

/-- No gap passes the fit test. -/
def NothingFits (s : BoundaryTags) (size : ℕ) : Prop :=
  ∀ blocks, s.getBlocksInfo = .ok blocks →
    ∀ n, (n, false) ∈ blocks → n < sizeAdd size blockMetadataSize

theorem Pool.nothingFits_iff (h : Pool s ts) {size : ℕ} :
    NothingFits s size ↔ ∀ t ∈ ts, t.free = true → t.len < sizeAdd size blockMetadataSize := by
  constructor
  · intro hfits t hm ht
    refine hfits _ h.getBlocksInfo_eq t.len (List.mem_map.mpr ⟨t, hm, ?_⟩)
    rw [ht]
    rfl
  · intro hfits blocks hblocks n hn
    rw [h.getBlocksInfo_eq] at hblocks
    cases hblocks
    obtain ⟨t, hm, ht⟩ := List.mem_map.mp hn
    cases hfree : t.free with
    | true =>
      rw [hfree] at ht
      cases ht
      exact hfits t hm hfree
    | false =>
      rw [hfree] at ht
      cases ht

theorem Pool.allocate_refused_iff (h : Pool s ts) {size : ℕ} :
    s.allocate size = .error .badAlloc ↔ NothingFits s size := by
  obtain ⟨p, hget, hfound, hfinds⟩ := h.getBlock_spec (sizeAdd size blockMetadataSize)
  rw [h.nothingFits_iff]
  unfold allocate
  simp only [hget, bind, Except.bind]
  constructor
  · intro hbad t hm ht
    by_contra hle
    rw [if_neg (hfinds ⟨t, hm, ht, not_lt.mp hle⟩)] at hbad
    split at hbad
    case h_1 e hreport =>
      cases hbad
      rcases report_fault hreport with h | h <;> cases h
    case h_2 => cases hbad
  · intro hfits
    rcases hfound with rfl | ⟨pre, t, post, rfl, ht, hle, -⟩
    · rfl
    · exact absurd hle (not_le.mpr (hfits t (by simp) ht))

/-! ### Safe requests -/

/-- The request is refused, or the grant has `size` bytes, lies in the pool and meets no
other grant. The sizes are the recorded ones, so none of them has wrapped. -/
def RequestSafe (s : BoundaryTags) (live : List (ℕ × ℕ)) (size : ℕ) : Prop :=
  s.allocate size = .error .badAlloc ∨
    ∃ x s', s.allocate size = .ok (x + blockMetadataSize, s') ∧ size ≤ getBlockSize s'.memory x ∧
      base s ≤ x ∧ blockEnd s'.memory x ≤ allocatorEnd s ∧
      ∀ y n, (y + blockMetadataSize, n) ∈ live →
        blockEnd s'.memory y ≤ x ∨ blockEnd s'.memory x ≤ y

theorem Pool.grants_apart (h : Pool s ts) :
    (grants len request 32 (base s) ts).Pairwise
      (fun g k => blockEnd s.memory (g.1 - 32) + 32 ≤ k.1) := by
  rw [grants, List.pairwise_filterMap]
  refine (placed_pairwise len (base s) ts).imp_of_mem ?_
  rintro ⟨x, t⟩ ⟨y, u⟩ hx - hxy g hg g' hg'
  obtain ⟨pre, post, rfl, rfl⟩ := (mem_placed_iff len).mp hx
  obtain ⟨r, hr, rfl⟩ := Option.map_eq_some_iff.mp hg
  obtain ⟨r', -, rfl⟩ := Option.map_eq_some_iff.mp hg'
  have hend := (h.held_header (t.held_iff.mpr ⟨r, hr⟩)).1
  dsimp only at hxy ⊢
  rw [Nat.add_sub_cancel, hend]
  omega

theorem Kept.requestSafe {trusted n : ℕ} {live : List (ℕ × ℕ)} {size : ℕ}
    (h : Kept trusted n s live) (hsize : NoWrap size) : RequestSafe s live size := by
  rcases total.allocate h hsize with ⟨p, s', hok⟩ | hbad
  · obtain ⟨ht', hn', ts, hpool, hlive⟩ := h.allocate hsize hok
    have hinv := hpool.invariant hlive
    have hmem : (p, size) ∈ (p, size) :: live := List.mem_cons_self ..
    obtain ⟨x, hx, rfl⟩ := mem_grants_iff.mp ⟨size, hlive.mem_iff.mp hmem⟩
    obtain ⟨hlo, hhi⟩ := hinv.inside x hx
    have hbase : base s' = base s := by rw [base_eq, base_eq, ht', h.1]
    rw [allocatorEnd_eq, hbase, hn', ← h.2.1] at hhi
    rw [hbase] at hlo
    have hfits := hinv.fits _ _ hmem
    rw [Nat.add_sub_cancel] at hfits
    refine Or.inr ⟨x, s', hok, hfits, hlo, hhi, fun y m hy => ?_⟩
    have hapart := new_grant_related hlive hpool.grants_apart (y + 32, m) hy
    rw [Nat.add_sub_cancel, Nat.add_sub_cancel] at hapart
    omega
  · exact Or.inl hbad

/-- A request is safe exactly if its size with the header is computed without a wrap, or
the wrapped size fits into no gap. -/
theorem boundary_tags_requestSafe_iff (trusted n : ℕ) (mode : FitMode) (m : Memory) (ht : 0 < trusted)
    (hregion : trusted + n + 80 < 2 ^ 64) (fresh : BoundaryTags)
    (hc : construct trusted n mode m = .ok fresh) (c : Client BoundaryTags)
    (hr : ops.Reachable NoWrap fresh c) (size : ℕ) :
    RequestSafe c.state c.live size ↔ NoWrap size ∨ NothingFits c.state size := by
  obtain ⟨hn, hpool, htr, hms⟩ := construct_pool ht hregion hc
  have hfresh : Kept trusted n fresh [] :=
    ⟨htr, hms, _, hpool, by rw [grants_cons_none len request 32 rfl, grants_nil]⟩
  have hk := keeps.reachable hfresh hr
  obtain ⟨-, -, ts, hpool', -⟩ := id hk
  constructor
  · rintro (hbad | ⟨x, s', -, hfits, hlo, hhi, -⟩)
    · exact Or.inr (hpool'.allocate_refused_iff.mp hbad)
    · have hbound := hpool'.bounded
      have hbase := base_eq c.state
      rw [blockEnd_eq, allocatorEnd_eq] at hhi
      left
      unfold NoWrap
      omega
  · rintro (hsize | hfits)
    · exact hk.requestSafe hsize
    · exact Or.inl (hpool'.allocate_refused_iff.mpr hfits)

theorem boundary_tags_requestSafe_iff_small : RequestSafe ⟨4096, .firstFit, 64, 0, fun _ => 0⟩ [] 24 :=
  (boundary_tags_requestSafe_iff 4096 64 .firstFit (fun _ => 0) (by decide) (by decide)
    ⟨4096, .firstFit, 64, 0, fun _ => 0⟩ rfl ⟨_, []⟩ Relation.ReflTransGen.refl 24).mpr
    (Or.inl (show 24 + 32 < 2 ^ 64 by decide))

/-- A request that wraps gets a block of a fresh pool of 64 bytes. -/
theorem boundary_tags_request_wrapped :
    ¬ RequestSafe ⟨4096, .firstFit, 64, 0, fun _ => 0⟩ [] (2 ^ 64 - 16) := by
  rintro (hbad | ⟨x, s', -, hfits, hlo, hhi, -⟩)
  · have hok : (allocate ⟨4096, .firstFit, 64, 0, fun _ => 0⟩ (2 ^ 64 - 16)).map Prod.fst ≠
        .error .badAlloc := by decide +kernel
    rw [hbad] at hok
    exact hok rfl
  · rw [blockEnd_eq] at hhi
    change 4096 + 80 ≤ x at hlo
    change x + 32 + getBlockSize s'.memory x ≤ 4096 + 80 + 64 at hhi
    omega

end MaiFaSp.BoundaryTags

/-!
## `allocator_boundary_tags`: pointers that are refused (`allocator_boundary_tags.cpp:147-186`)

A block that is returned keeps its header, and with it the tag and the links of the time
when it was unlinked.
-/

namespace MaiFaSp.BoundaryTags

open Memory Tiling Tile

variable {s s' : BoundaryTags} {pre post : List Tile} {t : Tile} {p : ℕ}

/-- The header in front of a pointer does not carry the allocator's address. -/
def ForeignTag (s : BoundaryTags) (p : ℕ) : Prop :=
  getTmPtr s.memory (sizeSub p blockMetadataSize) ≠ s.trusted

/-- The call throws before it stores anything. -/
def Rejects (s : BoundaryTags) (p : ℕ) : Prop := s.deallocate p = .error .logicError

theorem rejects_iff : Rejects s p ↔ ForeignTag s p := by
  unfold Rejects ForeignTag deallocate
  generalize sizeSub p blockMetadataSize = x
  dsimp only
  split
  case isTrue hbad =>
    constructor
    · exact fun _ => hbad
    · exact fun _ => rfl
  case isFalse hgood =>
    refine ⟨fun h => ?_, fun h => absurd h hgood⟩
    simp only [bind, Except.bind] at h
    split at h
    case h_1 e hreport =>
      cases h
      rcases report_fault hreport with h | h <;> cases h
    case h_2 => cases h

theorem deallocate_accepted (h : s.deallocate p = .ok s') :
    s' = release s (sizeSub p blockMetadataSize) := by
  unfold deallocate at h
  generalize sizeSub p blockMetadataSize = x at h ⊢
  dsimp only at h
  split at h
  · cases h
  · simp only [bind, Except.bind, pure, Except.pure] at h
    split at h
    · cases h
    · exact (Except.ok.inj h).symm

theorem Pool.freed_tag (h : Pool s (pre ++ t :: post)) (ht : t.free = false)
    (hok : s.deallocate (base s + span len pre + 32) = .ok s') :
    getTmPtr s'.memory (base s + span len pre) = s.trusted := by
  obtain ⟨-, -, htag, hprev, hnext⟩ := h.held_header ht
  have hfar : (addresses (base s + span len pre + t.len) post).headD 0 = 0 ∨
      (addresses (base s + span len pre + t.len) post).headD 0 = base s + span len pre ∨
      Apart ((addresses (base s + span len pre + t.len) post).headD 0) (base s + span len pre) := by
    cases hys : addresses (base s + span len pre + t.len) post with
    | nil => exact Or.inl rfl
    | cons y ys =>
      have hlow := addresses_bounds (hys ▸ List.mem_cons_self .. :
        y ∈ addresses (base s + span len pre + t.len) post)
      have hlen := len_of_held ht
      exact Or.inr (Or.inr (Or.inr (by rw [List.headD_cons]; omega)))
  have hlast := lastBlock_far s pre
  rw [deallocate_accepted hok, h.header_eq ht, release_eq hprev hnext hlast]
  show load64 (linkPrev _ _ _) (base s + span len pre + 24) = s.trusted
  rw [load64_linkPrev hfar (by decide), load64_linkNext (hlast.imp_right Or.inr) (by decide)]
  exact htag

theorem Kept.freed_own {trusted n : ℕ} {live : List (ℕ × ℕ)} {size : ℕ}
    (h : Kept trusted n s live) (hm : (p, size) ∈ live) (hok : s.deallocate p = .ok s')
    {m : Memory} (hsame : AgreeOn s'.memory m (p - 8) p) :
    getTmPtr m (sizeSub p blockMetadataSize) = trusted := by
  obtain ⟨rfl, -, ts, hpool, hlive⟩ := h
  obtain ⟨pre, t, post, rfl, hr, rfl⟩ := mem_grants len request 32 (hlive.mem_iff.mp hm)
  have ht : t.free = false := t.held_iff.mpr ⟨size, hr⟩
  have htag := hpool.freed_tag ht hok
  rw [hpool.header_eq ht]
  have hword : AgreeOn s'.memory m (base s + span len pre + 24)
      (base s + span len pre + 24 + 8) := hsame.mono (by omega) (by omega)
  exact (load64_congr hword).symm.trans htag

/-- A pointer is refused exactly if its header carries another address. The header of a
block that was returned carries the allocator's own, for as long as nobody stores over
it, and then the block can be returned again. -/
theorem boundary_tags_refuses_iff (trusted n : ℕ) (mode : FitMode) (m : Memory)
    (ht : 0 < trusted) (hregion : trusted + n + 80 < 2 ^ 64) (fresh : BoundaryTags)
    (hc : construct trusted n mode m = .ok fresh) (c : Client BoundaryTags)
    (hr : ops.Reachable NoWrap fresh c) :
    (∀ p, Rejects c.state p ↔ ForeignTag c.state p) ∧
    ∀ p size s' c', (p, size) ∈ c.live → c.state.deallocate p = .ok s' →
      Relation.ReflTransGen (ops.Step NoWrap) ⟨s', c.live.erase (p, size)⟩ c' →
      AgreeOn s'.memory c'.state.memory (p - 8) p → ¬ Rejects c'.state p := by
  obtain ⟨hn, hpool, htr, hms⟩ := construct_pool ht hregion hc
  have hfresh : Kept trusted n fresh [] :=
    ⟨htr, hms, _, hpool, by rw [grants_cons_none len request 32 rfl, grants_nil]⟩
  have hk := keeps.reachable hfresh hr
  refine ⟨fun p => rejects_iff, fun p size s' c' hm hok hrun hsame => ?_⟩
  have hstep : ops.Step NoWrap c ⟨s', c.live.erase (p, size)⟩ :=
    AllocatorOps.Step.deallocate hm hok
  have hk' := keeps.reachable hfresh ((hr.tail hstep).trans hrun)
  rw [rejects_iff, ForeignTag, hk'.1]
  exact not_not.mpr (hk.freed_own hm hok hsame)

theorem boundary_tags_refuses_iff_fresh : Rejects ⟨4096, .firstFit, 64, 0, fun _ => 0⟩ 5000 :=
  ((boundary_tags_refuses_iff 4096 64 .firstFit (fun _ => 0) (by decide) (by decide)
    ⟨4096, .firstFit, 64, 0, fun _ => 0⟩ rfl ⟨_, []⟩ Relation.ReflTransGen.refl).1 5000).mpr
    (by unfold ForeignTag; decide +kernel)

/-- Of four blocks the second and the third are returned, and then the second again:
the third is linked in anew. -/
theorem boundary_tags_freed_twice :
    (do
      let (_, s) ← allocate ⟨4096, .firstFit, 256, 0, fun _ => 0⟩ 8
      let (b, s) ← allocate s 8
      let (c, s) ← allocate s 8
      let (_, s) ← allocate s 8
      let s ← deallocate s b
      let s ← deallocate s c
      let before ← getBlocksInfo s
      let s ← deallocate s b
      let after ← getBlocksInfo s
      pure (before, after)) =
    .ok ([(40, true), (80, false), (40, true), (96, false)],
      [(40, true), (40, false), (40, true), (40, true), (96, false)]) := by
  decide +kernel

end MaiFaSp.BoundaryTags
