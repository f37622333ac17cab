import MaiFaSp.Allocator.BoundaryTagsAllocate

/-!
# `allocator_boundary_tags`: `do_deallocate_sm` and every reachable state

Unlinking a block leaves a gap that takes in the gaps around it, without a
trace in memory. Allocations, returns, changes of the fit mode and stores of the
clients inside their grants all keep the pool in shape.
-/

namespace MaiFaSp.BoundaryTags

open Memory Tiling DoublyLinked Tile

variable {s : BoundaryTags} {pre post : List Tile} {t : Tile}

/-! ### Returning a block -/

/-- Two gaps that touch are one. -/
def join (x y : Tile) : Tile := gap (x.len + y.len) (Nat.add_pos_left x.nonempty y.len)

theorem joins : Joins free join len where
  len_join _ _ _ _ := rfl
  free_join _ _ _ _ := rfl

/-- The memory after the two neighbours of a block were linked to each other. -/
def released (s : BoundaryTags) (p next : ℕ) : Memory :=
  linkPrev (linkNext s.memory s.trusted p next) next p

theorem release_eq {x p next : ℕ} (hp : getPrev s.memory x = p) (hnext : getNext s.memory x = next)
    (hfar : p = s.trusted ∨ Apart p x) :
    release s x = { s with
      memory := released s p next
      firstBlock := if p = s.trusted then next else s.firstBlock } := by
  have hsame : SameHeader (linkNext s.memory s.trusted p next) s.memory x :=
    sameHeader_linkNext hfar
  have hsame' := hsame
  unfold release released
  simp only [hp, hnext]
  unfold linkNext at *
  by_cases hpt : p = s.trusted
  · simp only [hpt, if_true, hp, hnext]
    unfold linkPrev
    split <;> rfl
  · rw [if_neg hpt] at hsame
    simp only [if_neg hpt, hsame.next, hsame.prev, hp, hnext]
    unfold linkPrev
    split <;> rfl

theorem lastBlock_far (s : BoundaryTags) (pre : List Tile) :
    lastBlock s pre = s.trusted ∨ Apart (lastBlock s pre) (base s + span len pre) := by
  rcases lastBlock_cases s pre with ⟨-, hp⟩ | ⟨-, -, hp⟩
  · exact Or.inl hp
  · exact Or.inr (Or.inl hp)

theorem blocks_joined {xs : List Tile} {v w : Tile} (hj : JoinLeft free join pre v xs w)
    (hv : v.free = true) (a : ℕ) (post : List Tile) :
    blocks a (xs ++ joinRight free join w post) =
      blocks a pre ++ blocks (a + span len pre + v.len) post := by
  have hspan := hj.span_eq joins hv
  have hleft : blocks a xs = blocks a pre := hj.filterMap_eq held_of_free a
  have hright : blocks (a + span len xs) (joinRight free join w post) =
      blocks (a + span len xs + w.len) post :=
    filterMap_joinRight joins held_of_free _ post (hj.free_eq joins hv)
  rw [blocks_append, hleft, hright]
  congr 2
  omega

/-- The pool after a block was unlinked. -/
def unlinked (s : BoundaryTags) (p next : ℕ) : BoundaryTags :=
  { s with memory := released s p next, firstBlock := if p = s.trusted then next else s.firstBlock }

theorem Pool.unlinked_pool (h : Pool s (pre ++ t :: post)) (ht : t.free = false) {xs : List Tile}
    {w : Tile} (hj : JoinLeft free join pre (gap t.len t.nonempty) xs w) :
    Pool (unlinked s (lastBlock s pre)
        ((addresses (base s + span len pre + t.len) post).headD 0))
      (xs ++ joinRight free join w post) := by
  obtain ⟨haround, hpair⟩ := h.around
  have hlow := fun y hy => (haround y hy).1
  have hbound := h.bounded
  have htiles := h.tiles
  rw [span_append, span_cons] at htiles
  have hblocks := blocks_joined hj rfl (base s) post
  rw [len_gap] at hblocks
  have haddresses : addresses (base s) (xs ++ joinRight free join w post) =
      addresses (base s) pre ++ addresses (base s + span len pre + t.len) post := by
    rw [addresses, hblocks, List.map_append]
    rfl
  have hlinked := h.linked
  have hheaders := h.headers
  rw [addresses_append, addresses_cons_held post ht] at hlinked
  rw [blocks_append, blocks_cons_held post ht] at hheaders
  have hlast64 : lastBlock s pre < 2 ^ 64 := by
    have hb := base_eq s
    rcases lastBlock_cases s pre with ⟨-, hp⟩ | ⟨-, -, hp⟩ <;> omega
  have hnext64 : (addresses (base s + span len pre + t.len) post).headD 0 < 2 ^ 64 := by
    cases hys : addresses (base s + span len pre + t.len) post with
    | nil => exact Nat.two_pow_pos 64
    | cons y ys => exact (haround y (by simp [hys])).2.2
  have hrelinked := relinked_next_prev (m := s.memory) hpair hlow hlast64 hnext64
  exact {
    nonnull := h.nonnull
    bounded := hbound
    room := h.room
    tiles := by
      have hspan := hj.span_eq joins rfl
      rw [len_gap] at hspan
      rw [span_append, span_joinRight joins post (hj.free_eq joins rfl), ← Nat.add_assoc, hspan]
      show span len pre + t.len + span len post = s.memSize
      omega
    first := by
      show (if lastBlock s pre = s.trusted then
        (addresses (base s + span len pre + t.len) post).headD 0 else s.firstBlock) =
        (addresses (base s) (xs ++ joinRight free join w post)).headD 0
      rw [haddresses]
      exact h.first_append _
    linked := by
      show Linked (getNext _) (getPrev _) s.trusted
        (addresses (base s) (xs ++ joinRight free join w post)) 0
      rw [haddresses]
      exact hlinked.remove (nodup_of_pairwise hpair) hrelinked.next hrelinked.prev
    headers := by
      show Headers _ s.trusted (blocks (base s) (xs ++ joinRight free join w post))
      rw [hblocks]
      apply hrelinked.headers
      intro q hq
      apply hheaders q
      rcases List.mem_append.mp hq with hq | hq
      · exact List.mem_append_left _ hq
      · exact List.mem_append_right _ (List.mem_cons_of_mem _ hq)
    coalesced := hj.coalesced joins rfl h.coalesced }

theorem Pool.header_eq (h : Pool s (pre ++ t :: post)) (ht : t.free = false) :
    sizeSub (base s + span len pre + 32) blockMetadataSize = base s + span len pre := by
  have hbound := h.bounded
  have htiles := h.tiles
  have hbase := base_eq s
  have hlen := len_of_held ht
  rw [span_append, span_cons] at htiles
  show (base s + span len pre + 32 + (2 ^ 64 - 32 % 2 ^ 64)) % 2 ^ 64 = _
  omega

/-- Returning an occupied block leaves a gap, joined with the gaps next to it. -/
theorem deallocate_spec (h : Pool s (pre ++ t :: post)) (ht : t.free = false) :
    ∃ xs w s', JoinLeft free join pre (gap t.len t.nonempty) xs w ∧
      s.deallocate (base s + span len pre + 32) = .ok s' ∧
      s'.trusted = s.trusted ∧ s'.memSize = s.memSize ∧
      Pool s' (xs ++ joinRight free join w post) := by
  obtain ⟨-, -, htm, hprev, hnext⟩ := h.held_header ht
  obtain ⟨xs, w, hj⟩ := joinLeft_exists free join pre (gap t.len t.nonempty)
  have hpool := h.unlinked_pool ht hj
  have hrelease : release s (base s + span len pre) = unlinked s (lastBlock s pre)
      ((addresses (base s + span len pre + t.len) post).headD 0) :=
    release_eq hprev hnext (lastBlock_far s pre)
  have hok : s.deallocate (base s + span len pre + 32) = .ok (unlinked s (lastBlock s pre)
      ((addresses (base s + span len pre + t.len) post).headD 0)) := by
    unfold deallocate
    simp only [h.header_eq ht, hrelease, if_neg (not_not.mpr htm), bind, Except.bind, hpool.report_ok]
    rfl
  exact ⟨xs, w, _, hj, hok, rfl, rfl, hpool⟩

/-! ### Every reachable state -/

/-- What the code's own headers and walks show of a pool with the tiles `ts`: the linked
blocks in order of their addresses, and what lies between them. -/
structure PoolInvariant (s : BoundaryTags) (live : List (ℕ × ℕ)) (ts : List Tile) : Prop where
  first : s.firstBlock = (addresses (base s) ts).headD 0
  linked : Linked (getNext s.memory) (getPrev s.memory) s.trusted (addresses (base s) ts) 0
  inverse : ∀ x ∈ addresses (base s) ts,
    (getNext s.memory x ≠ 0 → getPrev s.memory (getNext s.memory x) = x) ∧
      (getPrev s.memory x ≠ s.trusted → getNext s.memory (getPrev s.memory x) = x)
  ascending : (addresses (base s) ts).Pairwise (· < ·)
  disjoint : (addresses (base s) ts).Pairwise (fun x y => blockEnd s.memory x ≤ y)
  inside : ∀ x ∈ addresses (base s) ts, base s ≤ x ∧ blockEnd s.memory x ≤ allocatorEnd s
  granted : live.Perm (grants len request 32 (base s) ts)
  live_iff : ∀ x, x ∈ addresses (base s) ts ↔ ∃ size, (x + 32, size) ∈ live
  fits : ∀ p size, (p, size) ∈ live → size ≤ getBlockSize s.memory (p - 32)
  walk : s.getBlocksInfo = .ok (ts.map (fun t => (t.len, !t.free)))
  nonempty : ∀ t ∈ ts, 0 < t.len
  alternating : Coalesced free ts
  total : span len ts = s.memSize

theorem mem_grants_iff {a p : ℕ} {ts : List Tile} :
    (∃ size, (p, size) ∈ grants len request 32 a ts) ↔ ∃ x ∈ addresses a ts, p = x + 32 := by
  constructor
  · rintro ⟨size, hm⟩
    obtain ⟨pre, t, post, rfl, hr, rfl⟩ := mem_grants len request 32 hm
    have ht : t.free = false := t.held_iff.mpr ⟨size, hr⟩
    refine ⟨a + span len pre, ?_, rfl⟩
    rw [addresses_append, addresses_cons_held post ht]
    simp
  · rintro ⟨x, hx, rfl⟩
    obtain ⟨⟨y, t⟩, hm, rfl⟩ := List.mem_map.mp hx
    obtain ⟨hp, hf⟩ := mem_blocks hm
    obtain ⟨pre, post, rfl, rfl⟩ := (mem_placed_iff len).mp hp
    obtain ⟨r, hr⟩ := t.held_iff.mp hf
    refine ⟨r, ?_⟩
    rw [grants_append, grants_cons_some len request 32 hr]
    simp

theorem Pool.blockEnd_of_mem {ts : List Tile} (h : Pool s ts) {p : ℕ × Tile}
    (hp : p ∈ blocks (base s) ts) : blockEnd s.memory p.1 = p.1 + p.2.len := by
  have hsize := (h.headers p hp).1
  rw [blockEnd_eq]
  omega

theorem Pool.invariant {ts : List Tile} {live : List (ℕ × ℕ)} (h : Pool s ts)
    (hlive : live.Perm (grants len request 32 (base s) ts)) : PoolInvariant s live ts where
  first := h.first
  linked := h.linked
  inverse x hx := by
    obtain ⟨xs, ys, he⟩ := List.append_of_mem hx
    have hl := h.linked
    rw [he] at hl
    obtain ⟨-, hprev, hnext, hys⟩ := linked_append.mp hl
    constructor
    · intro hne
      cases ys with
      | nil => exact absurd hnext hne
      | cons y ys =>
        rw [hnext]
        exact hl.inverse.2
    · intro hne
      rw [List.getLastD_eq_getLast?] at hprev
      cases hxs : xs.getLast? with
      | none =>
        rw [hxs] at hprev
        exact absurd hprev hne
      | some l =>
        obtain ⟨zs, rfl⟩ := List.getLast?_eq_some_iff.mp hxs
        rw [hxs] at hprev
        rw [List.append_assoc, List.singleton_append] at hl
        rw [hprev]
        exact hl.inverse.1
  ascending := addresses_ascending _ _
  disjoint := by
    rw [addresses, List.pairwise_map]
    have hpair : (blocks (base s) ts).Pairwise (fun p q => p.1 + p.2.len ≤ q.1) := by
      rw [blocks, List.pairwise_filterMap]
      refine (placed_pairwise len (base s) ts).imp ?_
      intro p q hpq p' hp q' hq
      obtain ⟨rfl, -⟩ := held_eq_some hp
      obtain ⟨rfl, -⟩ := held_eq_some hq
      exact hpq
    refine hpair.imp_of_mem ?_
    intro p q hp _ hpq
    rw [h.blockEnd_of_mem hp]
    exact hpq
  inside x hx := by
    obtain ⟨p, hp, rfl⟩ := List.mem_map.mp hx
    have hb := placed_bounds len (mem_blocks hp).1
    rw [h.blockEnd_of_mem hp, allocatorEnd_eq, ← h.tiles]
    exact hb
  granted := hlive
  live_iff x := by
    have hm : (∃ size, (x + 32, size) ∈ live) ↔
        ∃ size, (x + 32, size) ∈ grants len request 32 (base s) ts := by
      simp only [hlive.mem_iff]
    rw [hm, mem_grants_iff]
    constructor
    · exact fun hx => ⟨x, hx, rfl⟩
    · rintro ⟨y, hy, he⟩
      rwa [Nat.add_right_cancel he]
  fits p size hm := by
    obtain ⟨pre, t, post, rfl, hr, rfl⟩ := mem_grants len request 32 (hlive.mem_iff.mp hm)
    have hsize := (h.held_header (t.held_iff.mpr ⟨size, hr⟩)).2.1
    have hfit := t.fits size hr
    rw [Nat.add_sub_cancel]
    omega
  walk := h.getBlocksInfo_eq
  nonempty t _ := t.nonempty
  alternating := h.coalesced
  total := h.tiles

/-! ### What a call keeps -/

theorem construct_pool {trusted n : ℕ} {mode : FitMode} {m : Memory} {fresh : BoundaryTags}
    (ht : 0 < trusted) (hbound : trusted + n + 80 < 2 ^ 64)
    (hc : construct trusted n mode m = .ok fresh) :
    ∃ hn : 0 < n, Pool fresh [gap n hn] ∧ fresh.trusted = trusted ∧ fresh.memSize = n := by
  unfold construct at hc
  split at hc
  case isTrue hlt => cases hc
  case isFalse hge =>
    have hn : 32 ≤ n := not_lt.mp hge
    cases hc
    refine ⟨by omega, ?_, rfl, rfl⟩
    have hblocks (a : ℕ) : blocks a [gap n (by omega)] = [] := blocks_cons_free [] rfl
    exact {
      nonnull := ht
      bounded := hbound
      room := hn
      tiles := Nat.add_zero n
      first := by rw [addresses, hblocks]; rfl
      linked := by rw [addresses, hblocks]; trivial
      headers := by
        rw [hblocks]
        intro p hp
        cases hp
      coalesced := List.isChain_singleton _ }

theorem Pool.setMode {ts : List Tile} (h : Pool s ts) (mode : FitMode) :
    Pool { s with fitMode := mode } ts :=
  ⟨h.nonnull, h.bounded, h.room, h.tiles, h.first, h.linked, h.headers, h.coalesced⟩

theorem Pool.write (h : Pool s (pre ++ t :: post)) (ht : t.free = false) {x : ℕ} (v : UInt8)
    (hlo : base s + span len pre + 32 ≤ x) (hhi : x < base s + span len pre + t.len) :
    Pool { s with memory := Function.update s.memory x v } (pre ++ t :: post) := by
  have hsame (p : ℕ × Tile) (hp : p ∈ blocks (base s) (pre ++ t :: post)) :
      SameHeader (Function.update s.memory x v) s.memory p.1 := by
    apply agreeOn_update
    have hb := len_of_held ht
    rw [blocks_append, blocks_cons_held post ht, List.mem_append, List.mem_cons] at hp
    rcases hp with hp | rfl | hp
    · have hlt := addresses_bounds (List.mem_map_of_mem hp)
      omega
    · dsimp only
      omega
    · have hlt := addresses_bounds (List.mem_map_of_mem hp)
      omega
  refine ⟨h.nonnull, h.bounded, h.room, h.tiles, h.first, h.linked.congr ?_ ?_, ?_, h.coalesced⟩
  · intro y hy
    obtain ⟨p, hp, rfl⟩ := List.mem_map.mp hy
    exact (hsame p hp).next
  · intro y hy
    obtain ⟨p, hp, rfl⟩ := List.mem_map.mp hy
    exact (hsame p hp).prev
  · intro p hp
    rw [(hsame p hp).blockSize, (hsame p hp).tmPtr]
    exact h.headers p hp

/-- What is kept along a run. -/
def Kept (trusted n : ℕ) (s : BoundaryTags) (live : List (ℕ × ℕ)) : Prop :=
  s.trusted = trusted ∧ s.memSize = n ∧
    ∃ ts, Pool s ts ∧ live.Perm (grants len request 32 (base s) ts)

variable {trusted n : ℕ}

theorem Kept.allocate {s' : BoundaryTags} {live : List (ℕ × ℕ)} {size p : ℕ}
    (h : Kept trusted n s live) (hsize : size + 32 < 2 ^ 64)
    (ha : s.allocate size = .ok (p, s')) : Kept trusted n s' ((p, size) :: live) := by
  obtain ⟨ht, hn, ts, hpool, hlive⟩ := h
  rcases allocate_spec hpool hsize with herr | ⟨pre, t, post, s'', hfit, rfl, hf, hok, ht', hn', hp⟩
  · rw [ha] at herr
    cases herr
  · rw [ha] at hok
    cases hok
    have hbase : base s' = base s := by rw [base_eq, base_eq, ht']
    refine ⟨ht'.trans ht, hn'.trans hn, _, hp, ?_⟩
    rw [hbase, grants_append, grants_carve hfit]
    rw [grants_append, grants_cons_none len request 32 (t.free_iff.mp hf)] at hlive
    exact (hlive.cons _).trans List.perm_middle.symm

theorem Kept.deallocate {live : List (ℕ × ℕ)} {size p : ℕ}
    (h : Kept trusted n s live) (hm : (p, size) ∈ live) :
    ∃ s', s.deallocate p = .ok s' ∧ Kept trusted n s' (live.erase (p, size)) := by
  obtain ⟨ht, hn, ts, hpool, hlive⟩ := h
  obtain ⟨pre, t, post, rfl, hr, rfl⟩ := mem_grants len request 32 (hlive.mem_iff.mp hm)
  obtain ⟨xs, w, s', hj, hok, ht', hn', hp⟩ :=
    deallocate_spec hpool (t.held_iff.mpr ⟨size, hr⟩)
  have hbase : base s' = base s := by rw [base_eq, base_eq, ht']
  refine ⟨s', hok, ht'.trans ht, hn'.trans hn, _, hp, ?_⟩
  rw [grants_append, grants_cons_some len request 32 hr] at hlive
  rw [hbase, hj.grants_eq joins 32 (fun t ht => t.free_iff.mp ht) rfl]
  exact ((List.perm_cons_erase hm).symm.trans (hlive.trans List.perm_middle)).cons_inv

/-- Sizes for which `do_allocate_sm` computes the size of the block without a wrap. -/
def NoWrap (size : ℕ) : Prop := size + 32 < 2 ^ 64

theorem keeps : ops.Keeps NoWrap (Kept trusted n) where
  allocate h hsize ha := h.allocate hsize ha
  deallocate h hm hd := by
    obtain ⟨s', hok, hk⟩ := h.deallocate hm
    rw [show ops.deallocate _ _ = _ from hok] at hd
    cases hd
    exact hk
  setMode mode h := by
    obtain ⟨ht, hn, ts, hpool, hlive⟩ := h
    exact ⟨ht, hn, ts, hpool.setMode mode, hlive⟩
  write v h hm hw := by
    obtain ⟨ht, hn, ts, hpool, hlive⟩ := h
    obtain ⟨pre, t, post, rfl, hr, rfl⟩ := mem_grants len request 32 (hlive.mem_iff.mp hm)
    have hfit := t.fits _ hr
    exact ⟨ht, hn, _, hpool.write (t.held_iff.mpr ⟨_, hr⟩) v hw.1 (hw.2.trans_le (by omega)), hlive⟩

theorem total : ops.Total NoWrap (Kept trusted n) where
  allocate h hsize := by
    obtain ⟨-, -, ts, hpool, -⟩ := h
    rcases allocate_spec hpool hsize with herr | ⟨pre, t, post, s', -, -, -, hok, -⟩
    · exact Or.inr herr
    · exact Or.inl ⟨_, s', hok⟩
  deallocate h hm := by
    obtain ⟨s', hok, -⟩ := h.deallocate hm
    exact ⟨s', hok⟩

end MaiFaSp.BoundaryTags
