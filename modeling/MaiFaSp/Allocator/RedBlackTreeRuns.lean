import MaiFaSp.Allocator.RedBlackTreeInvariant

/-!
# `allocator_red_black_tree`: runs

With a record for every header any block has room for it. In bytes the header of a free
block needs more room than that of an occupied one, and a run is fine while every block
it makes has that room.
-/

namespace MaiFaSp.RedBlackAllocator

open Tiling DoublyLinked LinkedTree Tile

open HeaderMemory (get)

section

variable {σ : Type} [HeaderMemory σ] {g : ℕ} {Within : σ → σ → ℕ → ℕ → Prop}
  {s s' : RedBlackAllocator σ} {x p : ℕ} {pre post ts : List Tile} {t : Tile}

/-- What the headers show of the blocks `bs` and of the nodes `xs` of the tree. -/
structure PoolInvariant (s : RedBlackAllocator σ) (bs xs : List ℕ) : Prop where
  first : bs.head? = some (base s)
  linked : Linked (forward s) (back s) 0 bs 0
  tiles : bs.IsChain fun x y => x + blockMetadataSize + getSize s x = y
  last : ∀ x, bs.getLast? = some x → x + blockMetadataSize + getSize s x = allocatorEnd s
  alternating : bs.IsChain fun x y => occupied s x = true ∨ occupied s y = true
  tree : InOrder (heap s) xs
  free : xs.Perm (bs.filter fun x => !occupied s x)
  sorted : xs.Pairwise fun x y => getSize s x ≤ getSize s y

theorem freeAddresses_eq_filter (a : ℕ) (ts : List Tile)
    (h : ∀ q ∈ placed len a ts, occupied s q.1 = !q.2.free) :
    freeAddresses a ts = (addresses a ts).filter fun x => !occupied s x := by
  induction ts generalizing a with
  | nil => rfl
  | cons t ts ih =>
    have ht := h (a, t) (List.mem_cons_self ..)
    have hts := ih _ fun q hq => h q (List.mem_cons_of_mem _ hq)
    dsimp only at ht
    rw [addresses_cons, List.filter_cons, ht, ← hts]
    cases hf : t.free with
    | true => exact freeAddresses_cons_free ts hf
    | false => exact freeAddresses_cons_held ts hf

theorem tiles_chain {a : ℕ} {ts : List Tile}
    (h : ∀ q ∈ placed len a ts, blockMetadataSize + getSize s q.1 = q.2.len) :
    (addresses a ts).IsChain fun x y => x + blockMetadataSize + getSize s x = y := by
  induction ts generalizing a with
  | nil => exact List.IsChain.nil
  | cons t ts ih =>
    have ht := h (a, t) (List.mem_cons_self ..)
    have hts := ih fun q hq => h q (List.mem_cons_of_mem _ hq)
    cases ts with
    | nil => exact List.isChain_singleton _
    | cons u us =>
      rw [addresses_cons, addresses_cons, List.isChain_cons_cons]
      rw [addresses_cons] at hts
      refine ⟨?_, hts⟩
      dsimp only at ht
      omega

theorem coalesced_chain {a : ℕ} {ts : List Tile} (hc : Coalesced free ts)
    (h : ∀ q ∈ placed len a ts, occupied s q.1 = !q.2.free) :
    (addresses a ts).IsChain fun x y => occupied s x = true ∨ occupied s y = true := by
  induction ts generalizing a with
  | nil => exact List.IsChain.nil
  | cons t ts ih =>
    have ht := h (a, t) (List.mem_cons_self ..)
    cases ts with
    | nil => exact List.isChain_singleton _
    | cons u us =>
      have hc' : List.IsChain (fun b c => ¬ (b.free = true ∧ c.free = true)) (t :: u :: us) := hc
      obtain ⟨htu, hc'⟩ := List.isChain_cons_cons.mp hc'
      have hts := ih (a := a + t.len) hc' fun q hq => h q (List.mem_cons_of_mem _ hq)
      have hu := h (a + t.len, u) (by simp)
      rw [addresses_cons, addresses_cons, List.isChain_cons_cons]
      rw [addresses_cons] at hts
      refine ⟨?_, hts⟩
      rw [ht, hu]
      cases hf : t.free with
      | true => exact Or.inr (by simpa [hf] using htu)
      | false => exact Or.inl rfl

theorem Pool.getSize_of_mem (hL : LawfulHeaders σ g Within) (h : Pool g s ts) {q : ℕ × Tile}
    (hq : q ∈ placed len (base s) ts) : blockMetadataSize + getSize s q.1 = q.2.len := by
  obtain ⟨pre, post, rfl, hx⟩ := (mem_placed_iff len).mp hq
  have hsize := h.listing.getSize_eq hL
  have hwide := h.listing.wide q.2 (by simp)
  have hroom := hL.room
  rw [hx, hsize]
  omega

theorem Pool.invariant (hL : LawfulHeaders σ g Within) (h : Pool g s ts) :
    ∃ bs xs, PoolInvariant s bs xs := by
  obtain ⟨xs, htree, hperm⟩ := h.tree
  have hflags := h.listing.flags
  refine ⟨addresses (base s) ts, xs, ?_, h.listing.linked, tiles_chain fun q hq => h.getSize_of_mem hL hq,
    ?_, coalesced_chain h.coalesced hflags, htree.inOrder, ?_, htree.sorted⟩
  · cases ts with
    | nil => exact absurd rfl h.listing.room
    | cons t ts => rfl
  · intro x hx
    rcases List.eq_nil_or_concat ts with rfl | ⟨pre, t, rfl⟩
    · exact absurd rfl h.listing.room
    · rw [List.concat_eq_append] at h hx
      have htiles := h.listing.tiles
      have hend : allocatorEnd s = base s + s.size := rfl
      have hsize := h.getSize_of_mem hL (q := (base s + span len pre, t))
        ((mem_placed_iff len).mpr ⟨pre, [], rfl, rfl⟩)
      rw [addresses_append, addresses_cons, addresses_nil, List.getLast?_concat] at hx
      cases hx
      rw [span_append, span_cons, span_nil] at htiles
      dsimp only at hsize
      omega
  · rw [← freeAddresses_eq_filter _ _ hflags]
    exact hperm

end

/-! ### Headers as records -/

section

variable {trusted n : ℕ}

/-- A pool without room for a header has a block whose size has wrapped. -/
theorem small_pool_inconsistent {mode : FitMode} {m : Records} {s : RedBlackAllocator Records}
    (ht : 0 < trusted) (hregion : trusted + n + 80 < 2 ^ 64) (hn : n < blockMetadataSize)
    (hok : construct trusted n mode m = .ok s) : ¬ ∃ bs xs, PoolInvariant s bs xs := by
  rintro ⟨bs, xs, h⟩
  obtain ⟨htrusted, hsize, -, hx⟩ := construct_header Records.lawful hok
  have hforward : forward s (base s) = 0 := congrArg Header.forward hx
  have hbase : base s = trusted + 80 := by unfold base; rw [htrusted]; rfl
  have hend : allocatorEnd s = base s + n := by unfold allocatorEnd; rw [hsize]
  have hwrapped : getSize s (base s) = n + 2 ^ 64 - 25 := by
    unfold getSize
    rw [hforward, if_neg (not_not.mpr rfl), hend]
    unfold blockMetadataSize at hn ⊢
    have hspan : sizeSub (base s + n) (base s) = base s + n - base s :=
      sizeSub_of_le (by omega) (by omega)
    rw [hspan, Nat.add_sub_cancel_left]
    unfold sizeSub
    omega
  cases bs with
  | nil => cases h.first
  | cons b rest =>
    have hb : b = base s := Option.some.inj h.first
    subst hb
    cases rest with
    | nil =>
      have hlast := h.last (base s) rfl
      rw [hwrapped, hend] at hlast
      unfold blockMetadataSize at hlast hn
      omega
    | cons y ys =>
      have hnext : forward s (base s) = y := h.linked.2.1
      have htiles := (List.isChain_cons_cons.mp h.tiles).1
      omega

/-- In every state that calls on the pool lead to, the list tiles the pool and the tree holds the
free blocks by their sizes, exactly if the pool has room for the first header. -/
theorem consistent_iff (trusted n : ℕ) (mode : FitMode) (m : Records) (ht : 0 < trusted)
    (hregion : trusted + n + 80 < 2 ^ 64) (fresh : RedBlackAllocator Records)
    (hc : construct trusted n mode m = .ok fresh) :
    (∀ c, ops.Reachable (fun _ => True) fresh c → ∃ bs xs, PoolInvariant c.state bs xs) ↔
      blockMetadataSize ≤ n := by
  constructor
  · intro h
    by_contra hn
    exact small_pool_inconsistent ht hregion (by omega) hc (h ⟨fresh, []⟩ Relation.ReflTransGen.refl)
  · intro hn c hr
    obtain ⟨hpool, htrusted, hsize, -⟩ := construct_pool Records.lawful ht hregion hn hc
    have hfresh : Kept blockMetadataSize trusted n fresh [] :=
      ⟨htrusted, hsize, _, hpool, by rw [grants_cons_none len request _ rfl, grants_nil]⟩
    obtain ⟨-, -, ts, hpool', -⟩ := (keeps Records.lawful fun _ _ => Nat.le_add_right ..).reachable hfresh hr
    exact hpool'.invariant Records.lawful

def emptyRecords : Records := fun _ => ⟨false, 0, 0, ⟨0, 0, 0, .black⟩⟩

theorem consistent_iff_small :
    match construct 4096 25 .firstFit emptyRecords with
    | .ok s => ∃ bs xs, PoolInvariant s bs xs
    | .error _ => False :=
  (consistent_iff 4096 25 .firstFit emptyRecords (by decide) (by decide) _ rfl).mpr (by decide) ⟨_, []⟩
    Relation.ReflTransGen.refl

/-- A pool of 10 bytes grants 100, and the rest of them lies behind its end. -/
theorem small_pool_overrun :
    (match construct 4096 10 .firstFit emptyRecords with
    | .ok s => ¬ ∃ bs xs, PoolInvariant s bs xs
    | .error _ => False) ∧
    (do
      let s ← construct 4096 10 .firstFit emptyRecords
      let (p, s) ← allocate s 100
      pure (p, forward s (base s), allocatorEnd s)) = .ok (4201, 4301, 4186) := by
  constructor
  · have hc : construct 4096 10 .firstFit emptyRecords = .ok _ := rfl
    refine small_pool_inconsistent ?_ ?_ ?_ hc <;> decide
  · decide +kernel

end

/-! ### Headers in bytes -/

section

variable {trusted n : ℕ}

/-- A block ends where the next one starts or, for the last one, where the pool ends. -/
def blockEnd (s : RedBlackAllocator Memory) (x : ℕ) : ℕ :=
  if forward s x ≠ 0 then forward s x else allocatorEnd s

/-- The blocks `bs` of the list have room for a free block's header each. The parent and the children
written to one of them leave the headers of the others. -/
structure HeadersApart (s : RedBlackAllocator Memory) (bs : List ℕ) : Prop where
  first : bs.head? = some (base s)
  linked : Linked (forward s) (back s) 0 bs 0
  wide : ∀ x ∈ bs, x + freeBlockMetadataSize ≤ blockEnd s x
  unwritten : ∀ x ∈ bs, ∀ y ∈ bs, y ≠ x → ∀ c a, y ≤ a → a < y + blockMetadataSize →
    HeaderMemory.setNode s.memory x c a = s.memory a

theorem Pool.headersApart {s : RedBlackAllocator Memory} {ts : List Tile}
    (h : Pool freeBlockMetadataSize s ts) : HeadersApart s (addresses (base s) ts) where
  first := by
    cases ts with
    | nil => exact absurd rfl h.listing.room
    | cons t ts => rfl
  linked := h.listing.linked
  wide := by
    intro x hx
    obtain ⟨t, hm⟩ := mem_addresses.mp hx
    obtain ⟨pre, post, rfl, hat⟩ := (mem_placed_iff len).mp hm
    have hforward := h.listing.header.2.1
    have hwide := h.listing.wide t (by simp)
    have hb := h.listing.bounds mem_addresses_self
    rw [← hat] at hforward hb
    unfold blockEnd
    rw [hforward]
    by_cases hpost : post = []
    · rw [if_pos hpost, if_neg (not_not.mpr rfl)]
      exact hb.2
    · rw [if_neg hpost, if_pos (by unfold freeBlockMetadataSize at hwide; omega)]
      omega
  unwritten := by
    intro x hx y hy hne c a hlow hhigh
    have hapart := (h.listing.grid hx hy).resolve_left hne
    unfold Apart freeBlockMetadataSize at hapart
    unfold blockMetadataSize at hhigh
    exact Bytes.lawful.within_setNode s.memory x c a (by unfold freeBlockMetadataSize; omega)

/-- A call whose new blocks have room for the header of a free block, or another step. -/
inductive RoomyStep : Client (RedBlackAllocator Memory) → Client (RedBlackAllocator Memory) → Prop
  | allocate {s s' live size p}
      (hsize : freeBlockMetadataSize ≤ blockMetadataSize + size ∨
        ∀ b, getFreeBlock s size = .ok b → ¬ canSplit s b size)
      (h : allocate s size = .ok (p, s')) : RoomyStep ⟨s, live⟩ ⟨s', (p, size) :: live⟩
  | other {c c'} (h : ops.Step (fun _ => False) c c') : RoomyStep c c'

theorem roomy_kept {c c' : Client (RedBlackAllocator Memory)}
    (hr : Relation.ReflTransGen RoomyStep c c')
    (h : Kept freeBlockMetadataSize trusted n c.state c.live) :
    Kept freeBlockMetadataSize trusted n c'.state c'.live := by
  induction hr with
  | refl => exact h
  | tail _ hs ih =>
    cases hs with
    | allocate hsize hok =>
      refine ih.allocate Bytes.lawful ?_ hok
      intro b hb hcan
      exact hsize.resolve_right fun hnever => hnever b hb hcan
    | other hs => exact (keeps Bytes.lawful fun _ hf => hf.elim).step ih hs

/-- From a pool with room for one free block on, the blocks keep that room while every allocation asks
for at least 16 bytes or cuts no block. -/
theorem headers_apart (trusted n : ℕ) (mode : FitMode) (m : Memory) (ht : 0 < trusted)
    (hregion : trusted + n + 80 < 2 ^ 64) (hn : freeBlockMetadataSize ≤ n)
    (fresh : RedBlackAllocator Memory) (hc : construct trusted n mode m = .ok fresh)
    (c : Client (RedBlackAllocator Memory)) (hr : Relation.ReflTransGen RoomyStep ⟨fresh, []⟩ c) :
    ∃ bs, HeadersApart c.state bs := by
  obtain ⟨hpool, htrusted, hsize, -⟩ := construct_pool Bytes.lawful ht hregion hn hc
  have hfresh : Kept freeBlockMetadataSize trusted n fresh [] :=
    ⟨htrusted, hsize, _, hpool, by rw [grants_cons_none len request _ rfl, grants_nil]⟩
  obtain ⟨-, -, ts, hpool', -⟩ := roomy_kept hr hfresh
  exact ⟨_, hpool'.headersApart⟩

theorem headers_apart_one : ∃ s p s', construct 4096 300 .firstFit (fun _ => 0 : Memory) = .ok s ∧
    s.allocate 16 = .ok (p, s') ∧ ∃ bs, HeadersApart s' bs := by
  have hok : (do
      let s ← construct 4096 300 .firstFit (fun _ => 0 : Memory)
      allocate s 16).isOk = true := by decide +kernel
  cases h : (do
      let s ← construct 4096 300 .firstFit (fun _ => 0 : Memory)
      allocate s 16) with
  | error e =>
    rw [h] at hok
    cases hok
  | ok r =>
    obtain ⟨s, hc, ha⟩ := bind_eq_ok.mp h
    have hrun : Relation.ReflTransGen RoomyStep ⟨s, []⟩ ⟨r.2, [(r.1, 16)]⟩ :=
      .single (.allocate (Or.inl (by decide)) ha)
    exact ⟨s, r.1, r.2, hc, ha,
      headers_apart 4096 300 .firstFit _ (by decide) (by decide) (by decide) s hc _ hrun⟩

/-- A block of one byte is freed. Its tree links reach into the header behind it, and the list ends
there. -/
theorem narrow_block_overwrites :
    (do
      let s ← construct 4096 300 .firstFit (fun _ => 0 : Memory)
      let (a, s) ← allocate s 1
      let (_, s) ← allocate s 20
      let before ← blocksFrom s 10 (base s)
      let s ← deallocate s a
      let after ← blocksFrom s 10 (base s)
      pure (before, after)) =
    .ok ([(1, true), (20, true), (204, false)], [(1, false), (249, false)]) := by
  decide +kernel

end

end MaiFaSp.RedBlackAllocator
