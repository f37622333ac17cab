import MaiFaSp.Allocator.BoundaryTagsWalk

/-!
# `allocator_boundary_tags`: `do_allocate_sm` on a pool (`allocator_boundary_tags.cpp:57-145`)

The fit functions find a gap by the block before it. The new block starts where
the gap does and takes all of it when no other header would fit into the rest.
-/

namespace MaiFaSp.BoundaryTags

open Memory Tiling DoublyLinked Tile

variable {s : BoundaryTags} {pre post : List Tile} {t : Tile}

/-! ### The gap that is found -/

/-- A fit function finds nothing, or the block before a gap that is large enough. -/
def Found (s : BoundaryTags) (ts : List Tile) (total p : ℕ) : Prop :=
  p = 0 ∨ ∃ pre t post, ts = pre ++ t :: post ∧ t.free = true ∧ total ≤ t.len ∧
    p = lastBlock s pre

theorem Pool.found {ts : List Tile} (h : Pool s ts) {total : ℕ} {it : Iterator}
    (hm : it ∈ positions s [] ts) (hocc : it.occupied = false) (hsize : total ≤ it.size s) :
    Found s ts total it.occupiedPtr := by
  obtain ⟨xs, t, ys, rfl, rfl⟩ := mem_positions hm
  rw [List.nil_append] at hocc hsize ⊢
  rw [Pool.iterAt_occupied, Bool.not_eq_false'] at hocc
  rw [h.iterAt_size] at hsize
  refine Or.inr ⟨xs, t, ys, rfl, hocc, hsize, ?_⟩
  rw [iterAt, hocc, if_pos rfl]

theorem Pool.positions_nonnull {ts : List Tile} (h : Pool s ts) {it : Iterator}
    (hm : it ∈ positions s [] ts) : it.occupiedPtr ≠ 0 := by
  obtain ⟨xs, t, ys, rfl, rfl⟩ := mem_positions hm
  exact h.iterAt_nonnull

/-- The loop of a fit function, which takes gaps that are large enough only, and with
nothing found yet any such gap. -/
theorem Pool.search {ts : List Tile} (h : Pool s ts) {α : Type} {total : ℕ}
    {body : α → Iterator → ForInStep α} (out : Iterator → α) (ptr : α → ℕ)
    (hbody : ∀ r it, body r it = .yield r ∨ (it.occupied = false ∧ total ≤ it.size s) ∧
      (body r it = .yield (out it) ∨ body r it = .done (out it)))
    (hptr : ∀ it, ptr (out it) = it.occupiedPtr)
    (hhit : ∀ r it, ptr r = 0 → it.occupiedPtr ≠ 0 → it.occupied = false → total ≤ it.size s →
      0 < it.size s → body r it ≠ .yield r) {r : α} (hr : ptr r = 0) :
    Found s ts total (ptr (foldUntil body r (positions s [] ts))) ∧
      ((∃ t ∈ ts, t.free = true ∧ total ≤ t.len) →
        ptr (foldUntil body r (positions s [] ts)) ≠ 0) := by
  constructor
  · rcases foldUntil_found hbody r (positions s [] ts) with he | ⟨it, hm, ⟨hocc, hsize⟩, he⟩
    · rw [he]
      exact Or.inl hr
    · rw [he, hptr]
      exact h.found hm hocc hsize
  · rintro ⟨t, hm, ht, hle⟩
    obtain ⟨pre, post, rfl⟩ := List.append_of_mem hm
    have hocc : (iterAt s pre (t :: post)).occupied = false := by
      rw [Pool.iterAt_occupied, ht]
      rfl
    refine foldUntil_finds (fun r => ptr r ≠ 0) hbody (fun it hm => ?_)
      (positions_mem s [] pre t post) (fun r hr => ?_) r
    · rw [hptr]
      exact h.positions_nonnull hm
    · refine hhit r _ (not_not.mp hr) h.iterAt_nonnull hocc ?_ ?_
      · rw [List.nil_append, h.iterAt_size]
        exact hle
      · rw [List.nil_append, h.iterAt_size]
        exact t.nonempty

theorem Pool.getBlock_spec {ts : List Tile} (h : Pool s ts) (total : ℕ) :
    ∃ p, getBlock s total = .ok p ∧ Found s ts total p ∧
      ((∃ t ∈ ts, t.free = true ∧ total ≤ t.len) → p ≠ 0) := by
  unfold getBlock
  cases s.fitMode with
  | firstFit =>
    refine ⟨_, h.loop_begin _ _, h.search Iterator.occupiedPtr id ?_ (fun _ => rfl) ?_ rfl⟩
    · intro r it
      split
      case isTrue hc => exact Or.inr ⟨⟨by simpa using hc.1, hc.2⟩, Or.inr rfl⟩
      case isFalse hc => exact Or.inl rfl
    · intro r it _ _ hocc hsize _
      rw [if_pos ⟨by rw [hocc]; rfl, hsize⟩]
      intro heq
      cases heq
  | theBestFit =>
    simp only [getBlockBestFit, h.loop_begin, bind, Except.bind]
    refine ⟨_, rfl, h.search id Iterator.occupiedPtr ?_ (fun _ => rfl) ?_ rfl⟩
    · intro r it
      split
      case isTrue hc => exact Or.inr ⟨⟨by simpa using hc.1, hc.2.1⟩, Or.inl rfl⟩
      case isFalse hc => exact Or.inl rfl
    · intro r it hr hnull hocc hsize _
      rw [if_pos ⟨by rw [hocc]; rfl, hsize, Or.inr hr⟩]
      intro heq
      cases heq
      exact hnull hr
  | theWorstFit =>
    simp only [getBlockWorstFit, h.loop_begin, bind, Except.bind]
    refine ⟨_, rfl, h.search id Iterator.occupiedPtr ?_ (fun _ => rfl) ?_ rfl⟩
    · intro r it
      split
      case isTrue hc => exact Or.inr ⟨⟨by simpa using hc.1, hc.2.1⟩, Or.inl rfl⟩
      case isFalse hc => exact Or.inl rfl
    · intro r it hr hnull hocc hsize hpos
      have hzero : r.size s = 0 := by rw [Iterator.size, if_pos hr]
      rw [if_pos ⟨by rw [hocc]; rfl, hsize, by rw [hzero]; exact hpos⟩]
      intro heq
      cases heq
      exact hnull hr

/-! ### Carving a gap -/

/-- What a gap becomes when `size` bytes are granted from it. -/
def carve (t : Tile) (size : ℕ) (h : 32 + size ≤ t.len) : List Tile :=
  if hrest : size + 64 ≤ t.len then
    [block (size + 32) size (by omega), gap (t.len - (size + 32)) (by omega)]
  else [block t.len size h]

/-- The header and payload of the block carved from a gap of length `len`. -/
def carvedLen (len size : ℕ) : ℕ := if size + 64 ≤ len then size + 32 else len

theorem carvedLen_bounds {len size : ℕ} (h : 32 + size ≤ len) :
    size + 32 ≤ carvedLen len size ∧ carvedLen len size ≤ len := by
  unfold carvedLen
  split <;> omega

theorem span_carve {size : ℕ} (h : 32 + size ≤ t.len) : span len (carve t size h) = t.len := by
  unfold carve
  split
  · simp only [span_cons, span_nil, len_block, len_gap]
    omega
  · simp

theorem blocks_carve {size : ℕ} (h : 32 + size ≤ t.len) (a : ℕ) :
    ∃ b, blocks a (carve t size h) = [(a, b)] ∧ b.len = carvedLen t.len size := by
  unfold carve carvedLen
  split
  · refine ⟨block (size + 32) size (by omega), ?_, rfl⟩
    rw [blocks_cons_held _ rfl, blocks_cons_free _ rfl, blocks_nil]
  · refine ⟨block t.len size h, ?_, rfl⟩
    rw [blocks_cons_held _ rfl, blocks_nil]

theorem grants_carve {size : ℕ} (h : 32 + size ≤ t.len) (a : ℕ) (post : List Tile) :
    grants len request 32 a (carve t size h ++ post) =
      (a + 32, size) :: grants len request 32 (a + t.len) post := by
  have hc : grants len request 32 a (carve t size h) = [(a + 32, size)] := by
    unfold carve
    split
    · rw [grants_cons_some len request 32 rfl, grants_cons_none len request 32 rfl, grants_nil]
    · rw [grants_cons_some len request 32 rfl, grants_nil]
  rw [grants_append, hc, span_carve]
  rfl

theorem coalesced_carve {size : ℕ} (hc : Coalesced free (pre ++ t :: post)) (ht : t.free = true)
    (h : 32 + size ≤ t.len) : Coalesced free (pre ++ (carve t size h ++ post)) := by
  obtain ⟨hpre, hpost, -, hright⟩ := coalesced_append_cons.mp hc
  rw [ht] at hright
  unfold carve
  split
  · apply coalesced_append_cons.mpr
    refine ⟨hpre, ?_, by simp, by simp⟩
    exact coalesced_append_cons.mpr ⟨List.isChain_nil, hpost, by simp, by simpa using hright⟩
  · exact coalesced_append_cons.mpr ⟨hpre, hpost, by simp, by simp⟩

/-! ### The header that is written -/

/-- The four words of a header. -/
def writeHeader (m : Memory) (x n p next tm : ℕ) : Memory :=
  setTmPtr (setNext (setPrev (setBlockSize m x n) x p) x next) x tm

section

variable {m : Memory} {x n p next tm : ℕ}

theorem sameHeader_writeHeader {y : ℕ} (h : Apart x y) :
    SameHeader (writeHeader m x n p next tm) m y := by
  unfold Apart at h
  refine (agreeOn_store64 _ (x + 24) tm _ _ (by omega)).trans ?_
  refine (agreeOn_store64 _ (x + 8) next _ _ (by omega)).trans ?_
  refine (agreeOn_store64 _ (x + 16) p _ _ (by omega)).trans ?_
  exact agreeOn_store64 m x n _ _ (by omega)

theorem getBlockSize_setNext (m : Memory) (x v : ℕ) :
    getBlockSize (setNext m x v) x = getBlockSize m x :=
  load64_store64_of_disjoint m (x + 8) x v (by omega)

theorem getBlockSize_setPrev (m : Memory) (x v : ℕ) :
    getBlockSize (setPrev m x v) x = getBlockSize m x :=
  load64_store64_of_disjoint m (x + 16) x v (by omega)

theorem getBlockSize_setTmPtr (m : Memory) (x v : ℕ) :
    getBlockSize (setTmPtr m x v) x = getBlockSize m x :=
  load64_store64_of_disjoint m (x + 24) x v (by omega)

theorem getPrev_setNext (m : Memory) (x v : ℕ) : getPrev (setNext m x v) x = getPrev m x :=
  load64_store64_of_disjoint m (x + 8) (x + 16) v (by omega)

theorem getPrev_setTmPtr (m : Memory) (x v : ℕ) : getPrev (setTmPtr m x v) x = getPrev m x :=
  load64_store64_of_disjoint m (x + 24) (x + 16) v (by omega)

theorem getNext_setTmPtr (m : Memory) (x v : ℕ) : getNext (setTmPtr m x v) x = getNext m x :=
  load64_store64_of_disjoint m (x + 24) (x + 8) v (by omega)

theorem getBlockSize_writeHeader (h : n < 2 ^ 64) :
    getBlockSize (writeHeader m x n p next tm) x = n := by
  rw [writeHeader, getBlockSize_setTmPtr, getBlockSize_setNext, getBlockSize_setPrev]
  exact load64_store64 m x n h

theorem getPrev_writeHeader (h : p < 2 ^ 64) :
    getPrev (writeHeader m x n p next tm) x = p := by
  rw [writeHeader, getPrev_setTmPtr, getPrev_setNext]
  exact load64_store64 _ (x + 16) p h

theorem getNext_writeHeader (h : next < 2 ^ 64) :
    getNext (writeHeader m x n p next tm) x = next := by
  rw [writeHeader, getNext_setTmPtr]
  exact load64_store64 _ (x + 8) next h

theorem getTmPtr_writeHeader (h : tm < 2 ^ 64) :
    getTmPtr (writeHeader m x n p next tm) x = tm :=
  load64_store64 _ (x + 24) tm h

end

/-- The memory after a block of length `total` was put behind the block `p`. -/
def occupied (s : BoundaryTags) (p x total : ℕ) : Memory :=
  linkNext (linkPrev (writeHeader s.memory x (total - 32) p (blockAfter s p) s.trusted)
    (blockAfter s p) x) s.trusted p x

/-- `block->next_` is read after part of the new header is written. -/
theorem read_blockAfter {p x n : ℕ} (hp : p = s.trusted ∨ Apart x p) :
    (if p = s.trusted then s.firstBlock
      else getNext (setPrev (setBlockSize s.memory x n) x p) p) = blockAfter s p := by
  unfold blockAfter
  split
  case isTrue h => rfl
  case isFalse h =>
    have hap := hp.resolve_left h
    have hsize : SameHeader (setBlockSize s.memory x n) s.memory p :=
      agreeOn_store64 _ x _ _ _ (by unfold Apart at hap; omega)
    exact ((sameHeader_setPrev hap).trans hsize).next

/-! ### The whole call -/

theorem Pool.around (h : Pool s (pre ++ t :: post)) :
    (∀ y ∈ addresses (base s) pre ++ addresses (base s + span len pre + t.len) post,
      s.trusted < y ∧ (y + 32 ≤ base s + span len pre ∨ base s + span len pre + t.len ≤ y) ∧
        y < 2 ^ 64) ∧
    (addresses (base s) pre ++ addresses (base s + span len pre + t.len) post).Pairwise
      (fun x y => x + 32 ≤ y) := by
  have hb := base_eq s
  have htiles := h.tiles
  have hbound := h.bounded
  rw [span_append, span_cons] at htiles
  constructor
  · intro y hy
    rcases List.mem_append.mp hy with hm | hm
    · have hlt := addresses_bounds hm
      omega
    · have hlt := addresses_bounds hm
      omega
  · apply List.pairwise_append.mpr
    refine ⟨addresses_pairwise _ _, addresses_pairwise _ _, ?_⟩
    intro x hx y hy
    have hx' := addresses_bounds hx
    have hy' := addresses_bounds hy
    omega

theorem nodup_of_pairwise {zs : List ℕ} (h : zs.Pairwise (fun x y => x + 32 ≤ y)) : zs.Nodup :=
  h.imp (fun h => by omega)

/-- What is known of the place of a gap from which a block is carved. -/
structure Place (s : BoundaryTags) (p x : ℕ) (xs ys : List ℕ) : Prop where
  last : p = xs.getLastD s.trusted
  next : blockAfter s p = ys.headD 0
  low : ∀ y ∈ xs ++ ys, s.trusted < y
  far : ∀ y ∈ xs ++ ys, Apart x y
  bounded : ∀ y ∈ xs ++ ys, y < 2 ^ 64
  pairwise : (xs ++ ys).Pairwise (fun x y => x + 32 ≤ y)
  nonnull : 0 < s.trusted
  trusted_lt : s.trusted < 2 ^ 64
  lt : x < 2 ^ 64

theorem Pool.place (h : Pool s (pre ++ t :: post)) (ht : t.free = true) (hlen : 32 ≤ t.len) :
    Place s (lastBlock s pre) (base s + span len pre) (addresses (base s) pre)
      (addresses (base s + span len pre + t.len) post) := by
  have hb := base_eq s
  have hbound := h.bounded
  have htiles := h.tiles
  have hafter := h.blockAfter_eq
  obtain ⟨haround, hpair⟩ := h.around
  rw [span_append, span_cons] at htiles
  rw [addresses_cons_free post ht] at hafter
  refine ⟨rfl, hafter, fun y hy => (haround y hy).1, ?_, fun y hy => (haround y hy).2.2, hpair,
    h.nonnull, by omega, by omega⟩
  intro y hy
  have hy' := (haround y hy).2.1
  unfold Apart
  omega

namespace Place

variable {p x : ℕ} {xs ys : List ℕ}

theorem last_cases (h : Place s p x xs ys) :
    p = s.trusted ∨ (xs.getLast? = some p ∧ p ∈ xs ++ ys) := by
  have hl := h.last
  rw [List.getLastD_eq_getLast?] at hl
  cases hx : xs.getLast? with
  | none =>
    rw [hx] at hl
    exact Or.inl hl
  | some l =>
    rw [hx] at hl
    have hpl : p = l := hl
    exact Or.inr ⟨by rw [hpl], List.mem_append_left _ (List.mem_of_getLast? (by rw [hx, hpl]))⟩

theorem next_cases (h : Place s p x xs ys) :
    blockAfter s p = 0 ∨ blockAfter s p ∈ xs ++ ys := by
  rw [h.next]
  cases ys with
  | nil => exact Or.inl rfl
  | cons y ys => exact Or.inr (by simp)

theorem last_far (h : Place s p x xs ys) : p = s.trusted ∨ Apart x p :=
  h.last_cases.imp id (fun hm => h.far p hm.2)

theorem next_far (h : Place s p x xs ys) : blockAfter s p = 0 ∨ Apart x (blockAfter s p) :=
  h.next_cases.imp id (fun hm => h.far _ hm)

theorem last_lt (h : Place s p x xs ys) : p < 2 ^ 64 := by
  rcases h.last_cases with hp | ⟨-, hm⟩
  · rw [hp]
    exact h.trusted_lt
  · exact h.bounded p hm

theorem next_lt (h : Place s p x xs ys) : blockAfter s p < 2 ^ 64 := by
  rcases h.next_cases with hn | hm
  · rw [hn]
    exact Nat.two_pow_pos 64
  · exact h.bounded _ hm

theorem occupied_spec (h : Place s p x xs ys) {total : ℕ} (htotal : total < 2 ^ 64) :
    Relinked s.memory (occupied s p x total) xs ys x x ∧
      getBlockSize (occupied s p x total) x = total - 32 ∧
      getTmPtr (occupied s p x total) x = s.trusted ∧
      getPrev (occupied s p x total) x = p ∧
      getNext (occupied s p x total) x = blockAfter s p := by
  generalize hm : writeHeader s.memory x (total - 32) p (blockAfter s p) s.trusted = m
  have hother (y : ℕ) (hy : y ∈ xs ++ ys) : SameHeader m s.memory y := by
    rw [← hm]
    exact sameHeader_writeHeader (h.far y hy)
  have hsame : SameHeader (occupied s p x total) m x := by
    rw [occupied, hm]
    exact (sameHeader_linkNext (h.last_far.imp id Or.symm)).trans
      (sameHeader_linkPrev (h.next_far.imp id Or.symm))
  have hrelinked : Relinked m (occupied s p x total) xs ys x x := by
    have hr := relinked_prev_next (m := m) h.pairwise h.low h.lt h.lt
    rw [occupied, hm, h.next]
    rwa [← h.last] at hr
  refine ⟨hrelinked.of_same hother, ?_, ?_, ?_, ?_⟩
  · rw [hsame.blockSize, ← hm]
    exact getBlockSize_writeHeader (by omega)
  · rw [hsame.tmPtr, ← hm]
    exact getTmPtr_writeHeader h.trusted_lt
  · rw [hsame.prev, ← hm]
    exact getPrev_writeHeader h.last_lt
  · rw [hsame.next, ← hm]
    exact getNext_writeHeader h.next_lt

theorem occupy_eq (h : Place s p x xs ys) (hx : endOf s p = x) {total : ℕ}
    (htotal : 32 ≤ total) (htotal64 : total < 2 ^ 64) :
    occupy s p total = (x, { s with
      memory := occupied s p x total
      firstBlock := if p = s.trusted then x else s.firstBlock }) := by
  have hsub : sizeSub total blockMetadataSize = total - 32 := sizeSub_of_le htotal htotal64
  have hfree : (if p = s.trusted then s.trusted + allocatorMetadataSize
      else blockEnd s.memory p) = x := hx
  have hread := read_blockAfter (n := total - 32) h.last_far
  generalize hm : writeHeader s.memory x (total - 32) p (blockAfter s p) s.trusted = m
  have hm' := hm
  unfold writeHeader at hm'
  have hgetNext : getNext m x = blockAfter s p := by
    rw [← hm]
    exact getNext_writeHeader h.next_lt
  have hgetPrev : getPrev (linkPrev m (blockAfter s p) x) x = p := by
    rw [(sameHeader_linkPrev (h.next_far.imp id Or.symm)).prev, ← hm]
    exact getPrev_writeHeader h.last_lt
  have hlink : (if blockAfter s p ≠ 0 then setPrev m (blockAfter s p) x else m) =
      linkPrev m (blockAfter s p) x := by
    unfold linkPrev
    rfl
  unfold occupy
  simp only [hfree, hsub, hread, hm', hgetNext, hlink, hgetPrev]
  rw [occupied, hm]
  unfold linkNext
  split
  case isTrue h => rfl
  case isFalse h => rfl

end Place

theorem Pool.carved (h : Pool s (pre ++ t :: post)) (ht : t.free = true) {size : ℕ}
    (hfit : 32 + size ≤ t.len) :
    ∃ s', occupy s (lastBlock s pre) (carvedLen t.len size) = (base s + span len pre, s') ∧
      s'.trusted = s.trusted ∧ s'.memSize = s.memSize ∧
      Pool s' (pre ++ (carve t size hfit ++ post)) := by
  have hlen := carvedLen_bounds hfit
  have hbound := h.bounded
  have htiles := h.tiles
  rw [span_append, span_cons] at htiles
  have hplace := h.place ht (by omega)
  have hocc := hplace.occupy_eq (h.endOf_eq ht) (by omega : 32 ≤ carvedLen t.len size) (by omega)
  obtain ⟨hrelinked, hsize, htm, hprev, hnext⟩ :=
    hplace.occupied_spec (by omega : carvedLen t.len size < 2 ^ 64)
  refine ⟨_, hocc, rfl, rfl, ?_⟩
  obtain ⟨b, hb, hblen⟩ := blocks_carve hfit (base s + span len pre)
  have hblocks : blocks (base s) (pre ++ (carve t size hfit ++ post)) =
      blocks (base s) pre ++ (base s + span len pre, b) ::
        blocks (base s + span len pre + t.len) post := by
    rw [blocks_append, blocks_append, hb, span_carve hfit]
    rfl
  have haddresses : addresses (base s) (pre ++ (carve t size hfit ++ post)) =
      addresses (base s) pre ++ (base s + span len pre) ::
        addresses (base s + span len pre + t.len) post := by
    rw [addresses, hblocks, List.map_append]
    rfl
  have hlinked := h.linked
  have hheaders := h.headers
  rw [addresses_append, addresses_cons_free post ht] at hlinked
  rw [blocks_append, blocks_cons_free post ht] at hheaders
  exact {
    nonnull := h.nonnull
    bounded := hbound
    room := h.room
    tiles := by
      rw [span_append, span_append, span_carve hfit]
      exact htiles
    first := by
      show (if lastBlock s pre = s.trusted then base s + span len pre else s.firstBlock) =
        (addresses (base s) (pre ++ (carve t size hfit ++ post))).headD 0
      rw [haddresses]
      exact h.first_append (_ :: _)
    linked := by
      show Linked (getNext _) (getPrev _) s.trusted
        (addresses (base s) (pre ++ (carve t size hfit ++ post))) 0
      rw [haddresses]
      exact hlinked.insert (nodup_of_pairwise hplace.pairwise) (hnext.trans hplace.next)
        (hprev.trans hplace.last) hrelinked.next hrelinked.prev
    headers := by
      show Headers _ s.trusted (blocks (base s) (pre ++ (carve t size hfit ++ post)))
      rw [hblocks]
      have hold := hrelinked.headers hheaders
      intro q hq
      rcases List.mem_append.mp hq with hq | hq
      · exact hold q (List.mem_append_left _ hq)
      · rcases List.mem_cons.mp hq with rfl | hq
        · dsimp only
          exact ⟨by omega, htm⟩
        · exact hold q (List.mem_append_right _ hq)
    coalesced := coalesced_carve h.coalesced ht hfit }

theorem allocate_spec {ts : List Tile} (h : Pool s ts) {size : ℕ} (hsize : size + 32 < 2 ^ 64) :
    s.allocate size = .error .badAlloc ∨
      ∃ pre t post s', ∃ hfit : 32 + size ≤ t.len, ts = pre ++ t :: post ∧ t.free = true ∧
        s.allocate size = .ok (base s + span len pre + 32, s') ∧
        s'.trusted = s.trusted ∧ s'.memSize = s.memSize ∧
        Pool s' (pre ++ (carve t size hfit ++ post)) := by
  have hadd : sizeAdd size blockMetadataSize = size + 32 := sizeAdd_of_lt hsize
  obtain ⟨p, hget, hfound, -⟩ := h.getBlock_spec (size + 32)
  unfold allocate
  simp only [hadd, hget, bind, Except.bind]
  rcases hfound with rfl | ⟨pre, t, post, rfl, ht, hle, rfl⟩
  · left
    rfl
  · right
    have hpos := h.lastBlock_pos
    have hbound := h.bounded
    have htiles := h.tiles
    rw [span_append, span_cons] at htiles
    have hfit : 32 + size ≤ t.len := by omega
    obtain ⟨s', hocc, htr, hms, hpool⟩ := h.carved ht hfit
    have hadd' : sizeAdd (size + 32) blockMetadataSize = size + 64 :=
      sizeAdd_of_lt (by show size + 32 + 32 < 2 ^ 64; omega)
    have htotal : (if t.len < size + 64 then t.len else size + 32) = carvedLen t.len size := by
      unfold carvedLen
      split <;> split <;> omega
    refine ⟨pre, t, post, s', hfit, rfl, ht, ?_, htr, hms, hpool⟩
    simp only [if_neg hpos.ne', h.getNextFreeBlockSize_eq ht, hadd', htotal, hocc,
      hpool.report_ok]
    rfl

end MaiFaSp.BoundaryTags
