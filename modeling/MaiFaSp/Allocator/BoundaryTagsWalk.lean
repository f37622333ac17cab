import MaiFaSp.Allocator.BoundaryTagsBlocks

/-!
# `allocator_boundary_tags`: walking the pool

On a pool that stands for a list of tiles, the iterator visits the tiles in order:
occupied blocks by their headers, and each gap from the block before it.
-/

namespace MaiFaSp.BoundaryTags

open Memory Tiling DoublyLinked Tile

def base (s : BoundaryTags) : ℕ := s.trusted + allocatorMetadataSize

theorem base_eq (s : BoundaryTags) : base s = s.trusted + 80 := rfl

theorem allocatorEnd_eq (s : BoundaryTags) : allocatorEnd s = base s + s.memSize := rfl

theorem blockEnd_eq (m : Memory) (x : ℕ) : blockEnd m x = x + 32 + getBlockSize m x := rfl

/-- The bytes of the pool are the tiles `ts`, from its start to its end. -/
structure Pool (s : BoundaryTags) (ts : List Tile) : Prop where
  nonnull : 0 < s.trusted
  bounded : s.trusted + s.memSize + 80 < 2 ^ 64
  room : 32 ≤ s.memSize
  tiles : span len ts = s.memSize
  first : s.firstBlock = (addresses (base s) ts).headD 0
  linked : Linked (getNext s.memory) (getPrev s.memory) s.trusted (addresses (base s) ts) 0
  headers : Headers s.memory s.trusted (blocks (base s) ts)
  coalesced : Coalesced free ts

/-- The last occupied block of a part of the pool, or what stands for it in front. -/
def lastBlock (s : BoundaryTags) (pre : List Tile) : ℕ :=
  (addresses (base s) pre).getLastD s.trusted

/-- The block after `p`, or the first one. -/
def blockAfter (s : BoundaryTags) (p : ℕ) : ℕ :=
  if p = s.trusted then s.firstBlock else getNext s.memory p

/-- Where the block `p` ends, or where the pool starts. -/
def endOf (s : BoundaryTags) (p : ℕ) : ℕ :=
  if p = s.trusted then base s else blockEnd s.memory p

variable {s : BoundaryTags} {pre post : List Tile} {t : Tile}

theorem length_le_span (ts : List Tile) : ts.length ≤ span len ts := by
  induction ts with
  | nil => simp
  | cons t ts ih =>
    have ht := t.nonempty
    rw [List.length_cons, span_cons]
    omega

theorem lastBlock_append_held (ht : t.free = false) :
    lastBlock s (pre ++ [t]) = base s + span len pre := by
  rw [lastBlock, addresses_append, addresses_cons_held [] ht, addresses_nil]
  simp

theorem trusted_lt_of_mem {a x : ℕ} {ts : List Tile} (ha : base s ≤ a)
    (h : x ∈ addresses a ts) : s.trusted < x := by
  have hb := addresses_bounds h
  have he := base_eq s
  omega

theorem lastBlock_cases (s : BoundaryTags) (pre : List Tile) :
    (addresses (base s) pre = [] ∧ lastBlock s pre = s.trusted) ∨
      ((addresses (base s) pre).getLast? = some (lastBlock s pre) ∧
        s.trusted < lastBlock s pre ∧ lastBlock s pre + 32 ≤ base s + span len pre) := by
  rw [lastBlock, List.getLastD_eq_getLast?]
  cases hl : (addresses (base s) pre).getLast? with
  | none => exact Or.inl ⟨List.getLast?_eq_none_iff.mp hl, rfl⟩
  | some l =>
    have hm := List.mem_of_getLast? hl
    exact Or.inr ⟨rfl, trusted_lt_of_mem le_rfl hm, (addresses_bounds hm).2⟩

namespace Pool

/-- The first block after a change behind the blocks of `pre`. -/
theorem first_append (h : Pool s (pre ++ post)) (xs : List ℕ) :
    (if lastBlock s pre = s.trusted then xs.headD 0 else s.firstBlock) =
      (addresses (base s) pre ++ xs).headD 0 := by
  rcases lastBlock_cases s pre with ⟨hnil, hp⟩ | ⟨hlast, hlt, -⟩
  · rw [if_pos hp, hnil, List.nil_append]
  · rw [if_neg hlt.ne', h.first, addresses_append]
    cases hys : addresses (base s) pre with
    | nil =>
      rw [hys] at hlast
      cases hlast
    | cons y ys => rfl

theorem blockAfter_eq (h : Pool s (pre ++ post)) :
    blockAfter s (lastBlock s pre) = (addresses (base s + span len pre) post).headD 0 := by
  have hlinked := h.linked
  rw [addresses_append] at hlinked
  unfold blockAfter
  rcases lastBlock_cases s pre with ⟨hnil, hp⟩ | ⟨hlast, hlt, -⟩
  · rw [if_pos hp, h.first, addresses_append, hnil, List.nil_append]
  · rw [if_neg hlt.ne']
    exact (linked_append.mp hlinked).1.next_last hlast

theorem endOf_eq (h : Pool s (pre ++ t :: post)) (ht : t.free = true) :
    endOf s (lastBlock s pre) = base s + span len pre := by
  obtain ⟨-, -, hleft, -⟩ := coalesced_append_cons.mp h.coalesced
  cases hl : pre.getLast? with
  | none =>
    rw [List.getLast?_eq_none_iff.mp hl]
    exact if_pos rfl
  | some o =>
    obtain ⟨ys, rfl⟩ := List.getLast?_eq_some_iff.mp hl
    have ho : o.free = false := by simpa [ht] using hleft o hl
    have hm : (base s + span len ys, o) ∈ blocks (base s) (ys ++ [o] ++ t :: post) := by
      simp [blocks_append, blocks_cons_held _ ho]
    have hhead := (h.headers _ hm).1
    dsimp only at hhead
    have hb := base_eq s
    have hne : base s + span len ys ≠ s.trusted := by omega
    rw [lastBlock_append_held ho, endOf, if_neg hne, blockEnd_eq, span_append, span_cons, span_nil]
    omega

theorem blockAfter_gap (h : Pool s (pre ++ t :: post)) (ht : t.free = true) :
    blockAfter s (lastBlock s pre) = if post = [] then 0 else base s + span len pre + t.len := by
  obtain ⟨-, -, -, hright⟩ := coalesced_append_cons.mp h.coalesced
  rw [h.blockAfter_eq, addresses_cons_free post ht]
  apply headD_addresses
  intro u hu
  simpa [ht] using hright u hu

theorem getNextFreeBlockSize_eq (h : Pool s (pre ++ t :: post)) (ht : t.free = true) :
    getNextFreeBlockSize s (lastBlock s pre) = t.len := by
  have hb := base_eq s
  have htiles := h.tiles
  have hbound := h.bounded
  have hpos := h.nonnull
  have hafter := h.blockAfter_gap ht
  have hend := h.endOf_eq ht
  rw [span_append, span_cons] at htiles
  unfold getNextFreeBlockSize
  unfold blockAfter at hafter
  unfold endOf at hend
  by_cases hp : lastBlock s pre = s.trusted
  · rw [if_pos hp] at hafter hend ⊢
    cases post with
    | nil =>
      rw [span_nil] at htiles
      rw [if_pos rfl] at hafter
      rw [if_pos hafter]
      omega
    | cons u post =>
      rw [if_neg (List.cons_ne_nil u post)] at hafter
      have hmeta : allocatorMetadataSize = 80 := rfl
      have hsub := sizeSub_of_le (a := base s + span len pre + t.len) (b := s.trusted)
        (by omega) (by omega)
      rw [if_neg (by omega), hafter, hsub, hmeta, sizeSub_of_le (by omega) (by omega)]
      omega
  · rw [if_neg hp] at hafter hend ⊢
    cases post with
    | nil =>
      rw [span_nil] at htiles
      rw [if_pos rfl] at hafter
      rw [if_pos hafter, hend, allocatorEnd_eq, sizeSub_of_le (by omega) (by omega)]
      omega
    | cons u post =>
      rw [if_neg (List.cons_ne_nil u post)] at hafter
      rw [if_neg (by omega), hafter, hend, sizeSub_of_le (by omega) (by omega)]
      omega

theorem held_header (h : Pool s (pre ++ t :: post)) (ht : t.free = false) :
    blockEnd s.memory (base s + span len pre) = base s + span len pre + t.len ∧
      getBlockSize s.memory (base s + span len pre) + 32 = t.len ∧
      getTmPtr s.memory (base s + span len pre) = s.trusted ∧
      getPrev s.memory (base s + span len pre) = lastBlock s pre ∧
      getNext s.memory (base s + span len pre) =
        (addresses (base s + span len pre + t.len) post).headD 0 := by
  have hm : (base s + span len pre, t) ∈ blocks (base s) (pre ++ t :: post) := by
    simp [blocks_append, blocks_cons_held _ ht]
  obtain ⟨hsize, htm⟩ := h.headers _ hm
  dsimp only at hsize htm
  have hlinked := h.linked
  rw [addresses_append, addresses_cons_held post ht] at hlinked
  obtain ⟨-, hprev, hnext, -⟩ := linked_append.mp hlinked
  refine ⟨?_, hsize, htm, hprev, hnext⟩
  rw [blockEnd_eq]
  omega

end Pool

/-! ### The iterator -/

/-- The iterator on the first of the tiles `post`, which lie behind `pre`. -/
def iterAt (s : BoundaryTags) (pre : List Tile) : List Tile → Iterator
  | [] => ⟨0, true⟩
  | t :: _ => if t.free then ⟨lastBlock s pre, false⟩ else ⟨base s + span len pre, true⟩

namespace Pool

theorem lastBlock_pos (h : Pool s (pre ++ post)) : 0 < lastBlock s pre := by
  have hpos := h.nonnull
  rcases lastBlock_cases s pre with ⟨-, hp⟩ | ⟨-, hlt, -⟩ <;> omega

theorem iterAt_nonnull (h : Pool s (pre ++ t :: post)) :
    (iterAt s pre (t :: post)).occupiedPtr ≠ 0 := by
  have hpos := h.lastBlock_pos
  have hb := base_eq s
  have ht := h.nonnull
  rw [iterAt]
  split
  · exact hpos.ne'
  · dsimp only
    omega

theorem iterAt_occupied (s : BoundaryTags) (pre post : List Tile) (t : Tile) :
    (iterAt s pre (t :: post)).occupied = !t.free := by
  rw [iterAt]
  cases t.free <;> rfl

theorem iterAt_size (h : Pool s (pre ++ t :: post)) :
    (iterAt s pre (t :: post)).size s = t.len := by
  have hne := h.iterAt_nonnull
  rw [Iterator.size, if_neg hne, iterAt_occupied]
  cases ht : t.free with
  | true =>
    rw [iterAt, ht]
    exact h.getNextFreeBlockSize_eq ht
  | false =>
    obtain ⟨-, hsize, -⟩ := h.held_header ht
    have htiles := h.tiles
    have hbound := h.bounded
    rw [span_append, span_cons] at htiles
    rw [iterAt, ht]
    show sizeAdd (getBlockSize s.memory (base s + span len pre)) 32 = t.len
    rw [sizeAdd_of_lt (by omega), hsize]

theorem next_free (s : BoundaryTags) (p : ℕ) :
    (Iterator.mk p false).next s = ⟨blockAfter s p, true⟩ := rfl

theorem next_occupied (s : BoundaryTags) (x : ℕ) :
    (Iterator.mk x true).next s =
      if blockEnd s.memory x = getNext s.memory x ∨
        (getNext s.memory x = 0 ∧ blockEnd s.memory x = allocatorEnd s) then
        ⟨getNext s.memory x, true⟩
      else ⟨x, false⟩ := by
  unfold Iterator.next
  rw [if_pos rfl]

/-- `operator++` goes from one tile to the next. -/
theorem iterAt_next (h : Pool s (pre ++ t :: post)) :
    (iterAt s pre (t :: post)).next s = iterAt s (pre ++ [t]) post := by
  have hb := base_eq s
  have hpos := h.nonnull
  cases ht : t.free with
  | true =>
    have hafter := h.blockAfter_gap ht
    obtain ⟨-, -, -, hright⟩ := coalesced_append_cons.mp h.coalesced
    rw [iterAt, ht, if_pos rfl, next_free, hafter]
    cases post with
    | nil => rfl
    | cons u post =>
      have hu : u.free = false := by simpa [ht] using hright u rfl
      rw [if_neg (List.cons_ne_nil u post), iterAt, hu, span_append, span_cons, span_nil,
        Nat.add_zero, Nat.add_assoc]
      rfl
  | false =>
    obtain ⟨hend, -, -, -, hafter⟩ := h.held_header ht
    have htiles := h.tiles
    have hae := allocatorEnd_eq s
    rw [span_append, span_cons] at htiles
    rw [iterAt, ht, if_neg Bool.false_ne_true, next_occupied, hend]
    cases post with
    | nil =>
      rw [addresses_nil, List.headD_nil] at hafter
      rw [span_nil] at htiles
      rw [hafter, if_pos (Or.inr ⟨rfl, by omega⟩), iterAt]
    | cons u post =>
      cases hu : u.free with
      | false =>
        rw [addresses_cons_held post hu, List.headD_cons] at hafter
        rw [hafter, if_pos (Or.inl rfl), iterAt, hu, span_append, span_cons, span_nil,
          Nat.add_zero, Nat.add_assoc]
        rfl
      | true =>
        have hne := u.nonempty
        rw [span_cons] at htiles
        rw [addresses_cons_free post hu] at hafter
        rw [if_neg, iterAt, hu, lastBlock_append_held ht]
        · rfl
        · rw [hafter]
          cases hxs : addresses (base s + span len pre + t.len + u.len) post with
          | nil =>
            rw [List.headD_nil]
            omega
          | cons x xs =>
            have hx := addresses_bounds (hxs ▸ List.mem_cons_self .. :
              x ∈ addresses (base s + span len pre + t.len + u.len) post)
            rw [List.headD_cons]
            omega

theorem begin_eq {ts : List Tile} (h : Pool s ts) : begin s = iterAt s [] ts := by
  have hfirst := h.first
  have htiles := h.tiles
  have hroom := h.room
  have hb := base_eq s
  have hpos := h.nonnull
  have hbegin : begin s = if base s = s.firstBlock then ⟨base s, true⟩ else ⟨s.trusted, false⟩ :=
    rfl
  rw [hbegin]
  cases ts with
  | nil =>
    rw [span_nil] at htiles
    omega
  | cons t ts =>
    cases ht : t.free with
    | false =>
      rw [addresses_cons_held ts ht, List.headD_cons] at hfirst
      rw [hfirst, if_pos rfl, iterAt, ht]
      rfl
    | true =>
      obtain ⟨-, -, -, hright⟩ := coalesced_append_cons.mp
        (show Coalesced free ([] ++ t :: ts) from h.coalesced)
      have hafter : s.firstBlock = if ts = [] then 0 else base s + t.len := by
        rw [hfirst, addresses_cons_free ts ht]
        exact headD_addresses (fun u hu => by simpa [ht] using hright u hu)
      have hne := t.nonempty
      rw [if_neg, iterAt, ht]
      · rfl
      · rw [hafter]
        split <;> omega

end Pool

/-! ### The loops -/

/-- The iterators on the tiles `post`, one after the other. -/
def positions (s : BoundaryTags) : List Tile → List Tile → List Iterator
  | _, [] => []
  | pre, t :: post => iterAt s pre (t :: post) :: positions s (pre ++ [t]) post

/-- A loop body on a list, left early with `done`. -/
def foldUntil {α β : Type} (body : α → β → ForInStep α) : α → List β → α
  | r, [] => r
  | r, it :: its =>
    match body r it with
    | .done r => r
    | .yield r => foldUntil body r its

theorem foldUntil_yield {α β : Type} (f : α → β → α) (r : α) (its : List β) :
    foldUntil (fun r it => .yield (f r it)) r its = its.foldl f r := by
  induction its generalizing r with
  | nil => rfl
  | cons it its ih => exact ih (f r it)

theorem foldUntil_found {α β : Type} {body : α → β → ForInStep α} {out : β → α} {P : β → Prop}
    (hbody : ∀ r it, body r it = .yield r ∨
      P it ∧ (body r it = .yield (out it) ∨ body r it = .done (out it)))
    (r : α) (its : List β) :
    foldUntil body r its = r ∨ ∃ it ∈ its, P it ∧ foldUntil body r its = out it := by
  induction its generalizing r with
  | nil => exact Or.inl rfl
  | cons it its ih =>
    rw [foldUntil]
    rcases hbody r it with h | ⟨hp, h | h⟩ <;> rw [h] <;> dsimp only
    · rcases ih r with hr | ⟨it', hm, hp', he⟩
      · exact Or.inl hr
      · exact Or.inr ⟨it', List.mem_cons_of_mem _ hm, hp', he⟩
    · rcases ih (out it) with hr | ⟨it', hm, hp', he⟩
      · exact Or.inr ⟨it, List.mem_cons_self .., hp, hr⟩
      · exact Or.inr ⟨it', List.mem_cons_of_mem _ hm, hp', he⟩
    · exact Or.inr ⟨it, List.mem_cons_self .., hp, rfl⟩

/-- A loop that keeps or replaces what it has found, and does not pass over `hit`. -/
theorem foldUntil_finds {α β : Type} {body : α → β → ForInStep α} {out : β → α} {P : β → Prop}
    (good : α → Prop) {its : List β} {hit : β}
    (hbody : ∀ r it, body r it = .yield r ∨
      P it ∧ (body r it = .yield (out it) ∨ body r it = .done (out it)))
    (hout : ∀ it ∈ its, good (out it)) (hmem : hit ∈ its)
    (hhit : ∀ r, ¬ good r → body r hit ≠ .yield r) (r : α) : good (foldUntil body r its) := by
  have hkeeps (r : α) (hr : good r) (its' : List β) (hsub : ∀ it ∈ its', it ∈ its) :
      good (foldUntil body r its') := by
    rcases foldUntil_found hbody r its' with he | ⟨it, hm, -, he⟩
    · rw [he]
      exact hr
    · rw [he]
      exact hout it (hsub it hm)
  induction its generalizing r with
  | nil => cases hmem
  | cons it its ih =>
    rw [foldUntil]
    have hrest := fun it' (hm : it' ∈ its) => List.mem_cons_of_mem it hm
    rcases hbody r it with h | ⟨-, h | h⟩
    · rw [h]
      by_cases hr : good r
      · exact hkeeps r hr its hrest
      · rcases List.mem_cons.mp hmem with rfl | hmem
        · exact absurd h (hhit r hr)
        · refine ih (fun it' hm => hout it' (hrest it' hm)) hmem r fun r hr its' hsub => ?_
          exact hkeeps r hr its' fun it' hm => hrest it' (hsub it' hm)
    · rw [h]
      exact hkeeps _ (hout it (List.mem_cons_self ..)) its hrest
    · rw [h]
      exact hout it (List.mem_cons_self ..)

theorem mem_positions {it : Iterator} (h : it ∈ positions s pre post) :
    ∃ xs t ys, post = xs ++ t :: ys ∧ it = iterAt s (pre ++ xs) (t :: ys) := by
  induction post generalizing pre with
  | nil => cases h
  | cons t post ih =>
    rw [positions, List.mem_cons] at h
    rcases h with rfl | h
    · exact ⟨[], t, post, rfl, by rw [List.append_nil]⟩
    · obtain ⟨xs, u, ys, rfl, he⟩ := ih h
      exact ⟨t :: xs, u, ys, rfl, by rw [he, List.append_assoc]; rfl⟩

theorem positions_mem (s : BoundaryTags) (pre xs : List Tile) (t : Tile) (ys : List Tile) :
    iterAt s (pre ++ xs) (t :: ys) ∈ positions s pre (xs ++ t :: ys) := by
  induction xs generalizing pre with
  | nil =>
    rw [List.append_nil]
    exact List.mem_cons_self ..
  | cons u xs ih =>
    have hrec := ih (pre ++ [u])
    rw [List.append_assoc] at hrec
    exact List.mem_cons_of_mem _ hrec

namespace Pool

theorem loop_eq {α : Type} (h : Pool s (pre ++ post)) (body : α → Iterator → ForInStep α) {n : ℕ}
    (hn : post.length ≤ n) (r : α) :
    loop s body n (iterAt s pre post) r = .ok (foldUntil body r (positions s pre post)) := by
  induction post generalizing pre n r with
  | nil => cases n <;> rfl
  | cons t post ih =>
    rw [List.length_cons] at hn
    obtain ⟨k, rfl⟩ : ∃ k, n = k + 1 := ⟨n - 1, by omega⟩
    have hne := h.iterAt_nonnull
    have hnext := h.iterAt_next
    have h' : Pool s ((pre ++ [t]) ++ post) := by simpa using h
    rw [loop, if_neg hne, positions, foldUntil]
    cases body r (iterAt s pre (t :: post)) with
    | done r => rfl
    | «yield» r =>
      dsimp only
      rw [hnext]
      exact ih h' (by omega) r

theorem loop_begin {α : Type} {ts : List Tile} (h : Pool s ts)
    (body : α → Iterator → ForInStep α) (r : α) :
    loop s body (turns s) (begin s) r = .ok (foldUntil body r (positions s [] ts)) := by
  have hlen := length_le_span ts
  rw [h.tiles] at hlen
  rw [h.begin_eq]
  exact Pool.loop_eq (show Pool s ([] ++ ts) from h) body (by unfold turns; omega) r

theorem infos_eq (h : Pool s (pre ++ post)) :
    (positions s pre post).map (fun it => (it.size s, it.occupied)) =
      post.map (fun t => (t.len, !t.free)) := by
  induction post generalizing pre with
  | nil => rfl
  | cons t post ih =>
    have h' : Pool s ((pre ++ [t]) ++ post) := by simpa using h
    rw [positions, List.map_cons, List.map_cons, ih h', h.iterAt_size, iterAt_occupied]

theorem getBlocksInfo_eq {ts : List Tile} (h : Pool s ts) :
    getBlocksInfo s = .ok (ts.map (fun t => (t.len, !t.free))) := by
  have hinfos := Pool.infos_eq (show Pool s ([] ++ ts) from h)
  rw [getBlocksInfo, h.loop_begin, foldUntil_yield, List.foldl_append_eq_append, List.nil_append,
    ← List.flatMap_def, ← List.map_eq_flatMap, hinfos]

theorem report_ok {ts : List Tile} (h : Pool s ts) : report s = .ok () := by
  have hne : ts.map (fun t => (t.len, !t.free)) ≠ [] := by
    intro hnil
    have htiles := h.tiles
    have hroom := h.room
    rw [List.map_eq_nil_iff.mp hnil, span_nil] at htiles
    omega
  rw [report, getAvailableMemory, h.loop_begin, printBlocks, h.getBlocksInfo_eq]
  simp only [bind, Except.bind, if_neg hne]
  rfl

end Pool

end MaiFaSp.BoundaryTags
