import MaiFaSp.Allocator.RedBlackTreeRuns

/-!
# `allocator_red_black_tree`: pointers that are returned twice (`allocator_red_black_tree.cpp:148-198`)

A pointer is refused if the header before it does not have the allocator as its owner. The
header of a block that comes to the tree has the parent there in this place, and keeps it
when the block before takes this one in. A block that is itself taken in by the one before
does not come to the tree, and its header keeps the owner.
-/

namespace MaiFaSp.RedBlackAllocator

open Memory Tiling Tile LinkedTree

open HeaderMemory (get)

section

variable {σ α β : Type} [HeaderMemory σ] {s : RedBlackAllocator σ} {z n block : ℕ}

/-- The call throws before it stores anything. -/
def Rejects (s : RedBlackAllocator σ) (p : ℕ) : Prop := deallocate s p = .error .logicError

theorem bind_ne_logicError {x : Except AllocFault α} {f : α → Except AllocFault β}
    (hx : x ≠ .error .logicError) (hf : ∀ a, f a ≠ .error .logicError) :
    (x >>= f) ≠ .error .logicError := by
  cases x with
  | ok a => exact hf a
  | error e =>
    intro h
    cases h
    exact hx rfl

theorem liftLink_ne_logicError (x : Except LinkFault α) : liftLink x ≠ .error .logicError := by
  intro h
  cases x with
  | ok a => cases h
  | error e => cases e <;> cases h

theorem rbTreeRemove_ne_logicError : rbTreeRemove s z ≠ .error .logicError := by
  unfold rbTreeRemove
  apply bind_ne_logicError (liftLink_ne_logicError _)
  intro a h
  cases h

theorem rbTreeInsert_ne_logicError : rbTreeInsert s z ≠ .error .logicError := by
  unfold rbTreeInsert
  apply bind_ne_logicError (liftLink_ne_logicError _)
  intro h
  apply bind_ne_logicError (liftLink_ne_logicError _)
  intro h' he
  cases he

theorem blocksFrom_ne_logicError : blocksFrom s n block ≠ .error .logicError := by
  induction n generalizing block with
  | zero =>
    rw [blocksFrom]
    split <;> exact fun h => by cases h
  | succ n ih =>
    rw [blocksFrom]
    split
    · exact fun h => by cases h
    · apply bind_ne_logicError ih
      intro a h
      cases h

theorem mergeBack_ne_logicError : mergeBack s block ≠ .error .logicError := by
  unfold mergeBack
  split
  · apply bind_ne_logicError rbTreeRemove_ne_logicError
    intro a h
    cases h
  · exact fun h => by cases h

theorem mergeForward_ne_logicError : mergeForward s block ≠ .error .logicError := by
  unfold mergeForward
  split
  · apply bind_ne_logicError rbTreeRemove_ne_logicError
    intro a h
    cases h
  · exact fun h => by cases h

theorem rejects_iff (p : ℕ) : Rejects s p ↔ parent s (sizeSub p blockMetadataSize) ≠ s.trusted := by
  unfold Rejects deallocate
  dsimp only
  split
  case isTrue hforeign => exact iff_of_true rfl hforeign
  case isFalse hown =>
    refine iff_of_false ?_ hown
    apply bind_ne_logicError mergeBack_ne_logicError
    intro r
    apply bind_ne_logicError mergeForward_ne_logicError
    intro s₁
    apply bind_ne_logicError rbTreeInsert_ne_logicError
    intro s₂
    apply bind_ne_logicError
    · apply bind_ne_logicError blocksFrom_ne_logicError
      intro a h
      cases h
    · intro a h
      cases h

end

/-! ### What a header that is no longer one says -/

variable {s s' : RedBlackAllocator Memory} {pre post ts : List Tile} {t : Tile} {w x p : ℕ}

theorem parent_kept {L : List ℕ}
    (h : Scattered freeBlockMetadataSize Bytes.Within L s.memory s'.memory)
    (hfar : ∀ y ∈ L, y + 24 ≤ w ∨ w + 25 ≤ y) : parent s' w = parent s w := by
  show load64 s'.memory (w + 17) = load64 s.memory (w + 17)
  generalize s.memory = m at h
  generalize s'.memory = m' at h
  induction h with
  | refl => rfl
  | tail _ hx hw hhi ih =>
    have hy := hfar _ hx
    unfold freeBlockMetadataSize at hhi
    exact (load64_congr (hw.agreeOn (by omega))).trans ih

/-- The header at `w` lies in the free block `t` at `x`: it is the block's own, or its owner is none
that a client's block has and lies behind the block's own header. -/
def Disowned (s : RedBlackAllocator Memory) (x : ℕ) (t : Tile) (w : ℕ) : Prop :=
  w = x ∨ (x + 24 ≤ w ∧ w + 25 ≤ x + t.len ∧ parent s w ≠ s.trusted)

def Freed (s : RedBlackAllocator Memory) (ts : List Tile) (w : ℕ) : Prop :=
  ∃ x t, (x, t) ∈ placed len (base s) ts ∧ t.free = true ∧ Disowned s x t w

theorem Freed.rejects (hpool : Pool freeBlockMetadataSize s ts) (h : Freed s ts w) :
    Rejects s (w + blockMetadataSize) := by
  obtain ⟨x, t, hm, ht, hw⟩ := h
  obtain ⟨pre, post, rfl, rfl⟩ := (mem_placed_iff len).mp hm
  have hend := hpool.listing.tiles
  have hbounded := hpool.listing.bounded
  have hwide := hpool.listing.wide t (by simp)
  have hpoolEnd : allocatorEnd s = base s + s.size := rfl
  rw [span_append, span_cons] at hend
  have hlt : w + blockMetadataSize < 2 ^ 64 := by
    unfold Disowned at hw
    unfold freeBlockMetadataSize at hwide
    unfold blockMetadataSize
    omega
  rw [rejects_iff, sizeSub_of_le (by omega) hlt, Nat.add_sub_cancel]
  rcases hw with rfl | ⟨-, -, hw⟩
  · obtain ⟨xs, htree, hxs⟩ := hpool.tree
    apply htree.parent_ne hpool.listing fun y hy => addresses_of_free (hxs.mem_iff.mp hy)
    exact hxs.mem_iff.mpr (mem_freeAddresses.mpr ⟨t, hm, ht⟩)
  · exact hw

/-- A call that writes headers of blocks only does not reach the owner in the middle of a block. -/
theorem Disowned.kept {a : ℕ} (h : Disowned s x t w)
    (hc : Confined freeBlockMetadataSize Bytes.Within s s' (addresses a ts))
    (hm : (x, t) ∈ placed len a ts) (hwide : ∀ u ∈ ts, freeBlockMetadataSize ≤ u.len) :
    Disowned s' x t w := by
  rcases h with rfl | ⟨hlow, hhigh, howner⟩
  · exact Or.inl rfl
  · refine Or.inr ⟨hlow, hhigh, ?_⟩
    rw [hc.trusted, parent_kept hc.scattered]
    · exact howner
    · intro y hy
      obtain ⟨pre, post, rfl, rfl⟩ := (mem_placed_iff len).mp hm
      rw [addresses_append, addresses_cons] at hy
      rcases List.mem_append.mp hy with hy | hy
      · have hb := addresses_bounds (fun u hu => hwide u (by simp [hu])) hy
        unfold freeBlockMetadataSize at hb
        omega
      · rcases List.mem_cons.mp hy with rfl | hy
        · exact Or.inl hlow
        · have hb := addresses_bounds (fun u hu => hwide u (by simp [hu])) hy
          omega

theorem Freed.written {a : ℕ} (h : Freed s (pre ++ t :: post) w) (ht : t.free = false) (v : UInt8)
    (hlow : base s + span len pre ≤ a) (hhigh : a < base s + span len pre + t.len) :
    Freed { s with memory := HeaderMemory.write s.memory a v } (pre ++ t :: post) w := by
  obtain ⟨x, u, hm, hu, hd⟩ := h
  refine ⟨x, u, hm, hu, hd.imp_right ?_⟩
  rintro ⟨hx, hend, hne⟩
  have hapart : a < x ∨ x + u.len ≤ a := by
    rw [placed_append, placed_cons] at hm
    rcases List.mem_append.mp hm with hm | hm
    · have hb := placed_bounds len hm
      omega
    · rcases List.mem_cons.mp hm with he | hm
      · cases he
        rw [ht] at hu
        cases hu
      · have hb := placed_bounds len hm
        omega
  have hkeep : parent { s with memory := HeaderMemory.write s.memory a v } w = parent s w := by
    have hwithin : Bytes.Within s.memory (HeaderMemory.write s.memory a v) a (a + 1) :=
      Bytes.lawful.within_write s.memory a v
    exact load64_congr (hwithin.agreeOn (by omega))
  exact ⟨hx, hend, fun he => hne (hkeep.symm.trans he)⟩

/-! ### What the calls do to freed pointers -/

/-- No free block lies before the block. -/
def NoneBefore (s : RedBlackAllocator Memory) (x : ℕ) : Prop :=
  back s x = 0 ∨ occupied s (back s x) = true

theorem Listing.noneBefore_iff {f : Tile}
    (h : Listing freeBlockMetadataSize s (pre ++ f :: t :: post)) :
    NoneBefore s (base s + span len (pre ++ [f])) ↔ f.free = false := by
  have h₂ : Listing freeBlockMetadataSize s ((pre ++ [f]) ++ t :: post) := by simpa using h
  have hback := h₂.header.1
  have hflag := h.header.2.2.1
  have hne := h.ne_zero mem_addresses_self
  rw [getLastD_addresses] at hback
  unfold NoneBefore
  rw [hback, hflag, or_iff_right hne, Bool.not_eq_true']

theorem noneBefore_of_joined {pre' : List Tile} {u : Tile}
    (h : Listing freeBlockMetadataSize s (pre ++ t :: post))
    (hj : JoinLeft free join pre (gap t.len) pre' u) :
    (NoneBefore s (base s + span len pre) ∧ pre' = pre ∧ u = gap t.len) ∨
      (¬ NoneBefore s (base s + span len pre) ∧
        ∃ f, f.free = true ∧ pre = pre' ++ [f] ∧ u = join f (gap t.len)) := by
  cases hj with
  | alone hl =>
    refine Or.inl ⟨?_, rfl, rfl⟩
    rcases List.eq_nil_or_concat pre with rfl | ⟨pre, f, rfl⟩
    · exact Or.inl h.header.1
    · rw [List.concat_eq_append] at h hl ⊢
      have h₂ : Listing freeBlockMetadataSize s (pre ++ f :: t :: post) := by simpa using h
      exact h₂.noneBefore_iff.mpr (hl f (by simp))
  | @joined xs f _ hf =>
    have h₂ : Listing freeBlockMetadataSize s (pre' ++ f :: t :: post) := by simpa using h
    refine Or.inr ⟨fun hn => ?_, f, hf, rfl, rfl⟩
    rw [h₂.noneBefore_iff, hf] at hn
    cases hn

theorem Freed.deallocate (h : Pool freeBlockMetadataSize s (pre ++ t :: post)) (ht : t.free = false)
    (hnone : NoneBefore s (base s + span len pre))
    (hok : deallocate s (base s + span len pre + blockMetadataSize) = .ok s') :
    JoinLeft free join pre (gap t.len) pre (gap t.len) ∧ s'.trusted = s.trusted ∧ s'.size = s.size ∧
      Pool freeBlockMetadataSize s' (pre ++ joinRight free join (gap t.len) post) ∧
      Freed s' (pre ++ joinRight free join (gap t.len) post) (base s + span len pre) ∧
      ∀ w, Freed s (pre ++ t :: post) w → Freed s' (pre ++ joinRight free join (gap t.len) post) w := by
  obtain ⟨pre', u, hj, hpool, hc, howner, -⟩ := deallocate_spec Bytes.lawful h ht hok
  obtain ⟨rfl, rfl⟩ : pre' = pre ∧ u = gap t.len :=
    (noneBefore_of_joined h.listing hj).elim And.right fun hn => absurd hnone hn.1
  have hwide := h.listing.wide
  have hbase : base s' = base s := by
    have htrusted : s'.trusted = s.trusted := hc.trusted
    unfold base
    rw [htrusted]
  have hrelease : Confined freeBlockMetadataSize Bytes.Within s
      (setOccupied s (base s + span len pre') false) (addresses (base s) (pre' ++ gap t.len :: post)) :=
    ⟨rfl, rfl, rfl, .one mem_addresses_self (Bytes.lawful.within_setOccupied s.memory _ false)
      (by unfold blockMetadataSize freeBlockMetadataSize; omega)⟩
  have hall := hrelease.trans hc
  have hwide' (v : Tile) (hv : v ∈ pre' ++ gap t.len :: post) : freeBlockMetadataSize ≤ v.len := by
    rcases List.mem_append.mp hv with hv | hv
    · exact hwide v (by simp [hv])
    · rcases List.mem_cons.mp hv with rfl | hv
      · exact hwide t (by simp)
      · exact hwide v (by simp [hv])
  obtain ⟨v, rest, hright, hvfree, -, hcase⟩ := joinRight_eq joins post (free_gap t.len)
  have hself : (base s + span len pre', v) ∈ placed len (base s') (pre' ++ v :: rest) :=
    (mem_placed_iff len).mpr ⟨pre', rest, rfl, by rw [hbase]⟩
  rw [hright] at hpool ⊢
  refine ⟨hj, hc.trusted, hc.size, hpool, ⟨_, v, hself, hvfree, Or.inl rfl⟩, ?_⟩
  rintro w ⟨x, u, hm, hu, hw⟩
  have hold : (x, u) ∈ placed len (base s) (pre' ++ gap t.len :: post) := by
    rw [placed_append, placed_cons] at hm ⊢
    simp only [List.mem_append, List.mem_cons] at hm ⊢
    rcases hm with hm | hm | hm
    · exact Or.inl hm
    · cases hm
      rw [ht] at hu
      cases hu
    · exact Or.inr (Or.inr hm)
  have hw' := hw.kept hall hold hwide'
  rcases hcase with ⟨rfl, rfl, -⟩ | ⟨c, rfl, hcfree, rfl⟩
  · exact ⟨x, u, hbase ▸ hold, hu, hw'⟩
  · have hlen : (join (gap t.len) c).len = t.len + c.len := rfl
    have hwt := hwide t (by simp)
    have hwc := hwide c (by simp)
    have hnext := howner c rest rfl hcfree
    unfold freeBlockMetadataSize at hwt hwc
    rw [placed_append, placed_cons, placed_cons, len_gap] at hold
    simp only [List.mem_append, List.mem_cons] at hold
    -- the free block is before the block, the one that the block takes in, or behind that
    rcases hold with hold | hold | hold | hold
    · exact ⟨x, u, by rw [hbase, placed_append]; exact List.mem_append_left _ hold, hu, hw'⟩
    · cases hold
      refine ⟨_, _, hself, hvfree, ?_⟩
      rcases hw' with rfl | ⟨hlow, hhigh, hne⟩
      · exact Or.inl rfl
      · rw [len_gap] at hhigh
        exact Or.inr ⟨hlow, by omega, hne⟩
    · cases hold
      refine ⟨_, _, hself, hvfree, ?_⟩
      rcases hw' with rfl | ⟨hlow, hhigh, hne⟩
      · refine Or.inr ⟨by omega, by omega, ?_⟩
        have htrusted : s'.trusted = s.trusted := hc.trusted
        rw [htrusted]
        exact hnext
      · exact Or.inr ⟨by omega, by omega, hne⟩
    · refine ⟨x, u, ?_, hu, hw'⟩
      rw [hbase, placed_append, placed_cons, hlen, ← Nat.add_assoc]
      exact List.mem_append_right _ (List.mem_cons_of_mem _ hold)

/-- The new header of a cut at `z` is the one at `w`, or lies apart from the owner there. -/
def Clear (z w : ℕ) : Prop := w ≤ z ∨ z + freeBlockMetadataSize ≤ w + 17

theorem Listing.blockEnd_eq (h : Listing freeBlockMetadataSize s (pre ++ t :: post)) :
    blockEnd s (base s + span len pre) = base s + span len pre + t.len := by
  have hforward := h.header.2.1
  have hwide := h.wide t (by simp)
  have htiles := h.tiles
  have hend : allocatorEnd s = base s + s.size := rfl
  rw [span_append, span_cons] at htiles
  unfold freeBlockMetadataSize at hwide
  unfold blockEnd
  rw [hforward]
  by_cases hpost : post = []
  · subst hpost
    rw [span_nil] at htiles
    rw [if_pos rfl, if_neg (not_not.mpr rfl)]
    omega
  · rw [if_neg hpost, if_pos (by omega)]

/-- A block is granted. What was freed and lies behind the grant stays refused. -/
theorem Freed.carved {size : ℕ} {mid : List Tile} (h : Pool freeBlockMetadataSize s (pre ++ t :: post))
    (hcarved : Carved t size mid) (hpool : Pool freeBlockMetadataSize s' (pre ++ (mid ++ post)))
    (hc : Confined freeBlockMetadataSize Bytes.Within s s' (addresses (base s) (pre ++ (mid ++ post))))
    (hcut : canSplit s (base s + span len pre) size →
      Clear (base s + span len pre + blockMetadataSize + size) w)
    (hw : Freed s (pre ++ t :: post) w)
    (hout : w < base s + span len pre ∨ blockEnd s' (base s + span len pre) ≤ w) :
    Freed s' (pre ++ (mid ++ post)) w := by
  obtain ⟨x, u, hm, hu, hd⟩ := hw
  have hbase : base s' = base s := by unfold base; rw [hc.trusted]
  have hspan := hcarved.span_eq
  have hstay (hnew : (x, u) ∈ placed len (base s) (pre ++ (mid ++ post))) :
      Freed s' (pre ++ (mid ++ post)) w :=
    ⟨x, u, hbase ▸ hnew, hu, hd.kept hc hnew hpool.listing.wide⟩
  rw [placed_append, placed_append, hspan] at hstay
  rw [placed_append, placed_cons] at hm
  rcases List.mem_append.mp hm with hm | hm
  · exact hstay (List.mem_append_left _ hm)
  rcases List.mem_cons.mp hm with he | hm
  swap
  · exact hstay (List.mem_append_right _ (List.mem_append_right _ hm))
  -- the header was in the block that is granted
  cases he
  have hlow : base s + span len pre ≤ w := by
    rcases hd with rfl | hd
    · exact le_refl _
    · exact Nat.le_of_add_right_le hd.1
  have hwide := h.listing.wide t (by simp)
  have htiles := h.listing.tiles
  have hbounded := h.listing.bounded
  have hend : allocatorEnd s = base s + s.size := rfl
  have hget := h.listing.getSize_eq Bytes.lawful
  rw [span_append, span_cons] at htiles
  cases hcarved with
  | whole hfit =>
    have hblockEnd := hpool.listing.blockEnd_eq
    rw [hbase, len_block] at hblockEnd
    unfold Disowned at hd
    unfold freeBlockMetadataSize at hwide
    omega
  | @cut n hn hn' =>
    have hblockEnd := hpool.listing.blockEnd_eq
    rw [hbase, len_block] at hblockEnd
    have hcan : canSplit s (base s + span len pre) size := by
      have hinner : sizeAdd size blockMetadataSize = size + blockMetadataSize := sizeAdd_of_lt (by omega)
      unfold canSplit
      rw [hget, hinner, sizeAdd_of_lt (by omega)]
      omega
    have hclear := hcut hcan
    have hnew : (base s + span len pre + blockMetadataSize + size, gap n) ∈ placed len (base s)
        (pre ++ ([block (blockMetadataSize + size) size (le_refl _), gap n] ++ post)) :=
      (mem_placed_iff len).mpr ⟨pre ++ [block (blockMetadataSize + size) size (le_refl _)], post,
        by simp, by simp [Nat.add_assoc]⟩
    have hdis : Disowned s (base s + span len pre + blockMetadataSize + size) (gap n) w := by
      unfold Disowned at hd ⊢
      unfold Clear freeBlockMetadataSize blockMetadataSize at hclear
      unfold blockMetadataSize at hblockEnd hn ⊢
      rw [len_gap]
      omega
    exact ⟨_, _, hbase ▸ hnew, free_gap n, hdis.kept hc hnew hpool.listing.wide⟩

/-! ### Runs -/

/-- A client, with the pointers it has returned and not been given again. -/
structure History where
  client : Client (RedBlackAllocator Memory)
  freed : List ℕ

/-- The header before the pointer is not in the block at `x`. -/
def outside (s : RedBlackAllocator Memory) (x q : ℕ) : Bool :=
  q - blockMetadataSize < x ∨ blockEnd s x ≤ q - blockMetadataSize

/-- A call of a careful run: the blocks have room for the header of a free block, no block is returned
while the one before it is free, and no new header lies over the owner in a freed one. -/
inductive CarefulStep : History → History → Prop
  | allocate {s s' live freed size p}
      (hsize : freeBlockMetadataSize ≤ blockMetadataSize + size ∨
        ∀ b, getFreeBlock s size = .ok b → ¬ canSplit s b size)
      (hcut : ∀ b, getFreeBlock s size = .ok b → canSplit s b size → ∀ q ∈ freed,
        Clear (b + blockMetadataSize + size) (q - blockMetadataSize))
      (h : allocate s size = .ok (p, s')) :
      CarefulStep ⟨⟨s, live⟩, freed⟩
        ⟨⟨s', (p, size) :: live⟩, freed.filter (outside s' (p - blockMetadataSize))⟩
  | deallocate {s s' live freed size p} (hlive : (p, size) ∈ live)
      (hnone : NoneBefore s (p - blockMetadataSize)) (h : deallocate s p = .ok s') :
      CarefulStep ⟨⟨s, live⟩, freed⟩ ⟨⟨s', live.erase (p, size)⟩, p :: freed⟩
  | setMode {s live freed} (mode : FitMode) :
      CarefulStep ⟨⟨s, live⟩, freed⟩ ⟨⟨{ s with fitMode := mode }, live⟩, freed⟩
  | write {s live freed size p a} (v : UInt8) (hlive : (p, size) ∈ live) (ha : p ≤ a ∧ a < p + size) :
      CarefulStep ⟨⟨s, live⟩, freed⟩ ⟨⟨{ s with memory := HeaderMemory.write s.memory a v }, live⟩, freed⟩

/-- The pool stands for tiles, of which the grants are the occupied ones, and every freed pointer has
its header in a free one. -/
structure Tracked (trusted n : ℕ) (h : History) : Prop where
  trusted : h.client.state.trusted = trusted
  size : h.client.state.size = n
  pool : ∃ ts, Pool freeBlockMetadataSize h.client.state ts ∧
    h.client.live.Perm (grants len request blockMetadataSize (base h.client.state) ts) ∧
    ∀ q ∈ h.freed, ∃ w, q = w + blockMetadataSize ∧ Freed h.client.state ts w

theorem Tracked.rejects {trusted n q : ℕ} {h : History} (ht : Tracked trusted n h) (hq : q ∈ h.freed) :
    Rejects h.client.state q := by
  obtain ⟨-, -, ts, hpool, -, hfreed⟩ := ht
  obtain ⟨w, rfl, hw⟩ := hfreed q hq
  exact hw.rejects hpool

theorem Tracked.step {trusted n : ℕ} {h h' : History} (ht : Tracked trusted n h)
    (hs : CarefulStep h h') : Tracked trusted n h' := by
  obtain ⟨htrusted, hn, ts, hpool, hlive, hfreed⟩ := ht
  cases hs with
  | @allocate s s' live freed size p hsize hcut hok =>
    dsimp only at htrusted hn hpool hlive hfreed
    have hroom (b : ℕ) (hb : getFreeBlock s size = .ok b) (hcan : canSplit s b size) :
        freeBlockMetadataSize ≤ blockMetadataSize + size := hsize.resolve_right fun hnever => hnever b hb hcan
    obtain ⟨pre, t, post, mid, rfl, hf, hcarved, rfl, hpool', hb, hc, -⟩ :=
      allocate_spec Bytes.lawful hpool hroom hok
    have hbase : base s' = base s := by unfold base; rw [hc.trusted]
    refine ⟨hc.trusted.trans htrusted, hc.size.trans hn, _, hpool', ?_, ?_⟩
    · rw [hbase]
      exact hcarved.perm_grants hf hlive
    intro q hq
    obtain ⟨hq, hout⟩ := List.mem_filter.mp hq
    obtain ⟨w, rfl, hw⟩ := hfreed q hq
    have hout' := of_decide_eq_true hout
    rw [Nat.add_sub_cancel, Nat.add_sub_cancel] at hout'
    refine ⟨w, rfl, hw.carved hpool hcarved hpool' hc (fun hcan => ?_) hout'⟩
    have hclear := hcut _ hb hcan _ hq
    rwa [Nat.add_sub_cancel] at hclear
  | @deallocate s s' live freed size p hm hnone hok =>
    dsimp only at htrusted hn hpool hlive hfreed
    obtain ⟨pre, t, post, rfl, hr, rfl⟩ := mem_grants len request blockMetadataSize (hlive.mem_iff.mp hm)
    have hheld := t.held_iff.mpr ⟨size, hr⟩
    rw [Nat.add_sub_cancel] at hnone
    obtain ⟨hj, htrusted', hn', hpool', hself, hothers⟩ := Freed.deallocate hpool hheld hnone hok
    have hbase : base s' = base s := by unfold base; rw [htrusted']
    refine ⟨htrusted'.trans htrusted, hn'.trans hn, _, hpool', ?_, ?_⟩
    · rw [hbase]
      exact perm_grants_joined hr hj hlive hm
    intro q hq
    rcases List.mem_cons.mp hq with rfl | hq
    · exact ⟨_, rfl, hself⟩
    · obtain ⟨w, rfl, hw⟩ := hfreed q hq
      exact ⟨w, rfl, hothers w hw⟩
  | setMode mode => exact ⟨htrusted, hn, ts, hpool.setMode mode, hlive, hfreed⟩
  | @write s live freed size p a v hm ha =>
    dsimp only at htrusted hn hpool hlive hfreed
    obtain ⟨pre, t, post, rfl, hr, rfl⟩ := mem_grants len request blockMetadataSize (hlive.mem_iff.mp hm)
    have hheld := t.held_iff.mpr ⟨size, hr⟩
    have hfit := t.fits _ hr
    refine ⟨htrusted, hn, _, (hpool.write Bytes.lawful hheld v ha.1 (ha.2.trans_le (by omega))).1, hlive, ?_⟩
    intro q hq
    obtain ⟨w, rfl, hw⟩ := hfreed q hq
    have hhigh : a < base s + span len pre + t.len := ha.2.trans_le (by omega)
    exact ⟨w, rfl, hw.written hheld v (Nat.le_of_add_right_le ha.1) hhigh⟩

/-- A block that is taken in by the free block before it can be returned again. -/
theorem Pool.rejects_again_iff (h : Pool freeBlockMetadataSize s (pre ++ t :: post)) (ht : t.free = false)
    (hok : deallocate s (base s + span len pre + blockMetadataSize) = .ok s') :
    Rejects s' (base s + span len pre + blockMetadataSize) ↔ NoneBefore s (base s + span len pre) := by
  constructor
  · intro hrejects
    obtain ⟨pre', u, hj, hpool, hc, -⟩ := deallocate_spec Bytes.lawful h ht hok
    rcases noneBefore_of_joined h.listing hj with ⟨hnone, -⟩ | ⟨-, f, hf, rfl, rfl⟩
    · exact hnone
    · have howner := h.listing.header.2.2.2 ht
      have htrusted : s'.trusted = s.trusted := hc.trusted
      have hwt := h.listing.wide t (by simp)
      have hwf := h.listing.wide f (by simp)
      have hroom := h.listing.payload_eq Bytes.lawful
      rw [rejects_iff, hroom, htrusted] at hrejects
      rw [span_append, span_cons, span_nil, Nat.add_zero, ← Nat.add_assoc] at hrejects howner hc
      have hkeep : get s'.memory (base s + span len pre' + f.len) =
          get (setOccupied s (base s + span len pre' + f.len) false).memory
            (base s + span len pre' + f.len) := by
        apply hc.scattered.get_eq Bytes.lawful
        intro y hy
        have hlen : (join f (gap t.len)).len = f.len + t.len := rfl
        refine apart_inner ?_ hwf (by omega) hy
        intro v hv
        rcases List.mem_append.mp hv with hv | hv
        · exact h.listing.wide v (by simp [hv])
        · rcases List.mem_cons.mp hv with rfl | hv
          · omega
          · exact h.listing.wide v (by simp [hv])
      have hset := setOccupied_get (s := s) Bytes.lawful
        (Or.inl rfl : Grid freeBlockMetadataSize (base s + span len pre' + f.len) _) false
      rw [if_pos rfl] at hset
      have hparent : parent s' (base s + span len pre' + f.len) =
          parent s (base s + span len pre' + f.len) :=
        congrArg (fun h => h.node.parent) (hkeep.trans hset)
      exact absurd (hparent.trans howner) hrejects
  · intro hnone
    obtain ⟨-, -, -, hpool, hself, -⟩ := Freed.deallocate h ht hnone hok
    exact hself.rejects hpool

/-- In a run of careful calls every freed pointer is refused. In any run whose blocks keep the room of a
free block's header, a pointer that has just been returned is refused exactly if no free block lay
before its block. -/
theorem freed_twice_refused (trusted n : ℕ) (mode : FitMode) (m : Memory) (ht : 0 < trusted)
    (hregion : trusted + n + 80 < 2 ^ 64) (hn : freeBlockMetadataSize ≤ n)
    (fresh : RedBlackAllocator Memory) (hc : construct trusted n mode m = .ok fresh) :
    (∀ h, Relation.ReflTransGen CarefulStep ⟨⟨fresh, []⟩, []⟩ h →
      ∀ q ∈ h.freed, Rejects h.client.state q) ∧
    ∀ c, Relation.ReflTransGen RoomyStep ⟨fresh, []⟩ c → ∀ p size s', (p, size) ∈ c.live →
      deallocate c.state p = .ok s' → (Rejects s' p ↔ NoneBefore c.state (p - blockMetadataSize)) := by
  obtain ⟨hpool, htrusted, hsize, -⟩ := construct_pool Bytes.lawful ht hregion hn hc
  have hlive : ([] : List (ℕ × ℕ)).Perm (grants len request blockMetadataSize (base fresh) [gap n]) := by
    rw [grants_cons_none len request _ rfl, grants_nil]
  constructor
  · intro h hr
    have htracked : Tracked trusted n h := by
      induction hr with
      | refl => exact ⟨htrusted, hsize, _, hpool, hlive, fun q hq => by cases hq⟩
      | tail _ hs ih => exact ih.step hs
    exact fun q hq => htracked.rejects hq
  · intro c hr p size s' hm hok
    have hfresh : Kept freeBlockMetadataSize trusted n fresh [] := ⟨htrusted, hsize, _, hpool, hlive⟩
    obtain ⟨-, -, ts, hpool', hlive'⟩ := roomy_kept hr hfresh
    obtain ⟨pre, t, post, rfl, hrequest, rfl⟩ :=
      mem_grants len request blockMetadataSize (hlive'.mem_iff.mp hm)
    rw [Nat.add_sub_cancel]
    exact hpool'.rejects_again_iff (t.held_iff.mpr ⟨size, hrequest⟩) hok

/-- A block of 16 bytes from a pool of 150, and what its header says of the block before it. -/
def firstGrant : Except AllocFault (RedBlackAllocator Memory × ℕ × RedBlackAllocator Memory × ℕ) := do
  let s ← construct 4096 150 .firstFit (fun _ => 0 : Memory)
  let (p, s') ← allocate s 16
  pure (s, p, s', back s' (p - blockMetadataSize))

theorem freed_twice_refused_first : ∃ s p s₁ s₂, construct 4096 150 .firstFit (fun _ => 0 : Memory) = .ok s ∧
    allocate s 16 = .ok (p, s₁) ∧ deallocate s₁ p = .ok s₂ ∧ Rejects s₂ p := by
  have hback : (firstGrant.map fun r => r.2.2.2) = .ok 0 := by decide +kernel
  have hreturned : (firstGrant.bind fun r => deallocate r.2.2.1 r.2.1).isOk = true := by decide +kernel
  cases hrun : firstGrant with
  | error e =>
    rw [hrun] at hback
    cases hback
  | ok r =>
    rw [hrun] at hback hreturned
    obtain ⟨s, hc, hrun⟩ := bind_eq_ok.mp hrun
    obtain ⟨⟨p, s₁⟩, ha, hrun⟩ := bind_eq_ok.mp hrun
    cases hrun
    simp only [Except.map, Except.bind] at hback hreturned
    have hnone : NoneBefore s₁ (p - blockMetadataSize) := Or.inl (Except.ok.inj hback)
    cases hreturn : deallocate s₁ p with
    | error e =>
      rw [hreturn] at hreturned
      cases hreturned
    | ok s₂ =>
      have hsteps : Relation.ReflTransGen CarefulStep ⟨⟨s, []⟩, []⟩ _ :=
        (Relation.ReflTransGen.single (.allocate (Or.inl (by decide)) (fun _ _ _ _ hq => by cases hq) ha)).tail
          (.deallocate (List.mem_cons_self ..) hnone hreturn)
      exact ⟨s, p, s₁, s₂, hc, ha, hreturn, (freed_twice_refused 4096 150 .firstFit _ (by decide) (by decide)
        (by decide) s hc).1 _ hsteps p (List.mem_cons_self ..)⟩

/-- The second of two blocks is returned after the first, which takes it in. -/
def takenIn : Except AllocFault (ℕ × RedBlackAllocator Memory) := do
  let s ← construct 4096 150 .firstFit (fun _ => 0 : Memory)
  let (a, s) ← allocate s 16
  let (b, s) ← allocate s 60
  let s ← deallocate s a
  let s ← deallocate s b
  pure (b, s)

theorem taken_in_not_refused :
    match takenIn with
    | .ok (b, s) => ¬ Rejects s b
    | .error _ => False := by
  have howner : (takenIn.map fun r => (parent r.2 (sizeSub r.1 blockMetadataSize), r.2.trusted)) =
      .ok (4096, 4096) := by decide +kernel
  cases hrun : takenIn with
  | error e =>
    rw [hrun] at howner
    cases howner
  | ok r =>
    rw [hrun] at howner
    obtain ⟨hparent, htrusted⟩ := Prod.mk.inj (Except.ok.inj howner)
    show ¬ Rejects r.2 r.1
    rw [rejects_iff, hparent, htrusted]
    exact not_not.mpr rfl

end MaiFaSp.RedBlackAllocator
