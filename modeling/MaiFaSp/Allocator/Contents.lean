import MaiFaSp.Allocator.BoundaryTagsInvariant
import MaiFaSp.Allocator.BuddiesInvariant
import MaiFaSp.Allocator.SortedListBadFrees

/-!
# What is stored in a grant stays there

The allocators keep their headers in the same bytes of the pool in which the clients store. No call
writes a byte of a block that is granted, but for the block it returns.
-/

namespace MaiFaSp

open Memory Tiling

namespace SortedList

open Block

variable {s s' : SortedList} {bs : List Block} {size p : ℕ}

/-- The last free block is a free block. -/
theorem lastFreeOf_placed (a p : ℕ) (bs : List Block) :
    lastFreeOf a bs p = p ∨ ∃ b, (lastFreeOf a bs p, b) ∈ placed len a bs ∧ b.free = true := by
  induction bs generalizing a p with
  | nil => exact Or.inl rfl
  | cons b bs ih =>
    rw [lastFreeOf, placed_cons]
    rcases ih (a + b.len) (if b.free then a else p) with h | ⟨c, hc, hf⟩
    · rw [h]
      split
      case isTrue hf => exact Or.inr ⟨b, List.mem_cons_self, hf⟩
      case isFalse hf => exact Or.inl rfl
    · exact Or.inr ⟨c, List.mem_cons_of_mem _ hc, hf⟩

/-- The payload of an occupied block lies apart from a block that is free. -/
theorem payload_apart {a x y : ℕ} {b c : Block} (hy : (y, c) ∈ placed len a bs)
    (hc : c.free = false) (hx : (x, b) ∈ placed len a bs) (hb : b.free = true) :
    y + c.len ≤ x ∨ x + b.len ≤ y := by
  rcases placed_apart len hy hx with he | h
  · cases he
    rw [hc] at hb
    cases hb
  · exact h

/-- The header of the last free block lies apart from the payload of an occupied one. -/
theorem lastFreeOf_apart {a y : ℕ} {pre post : List Block} {c : Block}
    (hy : (y, c) ∈ placed len a (pre ++ post)) (hc : c.free = false) :
    lastFreeOf a pre 0 = 0 ∨ y + c.len ≤ lastFreeOf a pre 0 ∨ lastFreeOf a pre 0 + 16 ≤ y + 16 := by
  rcases lastFreeOf_placed a 0 pre with h0 | ⟨d, hd, hdf⟩
  · exact Or.inl h0
  · have hdp : (lastFreeOf a pre 0, d) ∈ placed len a (pre ++ post) := by
      rw [placed_append]
      exact List.mem_append_left _ hd
    have hda := payload_apart hy hc hdp hdf
    have hdlen := d.len_eq
    omega

theorem agreeOn_tryMerge_null (m : Memory) (left right lo hi : ℕ)
    (h : left = 0 ∨ hi ≤ left ∨ left + 16 ≤ lo) : AgreeOn (tryMerge m left right).2 m lo hi := by
  rcases h with rfl | h
  · unfold tryMerge
    rw [if_pos (Or.inl rfl)]
    exact fun _ _ _ => rfl
  · exact agreeOn_tryMerge h

/-- Only the header that is returned and the one of the free block before it are written. -/
theorem agreeOn_putBack (m : Memory) (prev header next lo hi : ℕ)
    (hprev : prev = 0 ∨ hi ≤ prev ∨ prev + 16 ≤ lo) (hheader : hi ≤ header ∨ header + 16 ≤ lo) :
    AgreeOn (putBack m prev header next) m lo hi := by
  have hlinks := (agreeOn_setNextPtr (relink m prev header) header next lo hi hheader).trans
    (agreeOn_relink m prev header lo hi hprev)
  have hput : putBack m prev header next =
      (if (tryMerge (setNextPtr (relink m prev header) header next) prev header).1 then
        (tryMerge (tryMerge (setNextPtr (relink m prev header) header next) prev header).2 prev next).2
      else (tryMerge (tryMerge (setNextPtr (relink m prev header) header next) prev header).2 header next).2) := rfl
  have hleft := (agreeOn_tryMerge_null _ prev header lo hi hprev).trans hlinks
  rw [hput]
  split
  · exact (agreeOn_tryMerge_null _ prev next lo hi hprev).trans hleft
  · exact (agreeOn_tryMerge_null _ header next lo hi (Or.inr hheader)).trans hleft

/-- What a call of `do_allocate_sm` that returns has written. -/
theorem allocate_memory (h : s.allocate size = .ok (p, s')) :
    ∃ c, fitLoop s.memory s.fitMode size (turns s) s.firstFree 0 noChoice = .ok c ∧ c.result ≠ 0 ∧
      ∃ target, s'.memory = setNextPtr (relink
        (splitBlock s.memory c.result size (sizeSub c.bestSize size)).1 c.prevFree target) c.result s.trusted := by
  unfold allocate at h
  cases hc : fitLoop s.memory s.fitMode size (turns s) s.firstFree 0 noChoice with
  | error e =>
    rw [hc] at h
    cases h
  | ok c =>
    rw [hc] at h
    simp only [bind, Except.bind] at h
    split at h
    case isTrue hnull => cases h
    case isFalse hne =>
      split at h
      case h_1 e he => cases h
      case h_2 u hu =>
        cases h
        exact ⟨c, rfl, hne, _, rfl⟩

theorem allocate_agree (h : Pool s bs) (hsize : size + 16 < 2 ^ 64) (ha : s.allocate size = .ok (p, s'))
    {y : ℕ} {c : Block} (hy : (y, c) ∈ placed len (base s) bs) (hc : c.free = false) :
    AgreeOn s'.memory s.memory (y + 16) (y + c.len) := by
  have hbase := base_eq s
  have hpos := h.nonnull
  have hbound := h.bounded
  have htiles := h.tiles
  obtain ⟨choice, hloop, hne, target, hmem⟩ := allocate_memory ha
  obtain ⟨choice', hloop', hchosen⟩ := fitLoop_spec s.fitMode size h.linked (by omega) h.length_le 0 noChoice
  rw [← h.first, hloop] at hloop'
  cases hloop'
  rcases hchosen with rfl | ⟨pre, b, post, rfl, hf, hfit, rfl⟩
  · exact absurd rfl hne
  · have hadd : sizeAdd size blockMetadataSize = size + 16 := sizeAdd_of_lt hsize
    rw [hadd] at hfit
    rw [span_append, span_cons] at htiles
    obtain ⟨-, -, -, -, -, -, -, hsplit⟩ := splitBlock_spec ((linked_append ..).mp h.linked).2 hf
      (by omega) hfit (by rw [span_cons]; omega)
    have hx : (base s + span len pre, b) ∈ placed len (base s) (pre ++ b :: post) :=
      (mem_placed_iff len).mpr ⟨pre, post, rfl, rfl⟩
    have hapart := payload_apart hy hc hx hf
    have hblen := b.len_eq
    have hprev := lastFreeOf_apart hy hc
    dsimp only at hmem
    rw [hmem]
    exact (agreeOn_setNextPtr _ _ _ _ _ (by omega)).trans
      ((agreeOn_relink _ _ _ _ _ hprev).trans (hsplit _ _ (by omega)))

/-- What a call of `do_deallocate_sm` that returns has written. -/
theorem deallocate_memory {payload : ℕ} (h : s.deallocate payload = .ok s') :
    ∃ prev, prevFreeFrom s (sizeSub payload blockMetadataSize) (turns s) (begin s) 0 = .ok prev ∧
      ∃ next, s'.memory = putBack s.memory prev (sizeSub payload blockMetadataSize) next := by
  unfold deallocate at h
  dsimp only at h
  split at h
  case isTrue htag => cases h
  case isFalse htag =>
    cases hprev : prevFreeFrom s (sizeSub payload blockMetadataSize) (turns s) (begin s) 0 with
    | error e =>
      rw [hprev] at h
      cases h
    | ok prev =>
      rw [hprev] at h
      simp only [bind, Except.bind] at h
      split at h
      case h_1 e he => cases h
      case h_2 u hu =>
        cases h
        exact ⟨prev, rfl, _, rfl⟩

theorem deallocate_agree {pre post : List Block} {b : Block} (h : Pool s (pre ++ b :: post))
    (hd : s.deallocate (base s + span len pre + 16) = .ok s') {y : ℕ} {c : Block}
    (hy : (y, c) ∈ placed len (base s) (pre ++ b :: post)) (hc : c.free = false)
    (hne : y ≠ base s + span len pre) : AgreeOn s'.memory s.memory (y + 16) (y + c.len) := by
  obtain ⟨prev, hprev, next, hmem⟩ := deallocate_memory hd
  rw [h.header_eq, h.prevFree_ok] at hprev
  cases hprev
  rw [hmem, h.header_eq]
  apply agreeOn_putBack _ _ _ _ _ _ (lastFreeOf_apart hy hc)
  have hx : (base s + span len pre, b) ∈ placed len (base s) (pre ++ b :: post) :=
    (mem_placed_iff len).mpr ⟨pre, post, rfl, rfl⟩
  have hlen := b.len_eq
  rcases placed_apart len hy hx with he | hlt | hlt
  · exact absurd (congrArg Prod.fst he) hne
  · exact Or.inl hlt
  · dsimp only at hlt
    omega

/-- What a client may use of a grant lies behind the header of an occupied block. -/
theorem grant_inside {a r x : ℕ} (h : (x, r) ∈ grants len request 16 a bs) :
    ∃ y b, (y, b) ∈ placed len a bs ∧ b.free = false ∧ x = y + 16 ∧ x + r ≤ y + b.len := by
  obtain ⟨y, b, hy, hr, rfl⟩ := placed_of_grants len request 16 h
  have hlen := b.len_eq
  have hfit := b.fits r hr
  refine ⟨y, b, hy, ?_, rfl, by omega⟩
  rw [free, hr]
  rfl

theorem separates {trusted n : ℕ} : ops.Separates NoWrap memory (Kept trusted n) where
  allocate hi hsize ha hg hw := by
    obtain ⟨-, -, bs, hpool, hlive⟩ := hi
    obtain ⟨y, b, hy, hb, hx, hend⟩ := grant_inside (hlive.mem_iff.mp hg)
    have hlo := hw.1
    have hhi := hw.2
    exact allocate_agree hpool hsize ha hy hb _ (by omega) (by omega)
  deallocate hi hh hd hg hne hw := by
    obtain ⟨-, -, bs, hpool, hlive⟩ := hi
    obtain ⟨y, b, hy, hb, hx, hend⟩ := grant_inside (hlive.mem_iff.mp hg)
    obtain ⟨pre, c, post, rfl, -, -, hp⟩ := held_of_grants (hlive.mem_iff.mp hh)
    rw [hp] at hd
    have hlo := hw.1
    have hhi := hw.2
    refine deallocate_agree hpool hd hy hb (fun he => hne ?_) _ (by omega) (by omega)
    exact grants_unique len request 16 (fun d => by rw [d.len_eq]; omega) (hlive.mem_iff.mp hg)
      (hlive.mem_iff.mp hh) (by omega)
  setMode mode := rfl
  write a v := rfl
  apart hi hh hg hhw hgw := by
    obtain ⟨-, -, bs, hpool, hlive⟩ := hi
    refine grants_apart len request 16 (fun x b r hx hr hw => ?_) (hlive.mem_iff.mp hh)
      (hlive.mem_iff.mp hg) hhw hgw
    have hlen := b.len_eq
    have hfit := b.fits r hr
    have hlo := hw.1
    have hhi := hw.2
    omega

end SortedList

namespace BoundaryTags

open Tile

variable {s s' : BoundaryTags} {ts pre post : List Tile} {t : Tile} {size p : ℕ}

theorem agreeOn_linkNext (m : Memory) (trusted p v lo hi : ℕ) (h : p = trusted ∨ hi ≤ p ∨ p + 32 ≤ lo) :
    AgreeOn (linkNext m trusted p v) m lo hi := by
  unfold linkNext
  split
  case isTrue hp => exact fun _ _ _ => rfl
  case isFalse hp => exact agreeOn_store64 m (p + 8) v lo hi (by omega)

theorem agreeOn_linkPrev (m : Memory) (next v lo hi : ℕ) (h : next = 0 ∨ hi ≤ next ∨ next + 32 ≤ lo) :
    AgreeOn (linkPrev m next v) m lo hi := by
  unfold linkPrev
  split
  case isTrue hn => exact agreeOn_store64 m (next + 16) v lo hi (by omega)
  case isFalse hn => exact fun _ _ _ => rfl

theorem agreeOn_writeHeader (m : Memory) (x n p next tm lo hi : ℕ) (h : hi ≤ x ∨ x + 32 ≤ lo) :
    AgreeOn (writeHeader m x n p next tm) m lo hi :=
  (agreeOn_store64 _ (x + 24) tm _ _ (by omega)).trans
    ((agreeOn_store64 _ (x + 8) next _ _ (by omega)).trans
      ((agreeOn_store64 _ (x + 16) p _ _ (by omega)).trans (agreeOn_store64 m x n _ _ (by omega))))

/-- The payload of a block lies apart from the first 32 bytes of every tile that has them. -/
theorem payload_apart {a y z : ℕ} {c d : Tile} (hy : (y, c) ∈ placed len a ts)
    (hz : (z, d) ∈ placed len a ts) (hd : 32 ≤ d.len) : y + c.len ≤ z ∨ z + 32 ≤ y + 32 := by
  rcases placed_apart len hy hz with he | hlt | hlt
  · cases he
    exact Or.inr le_rfl
  · exact Or.inl hlt
  · dsimp only at hlt
    omega

theorem address_apart {a y z : ℕ} {c : Tile} (hy : (y, c) ∈ placed len a ts) (hz : z ∈ addresses a ts) :
    y + c.len ≤ z ∨ z + 32 ≤ y + 32 := by
  obtain ⟨⟨z, d⟩, hm, rfl⟩ := List.mem_map.mp hz
  obtain ⟨hz, hf⟩ := mem_blocks hm
  exact payload_apart hy hz (len_of_held hf)

theorem lastBlock_mem (s : BoundaryTags) (pre : List Tile) :
    lastBlock s pre = s.trusted ∨ lastBlock s pre ∈ addresses (base s) pre := by
  rcases lastBlock_cases s pre with h | h
  · exact Or.inl h.2
  · exact Or.inr (List.mem_of_getLast? h.1)

/-- What a call of `do_allocate_sm` that returns has written. -/
theorem allocate_memory (h : Pool s ts) (hsize : size + 32 < 2 ^ 64) (ha : s.allocate size = .ok (p, s')) :
    ∃ pre t post total, ts = pre ++ t :: post ∧ t.free = true ∧ 32 ≤ t.len ∧
      s'.memory = occupied s (lastBlock s pre) (base s + span len pre) total := by
  have hadd : sizeAdd size blockMetadataSize = size + 32 := sizeAdd_of_lt hsize
  obtain ⟨q, hget, hfound, -⟩ := h.getBlock_spec (size + 32)
  unfold allocate at ha
  simp only [hadd, hget, bind, Except.bind] at ha
  rcases hfound with rfl | ⟨pre, t, post, rfl, ht, hle, rfl⟩
  · cases ha
  · have hpos := h.lastBlock_pos
    have hbound := h.bounded
    have htiles := h.tiles
    rw [span_append, span_cons] at htiles
    have hfit : 32 + size ≤ t.len := by omega
    have hadd' : sizeAdd (size + 32) blockMetadataSize = size + 64 :=
      sizeAdd_of_lt (by show size + 32 + 32 < 2 ^ 64; omega)
    have htotal : (if t.len < size + 64 then t.len else size + 32) = carvedLen t.len size := by
      unfold carvedLen
      split <;> split <;> omega
    have hlen := carvedLen_bounds hfit
    have hocc := (h.place ht (by omega)).occupy_eq (h.endOf_eq ht)
      (by omega : 32 ≤ carvedLen t.len size) (by omega)
    simp only [if_neg hpos.ne', h.getNextFreeBlockSize_eq ht, hadd', htotal, hocc] at ha
    refine ⟨pre, t, post, carvedLen t.len size, rfl, ht, by omega, ?_⟩
    split at ha
    case h_1 e he => cases ha
    case h_2 u hu =>
      cases ha
      rfl

theorem allocate_agree (h : Pool s ts) (hsize : size + 32 < 2 ^ 64) (ha : s.allocate size = .ok (p, s'))
    {y : ℕ} {c : Tile} (hy : (y, c) ∈ placed len (base s) ts) :
    AgreeOn s'.memory s.memory (y + 32) (y + c.len) := by
  obtain ⟨pre, t, post, total, rfl, ht, hlen, hmem⟩ := allocate_memory h hsize ha
  have hplace := h.place ht hlen
  have hx : (base s + span len pre, t) ∈ placed len (base s) (pre ++ t :: post) :=
    (mem_placed_iff len).mpr ⟨pre, post, rfl, rfl⟩
  have hall : ∀ z ∈ addresses (base s) pre ++ addresses (base s + span len pre + t.len) post,
      z ∈ addresses (base s) (pre ++ t :: post) := by
    intro z hz
    rw [addresses_append, addresses_cons_free post ht]
    exact hz
  have hnext := hplace.next_cases.imp id fun hm => address_apart hy (hall _ hm)
  have hlast := (lastBlock_mem s pre).imp id fun hm => address_apart hy (hall _ (List.mem_append_left _ hm))
  rw [hmem, occupied]
  exact (agreeOn_linkNext _ _ _ _ _ _ hlast).trans ((agreeOn_linkPrev _ _ _ _ _ hnext).trans
    (agreeOn_writeHeader _ _ _ _ _ _ _ _ (payload_apart hy hx hlen)))

theorem deallocate_agree (h : Pool s (pre ++ t :: post)) (ht : t.free = false)
    (hd : s.deallocate (base s + span len pre + 32) = .ok s') {y : ℕ} {c : Tile}
    (hy : (y, c) ∈ placed len (base s) (pre ++ t :: post)) :
    AgreeOn s'.memory s.memory (y + 32) (y + c.len) := by
  obtain ⟨-, -, htm, hprev, hnext⟩ := h.held_header ht
  have hrelease : release s (base s + span len pre) = unlinked s (lastBlock s pre)
      ((addresses (base s + span len pre + t.len) post).headD 0) :=
    release_eq hprev hnext (lastBlock_far s pre)
  unfold deallocate at hd
  simp only [h.header_eq ht, hrelease, if_neg (not_not.mpr htm), bind, Except.bind] at hd
  split at hd
  case h_1 e he => cases hd
  case h_2 u hu =>
    cases hd
    have hlast := (lastBlock_mem s pre).imp id fun hm => address_apart hy (by
      rw [addresses_append]
      exact List.mem_append_left _ hm)
    have hhead : (addresses (base s + span len pre + t.len) post).headD 0 = 0 ∨
        y + c.len ≤ (addresses (base s + span len pre + t.len) post).headD 0 ∨
        (addresses (base s + span len pre + t.len) post).headD 0 + 32 ≤ y + 32 := by
      cases hys : addresses (base s + span len pre + t.len) post with
      | nil => exact Or.inl rfl
      | cons z zs =>
        refine Or.inr (address_apart hy ?_)
        rw [addresses_append, addresses_cons_held post ht, hys]
        simp
    exact (agreeOn_linkPrev _ _ _ _ _ hhead).trans (agreeOn_linkNext _ _ _ _ _ _ hlast)

theorem grant_inside {a r x : ℕ} (h : (x, r) ∈ grants len request 32 a ts) :
    ∃ y t, (y, t) ∈ placed len a ts ∧ x = y + 32 ∧ x + r ≤ y + t.len := by
  obtain ⟨y, t, hy, hr, rfl⟩ := placed_of_grants len request 32 h
  have hfit := t.fits r hr
  exact ⟨y, t, hy, rfl, by omega⟩

theorem separates {trusted n : ℕ} : ops.Separates NoWrap memory (Kept trusted n) where
  allocate hi hsize ha hg hw := by
    obtain ⟨-, -, ts, hpool, hlive⟩ := hi
    obtain ⟨y, t, hy, hx, hend⟩ := grant_inside (hlive.mem_iff.mp hg)
    have hlo := hw.1
    have hhi := hw.2
    exact allocate_agree hpool hsize ha hy _ (by omega) (by omega)
  deallocate hi hh hd hg hne hw := by
    obtain ⟨-, -, ts, hpool, hlive⟩ := hi
    obtain ⟨y, t, hy, hx, hend⟩ := grant_inside (hlive.mem_iff.mp hg)
    obtain ⟨pre, c, post, rfl, hr, hp⟩ := mem_grants len request 32 (hlive.mem_iff.mp hh)
    rw [hp] at hd
    have hlo := hw.1
    have hhi := hw.2
    exact deallocate_agree hpool (c.held_iff.mpr ⟨_, hr⟩) hd hy _ (by omega) (by omega)
  setMode mode := rfl
  write a v := rfl
  apart hi hh hg hhw hgw := by
    obtain ⟨-, -, ts, hpool, hlive⟩ := hi
    refine grants_apart len request 32 (fun x t r hx hr hw => ?_) (hlive.mem_iff.mp hh)
      (hlive.mem_iff.mp hg) hhw hgw
    have hfit := t.fits r hr
    have hlo := hw.1
    have hhi := hw.2
    omega

end BoundaryTags

namespace Buddies

open BuddyTree

variable {k j n : ℕ} {s s' : Buddies} {m m' : Memory} {tag trusted size p z : ℕ}

/-! ### Splitting -/

theorem splitOnce_agree (c : Ctx k (j + 1)) (hk : k ≤ 26) (h : Headers m tag (poolStart trusted) (freeHole c))
    {lo hi : ℕ} (hout : hi ≤ holeAt trusted c ∨ holeAt trusted c + 2 ^ (j + 1 + 4) ≤ lo) :
    AgreeOn (splitOnce trusted m (holeAt trusted c)) m lo hi := by
  have hj := c.level_le
  have hlen : 2 ^ (j + 1 + 4) = 2 ^ (j + 4) + 2 ^ (j + 4) := by
    rw [show j + 1 + 4 = j + 4 + 1 by omega, pow_succ]
    omega
  have hpos := Nat.two_pow_pos (j + 4)
  obtain ⟨hk₀, -⟩ := blockSizeK_free h
  have hsize : blockSize (setSizeK m (holeAt trusted c) j) (holeAt trusted c) = 2 ^ (j + 4) := by
    rw [blockSize, minK_eq, blockSizeK, setSizeK_self _ _ _ (by omega)]
    congr 1
    omega
  have hbuddy : getBuddy trusted (setSizeK m (holeAt trusted c) j) (holeAt trusted c) =
      holeAt trusted c + 2 ^ (j + 4) := getBuddy_upper (c.offset_dvd 4) hsize
  unfold splitOnce
  rw [hk₀, Nat.add_sub_cancel]
  simp only [hbuddy]
  exact (agreeOn_setSizeK _ _ _ lo hi (by omega)).trans
    ((agreeOn_setOccupied _ _ _ lo hi (by omega)).trans (agreeOn_setSizeK _ _ _ lo hi (by omega)))

/-- Splitting writes nothing outside the block. -/
theorem splitLoop_agree {need : ℕ} (c : Ctx k j) (hk : k ≤ 26)
    (h : Headers m tag (poolStart trusted) (freeHole c)) {lo hi : ℕ}
    (hout : hi ≤ holeAt trusted c ∨ holeAt trusted c + 2 ^ (j + 4) ≤ lo) :
    AgreeOn (splitLoop trusted need j m (holeAt trusted c)) m lo hi := by
  induction j generalizing m with
  | zero => exact fun _ _ _ => rfl
  | succ j ih =>
    rw [splitLoop]
    split
    case isFalse hstop => exact fun _ _ _ => rfl
    case isTrue hturn =>
      have hle : 2 ^ (j + 4) ≤ 2 ^ (j + 1 + 4) := Nat.pow_le_pow_right (by decide) (by omega)
      have hhole : holeAt trusted (Ctx.left (leaf none) c) = holeAt trusted c := rfl
      have hrest := ih (Ctx.left (leaf none) c) (splitOnce_headers c hk h) (by rw [hhole]; omega)
      exact hrest.trans (splitOnce_agree c hk h hout)

/-! ### Merging -/

/-- A free block starts at the address. -/
def FreeAt (trusted : ℕ) (bs : List Block) (z : ℕ) : Prop :=
  ∃ b, (z, b) ∈ placed len (poolStart trusted) bs ∧ b.free = true

theorem freeAt_hole (c : Ctx k j) (i : ℕ) (bs : List Block) :
    FreeAt trusted (c.before ++ ⟨i, none⟩ :: bs) (holeAt trusted c) :=
  ⟨⟨i, none⟩, (mem_placed_iff len).mpr ⟨c.before, bs, rfl, rfl⟩, rfl⟩

theorem FreeAt.of_merged {c : Ctx k (j + 1)} (h : FreeAt trusted (freeHole c) z) :
    FreeAt trusted (c.before ++ ⟨j, none⟩ :: ⟨j, none⟩ :: c.after) z := by
  have hlen : len ⟨j + 1, none⟩ = len ⟨j, none⟩ + len ⟨j, none⟩ := by
    rw [len_free, len_free, show j + 1 + 4 = j + 4 + 1 by omega, pow_succ]
    omega
  obtain ⟨b, hb, hf⟩ := h
  rw [freeHole, placed_append, placed_cons, List.mem_append, List.mem_cons] at hb
  rcases hb with hb | hb | hb
  · refine ⟨b, ?_, hf⟩
    rw [placed_append]
    exact List.mem_append_left _ hb
  · cases hb
    exact freeAt_hole c j _
  · refine ⟨b, ?_, hf⟩
    rw [placed_append, placed_cons, placed_cons, Nat.add_assoc _ (len ⟨j, none⟩), ← hlen]
    exact List.mem_append_right _ (List.mem_cons_of_mem _ (List.mem_cons_of_mem _ hb))

/-- The loop ends at once, or makes a turn. -/
theorem mergeLoop_cases {block buddy : ℕ} (h : mergeLoop s n m block buddy = .ok m') :
    m' = m ∨ (blockSize m block < s.size ∧ blockSize m block = blockSize m buddy ∧ ¬ occupied m buddy = true) ∧
      ∃ i, n = i + 1 := by
  by_cases hturn : blockSize m block < s.size ∧ blockSize m block = blockSize m buddy ∧
      ¬ occupied m buddy = true
  · cases n with
    | zero =>
      rw [mergeLoop, if_pos hturn] at h
      cases h
    | succ n => exact Or.inr ⟨hturn, n, rfl⟩
  · rw [mergeLoop_stop hturn] at h
    cases h
    exact Or.inl rfl

/-- Merging writes the headers of free blocks only. -/
theorem mergeLoop_agree (c : Ctx k j) (hs : s.sizeK = k + 4) (hk : k ≤ 26)
    (h : Headers m tag (poolStart s.trusted) (freeHole c))
    (hok : mergeLoop s n m (holeAt s.trusted c) (getBuddy s.trusted m (holeAt s.trusted c)) = .ok m')
    (hz : ¬ FreeAt s.trusted (freeHole c) z) : m' z = m z := by
  induction c generalizing m n with
  | top =>
    obtain ⟨-, hsize⟩ := blockSizeK_free h
    rcases mergeLoop_cases hok with rfl | ⟨hturn, -⟩
    · rfl
    · rw [hsize, Buddies.size, hs] at hturn
      exact absurd hturn.1 (lt_irrefl _)
  | @left j r c ih =>
    obtain ⟨-, hsize⟩ := blockSizeK_free h
    have hbuddy : getBuddy s.trusted m (holeAt s.trusted c) = holeAt s.trusted c + 2 ^ (j + 4) :=
      getBuddy_upper (m := m) (c.offset_dvd 4) hsize
    have hat : holeAt s.trusted (Ctx.left r c) = holeAt s.trusted c := rfl
    have hupper : Headers m tag (holeAt s.trusted c + 2 ^ (j + 4)) (r.blocks ++ c.after) :=
      ((headers_free_cons ..).mp ((headers_hole c _).mp h).2).2
    rw [hat] at hsize hok
    rw [hbuddy] at hok
    rcases mergeLoop_cases hok with rfl | ⟨hturn, i, rfl⟩
    · rfl
    · have hfree := (buddy_header hupper).mp ⟨hturn.2.1.symm.trans hsize, hturn.2.2⟩
      rw [mergeLoop_turn hturn (if_neg (by omega))] at hok
      rw [eq_leaf_of_free hfree] at h hz
      have hne : z ≠ holeAt s.trusted c := by
        rintro rfl
        exact hz (freeAt_hole c j _)
      rw [ih (merge_headers c hk h) hok fun hm => hz hm.of_merged]
      exact Function.update_of_ne hne _ _
  | @right j l c ih =>
    obtain ⟨-, hsize⟩ := blockSizeK_free h
    have hpos := Nat.two_pow_pos (j + 4)
    have hat : holeAt s.trusted (Ctx.right l c) = holeAt s.trusted c + 2 ^ (j + 4) := by
      simp only [holeAt, Ctx.before, span_append, len, span_blocks, Nat.add_assoc]
    have hbuddy : getBuddy s.trusted m (holeAt s.trusted (Ctx.right l c)) = holeAt s.trusted c := by
      rw [hat, holeAt, Nat.add_assoc] at hsize ⊢
      exact getBuddy_lower (c.offset_dvd 4) hsize
    have hall : Headers m tag (poolStart s.trusted)
        (c.before ++ (l.blocks ++ ⟨j, none⟩ :: c.after)) := by
      rw [← List.append_assoc]
      exact h
    rw [hbuddy] at hok
    rcases mergeLoop_cases hok with rfl | ⟨hturn, i, rfl⟩
    · rfl
    · have hfree := (buddy_header ((headers_hole c _).mp hall).2).mp
        ⟨hturn.2.1.symm.trans hsize, hturn.2.2⟩
      have hlist : freeHole (Ctx.right l c) = c.before ++ ⟨j, none⟩ :: ⟨j, none⟩ :: c.after := by
        rw [eq_leaf_of_free hfree, freeHole, Ctx.before, List.append_assoc]
        rfl
      rw [mergeLoop_turn hturn (if_pos (by omega))] at hok
      rw [eq_leaf_of_free hfree] at hall
      rw [hlist] at hz
      have hne : z ≠ holeAt s.trusted c := by
        rintro rfl
        exact hz (freeAt_hole c j _)
      rw [ih (merge_headers c hk hall) hok fun hm => hz hm.of_merged]
      exact Function.update_of_ne hne _ _

/-! ### The calls -/

variable {t : BuddyTree k} {pre post : List Block} {b c : Block} {y : ℕ}

/-- What a call of `do_allocate_sm` that returns has written. -/
theorem allocate_memory (h : Pool s t) (hsize : size + 8 < 2 ^ 64) (ha : s.allocate size = .ok (p, s')) :
    ∃ pre b post, t.blocks = pre ++ b :: post ∧ b.free = true ∧
      s'.memory = store64 (setOccupied (splitLoop s.trusted (size + 8) b.level s.memory
        (poolStart s.trusted + span len pre)) (poolStart s.trusted + span len pre) true)
        (poolStart s.trusted + span len pre + 1) s.trusted := by
  have hadd : sizeAdd size 8 = size + 8 := sizeAdd_of_lt hsize
  unfold allocate at ha
  rw [h.blocks, hadd] at ha
  simp only [bind, Except.bind] at ha
  rcases getBlock_spec s.fitMode (size + 8) h.headers with h0 | ⟨pre, b, post, hb, hf, -, hat⟩
  · rw [h0] at ha
    cases ha
  · have hx : (poolStart s.trusted + span len pre, b) ∈ placed len (poolStart s.trusted) t.blocks :=
      (mem_placed_iff len).mpr ⟨pre, post, hb, rfl⟩
    have hk₀ := blockSizeK_of_header (header_of_placed h.headers hx).1
    rw [hat, if_neg (by rw [poolStart]; omega), hk₀] at ha
    refine ⟨pre, b, post, hb, hf, ?_⟩
    split at ha
    case h_1 e he => cases ha
    case h_2 u hu =>
      cases ha
      rfl

theorem allocate_agree (h : Pool s t) (hsize : size + 8 < 2 ^ 64) (ha : s.allocate size = .ok (p, s'))
    (hy : (y, c) ∈ placed len (poolStart s.trusted) t.blocks) (hc : c.free = false) :
    AgreeOn s'.memory s.memory (y + 9) (y + len c) := by
  obtain ⟨pre, b, post, hb, hf, hmem⟩ := allocate_memory h hsize ha
  obtain ⟨ctx, -, rfl, rfl, -⟩ := h.hole hb
  obtain ⟨j, request⟩ := b
  have hnone : request = none := Option.isNone_iff_eq_none.mp hf
  cases hnone
  have hhead := h.headers
  rw [hb] at hhead hy
  have hlen := len_ge ⟨j, none⟩
  have hapart : y + len c ≤ holeAt s.trusted ctx ∨ holeAt s.trusted ctx + 2 ^ (j + 4) ≤ y + 9 := by
    rcases placed_apart len hy ((mem_placed_iff len).mpr ⟨ctx.before, ctx.after, rfl, rfl⟩) with he | hlt | hlt
    · cases he
      cases hc
    · exact Or.inl hlt
    · exact Or.inr (Nat.le_trans hlt (Nat.le_add_right y 9))
  rw [len_free] at hlen
  rw [hmem]
  exact (agreeOn_store64 _ _ _ _ _ (by rw [holeAt] at hapart; omega)).trans
    ((agreeOn_setOccupied _ _ _ _ _ (by rw [holeAt] at hapart; omega)).trans
      (splitLoop_agree ctx h.small hhead hapart))

/-- What a call of `do_deallocate_sm` that returns has written. -/
theorem deallocate_memory {block : ℕ} (hd : s.deallocate (block + 9) = .ok s') :
    ∃ m', mergeLoop s s.sizeK (setOccupied s.memory block false) block
        (getBuddy s.trusted (setOccupied s.memory block false) block) = .ok m' ∧ s'.memory = m' := by
  have hblock : block + 9 - occupiedBlockMetadataSize = block := Nat.add_sub_cancel ..
  unfold deallocate at hd
  rw [hblock] at hd
  dsimp only at hd
  split at hd
  case isTrue htag => cases hd
  case isFalse htag =>
    cases hm : mergeLoop s s.sizeK (setOccupied s.memory block false) block
        (getBuddy s.trusted (setOccupied s.memory block false) block) with
    | error e =>
      rw [hm] at hd
      cases hd
    | ok m' =>
      rw [hm] at hd
      simp only [bind, Except.bind] at hd
      refine ⟨m', rfl, ?_⟩
      split at hd
      case h_1 e he => cases hd
      case h_2 u hu =>
        cases hd
        rfl

theorem deallocate_agree (h : Pool s t) (hb : t.blocks = pre ++ b :: post)
    (hd : s.deallocate (poolStart s.trusted + span len pre + 9) = .ok s')
    (hy : (y, c) ∈ placed len (poolStart s.trusted) t.blocks)
    (hne : y ≠ poolStart s.trusted + span len pre) :
    AgreeOn s'.memory s.memory (y + 9) (y + len c) := by
  obtain ⟨ctx, -, rfl, rfl, -⟩ := h.hole hb
  obtain ⟨j, request⟩ := b
  have hhead := h.headers
  rw [hb] at hhead hy
  obtain ⟨m', hok, hmem⟩ := deallocate_memory hd
  have hbefore : (y, c) ∈ placed len (poolStart s.trusted) (freeHole ctx) := by
    rw [freeHole, placed_append, placed_cons, List.mem_append, List.mem_cons] at *
    rcases hy with hy | hy | hy
    · exact Or.inl hy
    · exact absurd (congrArg Prod.fst hy) hne
    · exact Or.inr (Or.inr hy)
  intro z hlo hhi
  have hnot : ¬ FreeAt s.trusted (freeHole ctx) z := by
    rintro ⟨d, hd, -⟩
    rcases placed_apart len hbefore hd with he | hlt | hlt
    · cases he
      omega
    · dsimp only at hlt
      omega
    · dsimp only at hlt
      omega
  have hz : z ≠ holeAt s.trusted ctx := by
    rintro rfl
    exact hnot (freeAt_hole ctx j _)
  rw [hmem, mergeLoop_agree ctx h.sizeK h.small (vacate_headers ctx hhead) hok hnot]
  exact Function.update_of_ne hz _ _

theorem Pool.grant_inside {x r : ℕ} (h : Pool s t)
    (hg : (x, r) ∈ grants len Block.request 9 (poolStart s.trusted) t.blocks) :
    ∃ y b, (y, b) ∈ placed len (poolStart s.trusted) t.blocks ∧ b.free = false ∧ x = y + 9 ∧
      r + 8 ≤ len b := by
  obtain ⟨pre, b, post, hb, hr, rfl⟩ := mem_grants len Block.request 9 hg
  refine ⟨_, b, (mem_placed_iff len).mpr ⟨pre, post, hb, rfl⟩, ?_, rfl, h.fits b (by simp [hb]) r hr⟩
  rw [Block.free, hr]
  rfl

theorem separates : ops.Separates NoWrap memory (Kept k trusted) where
  allocate hi hsize ha hg hw := by
    obtain ⟨-, t, hpool, hlive⟩ := hi
    obtain ⟨y, b, hy, hb, hx, hfit⟩ := hpool.grant_inside (hlive.mem_iff.mp hg)
    have hlo := hw.1
    have hhi := hw.2
    exact allocate_agree hpool hsize ha hy hb _ (by omega) (by omega)
  deallocate hi hh hd hg hne hw := by
    obtain ⟨-, t, hpool, hlive⟩ := hi
    obtain ⟨y, b, hy, hb, hx, hfit⟩ := hpool.grant_inside (hlive.mem_iff.mp hg)
    obtain ⟨pre, c, post, hblocks, -, hp⟩ := mem_grants len Block.request 9 (hlive.mem_iff.mp hh)
    rw [hp] at hd
    have hlo := hw.1
    have hhi := hw.2
    refine deallocate_agree hpool hblocks hd hy (fun he => hne ?_) _ (by omega) (by omega)
    exact grants_unique len Block.request 9 (fun d => Nat.two_pow_pos _) (hlive.mem_iff.mp hg)
      (hlive.mem_iff.mp hh) (by omega)
  setMode mode := rfl
  write a v := rfl
  apart hi hh hg hhw hgw := by
    obtain ⟨-, t, hpool, hlive⟩ := hi
    refine grants_apart len Block.request 9 (fun x b r hx hr hw => ?_) (hlive.mem_iff.mp hh)
      (hlive.mem_iff.mp hg) hhw hgw
    obtain ⟨pre, post, hb, -⟩ := (mem_placed_iff len).mp hx
    have hfit := hpool.fits b (by simp [hb]) r hr
    have hlo := hw.1
    have hhi := hw.2
    omega

end Buddies

end MaiFaSp
