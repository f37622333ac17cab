import MaiFaSp.Allocator.RedBlackTreeBlocks

/-!
# `allocator_red_black_tree`: changes of the list

What the writes of the code outside of the tree do to the list of the blocks: a block
changes hands, a block is cut in two, two free blocks become one.
-/

namespace MaiFaSp.RedBlackAllocator

open Tiling DoublyLinked LinkedTree Tile

open HeaderMemory (get)

variable {σ : Type} [HeaderMemory σ] {g : ℕ} {Within : σ → σ → ℕ → ℕ → Prop}
  {s s' : RedBlackAllocator σ} {x y z v : ℕ}

/-! ### The list -/

/-- The blocks are the tiles, linked in both directions. -/
structure Listing (g : ℕ) (s : RedBlackAllocator σ) (ts : List Tile) : Prop where
  nonnull : 0 < s.trusted
  bounded : allocatorEnd s < 2 ^ 64
  room : ts ≠ []
  tiles : span len ts = s.size
  wide : ∀ t ∈ ts, g ≤ t.len
  linked : Linked (forward s) (back s) 0 (addresses (base s) ts) 0
  flags : ∀ p ∈ placed len (base s) ts, occupied s p.1 = !p.2.free
  owner : ∀ p ∈ placed len (base s) ts, p.2.free = false → parent s p.1 = s.trusted

namespace Listing

variable {ts pre post : List Tile} {t t' : Tile}

theorem bounds (h : Listing g s ts) (hx : x ∈ addresses (base s) ts) :
    base s ≤ x ∧ x + g ≤ allocatorEnd s := by
  have hb := addresses_bounds h.wide hx
  have htiles := h.tiles
  unfold allocatorEnd
  omega

theorem ne_zero (h : Listing g s ts) (hx : x ∈ addresses (base s) ts) : x ≠ 0 := by
  have hb := h.bounds hx
  have hn := h.nonnull
  unfold base at hb
  omega

theorem lt (h : Listing g s ts) (hx : x ∈ addresses (base s) ts) : x < 2 ^ 64 := by
  have hb := h.bounds hx
  have hn := h.bounded
  omega

theorem grid (h : Listing g s ts) (hx : x ∈ addresses (base s) ts) (hy : y ∈ addresses (base s) ts) :
    Grid g x y := by
  have hapart : (addresses (base s) ts).Pairwise (Apart g) :=
    (addresses_pairwise (base s) h.wide).imp fun h => Or.inl h
  have hsymm : Std.Symm (Apart g) := ⟨fun x y h => h.symm⟩
  by_cases he : y = x
  · exact Or.inl he
  · exact Or.inr (hapart.forall hx hy (Ne.symm he))

theorem nodup (hg : 0 < g) (h : Listing g s ts) : (addresses (base s) ts).Nodup :=
  (addresses_pairwise (base s) h.wide).imp fun h => by omega

theorem header (h : Listing g s (pre ++ t :: post)) :
    back s (base s + span len pre) = (addresses (base s) pre).getLastD 0 ∧
      forward s (base s + span len pre) = (if post = [] then 0 else base s + span len pre + t.len) ∧
      occupied s (base s + span len pre) = !t.free ∧
      (t.free = false → parent s (base s + span len pre) = s.trusted) := by
  have hm : (base s + span len pre, t) ∈ placed len (base s) (pre ++ t :: post) :=
    (mem_placed_iff len).mpr ⟨pre, post, rfl, rfl⟩
  have hl := h.linked
  rw [addresses_append, addresses_cons] at hl
  obtain ⟨-, hback, hforward, -⟩ := linked_append.mp hl
  rw [headD_addresses] at hforward
  exact ⟨hback, hforward, h.flags _ hm, h.owner _ hm⟩

theorem getSize_eq (hL : LawfulHeaders σ g Within) (h : Listing g s (pre ++ t :: post)) :
    getSize s (base s + span len pre) = t.len - blockMetadataSize := by
  obtain ⟨-, hforward, -, -⟩ := h.header
  have hroom := hL.room
  have hlen := h.wide t (by simp)
  have htiles := h.tiles
  have hbound := h.bounded
  have hnn := h.nonnull
  rw [span_append, span_cons] at htiles
  have hb : base s = s.trusted + allocatorMetadataSize := rfl
  have he : allocatorEnd s = base s + s.size := rfl
  unfold getSize
  rw [hforward]
  unfold blockMetadataSize at *
  by_cases hpost : post = []
  · subst hpost
    rw [if_pos rfl, if_neg (not_not.mpr rfl)]
    rw [span_nil] at htiles
    have hspan := sizeSub_of_le (a := allocatorEnd s) (b := base s + span len pre) (by omega) hbound
    rw [hspan, sizeSub_of_le (by omega) (by omega)]
    omega
  · rw [if_neg hpost, if_pos (by omega)]
    have hspan := sizeSub_of_le (a := base s + span len pre + t.len) (b := base s + span len pre)
      (by omega) (by omega)
    rw [hspan, sizeSub_of_le (by omega) (by omega)]
    omega

theorem replace {mid mid' : List Tile} (h : Listing g s (pre ++ (mid ++ post)))
    (hspan : span len mid' = span len mid) (hne : mid' ≠ []) (hwide : ∀ u ∈ mid', g ≤ u.len)
    (htrusted : s'.trusted = s.trusted) (hsize : s'.size = s.size)
    (hlinked : Linked (forward s') (back s') 0 (addresses (base s) pre ++
      (addresses (base s + span len pre) mid' ++ addresses (base s + span len pre + span len mid) post)) 0)
    (hkeep : ∀ y ∈ addresses (base s) pre ++ addresses (base s + span len pre + span len mid) post,
      occupied s' y = occupied s y ∧ parent s' y = parent s y)
    (hmid : ∀ p ∈ placed len (base s + span len pre) mid',
      occupied s' p.1 = !p.2.free ∧ (p.2.free = false → parent s' p.1 = s.trusted)) :
    Listing g s' (pre ++ (mid' ++ post)) := by
  have hbase : base s' = base s := by unfold base; rw [htrusted]
  have hheaders (p : ℕ × Tile) (hp : p ∈ placed len (base s) (pre ++ (mid' ++ post))) :
      occupied s' p.1 = !p.2.free ∧ (p.2.free = false → parent s' p.1 = s.trusted) := by
    rw [placed_append, placed_append, hspan] at hp
    have hold (hm : p ∈ placed len (base s) (pre ++ (mid ++ post)))
        (hy : p.1 ∈ addresses (base s) pre ++ addresses (base s + span len pre + span len mid) post) :
        occupied s' p.1 = !p.2.free ∧ (p.2.free = false → parent s' p.1 = s.trusted) := by
      obtain ⟨ho, hparent⟩ := hkeep p.1 hy
      rw [ho, hparent]
      exact ⟨h.flags p hm, h.owner p hm⟩
    rw [placed_append, placed_append] at hold
    rcases List.mem_append.mp hp with hp | hp
    · exact hold (by simp [hp]) (List.mem_append_left _ (mem_addresses.mpr ⟨p.2, hp⟩))
    · rcases List.mem_append.mp hp with hp | hp
      · exact hmid p hp
      · exact hold (by simp [hp]) (List.mem_append_right _ (mem_addresses.mpr ⟨p.2, hp⟩))
  refine ⟨htrusted ▸ h.nonnull, ?_, by simp [hne], ?_, ?_, ?_, ?_, ?_⟩
  · unfold allocatorEnd
    rw [hbase, hsize]
    exact h.bounded
  · have htiles := h.tiles
    rw [span_append, span_append] at htiles ⊢
    rw [hspan, hsize]
    exact htiles
  · intro u hu
    rcases List.mem_append.mp hu with hu | hu
    · exact h.wide u (by simp [hu])
    · rcases List.mem_append.mp hu with hu | hu
      · exact hwide u hu
      · exact h.wide u (by simp [hu])
  · rw [hbase, addresses_append, addresses_append, hspan]
    exact hlinked
  · rw [hbase]
    exact fun p hp => (hheaders p hp).1
  · rw [hbase, htrusted]
    exact fun p hp => (hheaders p hp).2

theorem others (hg : 0 < g) (h : Listing g s (pre ++ t :: post)) {y : ℕ}
    (hy : y ∈ addresses (base s) pre ++ addresses (base s + span len pre + t.len) post) :
    y ∈ addresses (base s) (pre ++ t :: post) ∧ y ≠ base s + span len pre := by
  have hnd := h.nodup hg
  rw [addresses_append, addresses_cons] at hnd ⊢
  have hperm : (addresses (base s) pre ++ (base s + span len pre) ::
      addresses (base s + span len pre + t.len) post).Perm ((base s + span len pre) ::
      (addresses (base s) pre ++ addresses (base s + span len pre + t.len) post)) := List.perm_middle
  have hx := (List.nodup_cons.mp (hperm.nodup_iff.mp hnd)).1
  exact ⟨hperm.mem_iff.mpr (List.mem_cons_of_mem _ hy), fun he => hx (he ▸ hy)⟩

/-- One tile stands for another of its length, and its header says so. -/
theorem relabel (h : Listing g s (pre ++ t :: post)) (hlen : t'.len = t.len)
    (htrusted : s'.trusted = s.trusted) (hsize : s'.size = s.size)
    (hother : ∀ y ∈ addresses (base s) pre ++ addresses (base s + span len pre + t.len) post,
      get s'.memory y = get s.memory y)
    (hforward : forward s' (base s + span len pre) = forward s (base s + span len pre))
    (hback : back s' (base s + span len pre) = back s (base s + span len pre))
    (hflag : occupied s' (base s + span len pre) = !t'.free)
    (howner : t'.free = false → parent s' (base s + span len pre) = s.trusted) :
    Listing g s' (pre ++ t' :: post) := by
  have hl := h.linked
  rw [addresses_append, addresses_cons] at hl
  have hsame (y : ℕ) (hy : y ∈ addresses (base s) pre ++ (base s + span len pre) ::
      addresses (base s + span len pre + t.len) post) :
      forward s' y = forward s y ∧ back s' y = back s y := by
    have hcases : y = base s + span len pre ∨
        y ∈ addresses (base s) pre ++ addresses (base s + span len pre + t.len) post := by
      simp only [List.mem_append, List.mem_cons] at hy ⊢
      tauto
    rcases hcases with rfl | hm
    · exact ⟨hforward, hback⟩
    · exact ⟨congrArg Header.forward (hother y hm), congrArg Header.back (hother y hm)⟩
  have hspan : span len [t] = t.len := by simp
  have hlens : span len [t'] = span len [t] := by simp [hlen]
  apply replace h hlens (by simp) ?_ htrusted hsize ?_ ?_ ?_
  · intro u hu
    rw [List.mem_singleton.mp hu, hlen]
    exact h.wide t (by simp)
  · rw [hspan]
    exact hl.congr (fun y hy => (hsame y hy).1) fun y hy => (hsame y hy).2
  · rw [hspan]
    intro y hy
    exact ⟨congrArg Header.occupied (hother y hy), congrArg (fun h => h.node.parent) (hother y hy)⟩
  · intro p hp
    have hp' : p = (base s + span len pre, t') := by simpa using hp
    rw [hp']
    exact ⟨hflag, howner⟩

/-- Only headers of free blocks were written, and of these not the links. -/
theorem rewritten (hL : LawfulHeaders σ g Within) (h : Listing g s ts) {xs : List ℕ}
    (hr : Rewritten g Within s s' xs) (hxs : ∀ x ∈ xs, x ∈ freeAddresses (base s) ts) : Listing g s' ts := by
  have hg : 0 < g := lt_of_lt_of_le (by decide) hL.room
  have hbase : base s' = base s := by unfold base; rw [hr.trusted]
  have hkeep (y : ℕ) (hy : y ∈ addresses (base s) ts) (hyx : y ∉ xs) :
      get s'.memory y = get s.memory y := by
    apply hr.scattered.get_eq hL
    intro x hx
    exact (h.grid (addresses_of_free (hxs x hx)) hy).resolve_left fun he => hyx (he ▸ hx)
  have hsame (y : ℕ) (hy : y ∈ addresses (base s) ts) :
      forward s' y = forward s y ∧ back s' y = back s y ∧ occupied s' y = occupied s y := by
    by_cases hyx : y ∈ xs
    · exact ⟨hr.forward y hyx, hr.back y hyx, hr.occupied y hyx⟩
    · have hget := hkeep y hy hyx
      exact ⟨congrArg Header.forward hget, congrArg Header.back hget, congrArg Header.occupied hget⟩
  refine ⟨hr.trusted ▸ h.nonnull, ?_, h.room, hr.size ▸ h.tiles, h.wide, ?_, ?_, ?_⟩
  · unfold allocatorEnd
    rw [hbase, hr.size]
    exact h.bounded
  · rw [hbase]
    exact h.linked.congr (fun y hy => (hsame y hy).1) fun y hy => (hsame y hy).2.1
  · rw [hbase]
    intro p hp
    rw [(hsame p.1 (mem_addresses.mpr ⟨p.2, hp⟩)).2.2]
    exact h.flags p hp
  · rw [hbase, hr.trusted]
    intro p hp hf
    have hyx : p.1 ∉ xs := by
      intro hm
      obtain ⟨t, ht, hfree⟩ := mem_freeAddresses.mp (hxs p.1 hm)
      have hflag := h.flags _ ht
      rw [h.flags p hp, hf, hfree] at hflag
      cases hflag
    have hget := hkeep p.1 (mem_addresses.mpr ⟨p.2, hp⟩) hyx
    rw [show parent s' p.1 = parent s p.1 from congrArg (fun h => h.node.parent) hget]
    exact h.owner p hp hf

end Listing

/-! ### Linking the neighbours of a place -/

/-- In `s'` the blocks `xs` and `ys`, which keep the rest of their headers, are linked to what now
stands between them. -/
structure Relinked (s s' : RedBlackAllocator σ) (xs ys : List ℕ) (before after : ℕ) : Prop where
  forward : ∀ y ∈ xs ++ ys, forward s' y = if xs.getLast? = some y then after else forward s y
  back : ∀ y ∈ xs ++ ys, back s' y = if ys.head? = some y then before else back s y
  occupied : ∀ y ∈ xs ++ ys, occupied s' y = occupied s y
  node : ∀ y ∈ xs ++ ys, (heap s').cell y = (heap s).cell y

theorem relinked_of_get {xs ys : List ℕ} {before after : ℕ} (hnd : (xs ++ x :: ys).Nodup)
    (hne : ∀ w ∈ ys, w ≠ 0)
    (hget : ∀ w ∈ xs ++ x :: ys, get s'.memory w =
      if w = x then { get s.memory x with forward := after }
      else if ys.headD 0 ≠ 0 ∧ w = ys.headD 0 then { get s.memory w with back := before }
      else get s.memory w) : Relinked s s' (xs ++ [x]) ys before after := by
  have hlist : (xs ++ [x]) ++ ys = xs ++ x :: ys := by simp
  have hlast (y : ℕ) : (xs ++ [x]).getLast? = some y ↔ y = x := by simp [eq_comm]
  have hhead (y : ℕ) : ys.head? = some y ↔ ys.headD 0 ≠ 0 ∧ y = ys.headD 0 := by
    cases ys with
    | nil => simp
    | cons w ys => simp [hne w (by simp), eq_comm]
  have hxy : ¬ (ys.headD 0 ≠ 0 ∧ x = ys.headD 0) := by
    rintro ⟨h0, he⟩
    have hx := (List.nodup_cons.mp (List.nodup_append.mp hnd).2.1).1
    cases ys with
    | nil => exact h0 rfl
    | cons w ys => exact hx (by simp [he])
  refine ⟨?_, ?_, ?_, ?_⟩
  · intro y hy
    have hw := hget y (hlist ▸ hy)
    unfold forward
    rw [hw, if_congr (hlast y) rfl rfl]
    split
    · rfl
    · split <;> rfl
  · intro y hy
    have hw := hget y (hlist ▸ hy)
    unfold back
    rw [hw, if_congr (hhead y) rfl rfl]
    by_cases hyx : y = x
    · rw [if_pos hyx, if_neg (hyx ▸ hxy), hyx]
    · rw [if_neg hyx]
      split <;> rfl
  · intro y hy
    have hw := hget y (hlist ▸ hy)
    unfold occupied
    rw [hw]
    by_cases hyx : y = x
    · rw [if_pos hyx, hyx]
    · rw [if_neg hyx]
      split <;> rfl
  · intro y hy
    have hw := hget y (hlist ▸ hy)
    unfold heap
    dsimp only
    rw [hw]
    by_cases hyx : y = x
    · rw [if_pos hyx, hyx]
    · rw [if_neg hyx]
      split <;> rfl

/-! ### The changes -/

section

variable {pre post : List Tile} {t t₁ t₂ : Tile}

/-- Nothing but headers has changed. -/
structure Same (s s' : RedBlackAllocator σ) : Prop where
  trusted : s'.trusted = s.trusted
  fitMode : s'.fitMode = s.fitMode
  size : s'.size = s.size
  root : s'.root = s.root

omit [HeaderMemory σ] in
theorem Same.refl (s : RedBlackAllocator σ) : Same s s := ⟨rfl, rfl, rfl, rfl⟩

omit [HeaderMemory σ] in
theorem Same.trans {s₁ s₂ s₃ : RedBlackAllocator σ} (h : Same s₁ s₂) (h' : Same s₂ s₃) : Same s₁ s₃ :=
  ⟨h'.trusted.trans h.trusted, h'.fitMode.trans h.fitMode, h'.size.trans h.size, h'.root.trans h.root⟩

theorem setForward_same (s : RedBlackAllocator σ) (a v : ℕ) : Same s (setForward s a v) := ⟨rfl, rfl, rfl, rfl⟩

theorem setBack_same (s : RedBlackAllocator σ) (a v : ℕ) : Same s (setBack s a v) := ⟨rfl, rfl, rfl, rfl⟩

/-- The two writes that make a block a free one. -/
theorem setFree_same (s : RedBlackAllocator σ) (a : ℕ) : Same s (setParent (setOccupied s a false) a 0) :=
  ⟨rfl, rfl, rfl, rfl⟩

theorem splitBlock_same : Same s (splitBlock s x z) := by
  unfold splitBlock
  dsimp only
  have hlinks := ((setForward_same s z (forward s x)).trans (setBack_same _ z x)).trans (setForward_same _ x z)
  refine hlinks.trans (Same.trans ?_ (setFree_same _ z))
  split
  · exact setBack_same ..
  · exact Same.refl _

theorem absorb_same : Same s (absorb s x y) := by
  unfold absorb
  dsimp only
  refine (setForward_same s x (forward s y)).trans ?_
  split
  · exact setBack_same ..
  · exact Same.refl _

/-- The others keep what the tree and its order are read from. -/
def Untouched (s s' : RedBlackAllocator σ) (ys : List ℕ) : Prop :=
  ∀ y ∈ ys, forward s' y = forward s y ∧ (heap s').cell y = (heap s).cell y

theorem mem_addresses_self {a : ℕ} : a + span len pre ∈ addresses a (pre ++ t :: post) := by
  rw [addresses_append]
  simp

theorem Listing.trusted_lt (h : Listing g s (pre ++ t :: post)) : s.trusted < 2 ^ 64 := by
  have hb := h.lt mem_addresses_self
  unfold base at hb
  omega

theorem Listing.rewriteHeader (hg : 0 < g) (h : Listing g s (pre ++ t :: post))
    (hx : x = base s + span len pre) {t' : Tile} {c : Header} (hlen : t'.len = t.len)
    (htrusted : s'.trusted = s.trusted) (hsize : s'.size = s.size)
    (hget : ∀ y, Grid g x y → get s'.memory y = if y = x then c else get s.memory y)
    (hback : c.back = back s x) (hforward : c.forward = forward s x) (hflag : c.occupied = !t'.free)
    (howner : t'.free = false → c.node.parent = s.trusted) :
    Listing g s' (pre ++ t' :: post) ∧
      Untouched s s' (addresses (base s) pre ++ addresses (x + t.len) post) := by
  subst hx
  have hself := hget _ (Or.inl rfl)
  rw [if_pos rfl] at hself
  have hother (y : ℕ) (hy : y ∈ addresses (base s) pre ++
      addresses (base s + span len pre + t.len) post) : get s'.memory y = get s.memory y := by
    obtain ⟨hm, hne⟩ := h.others hg hy
    rw [hget y (h.grid mem_addresses_self hm), if_neg hne]
  constructor
  · apply h.relabel hlen htrusted hsize hother
    · exact (congrArg Header.forward hself).trans hforward
    · exact (congrArg Header.back hself).trans hback
    · exact (congrArg Header.occupied hself).trans hflag
    · intro hf
      exact (congrArg (fun h => h.node.parent) hself).trans (howner hf)
  · intro y hy
    exact ⟨congrArg Header.forward (hother y hy), congrArg Header.node (hother y hy)⟩

theorem Listing.occupy (hL : LawfulHeaders σ g Within) (h : Listing g s (pre ++ t :: post))
    (hx : x = base s + span len pre) {t' : Tile} (hlen : t'.len = t.len) (ht' : t'.free = false) :
    Listing g (setParent (setOccupied s x true) x s.trusted) (pre ++ t' :: post) ∧
      Untouched s (setParent (setOccupied s x true) x s.trusted)
        (addresses (base s) pre ++ addresses (x + t.len) post) := by
  have hg : 0 < g := lt_of_lt_of_le (by decide) hL.room
  have hget (y : ℕ) (hy : Grid g x y) : get (setParent (setOccupied s x true) x s.trusted).memory y =
      if y = x then ⟨true, back s x, forward s x, (get s.memory x).node.setParent s.trusted⟩
      else get s.memory y := by
    have h₁ {u : ℕ} (hu : Grid g x u) := setOccupied_get (s := s) hL hu true
    rw [setParent_get hL hy h.trusted_lt, h₁ hy, h₁ (Or.inl rfl)]
    by_cases hyx : y = x
    · rw [if_pos hyx, if_pos hyx, if_pos rfl]
      rfl
    · rw [if_neg hyx, if_neg hyx, if_neg hyx]
  apply h.rewriteHeader hg hx hlen _ _ hget
  · rfl
  · rfl
  · rw [ht']
    rfl
  · intro _
    rfl
  · rfl
  · rfl

theorem Listing.release (hL : LawfulHeaders σ g Within) (h : Listing g s (pre ++ t :: post))
    (hx : x = base s + span len pre) :
    Listing g (setOccupied s x false) (pre ++ gap t.len :: post) ∧
      Untouched s (setOccupied s x false)
        (addresses (base s) pre ++ addresses (x + t.len) post) := by
  have hg : 0 < g := lt_of_lt_of_le (by decide) hL.room
  have hlen : (gap t.len).len = t.len := rfl
  apply h.rewriteHeader hg hx hlen _ _ fun y hy => setOccupied_get hL hy false
  · rfl
  · rfl
  · rfl
  · exact fun hf => by cases hf
  · rfl
  · rfl

theorem Listing.forward_eq (h : Listing g s (pre ++ t :: post)) :
    forward s (base s + span len pre) = (addresses (base s + span len pre + t.len) post).headD 0 := by
  rw [h.header.2.1, headD_addresses]

/-- The block `x` stands between the blocks `A` and `P` of the list. -/
structure Around (g x : ℕ) (A P : List ℕ) : Prop where
  nodup : (A ++ x :: P).Nodup
  grid : ∀ y ∈ A ++ x :: P, ∀ w ∈ A ++ x :: P, Grid g y w
  lt : ∀ y ∈ A ++ x :: P, y < 2 ^ 64
  ne_zero : ∀ y ∈ A ++ x :: P, y ≠ 0

theorem Listing.around (hg : 0 < g) {ts : List Tile} (h : Listing g s ts) {A P : List ℕ}
    (hsub : (A ++ x :: P).Sublist (addresses (base s) ts)) : Around g x A P where
  nodup := (h.nodup hg).sublist hsub
  grid _ hy _ hw := h.grid (hsub.mem hy) (hsub.mem hw)
  lt _ hy := h.lt (hsub.mem hy)
  ne_zero _ hy := h.ne_zero (hsub.mem hy)

namespace Around

variable {A P : List ℕ}

theorem self_mem (_ : Around g x A P) : x ∈ A ++ x :: P := by simp

theorem next_cases (_ : Around g x A P) : P.headD 0 = 0 ∨ P.headD 0 ∈ P := by
  cases P with
  | nil => exact Or.inl rfl
  | cons y ys => exact Or.inr (by simp)

theorem next_mem (h : Around g x A P) (h0 : P.headD 0 ≠ 0) : P.headD 0 ∈ A ++ x :: P := by
  exact List.mem_append_right _ (List.mem_cons_of_mem _ (h.next_cases.resolve_left h0))

theorem next_lt (h : Around g x A P) : P.headD 0 < 2 ^ 64 := by
  rcases h.next_cases with h0 | hm
  · rw [h0]
    exact Nat.two_pow_pos 64
  · exact h.lt _ (List.mem_append_right _ (List.mem_cons_of_mem _ hm))

theorem ne_next (h : Around g x A P) : x ≠ P.headD 0 := by
  rcases h.next_cases with h0 | hm
  · rw [h0]
    exact h.ne_zero x h.self_mem
  · have hx := (List.nodup_cons.mp (List.nodup_append.mp h.nodup).2.1).1
    exact fun he => hx (he ▸ hm)

theorem absorb_relinked (hL : LawfulHeaders σ g Within) (h : Around g x A P) {y : ℕ}
    (hy : forward s y = P.headD 0) : Relinked s (absorb s x y) (A ++ [x]) P x (P.headD 0) := by
  apply relinked_of_get h.nodup fun w hw => h.ne_zero w (by simp [hw])
  intro w hw
  have hx := h.self_mem
  exact absorb_get hL hy h.next_lt (h.lt x hx) h.ne_next (fun h0 => h.grid x hx _ (h.next_mem h0))
    (h.grid x hx w hw) fun h0 => h.grid _ (h.next_mem h0) w hw

theorem splitBlock_at (hL : LawfulHeaders σ g Within) (h : Around g x A P) {z : ℕ}
    (hx : forward s x = P.headD 0) (hz : ∀ y ∈ A ++ x :: P, y ≠ z ∧ Apart g z y) (hz64 : z < 2 ^ 64)
    (hz0 : z ≠ 0) {w : ℕ} (hw : w ∈ A ++ x :: P ∨ w = z) :
    get (splitBlock s x z).memory w =
      if w = z then ⟨false, x, P.headD 0, (get s.memory z).node.setParent 0⟩
      else if w = x then { get s.memory x with forward := z }
      else if P.headD 0 ≠ 0 ∧ w = P.headD 0 then { get s.memory w with back := z }
      else get s.memory w := by
  have hself := h.self_mem
  have hzg {y : ℕ} (hy : y ∈ A ++ x :: P) : Grid g z y := Or.inr (hz y hy).2
  have hzf : z ≠ P.headD 0 := by
    by_cases h0 : P.headD 0 = 0
    · rw [h0]
      exact hz0
    · exact (hz _ (h.next_mem h0)).1.symm
  have hwx : Grid g x w := by
    rcases hw with hw | rfl
    · exact h.grid x hself w hw
    · exact (hzg hself).symm
  have hwz : Grid g z w := by
    rcases hw with hw | rfl
    · exact hzg hw
    · exact Or.inl rfl
  have hwf (h0 : P.headD 0 ≠ 0) : Grid g (P.headD 0) w := by
    rcases hw with hw | rfl
    · exact h.grid _ (h.next_mem h0) w hw
    · exact (hzg (h.next_mem h0)).symm
  exact splitBlock_get hL hx h.next_lt (h.lt x hself) hz64 (hz x hself).1.symm (hzg hself) h.ne_next hzf
    (fun h0 => h.grid _ (h.next_mem h0) x hself) (fun h0 => (hzg (h.next_mem h0)).symm) hwx hwz hwf

theorem splitBlock_scattered (hL : LawfulHeaders σ g Within) (h : Around g x A P) {z : ℕ}
    (hx : forward s x = P.headD 0) (hz : ∀ y ∈ A ++ x :: P, y ≠ z ∧ Apart g z y) (hz64 : z < 2 ^ 64) :
    Scattered g Within (z :: (A ++ x :: P)) s.memory (splitBlock s x z).memory := by
  have hroom := hL.room
  have hself := h.self_mem
  have hmem {y : ℕ} (hy : y ∈ A ++ x :: P) : y ∈ z :: (A ++ x :: P) := List.mem_cons_of_mem _ hy
  have hzm : z ∈ z :: (A ++ x :: P) := List.mem_cons_self ..
  obtain ⟨hne, hapart⟩ := hz x hself
  have hget := linked_get (s := s) (w := z) hL h.next_lt (h.lt x hself) hz64 hne.symm (Or.inr hapart)
    (Or.inr hapart.symm) (Or.inl rfl)
  rw [if_pos rfl] at hget
  have hforward : forward (setForward (setBack (setForward s z (P.headD 0)) z x) x z) z = P.headD 0 :=
    congrArg Header.forward hget
  have h₁ : Scattered g Within (z :: (A ++ x :: P)) s.memory (setForward s z (P.headD 0)).memory :=
    .one hzm (hL.within_setForward _ _ _) (by omega)
  have h₂ := h₁.tail hzm (hL.within_setBack _ _ x) (by omega)
  have h₃ := h₂.tail (hmem hself) (hL.within_setForward _ _ z) (by omega)
  unfold splitBlock
  dsimp only
  rw [hx, hforward]
  have h₄ : Scattered g Within (z :: (A ++ x :: P)) s.memory
      (if P.headD 0 ≠ 0 then
        setBack (setForward (setBack (setForward s z (P.headD 0)) z x) x z) (P.headD 0) z
        else setForward (setBack (setForward s z (P.headD 0)) z x) x z).memory := by
    split
    case isTrue h0 => exact h₃.tail (hmem (h.next_mem h0)) (hL.within_setBack _ _ z) (by omega)
    case isFalse => exact h₃
  have h₅ := h₄.tail hzm (hL.within_setOccupied _ _ false) (by omega)
  exact h₅.tail hzm (hL.within_setParent _ _ 0) (by omega)

end Around

theorem Listing.split (hL : LawfulHeaders σ g Within) (h : Listing g s (pre ++ t :: post))
    (hx : x = base s + span len pre) (ht : t.free = false) (ht₁ : t₁.free = false) {n : ℕ}
    (hlen : t₁.len + n = t.len) (hn₁ : g ≤ t₁.len) (hn : g ≤ n) :
    Listing g (splitBlock s x (x + t₁.len)) (pre ++ t₁ :: gap n :: post) ∧
      Untouched s (splitBlock s x (x + t₁.len))
        (addresses (base s) pre ++ addresses (x + t.len) post) ∧
      Scattered g Within (addresses (base s) (pre ++ t₁ :: gap n :: post)) s.memory
        (splitBlock s x (x + t₁.len)).memory := by
  have hg : 0 < g := lt_of_lt_of_le (by decide) hL.room
  have hforward := h.forward_eq
  have hl := h.linked
  have hb := h.bounds mem_addresses_self
  have hends := h.tiles
  have hbounded := h.bounded
  have hwide := h.wide
  obtain ⟨-, -, hflag, howner⟩ := h.header
  rw [span_append, span_cons] at hends
  have hend : allocatorEnd s = base s + s.size := rfl
  have haround : Around g x (addresses (base s) pre) (addresses (x + t.len) post) := by
    apply h.around hg
    rw [hx, addresses_append, addresses_cons]
  rw [addresses_append, addresses_cons] at hl
  rw [← hx] at hforward hl hb hflag howner
  generalize hA : addresses (base s) pre = A at *
  generalize hP : addresses (x + t.len) post = P at *
  have hz (y : ℕ) (hy : y ∈ A ++ x :: P) : y ≠ x + t₁.len ∧ Apart g (x + t₁.len) y := by
    unfold Apart
    rcases List.mem_append.mp hy with hy | hy
    · rw [← hA] at hy
      have hy := addresses_bounds (fun u hu => hwide u (by simp [hu])) hy
      omega
    · rcases List.mem_cons.mp hy with rfl | hy
      · omega
      · rw [← hP] at hy
        have hy := addresses_bounds (fun u hu => hwide u (by simp [hu])) hy
        omega
  have hget {w : ℕ} (hw : w ∈ A ++ x :: P ∨ w = x + t₁.len) :=
    haround.splitBlock_at (s := s) hL hforward hz (by omega) (by omega) hw
  have hrelinked : Relinked s (splitBlock s x (x + t₁.len)) (A ++ [x]) P (x + t₁.len) (x + t₁.len) := by
    apply relinked_of_get haround.nodup fun w hw => haround.ne_zero w (by simp [hw])
    intro w hw
    rw [hget (Or.inl hw), if_neg (hz w hw).1]
  have hself := hget (Or.inr rfl)
  rw [if_pos rfl] at hself
  have hlist : A ++ x :: P = (A ++ [x]) ++ P := by simp
  have hlink := Linked.insert (hlist ▸ hl) (hlist ▸ haround.nodup) (congrArg Header.forward hself)
    ((congrArg Header.back hself).trans (by simp)) hrelinked.forward hrelinked.back
  have hold : Listing g s (pre ++ ([t] ++ post)) := h
  have hspan : span len [t₁, gap n] = span len [t] := by simp [hlen]
  have hone : span len [t] = t.len := by simp
  refine ⟨?_, ?_, ?_⟩
  · apply hold.replace hspan (by simp) _ splitBlock_same.trusted splitBlock_same.size
    · rw [← hx, hA, hone, hP]
      have hnew : A ++ (addresses x [t₁, gap n] ++ P) = (A ++ [x]) ++ (x + t₁.len) :: P := by simp
      rw [hnew]
      exact hlink
    · rw [← hx, hA, hone, hP]
      intro y hy
      have hm : y ∈ (A ++ [x]) ++ P := by
        rcases List.mem_append.mp hy with hy | hy
        · simp [hy]
        · simp [hy]
      exact ⟨hrelinked.occupied y hm, congrArg Cell.parent (hrelinked.node y hm)⟩
    · rw [← hx]
      intro p hp
      have hxm : x ∈ (A ++ [x]) ++ P := by simp
      have hcases : p = (x, t₁) ∨ p = (x + t₁.len, gap n) := by simpa using hp
      rcases hcases with rfl | rfl
      · constructor
        · refine (hrelinked.occupied x hxm).trans ?_
          rw [hflag, ht, ht₁]
        · intro _
          exact (congrArg Cell.parent (hrelinked.node x hxm)).trans (howner ht)
      · exact ⟨congrArg Header.occupied hself, fun hf => by cases hf⟩
    · intro u hu
      have hcases : u = t₁ ∨ u = gap n := by simpa using hu
      rcases hcases with rfl | rfl
      · exact hn₁
      · exact hn
  · intro y hy
    have hm : y ∈ (A ++ [x]) ++ P := by
      rcases List.mem_append.mp hy with hy | hy
      · simp [hy]
      · simp [hy]
    have hyx : y ≠ x := by
      rintro rfl
      have hnd := haround.nodup
      rw [List.perm_middle.nodup_iff, List.nodup_cons] at hnd
      exact hnd.1 hy
    refine ⟨?_, hrelinked.node y hm⟩
    rw [hrelinked.forward y hm, if_neg]
    simpa using Ne.symm hyx
  · have hend : x + t₁.len + (gap n).len = x + t.len := by
      rw [len_gap]
      omega
    rw [addresses_append, addresses_cons, addresses_cons, ← hx, hA, hend, hP]
    apply (haround.splitBlock_scattered hL hforward hz (by omega)).mono
    intro y hy
    simp only [List.mem_append, List.mem_cons] at hy ⊢
    tauto

theorem Listing.around_pair (hg : 0 < g) (h : Listing g s (pre ++ t₁ :: t₂ :: post))
    (hx : x = base s + span len pre) :
    Around g x (addresses (base s) pre) (addresses (x + t₁.len + t₂.len) post) ∧
      forward s (x + t₁.len) = (addresses (x + t₁.len + t₂.len) post).headD 0 := by
  constructor
  · apply h.around hg
    rw [addresses_append, addresses_cons, addresses_cons, ← hx]
    exact List.Sublist.append_left (List.Sublist.cons_cons x (List.sublist_cons_self ..)) _
  · have h₂ : Listing g s ((pre ++ [t₁]) ++ t₂ :: post) := by simpa using h
    have hf := h₂.forward_eq
    rw [span_append, span_cons, span_nil, Nat.add_zero, ← Nat.add_assoc] at hf
    rw [hx]
    exact hf

theorem Listing.merge (hL : LawfulHeaders σ g Within) (h : Listing g s (pre ++ t₁ :: t₂ :: post))
    (hx : x = base s + span len pre) (ht₁ : t₁.free = true) :
    Listing g (absorb s x (x + t₁.len)) (pre ++ gap (t₁.len + t₂.len) :: post) ∧
      Untouched s (absorb s x (x + t₁.len))
        (addresses (base s) pre ++ addresses (x + t₁.len + t₂.len) post) := by
  have hg : 0 < g := lt_of_lt_of_le (by decide) hL.room
  have hl := h.linked
  have hwide := h.wide
  have hflag := h.header.2.2.1
  obtain ⟨haround, hforward⟩ := h.around_pair hg hx
  have hnd := h.nodup hg
  rw [addresses_append, addresses_cons, addresses_cons] at hl hnd
  rw [← hx] at hl hflag hnd
  generalize hA : addresses (base s) pre = A at *
  generalize hP : addresses (x + t₁.len + t₂.len) post = P at *
  have hrelinked := haround.absorb_relinked (s := s) hL hforward
  have hlist : A ++ x :: P = (A ++ [x]) ++ P := by simp
  have hlist' : A ++ x :: (x + t₁.len) :: P = (A ++ [x]) ++ (x + t₁.len) :: P := by simp
  have hback : ∀ y ∈ (A ++ [x]) ++ P, back (absorb s x (x + t₁.len)) y =
      if P.head? = some y then (A ++ [x]).getLastD 0 else back s y := by
    intro y hy
    rw [hrelinked.back y hy]
    simp
  have hlink := Linked.remove (hlist' ▸ hl) (hlist ▸ haround.nodup) hrelinked.forward hback
  have hold : Listing g s (pre ++ ([t₁, t₂] ++ post)) := h
  have hspan : span len [gap (t₁.len + t₂.len)] = span len [t₁, t₂] := by simp
  have htwo : span len [t₁, t₂] = t₁.len + t₂.len := by simp
  have hmem {y : ℕ} (hy : y ∈ A ++ P) : y ∈ (A ++ [x]) ++ P := by
    rcases List.mem_append.mp hy with hy | hy
    · simp [hy]
    · simp [hy]
  constructor
  · apply hold.replace hspan (by simp) _ absorb_same.trusted absorb_same.size
    · rw [← hx, hA, htwo, ← Nat.add_assoc, hP]
      have hnew : A ++ (addresses x [gap (t₁.len + t₂.len)] ++ P) = (A ++ [x]) ++ P := by simp
      rw [hnew]
      exact hlink
    · rw [← hx, hA, htwo, ← Nat.add_assoc, hP]
      intro y hy
      exact ⟨hrelinked.occupied y (hmem hy), congrArg Cell.parent (hrelinked.node y (hmem hy))⟩
    · rw [← hx]
      intro p hp
      have hp' : p = (x, gap (t₁.len + t₂.len)) := by simpa using hp
      rw [hp']
      refine ⟨(hrelinked.occupied x (by simp)).trans ?_, fun hf => by cases hf⟩
      rw [hflag, ht₁]
      rfl
    · intro u hu
      rw [List.mem_singleton.mp hu]
      have hw := hwide t₁ (by simp)
      show g ≤ t₁.len + t₂.len
      omega
  · intro y hy
    have hyx : y ≠ x := by
      rintro rfl
      have hnd := haround.nodup
      rw [List.perm_middle.nodup_iff, List.nodup_cons] at hnd
      exact hnd.1 hy
    refine ⟨?_, hrelinked.node y (hmem hy)⟩
    rw [hrelinked.forward y (hmem hy), if_neg]
    simpa using Ne.symm hyx

end

end MaiFaSp.RedBlackAllocator
