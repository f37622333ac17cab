import MaiFaSp.Allocator.RedBlackTreeList
import MaiFaSp.Lib.AllocatorRun

/-!
# `allocator_red_black_tree`: every reachable state

The list tiles the pool, no two free blocks are neighbours, and the nodes of the tree
are the free blocks in the order of their sizes. Calls that return keep this, as long as
every block they make has room for the header of a free block.
-/

namespace MaiFaSp.RedBlackAllocator

open Tiling DoublyLinked LinkedTree Tile

open HeaderMemory (get)

variable {σ : Type} [HeaderMemory σ] {g : ℕ} {Within : σ → σ → ℕ → ℕ → Prop}
  {s s' : RedBlackAllocator σ} {x y z v : ℕ} {pre post ts : List Tile} {t : Tile} {xs ys : List ℕ}

/-- The nodes of the tree in order, which is the order of their sizes. -/
structure FreeTree (s : RedBlackAllocator σ) (xs : List ℕ) : Prop where
  inOrder : InOrder (heap s) xs
  sorted : xs.Pairwise fun x y => getSize s x ≤ getSize s y

structure Pool (g : ℕ) (s : RedBlackAllocator σ) (ts : List Tile) : Prop where
  listing : Listing g s ts
  coalesced : Coalesced free ts
  tree : ∃ xs, FreeTree s xs ∧ xs.Perm (freeAddresses (base s) ts)

theorem getSize_congr (htrusted : s'.trusted = s.trusted) (hsize : s'.size = s.size)
    (hforward : forward s' x = forward s x) : getSize s' x = getSize s x := by
  unfold getSize allocatorEnd base
  rw [hforward, htrusted, hsize]

theorem FreeTree.untouched (h : FreeTree s xs) (hsame : Same s s') (hu : Untouched s s' ys)
    (hsub : ∀ x ∈ xs, x ∈ ys) : FreeTree s' xs where
  inOrder := h.inOrder.congr hsame.root fun y hy => (hu y (hsub y hy)).2
  sorted := by
    refine h.sorted.imp_of_mem ?_
    intro x y hx hy hxy
    rw [getSize_congr hsame.trusted hsame.size (hu x (hsub x hx)).1,
      getSize_congr hsame.trusted hsame.size (hu y (hsub y hy)).1]
    exact hxy

theorem FreeTree.colored (h : FreeTree s xs) (hsame : Same s s') (hu : Untouched s s' ys)
    (hsub : ∀ x ∈ xs, x ∈ ys) (hc : Colored s) : Colored s' :=
  hc.congr h.inOrder hsame.root fun y hy => (hu y (hsub y hy)).2

theorem freeAddresses_sublist (a : ℕ) (ts : List Tile) :
    (freeAddresses a ts).Sublist (addresses a ts) := by
  induction ts generalizing a with
  | nil => exact List.Sublist.refl _
  | cons t ts ih =>
    rw [addresses_cons]
    cases ht : t.free with
    | true =>
      rw [freeAddresses_cons_free ts ht]
      exact (ih _).cons_cons a
    | false =>
      rw [freeAddresses_cons_held ts ht]
      exact (ih _).cons a

theorem length_le_span {ts : List Tile} (h : ∀ t ∈ ts, 0 < t.len) : ts.length ≤ span len ts := by
  induction ts with
  | nil => exact Nat.le_refl 0
  | cons t ts ih =>
    have ht := h t (by simp)
    have hts := ih fun u hu => h u (by simp [hu])
    rw [span_cons, List.length_cons]
    omega

theorem Listing.spaced (hg : 0 < g) (h : Listing g s ts) (hnd : xs.Nodup)
    (hsub : ∀ x ∈ xs, x ∈ addresses (base s) ts) : Spaced g s xs where
  apart := by
    refine hnd.imp_of_mem ?_
    intro x y hx hy hne
    exact (h.grid (hsub x hx) (hsub y hy)).resolve_left hne.symm
  lt x hx := h.lt (hsub x hx)
  few := by
    have hlen := (List.subperm_of_subset hnd hsub).length_le
    have hspan := length_le_span fun t ht => lt_of_lt_of_le hg (h.wide t ht)
    have haddresses : (addresses (base s) ts).length = ts.length := by
      have hmap := congrArg List.length (map_snd_placed len (base s) ts)
      rw [List.length_map] at hmap
      rw [addresses, List.length_map, hmap]
    rw [h.tiles] at hspan
    omega

theorem FreeTree.parent_ne (ht : FreeTree s xs) (h : Listing g s ts)
    (hsub : ∀ x ∈ xs, x ∈ addresses (base s) ts) (hz : z ∈ xs) : parent s z ≠ s.trusted := by
  have hnn := h.nonnull
  rcases ht.inOrder.parent_mem hz with hp | hp
  · have hp' : parent s z = 0 := hp
    omega
  · have hb : base s ≤ parent s z := (h.bounds (hsub _ hp)).1
    unfold base allocatorMetadataSize at hb
    omega

theorem Listing.removed (hL : LawfulHeaders σ g Within) (h : Listing g s ts) (ht : FreeTree s xs)
    (hsub : ∀ x ∈ xs, x ∈ freeAddresses (base s) ts) (hz : z ∈ xs) (hok : rbTreeRemove s z = .ok s') :
    Listing g s' ts ∧ FreeTree s' (xs.erase z) ∧ Rewritten g Within s s' xs ∧
      parent s' z ≠ s.trusted ∧ (Colored s → Leaves s z → Colored s') := by
  have hg : 0 < g := lt_of_lt_of_le (by decide) hL.room
  have hspaced := h.spaced hg ht.inOrder.nodup fun x hx => addresses_of_free (hsub x hx)
  obtain ⟨hi, hr, hparent, hcolored⟩ := rbTreeRemove_spec hL ht.inOrder hspaced hz hok
  have howner := ht.parent_ne h (fun x hx => addresses_of_free (hsub x hx)) hz
  refine ⟨h.rewritten hL hr hsub, ⟨hi, ?_⟩, hr, hparent ▸ howner, hcolored⟩
  refine (ht.sorted.sublist List.erase_sublist).imp_of_mem ?_
  intro x y hx hy hxy
  rw [getSize_congr hr.trusted hr.size (hr.forward x (List.mem_of_mem_erase hx)),
    getSize_congr hr.trusted hr.size (hr.forward y (List.mem_of_mem_erase hy))]
  exact hxy

theorem Listing.inserted (hL : LawfulHeaders σ g Within) (h : Listing g s ts) (ht : FreeTree s xs)
    (hsub : ∀ x ∈ z :: xs, x ∈ freeAddresses (base s) ts) (hz : z ∉ xs)
    (hok : rbTreeInsert s z = .ok s') :
    Listing g s' ts ∧ (∃ ys, FreeTree s' ys ∧ ys.Perm (z :: xs)) ∧
      Rewritten g Within s s' (z :: xs) ∧ (Colored s → Colored s') := by
  have hg : 0 < g := lt_of_lt_of_le (by decide) hL.room
  have hnd : (z :: xs).Nodup := List.nodup_cons.mpr ⟨hz, ht.inOrder.nodup⟩
  have hspaced := h.spaced hg hnd fun x hx => addresses_of_free (hsub x hx)
  have hz0 := h.ne_zero (addresses_of_free (hsub z (List.mem_cons_self ..)))
  obtain ⟨before, after, rfl, hi, hsorted, hr, hcolored⟩ :=
    rbTreeInsert_spec hL ht.inOrder hspaced hz0 ht.sorted hok
  have hperm : (before ++ z :: after).Perm (z :: (before ++ after)) := List.perm_middle
  refine ⟨h.rewritten hL hr hsub, ⟨_, ⟨hi, ?_⟩, hperm⟩, hr, hcolored⟩
  refine hsorted.imp_of_mem ?_
  intro x y hx hy hxy
  rw [getSize_congr hr.trusted hr.size (hr.forward x (hperm.mem_iff.mp hx)),
    getSize_congr hr.trusted hr.size (hr.forward y (hperm.mem_iff.mp hy))]
  exact hxy

/-! ### Deallocation -/

def join (a b : Tile) : Tile := gap (a.len + b.len)

theorem joins : Joins free join len where
  len_join _ _ _ _ := rfl
  free_join _ _ _ _ := rfl

/-- The block at `x` is free and not in the tree, where all others are. -/
structure Loose (g : ℕ) (s : RedBlackAllocator σ) (pre : List Tile) (w : Tile) (post : List Tile)
    (x : ℕ) : Prop where
  at_eq : x = base s + span len pre
  free : w.free = true
  listing : Listing g s (pre ++ w :: post)
  tree : ∃ xs, FreeTree s xs ∧
    xs.Perm (freeAddresses (base s) pre ++ freeAddresses (x + w.len) post)

/-- The two states differ in headers of blocks of the list only. -/
structure Confined (g : ℕ) (Within : σ → σ → ℕ → ℕ → Prop) (s s' : RedBlackAllocator σ)
    (L : List ℕ) : Prop where
  trusted : s'.trusted = s.trusted
  fitMode : s'.fitMode = s.fitMode
  size : s'.size = s.size
  scattered : Scattered g Within L s.memory s'.memory

omit [HeaderMemory σ] in
theorem Confined.refl (s : RedBlackAllocator σ) (L : List ℕ) : Confined g Within s s L :=
  ⟨rfl, rfl, rfl, .refl _⟩

omit [HeaderMemory σ] in
theorem Confined.trans {s'' : RedBlackAllocator σ} {L : List ℕ} (h : Confined g Within s s' L)
    (h' : Confined g Within s' s'' L) : Confined g Within s s'' L where
  trusted := h'.trusted.trans h.trusted
  fitMode := h'.fitMode.trans h.fitMode
  size := h'.size.trans h.size
  scattered := h.scattered.trans h'.scattered

omit [HeaderMemory σ] in
theorem Confined.mono {L L' : List ℕ} (h : Confined g Within s s' L) (hsub : ∀ y ∈ L, y ∈ L') :
    Confined g Within s s' L' := ⟨h.trusted, h.fitMode, h.size, h.scattered.mono hsub⟩

theorem Rewritten.confined (h : Rewritten g Within s s' xs) : Confined g Within s s' xs :=
  ⟨h.trusted, h.fitMode, h.size, h.scattered⟩

theorem Around.absorb_confined (hL : LawfulHeaders σ g Within) {A P : List ℕ} (h : Around g x A P)
    (hy : forward s y = P.headD 0) : Confined g Within s (absorb s x y) (A ++ x :: P) where
  trusted := absorb_same.trusted
  fitMode := absorb_same.fitMode
  size := absorb_same.size
  scattered := by
    have hroom := hL.room
    have hset := setForward_get (s := s) hL (Or.inl rfl : Grid g x x) h.next_lt
    rw [if_pos rfl] at hset
    have hforward : forward (setForward s x (P.headD 0)) x = P.headD 0 := congrArg Header.forward hset
    have hone : Scattered g Within (A ++ x :: P) s.memory (setForward s x (P.headD 0)).memory :=
      .one h.self_mem (hL.within_setForward s.memory x _) (by omega)
    unfold absorb
    dsimp only
    rw [hy, hforward]
    split
    case isTrue h0 => exact .tail hone (h.next_mem h0) (hL.within_setBack _ _ x) (by omega)
    case isFalse => exact hone

theorem apart_inner {a k : ℕ} (hwide : ∀ u ∈ pre ++ t :: post, g ≤ u.len) (hk : g ≤ k)
    (hkt : k + g ≤ t.len) (hy : y ∈ addresses a (pre ++ t :: post)) :
    Apart g y (a + span len pre + k) := by
  unfold Apart
  rw [addresses_append, addresses_cons] at hy
  rcases List.mem_append.mp hy with hy | hy
  · have hb := addresses_bounds (fun u hu => hwide u (by simp [hu])) hy
    omega
  · rcases List.mem_cons.mp hy with rfl | hy
    · omega
    · have hb := addresses_bounds (fun u hu => hwide u (by simp [hu])) hy
      omega

/-- Of two free neighbours the one in the tree leaves it, and the first takes in the second. -/
theorem Listing.absorbed (hL : LawfulHeaders σ g Within) {a b : Tile}
    (h : Listing g s (pre ++ a :: b :: post)) (hx : x = base s + span len pre) (ha : a.free = true)
    (hb : b.free = true) (ht : FreeTree s xs) (hz : z = x ∨ z = x + a.len)
    (hxs : xs.Perm (z :: (freeAddresses (base s) pre ++ freeAddresses (x + a.len + b.len) post)))
    (hok : rbTreeRemove s z = .ok s') :
    Loose g (absorb s' x (x + a.len)) pre (join a b) post x ∧
      Confined g Within s (absorb s' x (x + a.len))
        (z :: (addresses (base s) pre ++ x :: addresses (x + a.len + b.len) post)) ∧
      (z = x + a.len → parent (absorb s' x (x + a.len)) z ≠ s.trusted) ∧
      (Colored s → Leaves s z → Colored (absorb s' x (x + a.len))) := by
  have hall : freeAddresses (base s) (pre ++ a :: b :: post) =
      freeAddresses (base s) pre ++ x :: (x + a.len) :: freeAddresses (x + a.len + b.len) post := by
    rw [freeAddresses_append, freeAddresses_cons_free _ ha, freeAddresses_cons_free _ hb, hx]
  have hsub (y : ℕ) (hy : y ∈ xs) : y ∈ freeAddresses (base s) (pre ++ a :: b :: post) := by
    have hm := hxs.mem_iff.mp hy
    rw [hall]
    simp only [List.mem_append, List.mem_cons] at hm ⊢
    rcases hz with rfl | rfl <;> tauto
  obtain ⟨h', ht', hr, howner, hcolored⟩ := h.removed hL ht hsub (hxs.mem_iff.mpr (List.mem_cons_self ..)) hok
  have hbase : base s' = base s := by unfold base; rw [hr.trusted]
  have hx' : x = base s' + span len pre := hbase ▸ hx
  have hperm : (xs.erase z).Perm
      (freeAddresses (base s) pre ++ freeAddresses (x + a.len + b.len) post) := by
    have he := hxs.erase z
    rwa [List.erase_cons_head] at he
  obtain ⟨hmerged, hu⟩ := h'.merge hL hx' ha
  have hsame : Same s' (absorb s' x (x + a.len)) := absorb_same
  have hbase' : base (absorb s' x (x + a.len)) = base s := by
    unfold base
    rw [hsame.trusted, hr.trusted]
  have hkept (y : ℕ) (hy : y ∈ xs.erase z) :
      y ∈ addresses (base s') pre ++ addresses (x + a.len + b.len) post := by
    rw [hbase]
    have hm := hperm.mem_iff.mp hy
    rcases List.mem_append.mp hm with hm | hm
    · exact List.mem_append_left _ (addresses_of_free hm)
    · exact List.mem_append_right _ (addresses_of_free hm)
  have htree := ht'.untouched hsame hu hkept
  have hg : 0 < g := lt_of_lt_of_le (by decide) hL.room
  obtain ⟨haround, hforward⟩ := h'.around_pair hg hx'
  rw [hbase] at haround
  have hconfined := haround.absorb_confined hL hforward
  refine ⟨⟨hbase' ▸ hx, rfl, hmerged, _, htree, ?_⟩, ?_, ?_,
    fun hc hz => ht'.colored hsame hu hkept (hcolored hc hz)⟩
  · rw [hbase']
    have hlen : x + (join a b).len = x + a.len + b.len := (Nat.add_assoc ..).symm
    rw [hlen]
    exact hperm
  · have hremoved : Confined g Within s s' (z :: (addresses (base s) pre ++ x ::
        addresses (x + a.len + b.len) post)) := by
      apply hr.confined.mono
      intro y hy
      have hm := hxs.mem_iff.mp hy
      simp only [List.mem_append, List.mem_cons] at hm ⊢
      rcases hm with hm | hm | hm
      · exact Or.inl hm
      · exact Or.inr (Or.inl (addresses_of_free hm))
      · exact Or.inr (Or.inr (Or.inr (addresses_of_free hm)))
    exact hremoved.trans (hconfined.mono fun y hy => List.mem_cons_of_mem _ hy)
  · rintro rfl
    have hkeep : get (absorb s' x (x + a.len)).memory (x + a.len) = get s'.memory (x + a.len) := by
      apply hconfined.scattered.get_eq hL
      intro y hy
      have hlen : x + (join a b).len = x + a.len + b.len := (Nat.add_assoc ..).symm
      rw [← hlen, hx] at hy
      have hm : y ∈ addresses (base s) (pre ++ join a b :: post) := by
        rw [addresses_append, addresses_cons]
        exact hy
      have hwa := h.wide a (by simp)
      have hwb := h.wide b (by simp)
      have hjoin : (join a b).len = a.len + b.len := rfl
      rw [hx]
      refine apart_inner ?_ hwa (by omega) hm
      intro u hu
      rcases List.mem_append.mp hu with hu | hu
      · exact h.wide u (by simp [hu])
      · rcases List.mem_cons.mp hu with rfl | hu
        · omega
        · exact h.wide u (by simp [hu])
    have hsameParent := congrArg (fun h => h.node.parent) hkeep
    exact fun he => howner (hsameParent.symm.trans he)

theorem mergeBack_spec (hL : LawfulHeaders σ g Within) {x' : ℕ} (h : Loose g s pre t post x)
    (hok : mergeBack s x = .ok (x', s')) : ∃ pre' w, JoinLeft free join pre t pre' w ∧
      Loose g s' pre' w post x' ∧ Confined g Within s s' (addresses (base s) (pre' ++ w :: post)) ∧
      (Colored s → (back s x ≠ 0 ∧ ¬ occupied s (back s x) → Leaves s (back s x)) →
        Colored s') := by
  have hback := h.listing.header.1
  rw [← h.at_eq] at hback
  unfold mergeBack at hok
  rcases List.eq_nil_or_concat pre with rfl | ⟨pre, f, rfl⟩
  · rw [if_neg fun hc => hc.1 hback] at hok
    cases hok
    exact ⟨[], t, .alone (fun l hl => by cases hl), h, .refl s _, fun hc _ => hc⟩
  · rw [List.concat_eq_append] at h hback ⊢
    rw [getLastD_addresses] at hback
    have hl : Listing g s (pre ++ f :: t :: post) := by
      have hlisting := h.listing
      rwa [List.append_assoc] at hlisting
    have hne : base s + span len pre ≠ 0 := hl.ne_zero mem_addresses_self
    have hflag := hl.header.2.2.1
    rw [hback, hflag] at hok
    cases hf : f.free with
    | false =>
      rw [if_neg fun hc => by simp [hf] at hc] at hok
      cases hok
      refine ⟨pre ++ [f], t, .alone ?_, h, .refl s _, fun hc _ => hc⟩
      intro l hl
      rw [List.getLast?_concat] at hl
      cases hl
      exact hf
    | true =>
      rw [if_pos ⟨hne, by simp [hf]⟩] at hok
      obtain ⟨s₁, hremove, hok⟩ := bind_eq_ok.mp hok
      cases hok
      obtain ⟨xs, ht, hxs⟩ := h.tree
      have hxat : x = base s + span len pre + f.len := by
        rw [h.at_eq, span_append, span_cons, span_nil]
        omega
      have hperm : xs.Perm ((base s + span len pre) :: (freeAddresses (base s) pre ++
          freeAddresses (base s + span len pre + f.len + t.len) post)) := by
        rw [freeAddresses_append, freeAddresses_cons_free _ hf, hxat] at hxs
        exact hxs.trans (by rw [List.append_assoc]; exact List.perm_middle)
      obtain ⟨hloose, hconfined, -, hcolored⟩ := hl.absorbed hL rfl hf h.free ht (Or.inl rfl) hperm hremove
      rw [← hxat] at hloose hconfined hcolored
      refine ⟨pre, join f t, .joined hf, hloose, hconfined.mono ?_, ?_⟩
      case refine_2 =>
        intro hc hz
        rw [hback, hflag] at hz
        exact hcolored hc (hz ⟨hne, by simp [hf]⟩)
      intro y hy
      rw [addresses_append, addresses_cons]
      have hlen : base s + span len pre + (join f t).len = x + t.len := by
        rw [hxat]
        exact (Nat.add_assoc ..).symm
      rw [hlen]
      simp only [List.mem_append, List.mem_cons] at hy ⊢
      tauto

theorem mergeForward_spec (hL : LawfulHeaders σ g Within) (h : Loose g s pre t post x)
    (hok : mergeForward s x = .ok s') : ∃ w post', joinRight free join t post = w :: post' ∧
      Loose g s' pre w post' x ∧ Confined g Within s s' (addresses (base s) (pre ++ t :: post)) ∧
      (∀ c ys, post = c :: ys → c.free = true → w = join t c ∧ post' = ys ∧
        parent s' (x + t.len) ≠ s.trusted) ∧
      (Colored s → (forward s x ≠ 0 ∧ ¬ occupied s (forward s x) → Leaves s (forward s x)) →
        Colored s') := by
  have hforward := h.listing.forward_eq
  rw [← h.at_eq] at hforward
  unfold mergeForward at hok
  cases post with
  | nil =>
    rw [if_neg fun hc => hc.1 hforward] at hok
    cases hok
    exact ⟨t, [], rfl, h, .refl s _, (fun _ _ he => by cases he), fun hc _ => hc⟩
  | cons c post =>
    have hnext : forward s x = x + t.len := hforward
    have hl : Listing g s ((pre ++ [t]) ++ c :: post) := by simpa using h.listing
    have hcat : base s + span len (pre ++ [t]) = x + t.len := by
      rw [h.at_eq, span_append, span_cons, span_nil]
      omega
    have hne : x + t.len ≠ 0 := hcat ▸ hl.ne_zero mem_addresses_self
    have hflag := hl.header.2.2.1
    rw [hcat] at hflag
    rw [hnext, hflag] at hok
    rw [joinRight]
    cases hc : c.free with
    | false =>
      rw [if_neg fun hcond => by simp [hc] at hcond] at hok
      cases hok
      refine ⟨t, c :: post, rfl, h, .refl s _, ?_, fun hc _ => hc⟩
      intro c' ys he hfree
      cases he
      rw [hc] at hfree
      cases hfree
    | true =>
      rw [if_pos ⟨hne, by simp [hc]⟩] at hok
      obtain ⟨s₁, hremove, hok⟩ := bind_eq_ok.mp hok
      cases hok
      obtain ⟨xs, ht, hxs⟩ := h.tree
      have hperm : xs.Perm ((x + t.len) :: (freeAddresses (base s) pre ++
          freeAddresses (x + t.len + c.len) post)) := by
        rw [freeAddresses_cons_free _ hc] at hxs
        exact hxs.trans List.perm_middle
      obtain ⟨hloose, hconfined, howner, hcolored⟩ :=
        h.listing.absorbed hL h.at_eq h.free hc ht (Or.inr rfl) hperm hremove
      refine ⟨join t c, post, rfl, hloose, hconfined.mono ?_, ?_, ?_⟩
      case refine_3 =>
        intro hcol hz
        rw [hnext, hflag] at hz
        exact hcolored hcol (hz ⟨hne, by simp [hc]⟩)
      · intro y hy
        rw [addresses_append, addresses_cons, addresses_cons, ← h.at_eq]
        simp only [List.mem_append, List.mem_cons] at hy ⊢
        tauto
      · intro c' ys he _
        cases he
        exact ⟨rfl, rfl, howner rfl⟩

theorem Listing.payload_eq (hL : LawfulHeaders σ g Within) (h : Listing g s (pre ++ t :: post)) :
    sizeSub (base s + span len pre + blockMetadataSize) blockMetadataSize = base s + span len pre := by
  have hb := h.bounds mem_addresses_self
  have hbound := h.bounded
  have hroom := hL.room
  rw [sizeSub_of_le (by omega) (by omega), Nat.add_sub_cancel]

theorem Loose.inserted (hL : LawfulHeaders σ g Within) (h : Loose g s pre t post x)
    (hc : Coalesced Tile.free (pre ++ t :: post)) (hok : rbTreeInsert s x = .ok s') :
    Pool g s' (pre ++ t :: post) ∧ Confined g Within s s' (addresses (base s) (pre ++ t :: post)) ∧
      (Colored s → Colored s') := by
  have hg : 0 < g := lt_of_lt_of_le (by decide) hL.room
  obtain ⟨xs, ht, hxs⟩ := h.tree
  have hall : freeAddresses (base s) (pre ++ t :: post) =
      freeAddresses (base s) pre ++ x :: freeAddresses (x + t.len) post := by
    rw [freeAddresses_append, freeAddresses_cons_free _ h.free, h.at_eq]
  have hperm : (x :: xs).Perm (freeAddresses (base s) (pre ++ t :: post)) := by
    rw [hall]
    exact (hxs.cons x).trans List.perm_middle.symm
  have hnd : (x :: xs).Nodup :=
    hperm.nodup_iff.mpr ((h.listing.nodup hg).sublist (freeAddresses_sublist _ _))
  obtain ⟨hl, ⟨ys, hys, hyx⟩, hr, hcolored⟩ := h.listing.inserted hL ht (fun y hy => hperm.mem_iff.mp hy)
    (List.nodup_cons.mp hnd).1 hok
  have hbase : base s' = base s := by unfold base; rw [hr.trusted]
  refine ⟨⟨hl, hc, ys, hys, ?_⟩,
    hr.confined.mono fun y hy => addresses_of_free (hperm.mem_iff.mp hy), hcolored⟩
  rw [hbase]
  exact hyx.trans hperm

theorem addresses_joinRight (a : ℕ) (w : Tile) (post : List Tile) :
    (addresses a (joinRight free join w post)).Sublist (addresses a (w :: post)) := by
  cases post with
  | nil => exact List.Sublist.refl _
  | cons c ys =>
    rw [joinRight]
    split
    · have hlen : a + (join w c).len = a + w.len + c.len := (Nat.add_assoc ..).symm
      rw [addresses_cons, addresses_cons, addresses_cons, hlen]
      exact (List.sublist_cons_self ..).cons_cons a
    · exact List.Sublist.refl _

/-- Each `rb_tree_remove` of a call of `do_deallocate_sm` takes out such a node. -/
def DeallocateLeaves (s : RedBlackAllocator σ) (payload : ℕ) : Prop :=
  let block := sizeSub payload blockMetadataSize
  let s := setOccupied s block false
  (back s block ≠ 0 ∧ ¬ occupied s (back s block) → Leaves s (back s block)) ∧
    ∀ block' s', mergeBack s block = .ok (block', s') →
      forward s' block' ≠ 0 ∧ ¬ occupied s' (forward s' block') → Leaves s' (forward s' block')

/-- A call that returns has taken the block back, joined with its free neighbours. What was the header
of the block behind then does not look like one that a client has. -/
theorem deallocate_spec (hL : LawfulHeaders σ g Within) (h : Pool g s (pre ++ t :: post))
    (ht : t.free = false)
    (hok : deallocate s (base s + span len pre + blockMetadataSize) = .ok s') :
    ∃ pre' w, JoinLeft free join pre (gap t.len) pre' w ∧
      Pool g s' (pre' ++ joinRight free join w post) ∧
      Confined g Within (setOccupied s (base s + span len pre) false) s'
        (addresses (base s) (pre' ++ w :: post)) ∧
      (∀ c ys, post = c :: ys → c.free = true →
        parent s' (base s + span len pre + t.len) ≠ s.trusted) ∧
      (Colored s → DeallocateLeaves s (base s + span len pre + blockMetadataSize) →
        Colored s') := by
  obtain ⟨-, -, -, howner⟩ := h.listing.header
  unfold deallocate at hok
  rw [h.listing.payload_eq hL] at hok
  dsimp only at hok
  rw [if_neg (not_not.mpr (howner ht))] at hok
  obtain ⟨⟨x', s₂⟩, hmergeBack, hok⟩ := bind_eq_ok.mp hok
  obtain ⟨s₃, hmergeForward, hok⟩ := bind_eq_ok.mp hok
  obtain ⟨s₄, hinsert, hok⟩ := bind_eq_ok.mp hok
  obtain ⟨_, -, hok⟩ := bind_eq_ok.mp hok
  cases hok
  obtain ⟨hreleased, hu⟩ := h.listing.release hL rfl
  obtain ⟨xs, htree, hxs⟩ := h.tree
  have hsame : Same s (setOccupied s (base s + span len pre) false) := ⟨rfl, rfl, rfl, rfl⟩
  have hxs' : xs.Perm (freeAddresses (base s) pre ++
      freeAddresses (base s + span len pre + t.len) post) := by
    rwa [freeAddresses_append, freeAddresses_cons_held _ ht] at hxs
  have hkept (y : ℕ) (hy : y ∈ xs) :
      y ∈ addresses (base s) pre ++ addresses (base s + span len pre + t.len) post := by
    rcases List.mem_append.mp (hxs'.mem_iff.mp hy) with hm | hm
    · exact List.mem_append_left _ (addresses_of_free hm)
    · exact List.mem_append_right _ (addresses_of_free hm)
  have hloose : Loose g (setOccupied s (base s + span len pre) false) pre (gap t.len) post
      (base s + span len pre) :=
    ⟨rfl, rfl, hreleased, xs, htree.untouched hsame hu hkept, hxs'⟩
  obtain ⟨pre', w, hjoin, hloose₂, hconfined₂, hcolored₂⟩ := mergeBack_spec hL hloose hmergeBack
  obtain ⟨w', post', hright, hloose₃, hconfined₃, howner₃, hcolored₃⟩ :=
    mergeForward_spec hL hloose₂ hmergeForward
  have hcoalesced := hjoin.coalesced joins rfl h.coalesced
  rw [hright] at hcoalesced
  obtain ⟨hpool, hconfined₄, hcolored₄⟩ := hloose₃.inserted hL hcoalesced hinsert
  have htrusted₂ : s₂.trusted = s.trusted := hconfined₂.trusted
  have hbase₂ : base s₂ = base s := by unfold base; rw [htrusted₂]
  have hbase₃ : base s₃ = base s := by unfold base; rw [hconfined₃.trusted, hconfined₂.trusted]; rfl
  rw [hbase₂] at hconfined₃
  rw [hbase₃] at hconfined₄
  refine ⟨pre', w, hjoin, hright ▸ hpool, (hconfined₂.trans hconfined₃).trans (hconfined₄.mono ?_),
    ?_, ?_⟩
  · rw [addresses_append, addresses_append, ← hright]
    intro y hy
    rcases List.mem_append.mp hy with hy | hy
    · exact List.mem_append_left _ hy
    · exact List.mem_append_right _ ((addresses_joinRight _ w post).mem hy)
  · intro c ys hpost hc
    obtain ⟨rfl, rfl, howner⟩ := howner₃ c ys hpost hc
    subst hpost
    have hend : x' + w.len = base s + span len pre + t.len := by
      have hspan := hjoin.span_eq joins (free_gap t.len)
      rw [len_gap] at hspan
      rw [hloose₂.at_eq, hbase₂]
      omega
    have hkeep : get s'.memory (x' + w.len) = get s₃.memory (x' + w.len) := by
      apply hconfined₄.scattered.get_eq hL
      intro y hy
      have hlen : (join w c).len = w.len + c.len := rfl
      have hwide := hloose₂.listing.wide
      have hw := hwide w (by simp)
      have hwc := hwide c (by simp)
      rw [hloose₂.at_eq, hbase₂]
      exact apart_inner hloose₃.listing.wide hw (by omega) hy
    have hparent := congrArg (fun h => h.node.parent) hkeep
    rw [hend] at hparent howner
    exact fun he => howner (hparent.symm.trans (he.trans htrusted₂.symm))
  · intro hc hleaves
    unfold DeallocateLeaves at hleaves
    rw [h.listing.payload_eq hL] at hleaves
    have hc₁ := htree.colored hsame hu hkept hc
    exact hcolored₄ (hcolored₃ (hcolored₂ hc₁ hleaves.1) (hleaves.2 _ _ hmergeBack))

/-! ### Allocation -/

/-- What a search for a block may end with. -/
def Suits (s : RedBlackAllocator σ) (size : ℕ) (xs : List ℕ) (b : ℕ) : Prop :=
  b = 0 ∨ (b ∈ xs ∧ size ≤ getSize s b)

section

variable {size n b best block : ℕ} (hi : InOrder (heap s) xs)

include hi

theorem firstFit_suits (hblock : block = 0 ∨ block ∈ xs) (hok : firstFit s size n block = .ok b) :
    Suits s size xs b := by
  induction n generalizing block with
  | zero =>
    rw [firstFit] at hok
    split at hok
    · cases hok
      exact Or.inl rfl
    · cases hok
  | succ n ih =>
    rw [firstFit] at hok
    split at hok
    case isTrue => cases hok; exact Or.inl rfl
    case isFalse h0 =>
      have hm := hblock.resolve_left h0
      split at hok
      case isTrue hsize => cases hok; exact Or.inr ⟨hm, hsize⟩
      case isFalse => exact ih (hi.child_mem hm .right) hok

omit hi in
theorem suits_step (hbest : Suits s size xs best) (hm : block ∈ xs) :
    Suits s size xs (if getSize s block ≥ size then block else best) := by
  split
  case isTrue hsize => exact Or.inr ⟨hm, hsize⟩
  case isFalse => exact hbest

theorem bestFit_suits (hbest : Suits s size xs best) (hblock : block = 0 ∨ block ∈ xs)
    (hok : bestFit s size n best block = .ok b) : Suits s size xs b := by
  induction n generalizing best block with
  | zero =>
    rw [bestFit] at hok
    split at hok
    · cases hok
      exact hbest
    · cases hok
  | succ n ih =>
    rw [bestFit] at hok
    split at hok
    case isTrue => cases hok; exact hbest
    case isFalse h0 =>
      have hm := hblock.resolve_left h0
      have hstep := suits_step hbest hm
      dsimp only at hok
      split at hok
      · exact ih hstep (hi.child_mem hm .right) hok
      · split at hok
        · exact ih hstep (hi.child_mem hm .left) hok
        · cases hok
          exact hstep

theorem worstFit_suits (hworst : Suits s size xs best) (hblock : block = 0 ∨ block ∈ xs)
    (hok : worstFit s size n best block = .ok b) : Suits s size xs b := by
  induction n generalizing best block with
  | zero =>
    rw [worstFit] at hok
    split at hok
    · cases hok
      exact hworst
    · cases hok
  | succ n ih =>
    rw [worstFit] at hok
    split at hok
    case isTrue => cases hok; exact hworst
    case isFalse h0 =>
      have hm := hblock.resolve_left h0
      exact ih (suits_step hworst hm) (hi.child_mem hm .right) hok

theorem getFreeBlock_suits (hok : getFreeBlock s size = .ok b) : Suits s size xs b := by
  have hroot : s.root = 0 ∨ s.root ∈ xs := hi.root_mem
  unfold getFreeBlock at hok
  split at hok
  · exact firstFit_suits hi hroot hok
  · exact bestFit_suits hi (Or.inl rfl) hroot hok
  · exact worstFit_suits hi (Or.inl rfl) hroot hok

end

/-- What a free block becomes when `size` bytes of it are granted. -/
inductive Carved (t : Tile) (size : ℕ) : List Tile → Prop
  | whole (h : blockMetadataSize + size ≤ t.len) : Carved t size [block t.len size h]
  | cut {n : ℕ} (h : blockMetadataSize + size + n = t.len)
      (hn : blockMetadataSize + freeBlockMetadataSize ≤ n) :
      Carved t size [block (blockMetadataSize + size) size (le_refl _), gap n]

theorem Carved.span_eq {size : ℕ} {mid : List Tile} (h : Carved t size mid) : span len mid = t.len := by
  cases h with
  | whole h => simp
  | cut h _ =>
    rw [span_cons, span_cons, span_nil]
    exact h

theorem Carved.mem_addresses {size a : ℕ} {mid : List Tile} (h : Carved t size mid)
    (hy : y ∈ addresses a (pre ++ t :: post)) : y ∈ addresses a (pre ++ (mid ++ post)) := by
  have hspan := h.span_eq
  rw [addresses_append, addresses_cons] at hy
  rw [addresses_append, addresses_append, hspan]
  rcases List.mem_append.mp hy with hy | hy
  · exact List.mem_append_left _ hy
  · apply List.mem_append_right
    rcases List.mem_cons.mp hy with rfl | hy
    · apply List.mem_append_left
      cases h <;> simp
    · exact List.mem_append_right _ hy

theorem Carved.coalesced {size : ℕ} {mid : List Tile} (hm : Carved t size mid) (ht : t.free = true)
    (hc : Coalesced free (pre ++ t :: post)) : Coalesced free (pre ++ (mid ++ post)) := by
  obtain ⟨hpre, hpost, hlast, hhead⟩ := coalesced_append_cons.mp hc
  cases hm with
  | whole h =>
    apply coalesced_append_cons.mpr
    exact ⟨hpre, hpost, fun l hl => by simp, fun c hc => by simp⟩
  | @cut n h _ =>
    apply coalesced_append_cons.mpr
    refine ⟨hpre, ?_, fun l hl => by simp, fun c hc => by simp⟩
    have hempty : Coalesced free ([] ++ gap n :: post) := coalesced_append_cons.mpr
      ⟨List.IsChain.nil, hpost, (fun l hl => by cases hl), fun c hc => by simpa [ht] using hhead c hc⟩
    exact hempty

/-- The chosen block is taken out of the tree and given to the client. -/
theorem Pool.taken (hL : LawfulHeaders σ g Within) (h : Pool g s (pre ++ t :: post)) (ht : t.free = true)
    {t' : Tile} (hlen : t'.len = t.len) (ht' : t'.free = false) (hx : x = base s + span len pre)
    (hok : rbTreeRemove s x = .ok s') :
    Listing g (setParent (setOccupied s' x true) x s'.trusted) (pre ++ t' :: post) ∧
      (∃ xs, FreeTree (setParent (setOccupied s' x true) x s'.trusted) xs ∧
        xs.Perm (freeAddresses (base s) pre ++ freeAddresses (x + t.len) post)) ∧
      Confined g Within s (setParent (setOccupied s' x true) x s'.trusted)
        (addresses (base s) (pre ++ t :: post)) ∧
      (Colored s → Leaves s x → Colored (setParent (setOccupied s' x true) x s'.trusted)) := by
  obtain ⟨xs, htree, hxs⟩ := h.tree
  have hall : freeAddresses (base s) (pre ++ t :: post) =
      freeAddresses (base s) pre ++ x :: freeAddresses (x + t.len) post := by
    rw [freeAddresses_append, freeAddresses_cons_free _ ht, hx]
  have hmem : x ∈ xs := by
    rw [hxs.mem_iff, hall]
    simp
  obtain ⟨h', htree', hr, -, hcolored⟩ := h.listing.removed hL htree (fun y hy => hxs.mem_iff.mp hy) hmem hok
  have hbase : base s' = base s := by unfold base; rw [hr.trusted]
  have hperm : (xs.erase x).Perm (freeAddresses (base s) pre ++ freeAddresses (x + t.len) post) := by
    have he := (hxs.trans (hall ▸ List.perm_middle)).erase x
    rwa [List.erase_cons_head] at he
  obtain ⟨hl, hu⟩ := h'.occupy hL (x := x) (hbase ▸ hx) hlen ht'
  have hsame : Same s' (setParent (setOccupied s' x true) x s'.trusted) := ⟨rfl, rfl, rfl, rfl⟩
  have hkept (y : ℕ) (hy : y ∈ xs.erase x) :
      y ∈ addresses (base s') pre ++ addresses (x + t.len) post := by
    rw [hbase]
    rcases List.mem_append.mp (hperm.mem_iff.mp hy) with hm | hm
    · exact List.mem_append_left _ (addresses_of_free hm)
    · exact List.mem_append_right _ (addresses_of_free hm)
  refine ⟨hl, ⟨_, htree'.untouched hsame hu hkept, hperm⟩, ⟨hr.trusted, hr.fitMode, hr.size, ?_⟩,
    fun hc hz => htree'.colored hsame hu hkept (hcolored hc hz)⟩
  · have hroom := hL.room
    have hxm : x ∈ addresses (base s) (pre ++ t :: post) := addresses_of_free (hxs.mem_iff.mp hmem)
    have h₁ := hr.scattered.mono fun y hy => addresses_of_free (hxs.mem_iff.mp hy)
    have h₂ := h₁.tail hxm (hL.within_setOccupied _ _ true) (by omega)
    exact h₂.tail hxm (hL.within_setParent _ _ _) (by omega)

theorem Listing.cut (hL : LawfulHeaders σ g Within) (h : Listing g s (pre ++ t :: post))
    (hx : x = base s + span len pre) (ht : t.free = false) {t₁ : Tile} (ht₁ : t₁.free = false) {n : ℕ}
    (hlen : t₁.len + n = t.len) (hn₁ : g ≤ t₁.len) (hn : g ≤ n)
    (hc : Coalesced free (pre ++ t₁ :: gap n :: post))
    (htree : ∃ xs, FreeTree s xs ∧
      xs.Perm (freeAddresses (base s) pre ++ freeAddresses (x + t.len) post))
    (hok : rbTreeInsert (splitBlock s x (x + t₁.len)) (x + t₁.len) = .ok s') :
    Pool g s' (pre ++ t₁ :: gap n :: post) ∧
      Confined g Within s s' (addresses (base s) (pre ++ t₁ :: gap n :: post)) ∧
      (Colored s → Colored s') := by
  obtain ⟨xs, hxs, hperm⟩ := htree
  obtain ⟨hcut, hu, hscattered⟩ := h.split hL hx ht ht₁ hlen hn₁ hn
  have hsame : Same s (splitBlock s x (x + t₁.len)) := splitBlock_same
  have hbase : base (splitBlock s x (x + t₁.len)) = base s := by unfold base; rw [hsame.trusted]
  have hassoc : pre ++ t₁ :: gap n :: post = (pre ++ [t₁]) ++ gap n :: post := by simp
  rw [hassoc] at hcut hc hscattered ⊢
  have hkept (y : ℕ) (hy : y ∈ xs) :
      y ∈ addresses (base s) pre ++ addresses (x + t.len) post := by
    rcases List.mem_append.mp (hperm.mem_iff.mp hy) with hm | hm
    · exact List.mem_append_left _ (addresses_of_free hm)
    · exact List.mem_append_right _ (addresses_of_free hm)
  have hloose : Loose g (splitBlock s x (x + t₁.len)) (pre ++ [t₁]) (gap n) post (x + t₁.len) := by
    refine ⟨?_, rfl, hcut, xs, hxs.untouched hsame hu hkept, ?_⟩
    · rw [hbase, hx, span_append, span_cons, span_nil]
      omega
    · rw [hbase, freeAddresses_append, freeAddresses_cons_held _ ht₁, freeAddresses_nil,
        List.append_nil, len_gap, Nat.add_assoc, hlen]
      exact hperm
  obtain ⟨hpool, hconfined, hcolored⟩ := hloose.inserted hL hc hok
  rw [hbase] at hconfined
  have hsplit : Confined g Within s (splitBlock s x (x + t₁.len))
      (addresses (base s) ((pre ++ [t₁]) ++ gap n :: post)) :=
    ⟨hsame.trusted, hsame.fitMode, hsame.size, hscattered⟩
  exact ⟨hpool, hsplit.trans hconfined,
    fun hcol => hcolored (hxs.colored hsame hu hkept hcol)⟩

/-- The `rb_tree_remove` of a call of `do_allocate_sm` takes out such a node. -/
def AllocateLeaves (s : RedBlackAllocator σ) (size : ℕ) : Prop :=
  ∀ b, getFreeBlock s size = .ok b → b ≠ 0 → Leaves s b

/-- A call that returns has carved a free block, if every block it makes is wide enough. -/
theorem allocate_spec (hL : LawfulHeaders σ g Within) (h : Pool g s ts) {size p : ℕ}
    (hroom : ∀ b, getFreeBlock s size = .ok b → canSplit s b size → g ≤ blockMetadataSize + size)
    (hok : allocate s size = .ok (p, s')) :
    ∃ pre t post mid, ts = pre ++ t :: post ∧ t.free = true ∧ Carved t size mid ∧
      p = base s + span len pre + blockMetadataSize ∧ Pool g s' (pre ++ (mid ++ post)) ∧
      getFreeBlock s size = .ok (base s + span len pre) ∧
      Confined g Within s s' (addresses (base s) (pre ++ (mid ++ post))) ∧
      (Colored s → AllocateLeaves s size → Colored s') := by
  obtain ⟨b, hb, hok⟩ := bind_eq_ok.mp hok
  split at hok
  case isTrue => cases hok
  case isFalse hb0 =>
  obtain ⟨s₁, hremove, hok⟩ := bind_eq_ok.mp hok
  obtain ⟨xs, htree, hxs⟩ := h.tree
  obtain ⟨hm, hsize⟩ := (getFreeBlock_suits htree.inOrder hb).resolve_left hb0
  obtain ⟨t, hplaced, ht⟩ := mem_freeAddresses.mp (hxs.mem_iff.mp hm)
  obtain ⟨pre, post, rfl, hx⟩ := (mem_placed_iff len).mp hplaced
  have hget := h.listing.getSize_eq hL
  have hwide := h.listing.wide t (by simp)
  have htiles := h.listing.tiles
  have hbounded := h.listing.bounded
  have hg := hL.room
  have hg41 := hL.roomy
  rw [span_append, span_cons] at htiles
  rw [← hx] at hget
  have hend : allocatorEnd s = s.trusted + 80 + s.size := rfl
  have h25 : blockMetadataSize = 25 := rfl
  have h41 : freeBlockMetadataSize = 41 := rfl
  have hfit : blockMetadataSize + size ≤ t.len := by omega
  have hlen : (block t.len size hfit).len = t.len := rfl
  obtain ⟨hl, hys, hconfined, hcolored⟩ := h.taken hL ht hlen rfl hx hremove
  dsimp only at hok
  have htrusted₁ : (setOccupied s₁ b true).trusted = s₁.trusted := rfl
  rw [htrusted₁] at hok
  have htrusted₂ := hconfined.trusted
  generalize setParent (setOccupied s₁ b true) b s₁.trusted = s₂ at *
  have hbase₂ : base s₂ = base s := by unfold base; rw [htrusted₂]
  have hx₂ : b = base s₂ + span len pre := hbase₂ ▸ hx
  have hget₂ : getSize s₂ b = getSize s b := by
    rw [hx₂, hl.getSize_eq hL, ← hx₂, hget]
    rfl
  rw [← hbase₂] at hys
  split at hok
  case isTrue hcan =>
    obtain ⟨s₃, hinsert, hok⟩ := bind_eq_ok.mp hok
    obtain ⟨_, -, hok⟩ := bind_eq_ok.mp hok
    cases hok
    have hcan' : canSplit s b size := by
      unfold canSplit at hcan ⊢
      rwa [hget₂] at hcan
    have hwide₁ := hroom b hb hcan'
    unfold canSplit at hcan'
    have hadd : sizeAdd size blockMetadataSize = size + blockMetadataSize := sizeAdd_of_lt (by omega)
    rw [hadd, sizeAdd_of_lt (by omega), hget] at hcan'
    obtain ⟨n, hn⟩ : ∃ n, blockMetadataSize + size + n = t.len :=
      ⟨t.len - (blockMetadataSize + size), by omega⟩
    have hz : b + sizeAdd size blockMetadataSize = b + (blockMetadataSize + size) := by omega
    rw [hz] at hinsert
    have hcarved : Carved t size _ := .cut hn (by omega)
    obtain ⟨hpool, hconfined₃, hcolored₃⟩ := hl.cut hL hx₂ rfl (free_block _ size (le_refl _)) hn hwide₁
      (by omega) (hcarved.coalesced ht h.coalesced) hys hinsert
    rw [hbase₂] at hconfined₃
    exact ⟨pre, t, post, _, rfl, ht, hcarved, by rw [hx], hpool, hx ▸ hb,
      (hconfined.mono fun y hy => hcarved.mem_addresses hy).trans hconfined₃,
      fun hc hleaves => hcolored₃ (hcolored hc (hleaves b hb hb0))⟩
  case isFalse hcan =>
    obtain ⟨_, hpure, hok⟩ := bind_eq_ok.mp hok
    cases hpure
    obtain ⟨_, -, hok⟩ := bind_eq_ok.mp hok
    cases hok
    obtain ⟨ys, htree₂, hperm⟩ := hys
    refine ⟨pre, t, post, _, rfl, ht, .whole hfit, by rw [hx],
      ⟨hl, (Carved.whole hfit).coalesced ht h.coalesced, ys, htree₂, ?_⟩, hx ▸ hb,
      hconfined.mono fun y hy => (Carved.whole hfit).mem_addresses hy,
      fun hc hleaves => hcolored hc (hleaves b hb hb0)⟩
    show ys.Perm (freeAddresses (base _) (pre ++ block t.len size hfit :: post))
    rw [freeAddresses_append, freeAddresses_cons_held _ (free_block _ _ _), ← hx₂]
    exact hperm

/-! ### What a call keeps -/

theorem construct_header (hL : LawfulHeaders σ g Within) {trusted n : ℕ} {mode : FitMode} {m : σ}
    (hok : construct trusted n mode m = .ok s) :
    s.trusted = trusted ∧ s.size = n ∧ s.root = base s ∧
      get s.memory (base s) = ⟨false, 0, 0, ⟨0, 0, 0, .black⟩⟩ := by
  unfold construct at hok
  split at hok
  case isTrue => cases hok
  case isFalse hn0 =>
    cases hok
    have hcell : Addresses (⟨0, 0, 0, .black⟩ : Cell Color) :=
      ⟨Nat.two_pow_pos 64, Nat.two_pow_pos 64, Nat.two_pow_pos 64⟩
    have hget (m : σ) (x : ℕ) : get (HeaderMemory.setNode (HeaderMemory.setForward (HeaderMemory.setBack
        (HeaderMemory.setOccupied m x false) x 0) x 0) x ⟨0, 0, 0, .black⟩) x =
        ⟨false, 0, 0, ⟨0, 0, 0, .black⟩⟩ := by
      rw [hL.get_setNode _ _ hcell, hL.get_setForward _ _ (Nat.two_pow_pos 64),
        hL.get_setBack _ _ (Nat.two_pow_pos 64), hL.get_setOccupied]
    exact ⟨rfl, rfl, rfl, hget m _⟩

/-- The constructed pool is one free block, the only node of the tree. -/
theorem construct_pool (hL : LawfulHeaders σ g Within) {trusted n : ℕ} {mode : FitMode} {m : σ}
    (ht : 0 < trusted) (hregion : trusted + n + 80 < 2 ^ 64) (hn : g ≤ n)
    (hok : construct trusted n mode m = .ok s) :
    Pool g s [gap n] ∧ s.trusted = trusted ∧ s.size = n ∧ Colored s := by
  obtain ⟨htrusted, hsize, hroot, hx⟩ := construct_header hL hok
  have hbase : base s = trusted + 80 := by unfold base; rw [htrusted]; rfl
  have hne : base s ≠ 0 := by omega
  have htree : IsTree (heap s) (.node .nil (base s) .black .nil) :=
    ⟨hroot, ⟨hne, congrArg Header.node hx, trivial, trivial⟩, by simp⟩
  refine ⟨⟨⟨htrusted ▸ ht, ?_, by simp, by simp [hsize], by simpa using hn, ?_, ?_, ?_⟩, ?_, ?_⟩,
    htrusted, hsize, _, htree, 1, .black .nil .nil⟩
  · unfold allocatorEnd
    rw [hbase, hsize]
    omega
  · exact ⟨congrArg Header.back hx, congrArg Header.forward hx, trivial⟩
  · intro p hp
    rw [List.mem_singleton.mp hp]
    exact congrArg Header.occupied hx
  · intro p hp hf
    rw [List.mem_singleton.mp hp] at hf
    cases hf
  · exact List.isChain_singleton _
  · exact ⟨[base s], ⟨⟨_, htree, rfl⟩, List.pairwise_singleton ..⟩, List.Perm.refl _⟩

theorem Carved.grants_eq {size : ℕ} {mid : List Tile} (h : Carved t size mid) (a : ℕ) :
    grants len request blockMetadataSize a mid = [(a + blockMetadataSize, size)] := by
  cases h with
  | whole h => exact grants_cons_some len request _ rfl
  | cut h _ => rw [grants_cons_some len request _ rfl, grants_cons_none len request _ rfl, grants_nil]

theorem Carved.perm_grants {size a : ℕ} {mid : List Tile} {live : List (ℕ × ℕ)} (h : Carved t size mid)
    (ht : t.free = true)
    (hlive : live.Perm (grants len request blockMetadataSize a (pre ++ t :: post))) :
    ((a + span len pre + blockMetadataSize, size) :: live).Perm
      (grants len request blockMetadataSize a (pre ++ (mid ++ post))) := by
  have hgrants := h.grants_eq (a + span len pre)
  have hspan := h.span_eq
  rw [grants_append, grants_append, hgrants, hspan]
  rw [grants_append, grants_cons_none len request blockMetadataSize (t.free_iff.mp ht)] at hlive
  exact (hlive.cons _).trans List.perm_middle.symm

theorem perm_grants_joined {size a : ℕ} {pre' : List Tile} {w : Tile} {live : List (ℕ × ℕ)}
    (hr : t.request = some size) (hj : JoinLeft free join pre (gap t.len) pre' w)
    (hlive : live.Perm (grants len request blockMetadataSize a (pre ++ t :: post)))
    (hm : (a + span len pre + blockMetadataSize, size) ∈ live) :
    (live.erase (a + span len pre + blockMetadataSize, size)).Perm
      (grants len request blockMetadataSize a (pre' ++ joinRight free join w post)) := by
  rw [grants_append, grants_cons_some len request blockMetadataSize hr] at hlive
  rw [hj.grants_eq joins blockMetadataSize (fun t ht => t.free_iff.mp ht) rfl]
  exact ((List.perm_cons_erase hm).symm.trans (hlive.trans List.perm_middle)).cons_inv

theorem Pool.setMode (h : Pool g s ts) (mode : FitMode) : Pool g { s with fitMode := mode } ts := by
  obtain ⟨xs, ht, hperm⟩ := h.tree
  exact ⟨⟨h.listing.nonnull, h.listing.bounded, h.listing.room, h.listing.tiles, h.listing.wide,
    h.listing.linked, h.listing.flags, h.listing.owner⟩, h.coalesced, xs, ⟨ht.inOrder, ht.sorted⟩, hperm⟩

theorem Pool.write (hL : LawfulHeaders σ g Within) (h : Pool g s (pre ++ t :: post))
    (ht : t.free = false) {a : ℕ} (v : UInt8)
    (hlow : base s + span len pre + blockMetadataSize ≤ a)
    (hhigh : a < base s + span len pre + t.len) :
    Pool g { s with memory := HeaderMemory.write s.memory a v } (pre ++ t :: post) ∧
      (Colored s → Colored { s with memory := HeaderMemory.write s.memory a v }) := by
  have hw := hL.within_write s.memory a v
  have hg : 0 < g := lt_of_lt_of_le (by decide) hL.room
  have hl := h.listing
  have hother (y : ℕ) (hy : y ∈ addresses (base s) pre ++
      addresses (base s + span len pre + t.len) post) :
      get (HeaderMemory.write s.memory a v) y = get s.memory y := by
    have hwide := hl.wide
    apply hL.get_eq hw
    rcases List.mem_append.mp hy with hy | hy
    · have hb := addresses_bounds (fun u hu => hwide u (by simp [hu])) hy
      omega
    · have hb := addresses_bounds (fun u hu => hwide u (by simp [hu])) hy
      omega
  have hself := hL.listed (y := base s + span len pre) hw (Or.inr hlow)
  have hsame : Same s { s with memory := HeaderMemory.write s.memory a v } := ⟨rfl, rfl, rfl, rfl⟩
  have hlisting : Listing g { s with memory := HeaderMemory.write s.memory a v } (pre ++ t :: post) := by
    apply hl.relabel rfl hsame.trusted hsame.size hother
    · exact hself.forward
    · exact hself.back
    · exact hself.occupied.trans hl.header.2.2.1
    · exact fun hf => hself.parent.trans (hl.header.2.2.2 hf)
  have hu : Untouched s { s with memory := HeaderMemory.write s.memory a v }
      (addresses (base s) pre ++ addresses (base s + span len pre + t.len) post) := fun y hy =>
    ⟨congrArg Header.forward (hother y hy), congrArg Header.node (hother y hy)⟩
  obtain ⟨xs, htree, hperm⟩ := h.tree
  have hkept (y : ℕ) (hy : y ∈ xs) :
      y ∈ addresses (base s) pre ++ addresses (base s + span len pre + t.len) post := by
    have hm := hperm.mem_iff.mp hy
    rw [freeAddresses_append, freeAddresses_cons_held _ ht] at hm
    rcases List.mem_append.mp hm with hm | hm
    · exact List.mem_append_left _ (addresses_of_free hm)
    · exact List.mem_append_right _ (addresses_of_free hm)
  exact ⟨⟨hlisting, h.coalesced, xs, htree.untouched hsame hu hkept, hperm⟩,
    htree.colored hsame hu hkept⟩

/-- The pool stands for some tiles, and the grants are their occupied blocks. -/
structure Kept (g trusted n : ℕ) (s : RedBlackAllocator σ) (live : List (ℕ × ℕ)) : Prop where
  trusted : s.trusted = trusted
  size : s.size = n
  pool : ∃ ts, Pool g s ts ∧ live.Perm (grants len request blockMetadataSize (base s) ts)

namespace Kept

variable {trusted n size p : ℕ} {live : List (ℕ × ℕ)}

theorem allocate (hL : LawfulHeaders σ g Within) (h : Kept g trusted n s live)
    (hroom : ∀ b, getFreeBlock s size = .ok b → canSplit s b size → g ≤ blockMetadataSize + size)
    (hok : allocate s size = .ok (p, s')) : Kept g trusted n s' ((p, size) :: live) := by
  obtain ⟨ht, hn, ts, hpool, hlive⟩ := h
  obtain ⟨pre, t, post, mid, rfl, hf, hcarved, rfl, hpool', -, hconfined, -⟩ :=
    allocate_spec hL hpool hroom hok
  have ht' := hconfined.trusted
  have hn' := hconfined.size
  have hbase : base s' = base s := by unfold base; rw [ht']
  refine ⟨ht'.trans ht, hn'.trans hn, _, hpool', ?_⟩
  rw [hbase]
  exact hcarved.perm_grants hf hlive

theorem deallocate (hL : LawfulHeaders σ g Within) (h : Kept g trusted n s live) (hm : (p, size) ∈ live)
    (hok : deallocate s p = .ok s') : Kept g trusted n s' (live.erase (p, size)) := by
  obtain ⟨ht, hn, ts, hpool, hlive⟩ := h
  obtain ⟨pre, t, post, rfl, hr, rfl⟩ := mem_grants len request blockMetadataSize (hlive.mem_iff.mp hm)
  obtain ⟨xs, w, hj, hpool', hconfined, -⟩ := deallocate_spec hL hpool (t.held_iff.mpr ⟨size, hr⟩) hok
  have hbase : base s' = base s := by unfold base; rw [hconfined.trusted]; rfl
  refine ⟨hconfined.trusted.trans ht, hconfined.size.trans hn, _, hpool', ?_⟩
  rw [hbase]
  exact perm_grants_joined hr hj hlive hm

theorem setMode (h : Kept g trusted n s live) (mode : FitMode) :
    Kept g trusted n { s with fitMode := mode } live := by
  obtain ⟨ht, hn, ts, hpool, hlive⟩ := h
  exact ⟨ht, hn, ts, hpool.setMode mode, hlive⟩

theorem write (hL : LawfulHeaders σ g Within) (h : Kept g trusted n s live) (hm : (p, size) ∈ live)
    {a : ℕ} (v : UInt8) (ha : p ≤ a ∧ a < p + size) :
    Kept g trusted n { s with memory := HeaderMemory.write s.memory a v } live := by
  obtain ⟨ht, hn, ts, hpool, hlive⟩ := h
  obtain ⟨pre, t, post, rfl, hr, rfl⟩ := mem_grants len request blockMetadataSize (hlive.mem_iff.mp hm)
  have hfit := t.fits _ hr
  exact ⟨ht, hn, _, (hpool.write hL (t.held_iff.mpr ⟨_, hr⟩) v ha.1 (ha.2.trans_le (by omega))).1, hlive⟩

end Kept

theorem keeps (hL : LawfulHeaders σ g Within) {admissible : ℕ → Prop} {trusted n : ℕ}
    (hroom : ∀ size, admissible size → g ≤ blockMetadataSize + size) :
    (ops (σ := σ)).Keeps admissible (Kept g trusted n) where
  allocate h hsize hok := h.allocate hL (fun _ _ _ => hroom _ hsize) hok
  deallocate h hm hok := h.deallocate hL hm hok
  setMode mode h := h.setMode mode
  write v h hm hw := h.write hL hm v hw

end MaiFaSp.RedBlackAllocator
