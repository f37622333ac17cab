import MaiFaSp.Allocator.SortedListAllocate

/-!
# `allocator_sorted_list`: `do_deallocate_sm` and `try_merge` (`allocator_sorted_list.cpp:207-292`)

The returned block is put between the free blocks around it. `try_merge` then
joins it with the block that ends where it starts and with the one that starts
where the result ends, if these are free.
-/

namespace MaiFaSp.SortedList

open Memory Tiling Block

/-! ### The neighbours of a block -/

/-- The last free block of a part ends inside the part and links to what follows. -/
theorem lastFreeOf_header {m : Memory} {tag : Option ℕ} {a p nf : ℕ} {bs : List Block}
    (hl : Linked m tag a bs nf) (hp : p < a) (hne : lastFreeOf a bs p ≠ p) :
    getNextPtr m (lastFreeOf a bs p) = nf ∧
      lastFreeOf a bs p + 16 + getSize m (lastFreeOf a bs p) ≤ a + span len bs := by
  induction bs generalizing a p with
  | nil => exact absurd rfl hne
  | cons b bs ih =>
    have hb := b.len_eq
    obtain ⟨hs, hn, hr⟩ := hl
    rw [lastFreeOf] at hne ⊢
    rw [span_cons, ← Nat.add_assoc]
    cases hf : b.free with
    | false =>
      rw [hf, if_neg Bool.false_ne_true] at hne
      rw [if_neg Bool.false_ne_true]
      exact ih hr (by omega) hne
    | true =>
      rw [hf, if_pos rfl] at hn
      rw [if_pos rfl]
      by_cases hlast : lastFreeOf (a + b.len) bs a = a
      · rw [hlast, hn, hs]
        exact ⟨firstFreeOf_eq_of_lastFreeOf (by omega) hlast, by omega⟩
      · exact ih hr (by omega) hlast

theorem lastFreeOf_append_singleton {a : ℕ} {bs : List Block} {b : Block} {p : ℕ} :
    lastFreeOf a (bs ++ [b]) p = if b.free then a + span len bs else lastFreeOf a bs p :=
  lastFreeOf_append a bs [b] p

/-! ### `try_merge` -/

theorem tryMerge_adjacent {m : Memory} {tag : Option ℕ} {a : ℕ} {xs ys : List Block}
    {l r : Block} (hl : Linked m tag a (xs ++ l :: r :: ys) 0) (hlf : l.free = true)
    (hrf : r.free = true) (ha : 0 < a)
    (hend : a + span len (xs ++ l :: r :: ys) ≤ 2 ^ 64) :
    ∃ m', tryMerge m (a + span len xs) (a + span len xs + l.len) = (true, m') ∧
      Linked m' tag a (xs ++ vacant (l.size + r.size + 16) :: ys) 0 := by
  have hll := l.len_eq
  have hrl := r.len_eq
  rw [span_append, span_cons, span_cons] at hend
  rw [linked_append] at hl
  generalize hx : a + span len xs = x at hl ⊢
  obtain ⟨hxs, hls, hln, hrs, hrn, hys⟩ := hl
  rw [hlf, if_pos rfl, firstFreeOf, hrf, if_pos rfl] at hln
  rw [hrf, if_pos rfl] at hrn
  have hnx := firstFreeOf_bounds (x + l.len + r.len) ys 0
  have hsum : sizeAdd (sizeAdd (getSize m x) (getSize m (x + l.len))) blockMetadataSize =
      l.size + r.size + 16 := by
    show sizeAdd (sizeAdd (getSize m x) (getSize m (x + l.len))) 16 = l.size + r.size + 16
    rw [hls, hrs, sizeAdd_of_lt (by omega : l.size + r.size < 2 ^ 64), sizeAdd_of_lt (by omega)]
  have hnonnull : ¬ (x = 0 ∨ x + l.len = 0) := by omega
  have hadj : x + blockMetadataSize + getSize m x = x + l.len := by
    rw [hls, hll]
    exact Nat.add_assoc ..
  have heq : tryMerge m x (x + l.len) =
      (true, setNextPtr (setSize m x (l.size + r.size + 16)) x
        (getNextPtr (setSize m x (l.size + r.size + 16)) (x + l.len))) := by
    rw [tryMerge, if_neg hnonnull, if_pos hadj]
    dsimp only
    rw [hsum]
  refine ⟨_, heq, ?_⟩
  have hnr : getNextPtr (setSize m x (l.size + r.size + 16)) (x + l.len) =
      firstFreeOf (x + l.len + r.len) ys 0 := by
    rw [getNextPtr_congr (agreeOn_setSize m x _ (x + l.len) _ (by omega)), hrn]
  rw [hnr]
  have hframe (lo hi : ℕ) (h : hi ≤ x ∨ x + 16 ≤ lo) : AgreeOn (setNextPtr
      (setSize m x (l.size + r.size + 16)) x (firstFreeOf (x + l.len + r.len) ys 0)) m lo hi :=
    (agreeOn_setNextPtr _ x _ lo hi h).trans (agreeOn_setSize m x _ lo hi h)
  have hfirst : firstFreeOf x (l :: r :: ys) 0 = x := by rw [firstFreeOf, hlf, if_pos rfl]
  have hat : x + len (vacant (l.size + r.size + 16)) = x + l.len + r.len := by
    rw [len_vacant]
    omega
  rw [hfirst] at hxs
  rw [linked_append, hx, firstFreeOf, free_vacant, if_pos rfl]
  refine ⟨hxs.congr (hframe a _ (by omega)), ?_, ?_, ?_⟩
  · rw [getSize_setNextPtr, getSize_setSize (by omega)]
    rfl
  · rw [free_vacant, if_pos rfl, getNextPtr_setNextPtr (by omega) (by omega), hat]
  · rw [hat]
    exact hys.congr (hframe _ _ (by omega))

theorem tryMerge_of_far {m : Memory} {left right : ℕ}
    (h : left = 0 ∨ right = 0 ∨ left + 16 + getSize m left ≠ right) :
    tryMerge m left right = (false, m) := by
  unfold tryMerge
  split
  · rfl
  · rename_i hne
    rw [if_neg]
    simp only [blockMetadataSize]
    omega

/-- Joining a free block of size `z` with what follows it. -/
def joinRight (z : ℕ) : List Block → List Block
  | [] => [vacant z]
  | b :: bs => if b.free then vacant (z + b.size + 16) :: bs else vacant z :: b :: bs

theorem tryMerge_right {m : Memory} {tag : Option ℕ} {a z : ℕ} {xs ys : List Block}
    (hl : Linked m tag a (xs ++ vacant z :: ys) 0) (ha : 0 < a)
    (hend : a + span len (xs ++ vacant z :: ys) ≤ 2 ^ 64) :
    Linked (tryMerge m (a + span len xs) (firstFreeOf (a + span len xs + (16 + z)) ys 0)).2 tag a
      (xs ++ joinRight z ys) 0 := by
  have hsz : getSize m (a + span len xs) = z := ((linked_append ..).mp hl).2.1
  cases ys with
  | nil =>
    rw [firstFreeOf, tryMerge_of_far (Or.inr (Or.inl rfl))]
    exact hl
  | cons b ys =>
    have hb := b.len_eq
    rw [firstFreeOf, joinRight]
    cases hf : b.free with
    | true =>
      obtain ⟨m', hm, hl'⟩ := tryMerge_adjacent hl rfl hf ha hend
      rw [if_pos rfl, if_pos rfl]
      rw [len_vacant] at hm
      rw [hm]
      exact hl'
    | false =>
      have hbd := firstFreeOf_bounds (a + span len xs + (16 + z) + b.len) ys 0
      rw [if_neg Bool.false_ne_true, if_neg Bool.false_ne_true, tryMerge_of_far (by omega)]
      exact hl

/-- Joining a free block of size `n` with a free block right before it. -/
inductive JoinLeft : List Block → ℕ → List Block → ℕ → Prop
  | alone {pre : List Block} {n : ℕ} (h : ∀ l, pre.getLast? = some l → l.free = false) :
      JoinLeft pre n pre n
  | joined {xs : List Block} {f : Block} {n : ℕ} (h : f.free = true) :
      JoinLeft (xs ++ [f]) n xs (f.size + n + 16)

theorem joinLeft_exists (pre : List Block) (n : ℕ) : ∃ xs z, JoinLeft pre n xs z := by
  cases hl : pre.getLast? with
  | none =>
    refine ⟨pre, n, JoinLeft.alone ?_⟩
    intro l h
    rw [hl] at h
    cases h
  | some f =>
    obtain ⟨xs, rfl⟩ := List.getLast?_eq_some_iff.mp hl
    cases hf : f.free with
    | true => exact ⟨xs, _, JoinLeft.joined hf⟩
    | false =>
      refine ⟨xs ++ [f], n, JoinLeft.alone ?_⟩
      intro l h
      rw [hl] at h
      cases h
      exact hf

/-! ### The list of blocks after the merges -/

theorem span_joinRight (z : ℕ) (ys : List Block) :
    span len (joinRight z ys) = 16 + z + span len ys := by
  cases ys with
  | nil => simp [joinRight]
  | cons b ys =>
    have hb := b.len_eq
    rw [joinRight]
    split
    · simp only [span_cons, len_vacant]
      omega
    · simp only [span_cons, len_vacant]

theorem JoinLeft.span_eq {pre xs : List Block} {n z : ℕ} (h : JoinLeft pre n xs z) :
    span len xs + (16 + z) = span len pre + (16 + n) := by
  cases h with
  | alone h => rfl
  | joined h =>
    rename_i f
    have hf := f.len_eq
    simp only [span_append, span_cons, span_nil]
    omega

theorem grants_joinRight (a z : ℕ) (ys : List Block) :
    grants len request 16 a (joinRight z ys) = grants len request 16 (a + (16 + z)) ys := by
  cases ys with
  | nil => exact grants_cons_none len request 16 rfl
  | cons b ys =>
    have hb := b.len_eq
    rw [joinRight]
    split
    case isTrue hf =>
      rw [grants_cons_none len request 16 rfl, grants_cons_none len request 16 (b.free_iff.mp hf),
        len_vacant]
      congr 1
      omega
    case isFalse hf => exact grants_cons_none len request 16 rfl

theorem JoinLeft.grants_eq {pre xs : List Block} {n z : ℕ} (h : JoinLeft pre n xs z) (a : ℕ) :
    grants len request 16 a xs = grants len request 16 a pre := by
  cases h with
  | alone h => rfl
  | joined h =>
    rename_i f
    rw [grants_append, grants_cons_none len request 16 (f.free_iff.mp h), grants_nil,
      List.append_nil]

theorem coalesced_joinRight {ys : List Block} (z : ℕ) (h : Coalesced free ys) :
    ∃ y zs, joinRight z ys = vacant y :: zs ∧ Coalesced free zs ∧
      ∀ b, zs.head? = some b → b.free = false := by
  cases ys with
  | nil => exact ⟨z, [], rfl, List.isChain_nil, by simp⟩
  | cons b ys =>
    have h' : Coalesced free ([] ++ b :: ys) := h
    obtain ⟨-, hys, -, hb⟩ := coalesced_append_cons.mp h'
    rw [joinRight]
    cases hf : b.free with
    | true =>
      refine ⟨_, ys, rfl, hys, ?_⟩
      intro c hc
      simpa [hf] using hb c hc
    | false =>
      refine ⟨z, b :: ys, rfl, h, ?_⟩
      rintro c ⟨⟩
      exact hf

theorem JoinLeft.coalesced {pre xs post : List Block} {b : Block} {n z : ℕ}
    (h : JoinLeft pre n xs z) (hc : Coalesced free (pre ++ b :: post)) :
    Coalesced free (xs ++ joinRight z post) := by
  obtain ⟨hpre, hpost, -, -⟩ := coalesced_append_cons.mp hc
  obtain ⟨y, zs, hy, hzs, hhead⟩ := coalesced_joinRight z hpost
  rw [hy]
  apply coalesced_append_cons.mpr
  cases h with
  | alone hl => exact ⟨hpre, hzs, fun l h => by simp [hl l h], fun c h => by simp [hhead c h]⟩
  | joined hf =>
    obtain ⟨hxs, -, hlast, -⟩ := coalesced_append_cons.mp hpre
    exact ⟨hxs, hzs, fun l h => by simpa [hf] using hlast l h, fun c h => by simp [hhead c h]⟩

theorem JoinLeft.topRoom {pre xs post : List Block} {b : Block} {z : ℕ}
    (h : JoinLeft pre b.size xs z) (ht : TopRoom (pre ++ b :: post)) :
    TopRoom (xs ++ joinRight z post) := by
  have hz : (pre = [] → xs = []) ∨ 1 ≤ z := by
    cases h with
    | alone h => exact Or.inl id
    | joined h => exact Or.inr (by omega)
  have hxs : post = [] → xs = [] ∨ 1 ≤ z := by
    rintro rfl
    rcases ht b (by rw [getLast?_append_cons]; rfl) with hle | hb
    · have hpre : pre = [] := by
        apply List.eq_nil_of_length_eq_zero
        rw [List.length_append, List.length_singleton] at hle
        omega
      exact hz.imp (fun hx => hx hpre) id
    · right
      cases h with
      | alone h => exact hb
      | joined h => omega
  cases post with
  | nil => exact topRoom_of_last ht (fun hn => absurd rfl hn) (fun _ => hxs rfl)
  | cons c post =>
    rw [joinRight]
    split
    · refine topRoom_of_last ht (fun hn => ?_) (fun _ => Or.inr (by simp only [vacant]; omega))
      cases post with
      | nil => exact absurd rfl hn
      | cons d post => rfl
    · exact topRoom_of_last ht (fun _ => rfl) (fun hn => absurd hn (List.cons_ne_nil c post))

/-! ### The whole call -/

theorem linkedBack {m : Memory} {tag : Option ℕ} {a : ℕ} {pre post : List Block} {b : Block}
    (hl : Linked m tag a (pre ++ b :: post) 0) (ha : 0 < a)
    (hend : a + span len (pre ++ b :: post) ≤ 2 ^ 64) :
    Linked (setNextPtr (relink m (lastFreeOf a pre 0) (a + span len pre)) (a + span len pre)
      (firstFreeOf (a + span len pre + b.len) post 0)) tag a (pre ++ vacant b.size :: post) 0 := by
  have hb := b.len_eq
  rw [span_append, span_cons] at hend
  obtain ⟨hpre, hs, -, hpost⟩ := (linked_append ..).mp hl
  have hnx := firstFreeOf_bounds (a + span len pre + b.len) post 0
  have hprev := lastFreeOf_bounds a pre 0
  have hpre' : Linked (relink m (lastFreeOf a pre 0) (a + span len pre)) tag a pre
      (a + span len pre) := hpre.relink ha (Or.inl rfl) (by omega)
  have hup (lo hi : ℕ) (h : a + span len pre ≤ lo) :=
    agreeOn_relink m (lastFreeOf a pre 0) (a + span len pre) lo hi (by omega)
  have hnext (lo hi : ℕ) (h : hi ≤ a + span len pre ∨ a + span len pre + 16 ≤ lo) :=
    agreeOn_setNextPtr (relink m (lastFreeOf a pre 0) (a + span len pre)) (a + span len pre)
      (firstFreeOf (a + span len pre + b.len) post 0) lo hi h
  have hat : a + span len pre + len (vacant b.size) = a + span len pre + b.len := by
    rw [len_vacant, hb]
  rw [linked_append, firstFreeOf, free_vacant, if_pos rfl]
  refine ⟨hpre'.congr (hnext _ _ (by omega)), ?_, ?_, ?_⟩
  · rw [getSize_setNextPtr, getSize_congr (hup _ _ le_rfl), hs]
    rfl
  · rw [free_vacant, if_pos rfl, hat]
    exact getNextPtr_setNextPtr (by omega) (by omega)
  · rw [hat]
    exact (hpost.congr (hup _ _ (by omega))).congr (hnext _ _ (by omega))

/-- No free block ends at the end of a part whose last block is occupied. -/
theorem lastFreeOf_far {m : Memory} {tag : Option ℕ} {a nf : ℕ} {pre : List Block}
    (hl : Linked m tag a pre nf) (ha : 0 < a) (hlast : ∀ l, pre.getLast? = some l → l.free = false) :
    lastFreeOf a pre 0 = 0 ∨
      lastFreeOf a pre 0 + 16 + getSize m (lastFreeOf a pre 0) < a + span len pre := by
  cases hl? : pre.getLast? with
  | none =>
    rw [List.getLast?_eq_none_iff.mp hl?]
    exact Or.inl rfl
  | some o =>
    obtain ⟨ys, rfl⟩ := List.getLast?_eq_some_iff.mp hl?
    have ho := o.len_eq
    rw [lastFreeOf_append_singleton, hlast o hl?, if_neg Bool.false_ne_true, span_append,
      span_cons, span_nil]
    by_cases h0 : lastFreeOf a ys 0 = 0
    · exact Or.inl h0
    · have hend := (lastFreeOf_header ((linked_append ..).mp hl).1 ha h0).2
      omega

theorem putBack_linked {m : Memory} {tag : Option ℕ} {a z : ℕ} {pre post xs : List Block}
    {b : Block} (hl : Linked m tag a (pre ++ b :: post) 0) (ha : 0 < a)
    (hend : a + span len (pre ++ b :: post) ≤ 2 ^ 64) (hj : JoinLeft pre b.size xs z) :
    Linked (putBack m (lastFreeOf a pre 0) (a + span len pre)
      (firstFreeOf (a + span len pre + b.len) post 0)) tag a (xs ++ joinRight z post) 0 := by
  have hb := b.len_eq
  have hlink := linkedBack hl ha hend
  rw [span_append, span_cons] at hend
  generalize hm₁ : setNextPtr (relink m (lastFreeOf a pre 0) (a + span len pre))
    (a + span len pre) (firstFreeOf (a + span len pre + b.len) post 0) = m₁ at hlink
  have hput (next : ℕ) (hnext : firstFreeOf (a + span len pre + b.len) post 0 = next) :
      putBack m (lastFreeOf a pre 0) (a + span len pre) next =
      (if (tryMerge m₁ (lastFreeOf a pre 0) (a + span len pre)).1 then
        (tryMerge (tryMerge m₁ (lastFreeOf a pre 0) (a + span len pre)).2
          (lastFreeOf a pre 0) next).2
      else (tryMerge (tryMerge m₁ (lastFreeOf a pre 0) (a + span len pre)).2
        (a + span len pre) next).2) := by
    rw [← hm₁, hnext]
    rfl
  rw [hput _ rfl]
  cases hj with
  | alone halone =>
    have hfar := lastFreeOf_far ((linked_append ..).mp hlink).1 ha halone
    rw [tryMerge_of_far (by omega), if_neg Bool.false_ne_true]
    exact tryMerge_right hlink ha (by rw [span_append, span_cons, len_vacant]; omega)
  | joined hfree =>
    rename_i f
    have hflen := f.len_eq
    rw [span_append, span_cons, span_nil] at hend
    have hlink' : Linked m₁ tag a (xs ++ f :: vacant b.size :: post) 0 := by
      simpa using hlink
    obtain ⟨m₂, hm₂, hl₂⟩ := tryMerge_adjacent hlink' hfree rfl ha
      (by simp only [span_append, span_cons, len_vacant]; omega)
    have hr : a + span len (xs ++ [f]) = a + span len xs + f.len := by
      rw [span_append, span_cons, span_nil]
      omega
    rw [lastFreeOf_append_singleton, hfree, if_pos rfl, hr, hm₂, if_pos rfl]
    have hz : a + span len xs + f.len + b.len =
        a + span len xs + (16 + (f.size + b.size + 16)) := by omega
    rw [hz]
    exact tryMerge_right hl₂ ha (by rw [span_append, span_cons, len_vacant]; omega)

theorem firstFreeOf_joinRight (x z : ℕ) (ys : List Block) (nf : ℕ) :
    firstFreeOf x (joinRight z ys) nf = x := by
  cases ys with
  | nil => rfl
  | cons b ys =>
    rw [joinRight]
    split <;> rfl

theorem JoinLeft.firstFreeOf_eq {pre xs : List Block} {n z : ℕ} (h : JoinLeft pre n xs z) (a : ℕ) :
    firstFreeOf a xs (a + span len xs) = firstFreeOf a pre (a + span len pre) := by
  cases h with
  | alone h => rfl
  | joined h => rw [firstFreeOf_append, firstFreeOf, h, if_pos rfl]

theorem deallocate_of {s : SortedList} {payload header prev next first : ℕ}
    (hheader : sizeSub payload 16 = header) (htag : getNextPtr s.memory header = s.trusted)
    (hprev : prevFreeFrom s header (turns s) (begin s) 0 = .ok prev)
    (hnext : (if prev ≠ 0 then getNextPtr s.memory prev else s.firstFree) = next)
    (hfirst : (if (prev = 0 ∧ s.firstFree > header) ∨ s.firstFree = 0 then header
      else s.firstFree) = first)
    (hreport : report { s with memory := putBack s.memory prev header next,
                               firstFree := first } = .ok ()) :
    s.deallocate payload =
      .ok { s with memory := putBack s.memory prev header next, firstFree := first } := by
  have hother : ¬ (getNextPtr s.memory header ≠ s.trusted ∧ s.logger = true) :=
    fun h => h.1 htag
  unfold deallocate
  rw [show sizeSub payload blockMetadataSize = header from hheader]
  dsimp only
  rw [if_neg hother, hprev]
  simp only [bind, Except.bind, hnext, hfirst, hreport]
  rfl

theorem Pool.header_eq {s : SortedList} {pre post : List Block} {b : Block}
    (h : Pool s (pre ++ b :: post)) :
    sizeSub (base s + span len pre + 16) blockMetadataSize = base s + span len pre := by
  have hbase := base_eq s
  have hb := b.len_eq
  have hbound := h.bounded
  have htiles := h.tiles
  rw [span_append, span_cons] at htiles
  show (base s + span len pre + 16 + (2 ^ 64 - 16 % 2 ^ 64)) % 2 ^ 64 = _
  omega

theorem Pool.prevFree_ok {s : SortedList} {pre post : List Block} {b : Block}
    (h : Pool s (pre ++ b :: post)) :
    prevFreeFrom s (base s + span len pre) (turns s) (begin s) 0 =
      .ok (lastFreeOf (base s) pre 0) := by
  have hbase := base_eq s
  have htiles := h.tiles
  have hlen := h.length_le
  have hpos := h.nonnull
  have hbegin : begin s = iterAt (base s) (pre ++ b :: post) := by
    rw [begin, h.first]
    cases pre <;> rfl
  rw [hbegin]
  exact prevFreeFrom_ok h.linked (by omega) (by omega) h.top
    (by rw [List.length_append, List.length_cons] at hlen; omega : pre.length + 1 ≤ turns s) 0

/-- The free block behind an occupied one, as `do_deallocate_sm` looks it up. -/
theorem Pool.nextFree_eq {s : SortedList} {pre post : List Block} {b : Block}
    (h : Pool s (pre ++ b :: post)) (hf : b.free = false) :
    (if lastFreeOf (base s) pre 0 ≠ 0 then getNextPtr s.memory (lastFreeOf (base s) pre 0)
      else s.firstFree) = firstFreeOf (base s + span len pre + b.len) post 0 := by
  have hpos : 0 < base s := Nat.add_pos_left h.nonnull _
  obtain ⟨hpre, -⟩ := (linked_append ..).mp h.linked
  have hafter : firstFreeOf (base s + span len pre) (b :: post) 0 =
      firstFreeOf (base s + span len pre + b.len) post 0 := by
    rw [firstFreeOf, hf, if_neg Bool.false_ne_true]
  split
  case isTrue hne => rw [(lastFreeOf_header hpre hpos hne).1, hafter]
  case isFalse he =>
    rw [h.first, firstFreeOf_append, hafter]
    exact firstFreeOf_eq_of_lastFreeOf hpos (not_not.mp he)

/-- Returning an occupied block frees it and merges it with the free blocks next to it. -/
theorem deallocate_spec {s : SortedList} {pre post : List Block} {b : Block}
    (h : Pool s (pre ++ b :: post)) (hf : b.free = false) :
    ∃ xs z s', JoinLeft pre b.size xs z ∧
      s.deallocate (base s + span len pre + 16) = .ok s' ∧
      s'.trusted = s.trusted ∧ s'.spaceSize = s.spaceSize ∧ Pool s' (xs ++ joinRight z post) := by
  have hbase := base_eq s
  have hpos := h.nonnull
  have hbound := h.bounded
  have htiles := h.tiles
  obtain ⟨xs, z, hj⟩ := joinLeft_exists pre b.size
  obtain ⟨hpre, -, htag, -⟩ := (linked_append ..).mp h.linked
  rw [hf, if_neg Bool.false_ne_true] at htag
  have hold : s.firstFree = firstFreeOf (base s) pre
      (firstFreeOf (base s + span len pre + b.len) post 0) := by
    rw [h.first, firstFreeOf_append, firstFreeOf, hf, if_neg Bool.false_ne_true]
  have hnx := firstFreeOf_bounds (base s + span len pre + b.len) post 0
  have hb := b.len_eq
  have hprev := h.prevFree_ok
  have hnext := h.nextFree_eq hf
  have hnew : firstFreeOf (base s) (xs ++ joinRight z post) 0 =
      firstFreeOf (base s) pre (base s + span len pre) := by
    rw [firstFreeOf_append, firstFreeOf_joinRight, hj.firstFreeOf_eq]
  have hfirst : (if (lastFreeOf (base s) pre 0 = 0 ∧ s.firstFree > base s + span len pre) ∨
      s.firstFree = 0 then base s + span len pre else s.firstFree) =
      firstFreeOf (base s) (xs ++ joinRight z post) 0 := by
    rw [hnew, hold]
    by_cases hl : lastFreeOf (base s) pre 0 = 0
    · have hno (nf : ℕ) : firstFreeOf (base s) pre nf = nf :=
        firstFreeOf_eq_of_lastFreeOf (by omega) hl
      rw [hno, hno, if_pos (by omega)]
    · have hbd := firstFreeOf_bounds (base s) pre (base s + span len pre)
      have hsame : firstFreeOf (base s) pre (firstFreeOf (base s + span len pre + b.len) post 0) =
          firstFreeOf (base s) pre (base s + span len pre) := firstFreeOf_eq_of_ne hl
      rw [hsame, if_neg (by omega)]
  have hspan : span len (xs ++ joinRight z post) = s.spaceSize + 16 := by
    have hjs := hj.span_eq
    rw [span_append, span_cons] at htiles
    rw [span_append, span_joinRight]
    omega
  have hlinked := putBack_linked h.linked (by omega) (by omega) hj
  have htop := hj.topRoom h.top
  have hshape : Shape (some s.trusted) { s with
      memory := putBack s.memory (lastFreeOf (base s) pre 0) (base s + span len pre)
        (firstFreeOf (base s + span len pre + b.len) post 0)
      firstFree := firstFreeOf (base s) (xs ++ joinRight z post) 0 } (xs ++ joinRight z post) :=
    ⟨hpos, hbound, hspan, rfl, hlinked, htop⟩
  have hok := deallocate_of h.header_eq (htag _ rfl) hprev hnext hfirst hshape.report
  exact ⟨xs, z, _, hj, hok, rfl, rfl, hshape, hj.coalesced h.coalesced⟩

end MaiFaSp.SortedList
