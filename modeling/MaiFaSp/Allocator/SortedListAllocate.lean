import MaiFaSp.Allocator.SortedListLoops

/-!
# `allocator_sorted_list`: `do_allocate_sm` on a linked pool (`allocator_sorted_list.cpp:129-205`)

The chosen free block is carved into the granted block and, where more than a
header is left, a new free block. The links before it are rewritten, and the
granted block gets its tag only after the logger has walked the pool.
-/

namespace MaiFaSp.SortedList

open Memory Tiling Block

def base (s : SortedList) : ℕ := s.trusted + allocatorMetadataSize

theorem base_eq (s : SortedList) : base s = s.trusted + 76 := rfl

/-- The bytes of the pool are the blocks `bs`, from its start to its end. -/
structure Shape (tag : Option ℕ) (s : SortedList) (bs : List Block) : Prop where
  nonnull : 0 < s.trusted
  bounded : s.trusted + s.spaceSize + 92 ≤ 2 ^ 64
  tiles : span len bs = s.spaceSize + 16
  first : s.firstFree = firstFreeOf (base s) bs 0
  linked : Linked s.memory tag (base s) bs 0
  top : TopRoom bs

/-- What holds of the pool between two calls. -/
structure Pool (s : SortedList) (bs : List Block) : Prop extends
    Shape (some s.trusted) s bs where
  coalesced : Coalesced free bs

theorem Shape.length_le {tag : Option ℕ} {s : SortedList} {bs : List Block}
    (h : Shape tag s bs) : bs.length ≤ turns s := by
  have hl := length_le_span bs
  rw [h.tiles] at hl
  unfold turns
  omega

theorem Shape.nonempty {tag : Option ℕ} {s : SortedList} {bs : List Block}
    (h : Shape tag s bs) : bs ≠ [] := by
  intro hb
  have ht := h.tiles
  rw [hb, span_nil] at ht
  omega

theorem Shape.getBlocksInfo {tag : Option ℕ} {s : SortedList} {bs : List Block}
    (h : Shape tag s bs) : s.getBlocksInfo = .ok (bs.map (fun b => (b.size, !b.free))) := by
  have hit : begin s = iterAt (base s) bs := by
    cases bs with
    | nil => exact absurd rfl h.nonempty
    | cons b bs =>
      rw [begin, h.first]
      rfl
  have hb := h.tiles
  rw [SortedList.getBlocksInfo, hit]
  apply blocksFrom_ok h.linked _ _ h.top h.length_le
  · rw [base_eq]
    omega
  · rw [base_eq]
    omega

theorem Shape.freeBlocks {tag : Option ℕ} {s : SortedList} {bs : List Block}
    (h : Shape tag s bs) : s.freeBlocks = .ok (freeAddresses (base s) bs) := by
  rw [SortedList.freeBlocks, h.first]
  apply freeBlocksFrom_ok h.linked _ h.length_le
  rw [base_eq]
  omega

theorem Shape.report {tag : Option ℕ} {s : SortedList} {bs : List Block}
    (h : Shape tag s bs) : s.report = .ok () := by
  unfold SortedList.report
  split
  · rw [getFreeMemoryCount, h.freeBlocks, h.getBlocksInfo]
    rfl
  · rfl

/-! ### Carving a block -/

/-- What a free block becomes when `size` bytes of it are granted. -/
def carve (b : Block) (size : ℕ) (h : size ≤ b.size) : List Block :=
  if b.size - size ≥ 17 then [held size size le_rfl, vacant (b.size - size - 16)]
  else [held b.size size h]

theorem carve_span {b : Block} {size : ℕ} (h : size + 16 ≤ b.size) :
    span len (carve b size (by omega)) = b.len := by
  have hb := b.len_eq
  unfold carve
  split
  · simp only [span_cons, span_nil, len_held, len_vacant]
    omega
  · simp only [span_cons, span_nil, len_held]
    omega

theorem grants_carve {b : Block} {size a : ℕ} {post : List Block} (h : size + 16 ≤ b.size) :
    grants len request 16 a (carve b size (by omega) ++ post) =
      (a + 16, size) :: grants len request 16 (a + b.len) post := by
  have hs := carve_span h
  have hc : grants len request 16 a (carve b size (by omega)) = [(a + 16, size)] := by
    unfold carve
    split
    · rw [grants_cons_some len request 16 rfl, grants_cons_none len request 16 rfl, grants_nil]
    · rw [grants_cons_some len request 16 rfl, grants_nil]
  rw [grants_append, hc, hs]
  rfl

theorem coalesced_carve {pre post : List Block} {b : Block} {size : ℕ}
    (h : Coalesced free (pre ++ b :: post)) (hf : b.free = true) (hs : size ≤ b.size) :
    Coalesced free (pre ++ (carve b size hs ++ post)) := by
  obtain ⟨hpre, hpost, hleft, hright⟩ := coalesced_append_cons.mp h
  rw [hf] at hright
  unfold carve
  split
  · apply coalesced_append_cons.mpr
    refine ⟨hpre, ?_, by simp, by simp⟩
    exact coalesced_append_cons.mpr ⟨List.isChain_nil, hpost, by simp, by simpa using hright⟩
  · exact coalesced_append_cons.mpr ⟨hpre, hpost, by simp, by simp⟩

theorem topRoom_of_last {pre post xs zs : List Block} {b c : Block}
    (h : TopRoom (pre ++ b :: post)) (hz : zs ≠ [] → zs.getLast? = post.getLast?)
    (hc : zs = [] → xs = [] ∨ 1 ≤ c.size) : TopRoom (xs ++ c :: zs) := by
  intro d hd
  rw [getLast?_append_cons] at hd
  cases hl : zs.getLast? with
  | none =>
    have hnil := List.getLast?_eq_none_iff.mp hl
    rw [hl] at hd
    cases hd
    exact (hc hnil).imp (fun hx => by simp [hx, hnil]) id
  | some e =>
    have hne : zs ≠ [] := by
      intro hn
      rw [hn] at hl
      cases hl
    rw [hz hne] at hl
    rw [hz hne, hl] at hd
    cases hd
    have hpost : 0 < post.length := by
      apply List.length_pos_of_ne_nil
      intro hn
      rw [hn] at hl
      cases hl
    rcases h e (by rw [getLast?_append_cons, hl]; rfl) with hle | he
    · rw [List.length_append, List.length_cons] at hle
      omega
    · exact Or.inr he

theorem topRoom_carve {pre post : List Block} {b : Block} {size : ℕ}
    (h : TopRoom (pre ++ b :: post)) (hs : size + 16 ≤ b.size) :
    TopRoom (pre ++ (carve b size (by omega) ++ post)) := by
  unfold carve
  split
  case isTrue hrem =>
    have hcat (x y : Block) : pre ++ ([x, y] ++ post) = (pre ++ [x]) ++ y :: post := by simp
    rw [hcat]
    exact topRoom_of_last h (fun _ => rfl) (fun _ => Or.inr (by simp only [vacant]; omega))
  case isFalse hrem =>
    exact topRoom_of_last h (fun _ => rfl) (fun _ => Or.inr (by simp only [held]; omega))

/-! ### The headers that are written -/

theorem splitBlock_of_ge {m : Memory} {r size remaining : ℕ} (h : remaining ≥ 17)
    (hend : r + 16 + size < 2 ^ 64) :
    splitBlock m r size remaining =
      (setSize (setNextPtr (setSize m (r + 16 + size) (sizeSub remaining 16)) (r + 16 + size)
        (getNextPtr m r)) r size, r + 16 + size) := by
  have hnew : sizeAdd (r + blockMetadataSize) size = r + 16 + size := sizeAdd_of_lt hend
  unfold splitBlock
  rw [if_pos (show remaining ≥ blockMetadataSize + 1 from h), hnew]
  rfl

theorem splitBlock_of_not_ge {m : Memory} {r size remaining : ℕ} (h : ¬ remaining ≥ 17) :
    splitBlock m r size remaining = (m, 0) := if_neg h

theorem splitBlock_spec {m : Memory} {tag : Option ℕ} {r size : ℕ} {b : Block}
    {post : List Block} (hl : Linked m tag r (b :: post) 0) (hf : b.free = true) (hr : 0 < r)
    (hsize : size + 16 ≤ b.size) (hend : r + span len (b :: post) ≤ 2 ^ 64) :
    ∃ h rest, carve b size (by omega) = h :: rest ∧ h.free = false ∧
      getSize (splitBlock m r size (sizeSub b.size size)).1 r = h.size ∧
      Linked (splitBlock m r size (sizeSub b.size size)).1 tag (r + h.len) (rest ++ post) 0 ∧
      (∀ m', AgreeOn m' (splitBlock m r size (sizeSub b.size size)).1 r (r + 16) →
        (if (splitBlock m r size (sizeSub b.size size)).2 ≠ 0 then
          (splitBlock m r size (sizeSub b.size size)).2 else getNextPtr m' r) =
            firstFreeOf (r + h.len) (rest ++ post) 0) ∧
      ∀ lo hi, hi ≤ r ∨ r + b.len ≤ lo →
        AgreeOn (splitBlock m r size (sizeSub b.size size)).1 m lo hi := by
  have hb := b.len_eq
  rw [span_cons] at hend
  obtain ⟨hs, hn, hpost⟩ := hl
  rw [hf, if_pos rfl] at hn
  have hnx := firstFreeOf_bounds (r + b.len) post 0
  rw [sizeSub_of_le (by omega) (by omega)]
  by_cases hrem : b.size - size ≥ 17
  · have hcarve : carve b size (by omega) =
        [held size size le_rfl, vacant (b.size - size - 16)] := if_pos hrem
    rw [hcarve, splitBlock_of_ge hrem (by omega), sizeSub_of_le (by omega) (by omega)]
    dsimp only
    generalize hnb : r + 16 + size = nb
    refine ⟨held size size le_rfl, [vacant (b.size - size - 16)], rfl, rfl, ?_, ⟨?_, ?_, ?_⟩,
      ?_, ?_⟩
    · exact getSize_setSize (by omega)
    · rw [len_held, ← Nat.add_assoc, hnb,
        getSize_congr (agreeOn_setSize _ r size nb (nb + 16) (by omega)), getSize_setNextPtr,
        getSize_setSize (by omega)]
      rfl
    · have hlen : r + len (held size size le_rfl) = nb := by rw [len_held, ← hnb]; omega
      rw [hlen, free_vacant, if_pos rfl,
        getNextPtr_congr (agreeOn_setSize _ r size nb (nb + 16) (by omega)),
        getNextPtr_setNextPtr (by omega) (by omega), hn]
      have hat : nb + len (vacant (b.size - size - 16)) = r + b.len := by
        rw [len_vacant, hb]
        omega
      rw [hat]
      rfl
    · have hat : r + len (held size size le_rfl) + len (vacant (b.size - size - 16)) =
          r + b.len := by
        rw [len_held, len_vacant]
        omega
      rw [hat]
      apply hpost.congr
      refine (agreeOn_setSize _ r size _ _ (by omega)).trans ?_
      refine (agreeOn_setNextPtr _ nb _ _ _ (by omega)).trans ?_
      exact agreeOn_setSize _ nb _ _ _ (by omega)
    · intro m' _
      rw [if_pos (by omega), List.singleton_append, firstFreeOf, free_vacant, if_pos rfl, len_held]
      omega
    · intro lo hi hd
      refine (agreeOn_setSize _ r size _ _ (by omega)).trans ?_
      refine (agreeOn_setNextPtr _ nb _ _ _ (by omega)).trans ?_
      exact agreeOn_setSize _ nb _ _ _ (by omega)
  · have hcarve : carve b size (by omega) = [held b.size size (by omega)] := if_neg hrem
    rw [hcarve, splitBlock_of_not_ge hrem]
    refine ⟨held b.size size (by omega), [], rfl, rfl, hs, hpost, ?_, fun _ _ _ _ _ _ => rfl⟩
    intro m' hm'
    rw [if_neg (by simp), getNextPtr_congr hm', hn]
    rfl

/-! ### The whole call -/

/-- The link that replaces the one to the chosen block. -/
def target (m : Memory) (newBlock result : ℕ) : ℕ :=
  if newBlock ≠ 0 then newBlock else getNextPtr m result

theorem allocate_of_choice {s : SortedList} {size first : ℕ} {c : Choice} {m₁ m₂ : Memory}
    {nb : ℕ}
    (hc : fitLoop s.memory s.fitMode size (turns s) s.firstFree 0 noChoice = .ok c)
    (hne : c.result ≠ 0)
    (hsplit : splitBlock s.memory c.result size (sizeSub c.bestSize size) = (m₁, nb))
    (hm : relink m₁ c.prevFree (target m₁ nb c.result) = m₂)
    (hfirst : (if s.firstFree = c.result then target m₂ nb c.result else s.firstFree) = first)
    (hreport : report { s with memory := m₂, firstFree := first } = .ok ()) :
    s.allocate size = .ok (c.result + 16,
      { s with memory := setNextPtr m₂ c.result s.trusted, firstFree := first }) := by
  have hm' : (if c.prevFree ≠ 0 then
      setNextPtr m₁ c.prevFree (if nb ≠ 0 then nb else getNextPtr m₁ c.result) else m₁) = m₂ := hm
  have hfirst' : (if s.firstFree = c.result then
      (if nb ≠ 0 then nb else getNextPtr m₂ c.result) else s.firstFree) = first := hfirst
  rw [allocate, hc]
  simp only [bind, Except.bind, if_neg hne, hsplit, hm', hfirst', hreport]
  rfl

/-- The pool after the block `b` was carved and the links to it rewritten, before
the granted block has its tag. -/
theorem carved_linked {m : Memory} {tag a size : ℕ} {pre post : List Block} {b : Block}
    (hl : Linked m (some tag) a (pre ++ b :: post) 0) (hf : b.free = true) (ha : 0 < a)
    (hfit : size + 16 ≤ b.size) (hend : a + span len (pre ++ b :: post) ≤ 2 ^ 64)
    (ht : tag < 2 ^ 64) :
    ∃ m₁ nb m₂, splitBlock m (a + span len pre) size (sizeSub b.size size) = (m₁, nb) ∧
      relink m₁ (lastFreeOf a pre 0) (target m₁ nb (a + span len pre)) = m₂ ∧
      target m₂ nb (a + span len pre) =
        firstFreeOf (a + span len pre) (carve b size (by omega) ++ post) 0 ∧
      Linked m₂ none a (pre ++ (carve b size (by omega) ++ post)) 0 ∧
      Linked (setNextPtr m₂ (a + span len pre) tag) (some tag) a
        (pre ++ (carve b size (by omega) ++ post)) 0 := by
  have hb := b.len_eq
  rw [span_append, span_cons] at hend
  obtain ⟨hpre, hblock⟩ := (linked_append ..).mp hl
  generalize hr : a + span len pre = r at hpre hblock ⊢
  obtain ⟨hd, rest, hcarve, hheld, hsz, hrest, htarget, hframe⟩ :=
    splitBlock_spec hblock hf (by omega) hfit (by rw [span_cons]; omega)
  have hspan := carve_span hfit
  have hfree (x : ℕ) : firstFreeOf r (carve b size (by omega) ++ post) x =
      firstFreeOf (r + hd.len) (rest ++ post) x := by
    rw [hcarve, List.cons_append, firstFreeOf, hheld, if_neg Bool.false_ne_true]
  rw [hcarve, span_cons] at hspan
  generalize splitBlock m r size (sizeSub b.size size) = p at hsz hrest htarget hframe ⊢
  obtain ⟨m₁, nb⟩ := p
  dsimp only at hsz hrest htarget hframe
  have hprev := lastFreeOf_bounds a pre 0
  have hnew := firstFreeOf_bounds (r + hd.len) (rest ++ post) 0
  rw [span_append] at hnew
  have ht₁ : target m₁ nb r = firstFreeOf (r + hd.len) (rest ++ post) 0 :=
    htarget m₁ (fun _ _ _ => rfl)
  have hpre₂ : Linked (relink m₁ (lastFreeOf a pre 0) (target m₁ nb r)) (some tag) a pre
      (firstFreeOf (r + hd.len) (rest ++ post) 0) := by
    rw [ht₁]
    exact (hpre.congr (hframe _ _ (by omega))).relink (by omega) (Or.inl rfl) (by omega)
  have hafter (lo hi : ℕ) (hlo : r ≤ lo) :
      AgreeOn (relink m₁ (lastFreeOf a pre 0) (target m₁ nb r)) m₁ lo hi :=
    agreeOn_relink m₁ _ _ lo hi (by omega)
  refine ⟨m₁, nb, _, rfl, rfl, ?_, ?_⟩
  · rw [hfree]
    exact htarget _ (hafter r (r + 16) le_rfl)
  have hsz₂ := (getSize_congr (hafter r (r + 16) le_rfl)).trans hsz
  have hrest₂ := hrest.congr (hafter (r + hd.len) _ (by omega))
  generalize relink m₁ (lastFreeOf a pre 0) (target m₁ nb r) = m₂ at hpre₂ hsz₂ hrest₂ ⊢
  rw [hcarve, List.cons_append]
  have hnone := hpre₂.forgetTag
  constructor
  · rw [linked_append, hr, firstFreeOf, hheld, if_neg Bool.false_ne_true]
    refine ⟨hnone, hsz₂, ?_, hrest₂.forgetTag⟩
    rw [hheld, if_neg Bool.false_ne_true]
    intro t ht
    cases ht
  · have hlow := agreeOn_setNextPtr m₂ r tag a (a + span len pre) (by omega)
    have hhigh (hi : ℕ) := agreeOn_setNextPtr m₂ r tag (r + hd.len) hi (by rw [hd.len_eq]; omega)
    rw [linked_append, hr, firstFreeOf, hheld, if_neg Bool.false_ne_true]
    refine ⟨hpre₂.congr hlow, (getSize_setNextPtr m₂ r tag).trans hsz₂, ?_,
      hrest₂.congr (hhigh _)⟩
    rw [hheld, if_neg Bool.false_ne_true]
    rintro t ⟨⟩
    exact getNextPtr_setNextPtr (by omega) ht

theorem allocate_spec {s : SortedList} {bs : List Block} {size : ℕ} (h : Pool s bs)
    (hsize : size + 16 < 2 ^ 64) :
    s.allocate size = .error .badAlloc ∨
      ∃ pre b post s', ∃ hfit : size + 16 ≤ b.size, bs = pre ++ b :: post ∧ b.free = true ∧
        s.allocate size = .ok (base s + span len pre + 16, s') ∧
        s'.trusted = s.trusted ∧ s'.spaceSize = s.spaceSize ∧
        Pool s' (pre ++ (carve b size (by omega) ++ post)) := by
  have hbase := base_eq s
  have hpos := h.nonnull
  have hbound := h.bounded
  obtain ⟨c, hc, hchosen⟩ := fitLoop_spec s.fitMode size h.linked (by omega)
    h.length_le 0 noChoice
  rw [← h.first] at hc
  rcases hchosen with rfl | ⟨pre, b, post, rfl, hf, hfit, rfl⟩
  · left
    rw [allocate, hc]
    rfl
  right
  have hadd : sizeAdd size blockMetadataSize = size + 16 := sizeAdd_of_lt hsize
  rw [hadd] at hfit
  have htiles := h.tiles
  obtain ⟨m₁, nb, m₂, hsplit, hm, htgt, hl₂, hl₃⟩ :=
    carved_linked h.linked hf (by omega) hfit (by omega) (by omega)
  have hspan : span len (pre ++ (carve b size (by omega) ++ post)) = s.spaceSize + 16 := by
    rw [span_append, span_append, carve_span hfit, ← htiles, span_append, span_cons]
  have hfirst : (if s.firstFree = base s + span len pre then target m₂ nb (base s + span len pre)
      else s.firstFree) =
      firstFreeOf (base s) (pre ++ (carve b size (by omega) ++ post)) 0 := by
    have hold : s.firstFree = firstFreeOf (base s) pre (base s + span len pre) := by
      rw [h.first, firstFreeOf_append, firstFreeOf, hf, if_pos rfl]
    rw [htgt, hold, firstFreeOf_append (base s) pre]
    rcases firstFreeOf_cases (base s) pre with hno | ⟨x, -, hx, hx'⟩
    · rw [hno, hno, if_pos rfl]
    · rw [hx', hx', if_neg (by omega)]
  refine ⟨pre, b, post, _, hfit, rfl, hf,
    allocate_of_choice hc (by dsimp only; omega) hsplit hm hfirst ?_, rfl, rfl,
    ⟨hpos, hbound, hspan, rfl, hl₃, topRoom_carve h.top hfit⟩, coalesced_carve h.coalesced hf _⟩
  exact Shape.report ⟨hpos, hbound, hspan, rfl, hl₂, topRoom_carve h.top hfit⟩

end MaiFaSp.SortedList
