import MaiFaSp.Lib.Interleave

/-!
# The first key that a search does not skip

A search for a bound skips the keys of an ordered list that are too small. What it skips is a prefix, and the
entry behind it has the least of the other keys.
-/

namespace MaiFaSp

variable {κ υ : Type} {skip : κ → Bool} {es es' before after part : List (κ × υ)} {x y : κ × υ}

/-- How many keys the search skips. -/
def skipIndex (skip : κ → Bool) (keys : List κ) : ℕ := (keys.takeWhile skip).length

def firstKept (skip : κ → Bool) (es : List (κ × υ)) : Option (κ × υ) := es.find? fun e => !skip e.1

theorem skipIndex_le_length (skip : κ → Bool) (keys : List κ) : skipIndex skip keys ≤ keys.length :=
  (List.takeWhile_prefix skip).length_le

theorem skipIndex_le (skip : κ → Bool) (es : List (κ × υ)) : skipIndex skip (es.map Prod.fst) ≤ es.length := by
  have hle := skipIndex_le_length skip (es.map Prod.fst)
  rw [List.length_map] at hle
  exact hle

theorem skipIndex_cons (skip : κ → Bool) (k : κ) (keys : List κ) :
    skipIndex skip (k :: keys) = if skip k then skipIndex skip keys + 1 else 0 := by
  unfold skipIndex
  rw [List.takeWhile_cons]
  split
  · rfl
  · rfl

theorem skipped_of_mem_take {keys : List κ} {k : κ} (h : k ∈ keys.take (skipIndex skip keys)) : skip k = true := by
  unfold skipIndex at h
  rw [← List.prefix_iff_eq_take.mp (List.takeWhile_prefix skip)] at h
  exact List.all_eq_true.mp List.all_takeWhile k h

theorem skip_of_mem_take (h : x ∈ es.take (skipIndex skip (es.map Prod.fst))) : skip x.1 = true := by
  have hk : x.1 ∈ (es.map Prod.fst).take (skipIndex skip (es.map Prod.fst)) := by
    rw [← List.map_take]
    exact List.mem_map_of_mem h
  exact skipped_of_mem_take hk

/-- The key that the search stops at is kept. -/
theorem kept_of_getElem? {keys : List κ} {k : κ} (h : keys[skipIndex skip keys]? = some k) : skip k = false := by
  induction keys with
  | nil => cases h
  | cons k' keys ih =>
    rw [skipIndex_cons] at h
    split at h
    · exact ih h
    case isFalse hk =>
      cases h
      exact Bool.eq_false_iff.mpr hk

theorem firstKept_eq_getElem? (skip : κ → Bool) (es : List (κ × υ)) :
    firstKept skip es = es[skipIndex skip (es.map Prod.fst)]? := by
  unfold firstKept
  induction es with
  | nil => rfl
  | cons e es ih =>
    rw [List.map_cons, skipIndex_cons, List.find?_cons]
    cases he : skip e.1 with
    | true => exact ih
    | false => rfl

theorem firstKept_eq_none : firstKept skip es = none ↔ ∀ y ∈ es, skip y.1 = true := by
  simp [firstKept, List.find?_eq_none]

theorem firstKept_append : firstKept skip (es ++ es') = (firstKept skip es).or (firstKept skip es') :=
  List.find?_append

theorem firstKept_of_skipped (h : ∀ y ∈ before, skip y.1 = true) :
    firstKept skip (before ++ es) = firstKept skip es := by
  rw [firstKept_append, firstKept_eq_none.mpr h, Option.none_or]

theorem firstKept_of_kept (h : ∀ y ∈ es, skip y.1 = false) : firstKept skip es = es.head? := by
  cases es with
  | nil => rfl
  | cons e es =>
    unfold firstKept
    rw [List.find?_cons, h e (List.mem_cons_self ..)]
    rfl

theorem firstKept_spec (h : firstKept skip es = some x) : x ∈ es ∧ skip x.1 = false := by
  refine ⟨List.mem_of_find?_eq_some h, ?_⟩
  have hx := List.find?_some h
  simpa using hx

theorem skipIndex_eq_length (h : ∀ y ∈ es, skip y.1 = true) : skipIndex skip (es.map Prod.fst) = es.length := by
  induction es with
  | nil => rfl
  | cons e es ih =>
    rw [List.map_cons, skipIndex_cons, if_pos (h e (List.mem_cons_self ..)), List.length_cons,
      ih fun y hy => h y (List.mem_cons_of_mem _ hy)]

/-- The first key behind the part with the index `i`. -/
theorem head?_interleaveAfter {parts : List (List (κ × υ))} {seps : List (κ × υ)} {i : ℕ}
    (h : parts.length = seps.length + 1) : (interleaveAfter (seps.drop i) (parts.drop (i + 1))).head? = seps[i]? := by
  by_cases hi : i < seps.length
  · rw [List.drop_eq_getElem_cons hi, List.drop_eq_getElem_cons (show i + 1 < parts.length by omega), interleaveAfter_cons,
      List.getElem?_eq_getElem hi]
    rfl
  · rw [List.drop_eq_nil_of_le (not_lt.mp hi), List.getElem?_eq_none (not_lt.mp hi)]
    rfl

section Order

variable [LinearOrder κ]

/-- Of the keys that are not skipped it has the least. -/
def LeastKept (skip : κ → Bool) (es : List (κ × υ)) (x : κ × υ) : Prop :=
  x ∈ es ∧ skip x.1 = false ∧ ∀ y ∈ es, skip y.1 = false → x.1 ≤ y.1

theorem firstKept_eq_some (hs : Sorted es) : firstKept skip es = some x ↔ LeastKept skip es x := by
  have hleast {z : κ × υ} (hz : firstKept skip es = some z) : LeastKept skip es z := by
    obtain ⟨l, r, hes, hl⟩ := (List.find?_eq_some_iff_append.mp hz).2
    obtain ⟨hmem, hkept⟩ := firstKept_spec hz
    refine ⟨hmem, hkept, fun y hy hyk => ?_⟩
    rw [hes] at hs hy
    rcases List.mem_append.mp hy with hy | hy
    · have hskip := hl y hy
      simp [hyk] at hskip
    · rcases List.mem_cons.mp hy with rfl | hy
      · exact le_rfl
      · exact ((sorted_cons.mp (sorted_append.mp hs).2.1).1 y hy).le
  refine ⟨hleast, fun hx => ?_⟩
  cases hz : firstKept skip es with
  | none => exact absurd (firstKept_eq_none.mp hz x hx.1) (by rw [hx.2.1]; exact Bool.false_ne_true)
  | some z =>
    obtain ⟨hzmem, hzkept, hzleast⟩ := hleast hz
    have hkey : z.1 = x.1 := le_antisymm (hzleast x hx.1 hx.2.1) (hx.2.2 z hzmem hzkept)
    rw [hs.eq_of_mem hzmem hx.1 hkey]

/-- With a key the search skips all smaller ones. -/
def SkipsDown (skip : κ → Bool) : Prop := ∀ a b, a ≤ b → skip b = true → skip a = true

/-- The search for a bound of the key skips the smaller keys and keeps the greater ones. -/
structure Bounds (skip : κ → Bool) (key : κ) : Prop where
  smaller : ∀ k, k < key → skip k = true
  greater : ∀ k, key < k → skip k = false

theorem bounds_lt (key : κ) : Bounds (fun k => decide (k < key)) key :=
  ⟨fun _ hk => decide_eq_true hk, fun _ hk => decide_eq_false hk.not_gt⟩

theorem bounds_le (key : κ) : Bounds (fun k => !decide (key < k)) key := by
  refine ⟨fun k hk => ?_, fun k hk => ?_⟩
  · simp [hk.le]
  · simp [hk]

theorem Bounds.le_of_skip {key k : κ} (h : Bounds skip key) (hk : skip k = true) : k ≤ key := by
  by_contra hlt
  rw [h.greater k (not_le.mp hlt)] at hk
  cases hk

theorem Bounds.le_of_kept {key k : κ} (h : Bounds skip key) (hk : skip k = false) : key ≤ k := by
  by_contra hlt
  rw [h.smaller k (not_le.mp hlt)] at hk
  cases hk

theorem Bounds.skipsDown {key : κ} (h : Bounds skip key) : SkipsDown skip := by
  intro a b hab hb
  rcases hab.lt_or_eq with hlt | rfl
  · exact h.smaller a (hlt.trans_le (h.le_of_skip hb))
  · exact hb

theorem skipsDown_lt (key : κ) : SkipsDown fun k => decide (k < key) := (bounds_lt key).skipsDown

theorem skipsDown_le (key : κ) : SkipsDown fun k => !decide (key < k) := (bounds_le key).skipsDown

theorem skipped_interleaveBefore (hskip : SkipsDown skip) {ps : List (List (κ × υ))} {ks : List (κ × υ)}
    (hs : Sorted (interleaveBefore ps ks)) (hk : ∀ k ∈ ks, skip k.1 = true) :
    ∀ x ∈ interleaveBefore ps ks, skip x.1 = true := by
  induction ps generalizing ks with
  | nil =>
    intro x hx
    cases hx
  | cons p ps ih =>
    cases ks with
    | nil =>
      intro x hx
      cases hx
    | cons k ks =>
      intro x hx
      have heq : interleaveBefore (p :: ps) (k :: ks) = p ++ [k] ++ interleaveBefore ps ks := rfl
      rw [heq] at hs hx
      obtain ⟨hfirst, hrest, -⟩ := sorted_append.mp hs
      rcases List.mem_append.mp hx with hx | hx
      · rcases List.mem_append.mp hx with hx | hx
        · have hlt := (sorted_append.mp hfirst).2.2 x hx k (List.mem_singleton_self k)
          exact hskip _ _ hlt.le (hk k List.mem_cons_self)
        · rw [List.mem_singleton.mp hx]
          exact hk k List.mem_cons_self
      · exact ih hrest (fun k' hk' => hk k' (List.mem_cons_of_mem k hk')) x hx

/-- Behind a key that is kept all are. -/
theorem kept_of_head (hskip : SkipsDown skip) (hs : Sorted es) (hk : ∀ k ∈ es.head?, skip k.1 = false) :
    ∀ x ∈ es, skip x.1 = false := by
  cases es with
  | nil =>
    intro x hx
    cases hx
  | cons e es =>
    intro x hx
    have he : skip e.1 = false := hk e rfl
    rcases List.mem_cons.mp hx with rfl | hx
    · exact he
    · cases hskipx : skip x.1 with
      | false => rfl
      | true =>
        rw [hskip _ _ ((sorted_cons.mp hs).1 x hx).le hskipx] at he
        cases he

/-- Around the part that the search enters. -/
theorem skip_bounds (hskip : SkipsDown skip) {parts : List (List (κ × υ))} {seps : List (κ × υ)}
    (h : parts.length = seps.length + 1) (hs : Sorted (interleave parts seps)) {i : ℕ}
    (hi : i = skipIndex skip (seps.map Prod.fst)) :
    (∀ x ∈ interleaveBefore (parts.take i) (seps.take i), skip x.1 = true) ∧
      ∀ x ∈ interleaveAfter (seps.drop i) (parts.drop (i + 1)), skip x.1 = false := by
  have hle := skipIndex_le skip seps
  rw [interleave_at (i := i) h (by omega)] at hs
  obtain ⟨hbp, hafter, -⟩ := sorted_append.mp hs
  constructor
  · refine skipped_interleaveBefore hskip (sorted_append.mp hbp).1 fun k hk => ?_
    rw [hi] at hk
    exact skip_of_mem_take hk
  · refine kept_of_head hskip hafter fun k hk => ?_
    rw [head?_interleaveAfter h, hi, ← firstKept_eq_getElem?] at hk
    exact (firstKept_spec hk).2

/-- An entry of the part that the search enters is no separator, if the search keeps it. -/
theorem kept_ne_separator {parts : List (List (κ × υ))} {seps : List (κ × υ)} {i : ℕ}
    {x : κ × υ} (hlen : parts.length = seps.length + 1) (hs : Sorted (interleave parts seps))
    (hindex : i = skipIndex skip (seps.map Prod.fst)) (hi : i < parts.length) (hx : x ∈ parts[i])
    (hkept : skip x.1 = false) : x ∉ seps := by
  intro hmem
  rw [← List.take_append_drop i seps] at hmem
  rcases List.mem_append.mp hmem with hm | hm
  · rw [hindex] at hm
    rw [skip_of_mem_take hm] at hkept
    cases hkept
  · have hseps := sorted_separators hlen hs
    rw [interleave_at hlen hi] at hs
    have hlt := (sorted_append.mp hs).2.2 x (List.mem_append_right _ hx)
    cases hd : seps.drop i with
    | nil =>
      rw [hd] at hm
      cases hm
    | cons s rest =>
      have hhead : (interleaveAfter (seps.drop i) (parts.drop (i + 1))).head? = some s := by
        rw [head?_interleaveAfter hlen, ← List.head?_drop, hd]
        rfl
      have hxs := hlt s (List.mem_of_head? hhead)
      rw [hd] at hm
      rcases List.mem_cons.mp hm with rfl | hm
      · exact lt_irrefl _ hxs
      · have hsorted : Sorted (s :: rest) := hd ▸ hseps.sublist (List.drop_sublist i seps)
        exact lt_asymm hxs ((sorted_cons.mp hsorted).1 x hm)

end Order

end MaiFaSp
