import MaiFaSp.Lib.Interleave

/-!
# Parts with copies of their first keys between them

Sorted parts one after the other, where the separator between two parts is a copy of
the first key of the right one, and the search for the part of a key.
-/

namespace MaiFaSp.CopiedSeparators

open BoundedVector

variable {κ υ : Type}

/-- The key of the part's first entry. -/
def Leads (key : κ) (part : List (κ × υ)) : Prop := part.head?.map Prod.fst = some key

/-- The separator with index `i` is the first key of the part `i + 1`. -/
def Separates : List κ → List (List (κ × υ)) → Prop
  | _, [] => False
  | keys, _ :: parts => List.Forall₂ Leads keys parts

variable {key k : κ} {keys kb ka : List κ} {part part' : List (κ × υ)}
  {parts before after : List (List (κ × υ))} {x : κ × υ}

theorem leads_iff : Leads key part ↔ ∃ x rest, part = x :: rest ∧ x.1 = key := by
  unfold Leads
  cases part with
  | nil =>
    constructor
    · intro h
      cases h
    · rintro ⟨x, rest, h, -⟩
      cases h
  | cons x rest =>
    constructor
    · intro h
      exact ⟨x, rest, rfl, Option.some.inj h⟩
    · rintro ⟨y, rest', h, rfl⟩
      cases h
      rfl

theorem Leads.append {es : List (κ × υ)} (h : Leads k part) : Leads k (part ++ es) := by
  obtain ⟨y, rest, rfl, rfl⟩ := leads_iff.mp h
  exact leads_iff.mpr ⟨y, rest ++ es, rfl, rfl⟩

theorem Leads.take {n : ℕ} (h : Leads k part) (hn : 0 < n) : Leads k (part.take n) := by
  obtain ⟨y, rest, rfl, rfl⟩ := leads_iff.mp h
  obtain ⟨n, rfl⟩ := Nat.exists_eq_succ_of_ne_zero hn.ne'
  exact leads_iff.mpr ⟨y, rest.take n, rfl, rfl⟩

theorem Separates.length_eq (h : Separates keys parts) : parts.length = keys.length + 1 := by
  cases parts with
  | nil => cases h
  | cons part parts => rw [List.length_cons, List.Forall₂.length_eq h]

/-- The separators left and right of a part. -/
theorem separates_append : Separates keys (before ++ part :: after) ↔
    ∃ kb ka, keys = kb ++ ka ∧ Separates kb (before ++ [part]) ∧ List.Forall₂ Leads ka after := by
  cases before with
  | nil =>
    constructor
    · intro h
      exact ⟨[], keys, rfl, List.Forall₂.nil, h⟩
    · rintro ⟨kb, ka, rfl, hkb, hka⟩
      rw [List.forall₂_nil_right_iff.mp hkb]
      exact hka
  | cons first before =>
    have hcut : first :: before ++ part :: after = first :: ((before ++ [part]) ++ after) := by simp
    rw [hcut]
    constructor
    · intro h
      exact ⟨_, _, (List.take_append_drop (before ++ [part]).length keys).symm,
        List.forall₂_take_append _ _ _ h, List.forall₂_drop_append _ _ _ h⟩
    · rintro ⟨kb, ka, rfl, hkb, hka⟩
      exact List.rel_append hkb hka

theorem Separates.keys_length (h : Separates kb (before ++ [part])) : kb.length = before.length := by
  have hlen := h.length_eq
  rw [List.length_append, List.length_singleton] at hlen
  omega

/-- The separator in front of a part that is not the first leads it. -/
theorem Separates.last (h : Separates kb (before ++ [part])) (hne : before ≠ []) :
    ∃ ks k, kb = ks ++ [k] ∧ Leads k part := by
  cases before with
  | nil => exact absurd rfl hne
  | cons first before =>
    have hdrop := List.forall₂_drop_append kb before [part] h
    obtain ⟨k, ks, hk, hks, hkb⟩ := List.forall₂_cons_right_iff.mp hdrop
    rw [List.forall₂_nil_right_iff.mp hks] at hkb
    refine ⟨kb.take before.length, k, ?_, hk⟩
    rw [← hkb, List.take_append_drop]

theorem Separates.replace_last (h : Separates kb (before ++ [part]))
    (hlead : ∀ k ∈ kb, Leads k part → Leads k part') : Separates kb (before ++ [part']) := by
  cases before with
  | nil => exact h
  | cons first before =>
    obtain ⟨ks, k, rfl, hk⟩ := h.last (List.cons_ne_nil _ _)
    have hlen : ks.length = before.length := by
      have hl := h.keys_length
      rw [List.length_append, List.length_singleton, List.length_cons] at hl
      omega
    have htake := List.forall₂_take_append (ks ++ [k]) before [part] h
    rw [← hlen, List.take_left] at htake
    exact List.rel_append htake
      (List.Forall₂.cons (hlead k (by simp) hk) List.Forall₂.nil)

theorem exists_leads {ps : List (List (κ × υ))} (h : List.Forall₂ Leads keys ps) (hk : k ∈ keys) :
    ∃ p ∈ ps, Leads k p := by
  induction h with
  | nil => cases hk
  | @cons k' p ks ps hp _ ih =>
    rcases List.mem_cons.mp hk with rfl | hk
    · exact ⟨p, List.mem_cons_self, hp⟩
    · obtain ⟨q, hq, hlead⟩ := ih hk
      exact ⟨q, List.mem_cons_of_mem p hq, hlead⟩

theorem mem_flatten_of_leads {ps : List (List (κ × υ))} (hp : part ∈ ps) (h : Leads k part) :
    ∃ x ∈ ps.flatten, x.1 = k := by
  obtain ⟨x, rest, rfl, rfl⟩ := leads_iff.mp h
  exact ⟨x, List.mem_flatten.mpr ⟨_, hp, List.mem_cons_self⟩, rfl⟩

/-- Every separator is a key of the parts. -/
theorem Separates.mem (h : Separates keys parts) (hk : k ∈ keys) : ∃ x ∈ parts.flatten, x.1 = k := by
  cases parts with
  | nil => cases h
  | cons first parts =>
    obtain ⟨p, hp, hlead⟩ := exists_leads h hk
    exact mem_flatten_of_leads (List.mem_cons_of_mem first hp) hlead

/-! ### The part of a key -/

variable [LinearOrder κ]

/-- What the search for a key finds: the separators and the parts left and right of the part
where it ends. -/
structure Around (key : κ) (kb ka : List κ) (before : List (List (κ × υ)))
    (part : List (κ × υ)) (after : List (List (κ × υ))) : Prop where
  index : lowerIndex (kb ++ ka) key = before.length
  left : Separates kb (before ++ [part])
  right : List.Forall₂ Leads ka after
  sorted : Sorted (before.flatten ++ part ++ after.flatten)
  keys_lt : ∀ k ∈ kb, k < key
  before_lt : ∀ x ∈ before.flatten, x.1 < key
  le_after : ∀ x ∈ after.flatten, key ≤ x.1

theorem lowerIndex_append (hkb : ∀ k ∈ kb, k < key) (hka : ∀ k ∈ ka.head?, ¬ k < key) :
    lowerIndex (kb ++ ka) key = kb.length := by
  induction kb with
  | nil => exact lowerIndex_eq_zero hka
  | cons k kb ih =>
    rw [List.cons_append, lowerIndex_cons, if_pos (hkb k List.mem_cons_self),
      ih fun k' hk' => hkb k' (List.mem_cons_of_mem k hk'), List.length_cons]

/-- The first key of sorted entries is their least. -/
theorem le_of_leads {es : List (κ × υ)} (hs : Sorted es) (h : Leads k es) (hx : x ∈ es) :
    k ≤ x.1 := by
  obtain ⟨y, rest, rfl, rfl⟩ := leads_iff.mp h
  rcases List.mem_cons.mp hx with rfl | hx
  · exact le_rfl
  · exact ((sorted_cons.mp hs).1 x hx).le

/-- The search stops between the separators below the key and the others. -/
theorem around_of_index (hleft : Separates kb (before ++ [part]))
    (hright : List.Forall₂ Leads ka after) (hsorted : Sorted (before ++ part :: after).flatten)
    (hindex : lowerIndex (kb ++ ka) key = before.length) : Around key kb ka before part after := by
  have hsorted' : Sorted (before.flatten ++ part ++ after.flatten) := by
    rw [List.flatten_append, List.flatten_cons, ← List.append_assoc] at hsorted
    exact hsorted
  obtain ⟨hbp, hafter, -⟩ := sorted_append.mp hsorted'
  obtain ⟨-, -, hcross⟩ := sorted_append.mp hbp
  have hkeys : ∀ k ∈ kb, k < key := by
    intro k hk
    have hmem : k ∈ (kb ++ ka).take (lowerIndex (kb ++ ka) key) := by
      rw [hindex, ← hleft.keys_length, List.take_left]
      exact hk
    exact lt_of_mem_take hmem
  refine ⟨hindex, hleft, hright, hsorted', hkeys, ?_, ?_⟩
  · intro x hx
    have hne : before ≠ [] := by
      rintro rfl
      cases hx
    obtain ⟨ks, k, rfl, hk⟩ := hleft.last hne
    obtain ⟨y, rest, rfl, rfl⟩ := leads_iff.mp hk
    exact (hcross x hx y List.mem_cons_self).trans (hkeys y.1 (by simp))
  · intro x hx
    cases hright with
    | nil => cases hx
    | @cons k p ks ps hp hps =>
      have hget : (kb ++ k :: ks)[lowerIndex (kb ++ k :: ks) key]? = some k := by
        rw [hindex, ← hleft.keys_length, List.getElem?_append_right le_rfl, Nat.sub_self]
        rfl
      have hk : ¬ k < key := not_lt_of_getElem? hget
      have hlead : Leads k (p :: ps).flatten := hp.append
      exact (not_lt.mp hk).trans (le_of_leads hafter hlead hx)

theorem exists_around (hsep : Separates keys parts) (hsorted : Sorted parts.flatten) (key : κ) :
    ∃ kb ka before part after, keys = kb ++ ka ∧ parts = before ++ part :: after ∧
      Around key kb ka before part after := by
  have hi : lowerIndex keys key < parts.length := by
    rw [hsep.length_eq]
    exact Nat.lt_succ_of_le lowerIndex_le
  have hparts : parts = parts.take (lowerIndex keys key) ++
      parts[lowerIndex keys key] :: parts.drop (lowerIndex keys key + 1) := by
    rw [← List.drop_eq_getElem_cons hi, List.take_append_drop]
  have htake : (parts.take (lowerIndex keys key)).length = lowerIndex keys key := by
    rw [List.length_take, min_eq_left hi.le]
  obtain ⟨kb, ka, hkeys, hleft, hright⟩ := separates_append.mp (hparts ▸ hsep)
  refine ⟨kb, ka, _, _, _, hkeys, hparts, around_of_index hleft hright (hparts ▸ hsorted) ?_⟩
  rw [← hkeys, htake]

/-! ### A new entry -/

variable {y : κ × υ} {l r : List (κ × υ)}

theorem Leads.insertIdx (h : Leads k part) (hlt : k < x.1) :
    Leads k (part.insertIdx (lowerIndex (part.map Prod.fst) x.1) x) := by
  obtain ⟨y, rest, rfl, rfl⟩ := leads_iff.mp h
  rw [List.map_cons, lowerIndex_cons, if_pos hlt, List.insertIdx_succ_cons]
  exact leads_iff.mpr ⟨y, _, rfl, rfl⟩

theorem Around.lt_after (h : Around key kb ka before part after)
    (hkey : key ∉ after.flatten.map Prod.fst) : ∀ x ∈ after.flatten, key < x.1 := by
  intro x hx
  refine lt_of_le_of_ne (h.le_after x hx) ?_
  rintro rfl
  exact hkey (List.mem_map_of_mem hx)

/-- The part with the new entry at its place. -/
theorem Around.insert (h : Around x.1 kb ka before part after)
    (hpart : x.1 ∉ part.map Prod.fst) (hafter : x.1 ∉ after.flatten.map Prod.fst) :
    Sorted (before.flatten ++ part.insertIdx (lowerIndex (part.map Prod.fst) x.1) x ++
        after.flatten) ∧
      Separates kb (before ++ [part.insertIdx (lowerIndex (part.map Prod.fst) x.1) x]) := by
  constructor
  · exact sorted_insertIdx h.sorted h.before_lt (h.lt_after hafter) hpart
  · exact h.left.replace_last fun k hk hlead => hlead.insertIdx (h.keys_lt k hk)

/-- The place of the separator for a part that is cut in two. -/
theorem lowerIndex_cut (hsorted : Sorted (before.flatten ++ (l ++ r) ++ after.flatten))
    (hleft : Separates kb (before ++ [l])) (hright : List.Forall₂ Leads ka after)
    (hlead : Leads key r) : lowerIndex (kb ++ ka) key = kb.length := by
  obtain ⟨y, rest, rfl, rfl⟩ := leads_iff.mp hlead
  refine lowerIndex_append ?_ ?_
  · intro k hk
    obtain ⟨x, hx, rfl⟩ := hleft.mem hk
    rw [← List.append_assoc, List.append_assoc] at hsorted
    refine (sorted_append.mp hsorted).2.2 x ?_ y (by simp)
    rw [List.flatten_append, List.flatten_singleton] at hx
    exact hx
  · intro k hk
    obtain ⟨p, hp, hlead⟩ := exists_leads hright (List.mem_of_mem_head? hk)
    obtain ⟨x, hx, rfl⟩ := mem_flatten_of_leads hp hlead
    exact ((sorted_append.mp hsorted).2.2 y (by simp) x hx).not_gt

end MaiFaSp.CopiedSeparators
