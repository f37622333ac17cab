import MaiFaSp.Lib.BoundedVector
import Mathlib.Data.List.Forall2

/-!
# Lists laid between separators

The contents of a node with `n` separators and `n + 1` parts, in order.
-/

namespace MaiFaSp

variable {α β : Type}

/-- `p₀ k₀ p₁ k₁ … pₙ` -/
def interleave : List (List α) → List α → List α
  | [], _ => []
  | p :: ps, [] => p ++ interleave ps []
  | p :: ps, k :: ks => p ++ k :: interleave ps ks

/-- The parts and separators before a place: `p₀ k₀ … pₙ kₙ`. -/
def interleaveBefore (ps : List (List α)) (ks : List α) : List α :=
  (List.zipWith (fun p k => p ++ [k]) ps ks).flatten

/-- The separators and parts behind a place: `k₀ p₀ … kₙ pₙ`. -/
def interleaveAfter (ks : List α) (ps : List (List α)) : List α :=
  (List.zipWith List.cons ks ps).flatten

variable {p : List α} {ps ps₁ ps₂ : List (List α)} {k : α} {ks ks₁ ks₂ : List α}

theorem interleave_cons (h : ps.length = ks.length) :
    interleave (p :: ps) ks = p ++ interleaveAfter ks ps := by
  induction ks generalizing p ps with
  | nil =>
    cases ps with
    | nil => rfl
    | cons q ps => cases h
  | cons k ks ih =>
    cases ps with
    | nil => cases h
    | cons q ps =>
      show p ++ k :: interleave (q :: ps) ks = _
      rw [ih (Nat.succ.inj h)]
      rfl

/-- The contents around the part at one place. -/
theorem interleave_append (h₁ : ps₁.length = ks₁.length) (h₂ : ps₂.length = ks₂.length) :
    interleave (ps₁ ++ p :: ps₂) (ks₁ ++ ks₂) =
      interleaveBefore ps₁ ks₁ ++ p ++ interleaveAfter ks₂ ps₂ := by
  induction ps₁ generalizing ks₁ with
  | nil =>
    cases ks₁ with
    | nil => exact interleave_cons h₂
    | cons k ks => cases h₁
  | cons q ps ih =>
    cases ks₁ with
    | nil => cases h₁
    | cons k ks =>
      show q ++ k :: interleave (ps ++ p :: ps₂) (ks ++ ks₂) = _
      rw [ih (Nat.succ.inj h₁)]
      simp [interleaveBefore]

theorem interleaveBefore_append_singleton (h : ps.length = ks.length) :
    interleaveBefore (ps ++ [p]) (ks ++ [k]) = interleaveBefore ps ks ++ (p ++ [k]) := by
  unfold interleaveBefore
  rw [List.zipWith_append h, List.flatten_append]
  simp

theorem interleaveAfter_cons : interleaveAfter (k :: ks) (p :: ps) = k :: (p ++ interleaveAfter ks ps) :=
  rfl

/-- The contents around two parts with the separator between them. -/
theorem interleave_window {q : List α} (h₁ : ps₁.length = ks₁.length) (h₂ : ps₂.length = ks₂.length) :
    interleave (ps₁ ++ p :: q :: ps₂) (ks₁ ++ k :: ks₂) =
      interleaveBefore ps₁ ks₁ ++ (p ++ k :: q) ++ interleaveAfter ks₂ ps₂ := by
  have hlen : (q :: ps₂).length = (k :: ks₂).length := congrArg Nat.succ h₂
  rw [interleave_append h₁ hlen, interleaveAfter_cons]
  simp only [List.append_assoc, List.cons_append]

theorem mem_interleave_of_separator {x : α} (hx : x ∈ ks) (h : ps.length = ks.length + 1) :
    x ∈ interleave ps ks := by
  induction ks generalizing ps with
  | nil => cases hx
  | cons k ks ih =>
    cases ps with
    | nil => cases h
    | cons p ps =>
      show x ∈ p ++ k :: interleave ps ks
      rcases List.mem_cons.mp hx with rfl | hx
      · simp
      · have hm := ih hx (Nat.succ.inj h)
        simp [hm]

theorem mem_interleave_of_part {x : α} (hp : p ∈ ps) (hx : x ∈ p) : x ∈ interleave ps ks := by
  induction ps generalizing ks with
  | nil => cases hp
  | cons q ps ih =>
    cases ks with
    | nil =>
      show x ∈ q ++ interleave ps []
      rcases List.mem_cons.mp hp with rfl | hp
      · simp [hx]
      · simp [ih hp]
    | cons k ks =>
      show x ∈ q ++ k :: interleave ps ks
      rcases List.mem_cons.mp hp with rfl | hp
      · simp [hx]
      · simp [ih hp]

/-- The contents around the part with a given index. -/
theorem interleave_set {i : ℕ} (h : ps.length = ks.length + 1) (hi : i < ps.length) :
    interleave (ps.set i p) ks = interleaveBefore (ps.take i) (ks.take i) ++ p ++
      interleaveAfter (ks.drop i) (ps.drop (i + 1)) := by
  have hset : ps.set i p = ps.take i ++ p :: ps.drop (i + 1) := List.set_eq_take_append_cons_drop.trans
    (if_pos hi)
  have happend : interleave (ps.take i ++ p :: ps.drop (i + 1)) (ks.take i ++ ks.drop i) = _ :=
    interleave_append (by rw [List.length_take, List.length_take]; omega)
      (by rw [List.length_drop, List.length_drop]; omega)
  rw [List.take_append_drop] at happend
  rw [hset, happend]

theorem interleave_at {i : ℕ} (h : ps.length = ks.length + 1) (hi : i < ps.length) :
    interleave ps ks = interleaveBefore (ps.take i) (ks.take i) ++ ps[i] ++
      interleaveAfter (ks.drop i) (ps.drop (i + 1)) := by
  rw [← interleave_set h hi, List.set_getElem_self]

/-- The last part cut in two by a new separator. -/
theorem interleave_cut {l r : List α} (h : ps.length = ks.length) :
    interleave (ps ++ [l, r]) (ks ++ [k]) = interleave (ps ++ [l ++ k :: r]) ks := by
  rw [interleave_append h rfl, ← List.append_nil ks, interleave_append h rfl]
  simp [interleaveAfter]

theorem sublist_interleave (h : ps.length = ks.length + 1) : ks.Sublist (interleave ps ks) := by
  induction ks generalizing ps with
  | nil => exact List.nil_sublist _
  | cons k ks ih =>
    cases ps with
    | nil => cases h
    | cons p ps =>
      exact List.Sublist.trans ((ih (Nat.succ.inj h)).cons_cons k) (List.sublist_append_right p _)

/-! ### Parts with less in them -/

section

variable {f g : β → List α} {cs : List β}

theorem interleaveAfter_sublist (h : ∀ c ∈ cs, (f c).Sublist (g c)) :
    (interleaveAfter ks (cs.map f)).Sublist (interleaveAfter ks (cs.map g)) := by
  induction ks generalizing cs with
  | nil => exact List.Sublist.refl _
  | cons k ks ih =>
    cases cs with
    | nil => exact List.Sublist.refl _
    | cons c cs =>
      rw [List.map_cons, List.map_cons, interleaveAfter_cons, interleaveAfter_cons]
      exact ((h c List.mem_cons_self).append (ih fun c hc => h c (List.mem_cons_of_mem _ hc))).cons_cons k

/-- Two lists behind one another are all of the two that they are in if each is. -/
theorem append_eq_iff_of_sublist {a a' b b' : List α} (ha : a.Sublist a') (hb : b.Sublist b') :
    a ++ b = a' ++ b' ↔ a = a' ∧ b = b' := by
  constructor
  · intro h
    have hlen := congrArg List.length h
    have ha' := ha.length_le
    have hb' := hb.length_le
    rw [List.length_append, List.length_append] at hlen
    exact ⟨ha.eq_of_length (by omega), hb.eq_of_length (by omega)⟩
  · rintro ⟨rfl, rfl⟩
    rfl

theorem interleaveAfter_eq_iff (hlen : cs.length = ks.length) (h : ∀ c ∈ cs, (f c).Sublist (g c)) :
    interleaveAfter ks (cs.map f) = interleaveAfter ks (cs.map g) ↔ ∀ c ∈ cs, f c = g c := by
  induction ks generalizing cs with
  | nil =>
    obtain rfl := List.length_eq_zero_iff.mp hlen
    simp
  | cons k ks ih =>
    cases cs with
    | nil => cases hlen
    | cons c cs =>
      have hrest : ∀ c ∈ cs, (f c).Sublist (g c) := fun c hc => h c (List.mem_cons_of_mem _ hc)
      rw [List.map_cons, List.map_cons, interleaveAfter_cons, interleaveAfter_cons, List.cons_inj_right,
        append_eq_iff_of_sublist (h c List.mem_cons_self) (interleaveAfter_sublist hrest),
        ih (Nat.succ.inj hlen) hrest, List.forall_mem_cons]

end

/-! ### Lists with an entry twice -/

/-- One entry may stand twice. -/
def Doubled (xs ys : List α) : Prop := ys = xs ∨ ∃ l x r, xs = l ++ x :: r ∧ ys = l ++ x :: x :: r

theorem Doubled.refl (xs : List α) : Doubled xs xs := Or.inl rfl

theorem Doubled.mem_iff {xs ys : List α} {x : α} (h : Doubled xs ys) : x ∈ ys ↔ x ∈ xs := by
  rcases h with rfl | ⟨l, y, r, rfl, rfl⟩
  · exact Iff.rfl
  · simp only [List.mem_append, List.mem_cons]
    tauto

/-! ### Sorted contents -/

section Sorted

variable {κ υ : Type} [LinearOrder κ]

/-- The keys are in strictly increasing order. -/
def Sorted (es : List (κ × υ)) : Prop := (es.map Prod.fst).Pairwise (· < ·)

variable {es before after part : List (κ × υ)} {x y : κ × υ} {key : κ}

theorem Sorted.sublist {es' : List (κ × υ)} (h : Sorted es) (hs : es'.Sublist es) : Sorted es' :=
  List.Pairwise.sublist (hs.map Prod.fst) h

theorem sorted_append {es' : List (κ × υ)} :
    Sorted (es ++ es') ↔ Sorted es ∧ Sorted es' ∧ ∀ x ∈ es, ∀ y ∈ es', x.1 < y.1 := by
  unfold Sorted
  rw [List.map_append, List.pairwise_append]
  simp

theorem sorted_cons : Sorted (x :: es) ↔ (∀ y ∈ es, x.1 < y.1) ∧ Sorted es := by
  unfold Sorted
  rw [List.map_cons, List.pairwise_cons]
  simp

/-- A key occurs once. -/
theorem Sorted.eq_of_mem (h : Sorted es) (hx : x ∈ es) (hy : y ∈ es) (hxy : x.1 = y.1) : x = y :=
  List.inj_on_of_nodup_map (h.imp fun hlt => hlt.ne) hx hy hxy

/-- A new pair put at its place into a part of a sorted list. -/
theorem sorted_insertIdx (h : Sorted (before ++ part ++ after)) (hb : ∀ y ∈ before, y.1 < x.1)
    (ha : ∀ y ∈ after, x.1 < y.1) (hx : x.1 ∉ part.map Prod.fst) :
    Sorted (before ++ part.insertIdx (BoundedVector.lowerIndex (part.map Prod.fst) x.1) x ++ after) := by
  obtain ⟨hbp, hafter, hcross⟩ := sorted_append.mp h
  obtain ⟨hbefore, hpart, hbpart⟩ := sorted_append.mp hbp
  have hi : BoundedVector.lowerIndex (part.map Prod.fst) x.1 ≤ part.length :=
    BoundedVector.lowerIndex_le.trans (List.length_map _).le
  have hnew : Sorted (part.insertIdx (BoundedVector.lowerIndex (part.map Prod.fst) x.1) x) := by
    unfold Sorted
    rw [List.map_insertIdx]
    exact BoundedVector.pairwise_insertIdx hpart hx
  rw [sorted_append, sorted_append]
  refine ⟨⟨hbefore, hnew, ?_⟩, hafter, ?_⟩
  · intro y hy z hz
    rcases (List.mem_insertIdx hi).mp hz with rfl | hz
    · exact hb y hy
    · exact hbpart y hy z hz
  · intro y hy z hz
    rcases List.mem_append.mp hy with hy | hy
    · exact hcross y (List.mem_append_left _ hy) z hz
    · rcases (List.mem_insertIdx hi).mp hy with rfl | hy
      · exact ha z hz
      · exact hcross y (List.mem_append_right _ hy) z hz

end Sorted

/-! ### Contents with doubled pairs -/

section Settled

variable {κ υ : Type} [LinearOrder κ] {es es' : List (κ × υ)} {x y : κ × υ}

/-- The keys are in order, and pairs with one key are copies of one pair. -/
def Settled (es : List (κ × υ)) : Prop := es.Pairwise fun x y => x.1 < y.1 ∨ x = y

theorem Sorted.settled (h : Sorted es) : Settled es :=
  (List.pairwise_map.mp h).imp fun hlt => Or.inl hlt

theorem settled_append : Settled (es ++ es') ↔
    Settled es ∧ Settled es' ∧ ∀ x ∈ es, ∀ y ∈ es', x.1 < y.1 ∨ x = y := List.pairwise_append

theorem settled_cons : Settled (x :: es) ↔ (∀ y ∈ es, x.1 < y.1 ∨ x = y) ∧ Settled es :=
  List.pairwise_cons

theorem fst_le_of_settled (h : x.1 < y.1 ∨ x = y) : x.1 ≤ y.1 := by
  rcases h with hlt | rfl
  · exact hlt.le
  · exact le_rfl

theorem Settled.eq_of_mem (h : Settled es) (hx : x ∈ es) (hy : y ∈ es) (hxy : x.1 = y.1) :
    x = y := by
  induction es with
  | nil => cases hx
  | cons z es ih =>
    obtain ⟨hz, hes⟩ := settled_cons.mp h
    rcases List.mem_cons.mp hx with rfl | hx'
    · rcases List.mem_cons.mp hy with rfl | hy'
      · rfl
      · exact (hz y hy').resolve_left hxy.not_lt
    · rcases List.mem_cons.mp hy with rfl | hy'
      · exact ((hz x hx').resolve_left hxy.not_gt).symm
      · exact ih hes hx' hy'

/-- A pair written twice. -/
theorem Settled.double (h : Settled (es ++ x :: es')) : Settled (es ++ x :: x :: es') := by
  obtain ⟨hes, hrest, hcross⟩ := settled_append.mp h
  refine settled_append.mpr ⟨hes, settled_cons.mpr ⟨?_, hrest⟩, ?_⟩
  · intro y hy
    rcases List.mem_cons.mp hy with rfl | hy
    · exact Or.inr rfl
    · exact (settled_cons.mp hrest).1 y hy
  · intro y hy z hz
    rcases List.mem_cons.mp hz with rfl | hz
    · exact hcross y hy z List.mem_cons_self
    · exact hcross y hy z hz

theorem Doubled.settled (h : Doubled es es') (hs : Settled es) : Settled es' := by
  rcases h with rfl | ⟨l, x, r, rfl, rfl⟩
  · exact hs
  · exact hs.double

end Settled

section Route

variable {κ υ : Type} [LinearOrder κ] {parts : List (List (κ × υ))} {seps : List (κ × υ)} {key : κ}

/-- Where the search goes on below the separators. -/
def route (seps : List (κ × υ)) (key : κ) : ℕ := BoundedVector.lowerIndex (seps.map Prod.fst) key

theorem route_le (seps : List (κ × υ)) (key : κ) : route seps key ≤ seps.length :=
  BoundedVector.lowerIndex_le.trans (List.length_map _).le

theorem Settled.interleaveBefore_lt {ps : List (List (κ × υ))} {ks : List (κ × υ)}
    (hs : Settled (interleaveBefore ps ks)) (hk : ∀ k ∈ ks, k.1 < key) :
    ∀ x ∈ interleaveBefore ps ks, x.1 < key := by
  induction ps generalizing ks with
  | nil =>
    intro x hx
    cases hx
  | cons p ps ih =>
    cases ks with
    | nil =>
      intro x hx
      cases hx
    | cons k ks =>
      intro x hx
      have heq : interleaveBefore (p :: ps) (k :: ks) = p ++ [k] ++ interleaveBefore ps ks := rfl
      rw [heq] at hs hx
      obtain ⟨hfirst, hrest, -⟩ := settled_append.mp hs
      rcases List.mem_append.mp hx with hx | hx
      · rcases List.mem_append.mp hx with hx | hx
        · have hle := (settled_append.mp hfirst).2.2 x hx k (List.mem_singleton_self k)
          exact (fst_le_of_settled hle).trans_lt (hk k List.mem_cons_self)
        · rw [List.mem_singleton.mp hx]
          exact hk k List.mem_cons_self
      · exact ih hrest (fun k' hk' => hk k' (List.mem_cons_of_mem k hk')) x hx

theorem Settled.lt_interleaveAfter {ps : List (List (κ × υ))} {ks : List (κ × υ)}
    (hs : Settled (interleaveAfter ks ps)) (hk : ∀ k ∈ ks.head?, key < k.1) :
    ∀ x ∈ interleaveAfter ks ps, key < x.1 := by
  cases ks with
  | nil =>
    intro x hx
    cases hx
  | cons k ks =>
    cases ps with
    | nil =>
      intro x hx
      cases hx
    | cons p ps =>
      intro x hx
      have heq : interleaveAfter (k :: ks) (p :: ps) = k :: (p ++ interleaveAfter ks ps) := rfl
      rw [heq] at hs hx
      have hfirst : key < k.1 := hk k rfl
      rcases List.mem_cons.mp hx with rfl | hx
      · exact hfirst
      · exact hfirst.trans_le (fst_le_of_settled ((settled_cons.mp hs).1 x hx))

/-- The keys on both sides of the part that the search enters. -/
theorem Settled.route_bounds (h : parts.length = seps.length + 1)
    (hs : Settled (interleave parts seps)) (hkey : key ∉ seps.map Prod.fst) :
    (∀ x ∈ interleaveBefore (parts.take (route seps key)) (seps.take (route seps key)),
      x.1 < key) ∧
    ∀ x ∈ interleaveAfter (seps.drop (route seps key)) (parts.drop (route seps key + 1)),
      key < x.1 := by
  have hi : route seps key < parts.length := by
    have hle := route_le seps key
    omega
  rw [interleave_at h hi] at hs
  obtain ⟨hbp, hafter, -⟩ := settled_append.mp hs
  constructor
  · apply (settled_append.mp hbp).1.interleaveBefore_lt
    intro k hk
    have hk' : k.1 ∈ (seps.map Prod.fst).take (route seps key) := by
      rw [← List.map_take]
      exact List.mem_map_of_mem hk
    exact BoundedVector.lt_of_mem_take hk'
  · apply hafter.lt_interleaveAfter
    intro k hk
    rw [List.head?_drop] at hk
    have hat : (seps.map Prod.fst)[route seps key]? = some k.1 := by
      rw [List.getElem?_map, hk]
      rfl
    have hle := not_lt.mp (BoundedVector.not_lt_of_getElem? hat)
    exact lt_of_le_of_ne hle fun heq => hkey (heq ▸ List.mem_of_getElem? hat)

theorem route_bounds (h : parts.length = seps.length + 1) (hs : Sorted (interleave parts seps))
    (hkey : key ∉ seps.map Prod.fst) :
    (∀ x ∈ interleaveBefore (parts.take (route seps key)) (seps.take (route seps key)),
      x.1 < key) ∧
    ∀ x ∈ interleaveAfter (seps.drop (route seps key)) (parts.drop (route seps key + 1)),
      key < x.1 := hs.settled.route_bounds h hkey

/-- A key that is no separator is in the part that the search enters, or nowhere. -/
theorem Settled.mem_interleave_route (h : parts.length = seps.length + 1)
    (hs : Settled (interleave parts seps)) (hkey : key ∉ seps.map Prod.fst)
    (hi : route seps key < parts.length) {x : κ × υ} (hx : x.1 = key) :
    x ∈ interleave parts seps ↔ x ∈ parts[route seps key] := by
  obtain ⟨hbefore, hafter⟩ := hs.route_bounds h hkey
  rw [interleave_at h hi, List.mem_append, List.mem_append]
  constructor
  · rintro ((hm | hm) | hm)
    · exact absurd hx (hbefore x hm).ne
    · exact hm
    · exact absurd hx (hafter x hm).ne'
  · intro hm
    exact Or.inl (Or.inr hm)

/-- A new pair put into the part that the search enters. -/
theorem sorted_interleave_insert (h : parts.length = seps.length + 1)
    (hs : Sorted (interleave parts seps)) {x : κ × υ}
    (hx : x.1 ∉ (interleave parts seps).map Prod.fst) (hi : route seps x.1 < parts.length) :
    Sorted (interleave (parts.set (route seps x.1)
      (parts[route seps x.1].insertIdx (route parts[route seps x.1] x.1) x)) seps) := by
  have hsep : x.1 ∉ seps.map Prod.fst := by
    intro hm
    obtain ⟨y, hy, heq⟩ := List.mem_map.mp hm
    exact hx (heq ▸ List.mem_map_of_mem (mem_interleave_of_separator hy h))
  obtain ⟨hbefore, hafter⟩ := route_bounds h hs hsep
  rw [interleave_set h hi]
  rw [interleave_at h hi] at hs hx
  refine sorted_insertIdx hs hbefore hafter fun hm => hx ?_
  rw [List.map_append, List.map_append]
  exact List.mem_append_left _ (List.mem_append_right _ hm)

theorem mem_interleave_insert (h : parts.length = seps.length + 1) {x y : κ × υ}
    (hi : route seps x.1 < parts.length) :
    y ∈ interleave (parts.set (route seps x.1)
      (parts[route seps x.1].insertIdx (route parts[route seps x.1] x.1) x)) seps ↔
        y = x ∨ y ∈ interleave parts seps := by
  rw [interleave_set h hi, interleave_at h hi, List.mem_append, List.mem_append,
    List.mem_insertIdx (route_le _ _), List.mem_append, List.mem_append]
  tauto

end Route

/-! ### What a sorted list holds under a key -/

section Lookup

variable {κ υ : Type} [LinearOrder κ] {es : List (κ × υ)} {key : κ} {v : υ}

def lookup (es : List (κ × υ)) (key : κ) : Option υ :=
  (es.find? fun e => e.1 = key).map Prod.snd

theorem lookup_eq_none : lookup es key = none ↔ key ∉ es.map Prod.fst := by
  unfold lookup
  rw [Option.map_eq_none_iff, List.find?_eq_none]
  constructor
  · intro h hm
    obtain ⟨e, he, rfl⟩ := List.mem_map.mp hm
    exact h e he (decide_eq_true rfl)
  · intro h e he hkey
    exact h (of_decide_eq_true hkey ▸ List.mem_map_of_mem he)

theorem Settled.lookup_eq_some (hs : Settled es) : lookup es key = some v ↔ (key, v) ∈ es := by
  unfold lookup
  rw [Option.map_eq_some_iff]
  constructor
  · rintro ⟨e, he, rfl⟩
    have hkey : e.1 = key := by simpa using List.find?_some he
    rw [← hkey]
    exact List.mem_of_find?_eq_some he
  · intro hm
    cases hfind : es.find? fun e => e.1 = key with
    | none =>
      rw [List.find?_eq_none] at hfind
      exact absurd (decide_eq_true rfl) (hfind (key, v) hm)
    | some e =>
      have hkey : e.1 = key := by simpa using List.find?_some hfind
      have heq : e = (key, v) := hs.eq_of_mem (List.mem_of_find?_eq_some hfind) hm hkey
      exact ⟨e, rfl, by rw [heq]⟩

theorem lookup_eq_some (hs : Sorted es) : lookup es key = some v ↔ (key, v) ∈ es :=
  hs.settled.lookup_eq_some

theorem lookup_congr {es' : List (κ × υ)} (hs : Settled es) (hs' : Settled es')
    (h : ∀ w, (key, w) ∈ es ↔ (key, w) ∈ es') : lookup es key = lookup es' key := by
  apply Option.ext
  intro w
  rw [hs.lookup_eq_some, hs'.lookup_eq_some, h w]

/-- The key is at the place where the search stops, or nowhere. -/
theorem Settled.filter_getElem?_route (hs : Settled es) :
    (es[route es key]?.filter fun e => e.1 = key).map Prod.snd = lookup es key := by
  apply Option.ext
  intro v
  rw [hs.lookup_eq_some, Option.map_eq_some_iff]
  constructor
  · rintro ⟨e, he, rfl⟩
    rw [Option.filter_eq_some_iff] at he
    have hkey : e.1 = key := by simpa using he.2
    rw [← hkey]
    exact List.mem_of_getElem? he.1
  · intro hm
    have hkeys : (es.map Prod.fst).Pairwise (· ≤ ·) :=
      List.pairwise_map.mpr (hs.imp fun h => fst_le_of_settled h)
    have hat := (BoundedVector.getElem?_lowerIndex_of_le hkeys).mpr (List.mem_map_of_mem hm)
    rw [List.getElem?_map, Option.map_eq_some_iff] at hat
    obtain ⟨e, he, hkey⟩ := hat
    have heq : e = (key, v) := hs.eq_of_mem (List.mem_of_getElem? he) hm hkey
    refine ⟨e, ?_, by rw [heq]⟩
    rw [Option.filter_eq_some_iff]
    exact ⟨he, by simpa using hkey⟩

/-- No entry at the place where the search stops means that the key is not there. -/
theorem not_mem_of_filter_route (hs : Settled es)
    (h : (es[route es key]?.filter fun e => e.1 = key) = none) : key ∉ es.map Prod.fst := by
  rw [← lookup_eq_none, ← hs.filter_getElem?_route, h]
  rfl

theorem lookup_interleave {parts : List (List (κ × υ))} {seps : List (κ × υ)}
    (h : parts.length = seps.length + 1) (hs : Settled (interleave parts seps))
    (hkey : key ∉ seps.map Prod.fst) (hi : route seps key < parts.length) :
    lookup (interleave parts seps) key = lookup parts[route seps key] key := by
  have hpart : Settled parts[route seps key] := by
    rw [interleave_at h hi] at hs
    exact (settled_append.mp (settled_append.mp hs).1).2.1
  exact lookup_congr hs hpart fun w => hs.mem_interleave_route h hkey hi rfl

/-- The value under one key replaced. -/
theorem sorted_replaced {l r : List (κ × υ)} {x : κ × υ} (hs : Sorted (l ++ x :: r)) (w : υ) :
    Sorted (l ++ (x.1, w) :: r) := by
  unfold Sorted at hs ⊢
  rw [List.map_append, List.map_cons] at hs ⊢
  exact hs

theorem lookup_replaced {l r : List (κ × υ)} {x : κ × υ} (hs : Sorted (l ++ x :: r)) (w : υ) (j : κ) :
    lookup (l ++ (x.1, w) :: r) j = if j = x.1 then some w else lookup (l ++ x :: r) j := by
  have hs' := sorted_replaced hs w
  by_cases hj : j = x.1
  · rw [if_pos hj, lookup_eq_some hs', hj]
    exact List.mem_append_right _ List.mem_cons_self
  · rw [if_neg hj]
    refine lookup_congr hs'.settled hs.settled fun u => ?_
    have hne : ∀ u', (j, u) ≠ (x.1, u') := fun u' heq => hj (congrArg Prod.fst heq)
    rw [List.mem_append, List.mem_append, List.mem_cons, List.mem_cons,
      or_iff_right (hne w), or_iff_right (hne x.2)]

theorem sorted_separators {parts : List (List (κ × υ))} {seps : List (κ × υ)}
    (h : parts.length = seps.length + 1) (hs : Sorted (interleave parts seps)) : Sorted seps :=
  hs.sublist (sublist_interleave h)

theorem settled_separators {parts : List (List (κ × υ))} {seps : List (κ × υ)}
    (h : parts.length = seps.length + 1) (hs : Settled (interleave parts seps)) : Settled seps :=
  List.Pairwise.sublist (sublist_interleave h) hs

end Lookup

end MaiFaSp
