import Mathlib.Data.List.Chain
import Mathlib.Data.List.Basic
import Mathlib.Tactic

/-!
# Blocks laid end to end

A list of blocks, the first at a given address and each of the others where the
one before it ends. A block may be granted to a client; the grants are then the
client's addresses, `hdr` bytes above the start of their blocks.
-/

namespace MaiFaSp.Tiling

variable {β : Type*} (len : β → ℕ)

/-- The length of all blocks together. -/
def span (bs : List β) : ℕ := (bs.map len).sum

/-- Every block with its address. -/
def placed : ℕ → List β → List (ℕ × β)
  | _, [] => []
  | a, b :: bs => (a, b) :: placed (a + len b) bs

@[simp] theorem span_nil : span len [] = 0 := rfl

@[simp] theorem span_cons (b : β) (bs : List β) : span len (b :: bs) = len b + span len bs := by
  simp [span]

@[simp] theorem span_append (xs ys : List β) :
    span len (xs ++ ys) = span len xs + span len ys := by
  simp [span]

@[simp] theorem placed_nil (a : ℕ) : placed len a [] = [] := rfl

@[simp] theorem placed_cons (a : ℕ) (b : β) (bs : List β) :
    placed len a (b :: bs) = (a, b) :: placed len (a + len b) bs := rfl

theorem placed_append (a : ℕ) (xs ys : List β) :
    placed len a (xs ++ ys) = placed len a xs ++ placed len (a + span len xs) ys := by
  induction xs generalizing a with
  | nil => rfl
  | cons x xs ih => simp [ih, Nat.add_assoc]

@[simp] theorem map_snd_placed (a : ℕ) (bs : List β) : (placed len a bs).map Prod.snd = bs := by
  induction bs generalizing a with
  | nil => rfl
  | cons b bs ih => rw [placed_cons, List.map_cons, ih]

theorem placed_bounds {a x : ℕ} {b : β} {bs : List β} (h : (x, b) ∈ placed len a bs) :
    a ≤ x ∧ x + len b ≤ a + span len bs := by
  induction bs generalizing a with
  | nil => cases h
  | cons c bs ih =>
    rw [placed_cons, List.mem_cons] at h
    rw [span_cons]
    cases h with
    | inl h =>
      cases h
      omega
    | inr h =>
      have hb := ih h
      omega

/-- Each block ends before the later ones start. -/
theorem placed_pairwise (a : ℕ) (bs : List β) :
    (placed len a bs).Pairwise (fun p q => p.1 + len p.2 ≤ q.1) := by
  induction bs generalizing a with
  | nil => exact List.Pairwise.nil
  | cons b bs ih =>
    refine List.Pairwise.cons ?_ (ih _)
    intro q hq
    exact (placed_bounds len hq).1

theorem mem_placed_iff {a x : ℕ} {b : β} {bs : List β} :
    (x, b) ∈ placed len a bs ↔ ∃ pre post, bs = pre ++ b :: post ∧ x = a + span len pre := by
  constructor
  · intro h
    induction bs generalizing a with
    | nil => cases h
    | cons c bs ih =>
      rw [placed_cons, List.mem_cons] at h
      cases h with
      | inl h =>
        cases h
        exact ⟨[], bs, rfl, rfl⟩
      | inr h =>
        obtain ⟨pre, post, hbs, hx⟩ := ih h
        refine ⟨c :: pre, post, by rw [hbs]; rfl, ?_⟩
        rw [hx, span_cons, Nat.add_assoc]
  · rintro ⟨pre, post, hbs, hx⟩
    rw [hbs, hx, placed_append]
    simp

/-! ### Blocks granted to a client -/

variable (request : β → Option ℕ) (hdr : ℕ)

/-- The client's address and the size it asked for. -/
def grant (p : ℕ × β) : Option (ℕ × ℕ) := (request p.2).map (fun r => (p.1 + hdr, r))

def grants (a : ℕ) (bs : List β) : List (ℕ × ℕ) :=
  (placed len a bs).filterMap (grant request hdr)

@[simp] theorem grants_nil (a : ℕ) : grants len request hdr a [] = [] := rfl

theorem grants_append (a : ℕ) (xs ys : List β) :
    grants len request hdr a (xs ++ ys) =
      grants len request hdr a xs ++ grants len request hdr (a + span len xs) ys := by
  simp [grants, placed_append]

theorem grants_cons_none {a : ℕ} {b : β} {bs : List β} (h : request b = none) :
    grants len request hdr a (b :: bs) = grants len request hdr (a + len b) bs := by
  simp [grants, grant, h]

theorem grants_cons_some {a r : ℕ} {b : β} {bs : List β} (h : request b = some r) :
    grants len request hdr a (b :: bs) =
      (a + hdr, r) :: grants len request hdr (a + len b) bs := by
  simp [grants, grant, h]

/-- A grant belongs to a block of the list. -/
theorem mem_grants {a p r : ℕ} {bs : List β} (h : (p, r) ∈ grants len request hdr a bs) :
    ∃ pre b post, bs = pre ++ b :: post ∧ request b = some r ∧
      p = a + span len pre + hdr := by
  rw [grants, List.mem_filterMap] at h
  obtain ⟨⟨x, b⟩, hm, hg⟩ := h
  obtain ⟨pre, post, hbs, hx⟩ := (mem_placed_iff len).mp hm
  cases hr : request b with
  | none => simp [grant, hr] at hg
  | some r' =>
    simp only [grant, hr, Option.map_some, Option.some.injEq, Prod.mk.injEq] at hg
    exact ⟨pre, b, post, hbs, by rw [hr, hg.2], by rw [← hx, hg.1]⟩

/-- Where no block is granted there are no grants. -/
theorem request_eq_none_of_grants {a : ℕ} {bs : List β} (h : grants len request hdr a bs = []) :
    ∀ b ∈ bs, request b = none := by
  intro b hb
  obtain ⟨pre, post, hbs⟩ := List.append_of_mem hb
  cases hr : request b with
  | none => rfl
  | some r =>
    rw [hbs, grants_append, grants_cons_some len request hdr hr] at h
    simp at h

/-- Two places are the same one or do not overlap. -/
theorem placed_apart {a : ℕ} {p q : ℕ × β} {bs : List β} (hp : p ∈ placed len a bs)
    (hq : q ∈ placed len a bs) : p = q ∨ p.1 + len p.2 ≤ q.1 ∨ q.1 + len q.2 ≤ p.1 := by
  induction bs generalizing a with
  | nil => cases hp
  | cons c bs ih =>
    rw [placed_cons, List.mem_cons] at hp hq
    cases hp with
    | inl hp =>
      cases hq with
      | inl hq => exact Or.inl (hp.trans hq.symm)
      | inr hq =>
        rw [hp]
        exact Or.inr (Or.inl (placed_bounds len hq).1)
    | inr hp =>
      cases hq with
      | inl hq =>
        rw [hq]
        exact Or.inr (Or.inr (placed_bounds len hp).1)
      | inr hq => exact ih hp hq

theorem placed_of_grants {a p r : ℕ} {bs : List β} (h : (p, r) ∈ grants len request hdr a bs) :
    ∃ x b, (x, b) ∈ placed len a bs ∧ request b = some r ∧ p = x + hdr := by
  obtain ⟨pre, b, post, rfl, hr, rfl⟩ := mem_grants len request hdr h
  exact ⟨_, b, (mem_placed_iff len).mpr ⟨pre, post, rfl, rfl⟩, hr, rfl⟩

/-- There is one grant at an address. -/
theorem grants_unique (hpos : ∀ b : β, 0 < len b) {a : ℕ} {bs : List β} {g h : ℕ × ℕ}
    (hg : g ∈ grants len request hdr a bs) (hh : h ∈ grants len request hdr a bs) (he : g.1 = h.1) :
    g = h := by
  obtain ⟨x, b, hx, hb, hgx⟩ := placed_of_grants len request hdr hg
  obtain ⟨y, c, hy, hc, hhy⟩ := placed_of_grants len request hdr hh
  have hxy : x = y := by omega
  subst hxy
  have hlen := hpos b
  have hlen' := hpos c
  rcases placed_apart len hx hy with hbc | hlt | hlt
  · cases hbc
    rw [hb] at hc
    exact Prod.ext he (Option.some.inj hc)
  · dsimp only at hlt
    omega
  · dsimp only at hlt
    omega

/-- Grants that lie in their blocks share no address. -/
theorem grants_apart {within : ℕ → ℕ → ℕ → Prop} {a z : ℕ} {bs : List β} {g h : ℕ × ℕ}
    (hin : ∀ x b r, (x, b) ∈ placed len a bs → request b = some r → within (x + hdr) r z → x ≤ z ∧ z < x + len b)
    (hg : g ∈ grants len request hdr a bs) (hh : h ∈ grants len request hdr a bs)
    (hgz : within g.1 g.2 z) (hhz : within h.1 h.2 z) : g = h := by
  obtain ⟨x, b, hx, hb, hgx⟩ := placed_of_grants len request hdr hg
  obtain ⟨y, c, hy, hc, hhy⟩ := placed_of_grants len request hdr hh
  rw [hgx] at hgz
  rw [hhy] at hhz
  obtain ⟨hxz, hzx⟩ := hin x b g.2 hx hb hgz
  obtain ⟨hyz, hzy⟩ := hin y c h.2 hy hc hhz
  rcases placed_apart len hx hy with he | hlt | hlt
  · cases he
    rw [hb] at hc
    exact Prod.ext (hgx.trans hhy.symm) (Option.some.inj hc)
  · dsimp only at hlt
    omega
  · dsimp only at hlt
    omega

/-- What holds of any two grants in order relates a new one to each of the others. -/
theorem new_grant_related {R : ℕ × ℕ → ℕ × ℕ → Prop} {g : ℕ × ℕ} {live gs : List (ℕ × ℕ)}
    (hp : (g :: live).Perm gs) (hr : gs.Pairwise R) : ∀ h ∈ live, R g h ∨ R h g := by
  have hboth : gs.Pairwise (fun x y => R x y ∨ R y x) := hr.imp Or.inl
  have hlive := (hp.pairwise_iff fun h => h.symm).mpr hboth
  exact (List.pairwise_cons.mp hlive).1

/-! ### No two neighbours of one kind -/

variable {len request hdr}

/-- No two blocks next to each other satisfy `free`. -/
def Coalesced (free : β → Bool) (bs : List β) : Prop :=
  bs.IsChain (fun b c => ¬ (free b = true ∧ free c = true))

theorem coalesced_append_cons {free : β → Bool} {xs ys : List β} {b : β} :
    Coalesced free (xs ++ b :: ys) ↔
      Coalesced free xs ∧ Coalesced free ys ∧
        (∀ l, xs.getLast? = some l → ¬ (free l = true ∧ free b = true)) ∧
        (∀ h, ys.head? = some h → ¬ (free b = true ∧ free h = true)) := by
  unfold Coalesced
  rw [List.isChain_append, List.isChain_cons]
  simp only [List.head?_cons, Option.mem_def, Option.some.injEq]
  constructor
  · rintro ⟨hx, ⟨hb, hy⟩, hl⟩
    exact ⟨hx, hy, fun l h => hl l h b rfl, fun h hh => hb h hh⟩
  · rintro ⟨hx, hy, hl, hb⟩
    refine ⟨hx, ⟨fun h hh => hb h hh, hy⟩, ?_⟩
    rintro l h _ rfl
    exact hl l h

theorem coalesced_all_free {free : β → Bool} {bs : List β} (h : Coalesced free bs)
    (hf : ∀ b ∈ bs, free b = true) : bs.length ≤ 1 := by
  cases bs with
  | nil => simp
  | cons b bs =>
    cases bs with
    | nil => simp
    | cons c bs =>
      exact absurd ⟨hf b (by simp), hf c (by simp)⟩ (List.isChain_cons_cons.mp h).1

/-! ### Joining a free block with its free neighbours -/

variable (free : β → Bool) (join : β → β → β)

/-- A free block joined with a free block right behind it. -/
def joinRight (v : β) : List β → List β
  | [] => [v]
  | c :: ys => if free c then join v c :: ys else v :: c :: ys

/-- The blocks `pre` and a free block `v` behind them, `v` joined with a free block
right before it, are the blocks `xs` and `w`. -/
inductive JoinLeft : List β → β → List β → β → Prop
  | alone {pre : List β} {v : β} (h : ∀ l, pre.getLast? = some l → free l = false) :
      JoinLeft pre v pre v
  | joined {xs : List β} {f v : β} (h : free f = true) : JoinLeft (xs ++ [f]) v xs (join f v)

/-- Joining free blocks gives a free block of their length. -/
structure Joins (len : β → ℕ) : Prop where
  len_join : ∀ x y, free x = true → free y = true → len (join x y) = len x + len y
  free_join : ∀ x y, free x = true → free y = true → free (join x y) = true

variable {free join} {pre xs ys : List β} {v w : β}

theorem joinLeft_exists (free : β → Bool) (join : β → β → β) (pre : List β) (v : β) :
    ∃ xs w, JoinLeft free join pre v xs w := by
  cases hl : pre.getLast? with
  | none =>
    refine ⟨pre, v, JoinLeft.alone ?_⟩
    intro l h
    rw [hl] at h
    cases h
  | some f =>
    obtain ⟨xs, rfl⟩ := List.getLast?_eq_some_iff.mp hl
    cases hf : free f with
    | true => exact ⟨xs, _, JoinLeft.joined hf⟩
    | false =>
      refine ⟨xs ++ [f], v, JoinLeft.alone ?_⟩
      intro l h
      rw [hl] at h
      cases h
      exact hf

theorem JoinLeft.free_eq (hj : Joins free join len) (h : JoinLeft free join pre v xs w)
    (hv : free v = true) : free w = true := by
  cases h with
  | alone h => exact hv
  | joined h => exact hj.free_join _ _ h hv

theorem JoinLeft.span_eq (hj : Joins free join len) (h : JoinLeft free join pre v xs w)
    (hv : free v = true) : span len xs + len w = span len pre + len v := by
  cases h with
  | alone h => rfl
  | joined h =>
    rw [hj.len_join _ _ h hv, span_append, span_cons, span_nil]
    omega

/-- Only the first block changes, and it is free. -/
theorem joinRight_eq (hj : Joins free join len) (ys : List β) (hv : free v = true) :
    ∃ w zs, joinRight free join v ys = w :: zs ∧ free w = true ∧
      len w + span len zs = len v + span len ys ∧
      ((w = v ∧ zs = ys ∧ ∀ c, zs.head? = some c → free c = false) ∨
        ∃ c, ys = c :: zs ∧ free c = true ∧ w = join v c) := by
  cases ys with
  | nil => exact ⟨v, [], rfl, hv, rfl, Or.inl ⟨rfl, rfl, fun c hc => by cases hc⟩⟩
  | cons c ys =>
    rw [joinRight]
    cases hc : free c with
    | true =>
      refine ⟨join v c, ys, rfl, hj.free_join v c hv hc, ?_, Or.inr ⟨c, rfl, hc, rfl⟩⟩
      rw [hj.len_join v c hv hc, span_cons]
      omega
    | false =>
      refine ⟨v, c :: ys, rfl, hv, rfl, Or.inl ⟨rfl, rfl, ?_⟩⟩
      intro d hd
      cases hd
      exact hc

theorem span_joinRight (hj : Joins free join len) (ys : List β) (hv : free v = true) :
    span len (joinRight free join v ys) = len v + span len ys := by
  obtain ⟨w, zs, he, -, hlen, -⟩ := joinRight_eq hj ys hv
  rw [he, span_cons, hlen]

theorem JoinLeft.coalesced (hj : Joins free join len) (h : JoinLeft free join pre v xs w)
    (hv : free v = true) {b : β} (hc : Coalesced free (pre ++ b :: ys)) :
    Coalesced free (xs ++ joinRight free join w ys) := by
  obtain ⟨hpre, hpost, -, -⟩ := coalesced_append_cons.mp hc
  have hw := h.free_eq hj hv
  obtain ⟨u, zs, he, hu, -, hcase⟩ := joinRight_eq hj ys hw
  have htail : Coalesced free zs ∧ ∀ c, zs.head? = some c → free c = false := by
    rcases hcase with ⟨-, rfl, hhead⟩ | ⟨c, rfl, hfree, -⟩
    · exact ⟨hpost, hhead⟩
    · have hpost' : Coalesced free ([] ++ c :: zs) := hpost
      obtain ⟨-, hzs, -, hhead⟩ := coalesced_append_cons.mp hpost'
      exact ⟨hzs, fun d hd => by simpa [hfree] using hhead d hd⟩
  have hlast : Coalesced free xs ∧ ∀ l, xs.getLast? = some l → free l = false := by
    cases h with
    | alone hl => exact ⟨hpre, hl⟩
    | joined hf =>
      obtain ⟨hxs, -, hl, -⟩ := coalesced_append_cons.mp hpre
      exact ⟨hxs, fun d hd => by simpa [hf] using hl d hd⟩
  rw [he]
  apply coalesced_append_cons.mpr
  exact ⟨hlast.1, htail.1, fun l hl => by simp [hlast.2 l hl], fun c hc => by simp [htail.2 c hc]⟩

/-- Joining changes nothing of what is read off the blocks that are not free. -/
theorem filterMap_joinRight (hj : Joins free join len) {γ : Type*} {f : ℕ × β → Option γ}
    (hf : ∀ a b, free b = true → f (a, b) = none) (a : ℕ) (ys : List β) (hv : free v = true) :
    (placed len a (joinRight free join v ys)).filterMap f =
      (placed len (a + len v) ys).filterMap f := by
  obtain ⟨w, zs, he, hw, -, hcase⟩ := joinRight_eq hj ys hv
  rw [he, placed_cons, List.filterMap_cons_none (hf a w hw)]
  rcases hcase with ⟨rfl, rfl, -⟩ | ⟨c, rfl, hc, rfl⟩
  · rfl
  · rw [placed_cons, List.filterMap_cons_none (hf _ c hc), hj.len_join v c hv hc, Nat.add_assoc]

theorem JoinLeft.filterMap_eq {γ : Type*} {f : ℕ × β → Option γ}
    (hf : ∀ a b, free b = true → f (a, b) = none) (h : JoinLeft free join pre v xs w) (a : ℕ) :
    (placed len a xs).filterMap f = (placed len a pre).filterMap f := by
  cases h with
  | alone h => rfl
  | joined h => simp [placed_append, hf _ _ h]

/-- Joining a free block with its free neighbours changes no grant. -/
theorem JoinLeft.grants_eq (hj : Joins free join len) {request : β → Option ℕ} (hdr : ℕ)
    (hr : ∀ b, free b = true → request b = none) (h : JoinLeft free join pre v xs w)
    (hv : free v = true) (a : ℕ) (post : List β) :
    grants len request hdr a (xs ++ joinRight free join w post) =
      grants len request hdr a pre ++ grants len request hdr (a + span len pre + len v) post := by
  have hspan := h.span_eq hj hv
  have hnone (a : ℕ) (b : β) (hb : free b = true) : grant request hdr (a, b) = none := by
    rw [grant, hr b hb]
    rfl
  have hleft : grants len request hdr a xs = grants len request hdr a pre := h.filterMap_eq hnone a
  have hright : grants len request hdr (a + span len xs) (joinRight free join w post) =
      grants len request hdr (a + span len xs + len w) post :=
    filterMap_joinRight hj hnone _ post (h.free_eq hj hv)
  rw [grants_append, hleft, hright]
  congr 2
  omega

end MaiFaSp.Tiling
