import Mathlib.Data.List.Basic
import Mathlib.Data.List.Nodup
import Mathlib.Tactic

/-!
# Singly linked chains

Cells at addresses, each with the address of the next cell and a value. A chain of
cells ends at an address `tail`; it is null-terminated when no cell is at `tail`.
-/

namespace MaiFaSp.LinkedChain

variable {α : Type}

/-- The cells at `as` hold the values `vs`, each is linked to the next and the last to `tail`. -/
def Chain (cell : ℕ → Option (ℕ × α)) : List ℕ → List α → ℕ → Prop
  | [], [], _ => True
  | a :: as, v :: vs, tail => cell a = some (as.headD tail, v) ∧ Chain cell as vs tail
  | _, _, _ => False

/-- The addresses from `a` on, following the links until address 0. -/
def follow (cell : ℕ → Option (ℕ × α)) : ℕ → ℕ → Option (List ℕ)
  | 0, _ => none
  | steps + 1, a =>
    if a = 0 then some []
    else
      match cell a with
      | none => none
      | some (next, _) => (follow cell steps next).map (a :: ·)

variable {cell cell' : ℕ → Option (ℕ × α)} {as bs : List ℕ} {vs ws : List α} {a b tail next : ℕ}
  {v w : α}

theorem chain_nil : Chain cell [] [] tail := trivial

theorem chain_cons :
    Chain cell (a :: as) (v :: vs) tail ↔ cell a = some (as.headD tail, v) ∧ Chain cell as vs tail :=
  Iff.rfl

theorem Chain.length_eq (h : Chain cell as vs tail) : as.length = vs.length := by
  induction as generalizing vs with
  | nil =>
    cases vs with
    | nil => rfl
    | cons v vs => cases h
  | cons a as ih =>
    cases vs with
    | nil => cases h
    | cons v vs => rw [List.length_cons, List.length_cons, ih h.2]

theorem Chain.congr (h : Chain cell as vs tail) (heq : ∀ a ∈ as, cell' a = cell a) :
    Chain cell' as vs tail := by
  induction as generalizing vs with
  | nil =>
    cases vs with
    | nil => exact chain_nil
    | cons v vs => cases h
  | cons a as ih =>
    cases vs with
    | nil => cases h
    | cons v vs =>
      refine chain_cons.mpr ⟨?_, ih h.2 fun b hb => heq b (List.mem_cons_of_mem a hb)⟩
      rw [heq a List.mem_cons_self]
      exact h.1

theorem Chain.mem (h : Chain cell as vs tail) (ha : a ∈ as) :
    ∃ next v, cell a = some (next, v) := by
  induction as generalizing vs with
  | nil => cases ha
  | cons b as ih =>
    cases vs with
    | nil => cases h
    | cons v vs =>
      rcases List.mem_cons.mp ha with rfl | ha
      · exact ⟨_, v, h.1⟩
      · exact ih h.2 ha

theorem headD_append (as bs : List ℕ) (tail : ℕ) :
    (as ++ bs).headD tail = as.headD (bs.headD tail) := by
  cases as with
  | nil => rfl
  | cons a as => rfl

/-- A chain cut in two. -/
theorem chain_append (hlen : as.length = vs.length) :
    Chain cell (as ++ bs) (vs ++ ws) tail ↔
      Chain cell as vs (bs.headD tail) ∧ Chain cell bs ws tail := by
  induction as generalizing vs with
  | nil =>
    cases vs with
    | nil => exact ⟨fun h => ⟨chain_nil, h⟩, fun h => h.2⟩
    | cons v vs => cases hlen
  | cons a as ih =>
    cases vs with
    | nil => cases hlen
    | cons v vs =>
      rw [List.cons_append, List.cons_append, chain_cons, chain_cons, headD_append,
        ih (Nat.succ.inj hlen), and_assoc]

theorem Chain.split {us : List α} (h : Chain cell (as ++ bs) us tail) :
    ∃ vs ws, us = vs ++ ws ∧ as.length = vs.length ∧ Chain cell as vs (bs.headD tail) ∧
      Chain cell bs ws tail := by
  have hle : as.length ≤ us.length := by
    have hlen := h.length_eq
    rw [List.length_append] at hlen
    omega
  have htake : as.length = (us.take as.length).length := by
    rw [List.length_take, min_eq_left hle]
  rw [← List.take_append_drop as.length us] at h
  exact ⟨us.take as.length, us.drop as.length, (List.take_append_drop as.length us).symm, htake,
    (chain_append htake).mp h⟩

theorem Chain.last (h : Chain cell (a :: as) (v :: vs) tail) :
    cell (as.getLastD a) = some (tail, vs.getLastD v) := by
  induction as generalizing a v vs with
  | nil =>
    cases vs with
    | nil => exact h.1
    | cons w vs => cases h.2
  | cons b as ih =>
    cases vs with
    | nil => cases h.2
    | cons w vs =>
      rw [List.getLastD_cons, List.getLastD_cons]
      exact ih h.2

/-- Links lead one way: chains from one address to an end without a cell are the same. -/
theorem Chain.unique (h : Chain cell as vs tail) (h' : Chain cell bs ws tail)
    (htail : cell tail = none) (hhead : as.headD tail = bs.headD tail) : as = bs := by
  induction as generalizing vs bs ws with
  | nil =>
    cases bs with
    | nil => rfl
    | cons b bs =>
      obtain ⟨next, w, hb⟩ := h'.mem List.mem_cons_self
      rw [List.headD_nil, List.headD_cons] at hhead
      rw [← hhead, htail] at hb
      cases hb
  | cons a as ih =>
    cases bs with
    | nil =>
      obtain ⟨next, w, ha⟩ := h.mem List.mem_cons_self
      rw [List.headD_nil, List.headD_cons] at hhead
      rw [hhead, htail] at ha
      cases ha
    | cons b bs =>
      cases vs with
      | nil => cases h
      | cons v vs =>
        cases ws with
        | nil => cases h'
        | cons w ws =>
          obtain rfl : a = b := hhead
          have hnext := h.1.symm.trans h'.1
          rw [Option.some.injEq, Prod.mk.injEq] at hnext
          rw [ih h.2 h'.2 hnext.1]

/-- A chain that ends does not come back to a cell. -/
theorem Chain.nodup (h : Chain cell as vs tail) (htail : cell tail = none) : as.Nodup := by
  induction as generalizing vs with
  | nil => exact List.nodup_nil
  | cons a as ih =>
    cases vs with
    | nil => cases h
    | cons v vs =>
      refine List.nodup_cons.mpr ⟨fun ha => ?_, ih h.2⟩
      obtain ⟨l, r, rfl⟩ := List.append_of_mem ha
      obtain ⟨-, ws, -, -, -, hcut⟩ := h.2.split
      have heq : a :: (l ++ a :: r) = a :: r := h.unique hcut htail rfl
      have hlen := congrArg List.length heq
      simp only [List.length_cons, List.length_append] at hlen
      omega

/-- A new value in one cell. -/
theorem Chain.update (h : Chain cell (as ++ a :: bs) (vs ++ v :: ws) tail)
    (hlen : as.length = vs.length) (ha : cell' a = some (bs.headD tail, w))
    (hothers : ∀ b ∈ as ++ bs, cell' b = cell b) :
    Chain cell' (as ++ a :: bs) (vs ++ w :: ws) tail := by
  obtain ⟨hleft, -, hright⟩ := (chain_append hlen).mp h
  refine (chain_append hlen).mpr ⟨?_, chain_cons.mpr ⟨ha, ?_⟩⟩
  · exact hleft.congr fun b hb => hothers b (List.mem_append_left _ hb)
  · exact hright.congr fun b hb => hothers b (List.mem_append_right _ hb)

/-- A new cell behind another one. -/
theorem Chain.insert {c : ℕ} {u : α} (h : Chain cell (as ++ a :: bs) (vs ++ v :: ws) tail)
    (hlen : as.length = vs.length) (ha : cell' a = some (c, w))
    (hc : cell' c = some (bs.headD tail, u)) (hothers : ∀ b ∈ as ++ bs, cell' b = cell b) :
    Chain cell' (as ++ a :: c :: bs) (vs ++ w :: u :: ws) tail := by
  obtain ⟨hleft, -, hright⟩ := (chain_append hlen).mp h
  refine (chain_append hlen).mpr ⟨?_, chain_cons.mpr ⟨ha, chain_cons.mpr ⟨hc, ?_⟩⟩⟩
  · exact hleft.congr fun b hb => hothers b (List.mem_append_left _ hb)
  · exact hright.congr fun b hb => hothers b (List.mem_append_right _ hb)

theorem Chain.follow_eq (h : Chain cell as vs 0) (hnull : cell 0 = none) {steps : ℕ}
    (hsteps : as.length < steps) : follow cell steps (as.headD 0) = some as := by
  induction as generalizing vs steps with
  | nil =>
    obtain ⟨steps, rfl⟩ := Nat.exists_eq_add_of_lt hsteps
    rfl
  | cons a as ih =>
    cases vs with
    | nil => cases h
    | cons v vs =>
      obtain ⟨steps, rfl⟩ := Nat.exists_eq_succ_of_ne_zero (Nat.ne_zero_of_lt hsteps)
      have ha : a ≠ 0 := by
        rintro rfl
        have hcell := h.1
        rw [hnull] at hcell
        cases hcell
      have hnext := ih h.2 (Nat.lt_of_succ_lt_succ hsteps)
      rw [List.headD_cons, follow, if_neg ha, h.1]
      show (follow cell steps (as.headD 0)).map _ = _
      rw [hnext]
      rfl

end MaiFaSp.LinkedChain
