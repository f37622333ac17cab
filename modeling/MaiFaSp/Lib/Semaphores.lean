import Mathlib.Algebra.BigOperators.Fin
import Mathlib.Data.Fintype.BigOperators
import Mathlib.Logic.Relation
import Mathlib.Tactic

/-!
# Counting semaphores and sequential processes

Processes that each run a list of actions: taking a unit of a semaphore, which waits until
there is one, returning a unit, or something that concerns no semaphore. The actions of
different processes happen in any order.
-/

namespace MaiFaSp.Semaphores

inductive Action (σ : Type*) where
  | down (s : σ)
  | up (s : σ)
  | skip
  deriving Repr, DecidableEq

/-- What a process has done and what it has still to do. -/
structure Process (σ : Type*) where
  done : List (Action σ)
  rest : List (Action σ)

structure Config (ι σ : Type*) where
  value : σ → ℕ
  process : ι → Process σ

variable {ι σ : Type*} [DecidableEq σ]

/-- The semaphores after an action that can complete; `none` while it has to wait. -/
def act (value : σ → ℕ) : Action σ → Option (σ → ℕ)
  | .down s => if 0 < value s then some (Function.update value s (value s - 1)) else none
  | .up s => some (Function.update value s (value s + 1))
  | .skip => some value

/-- The units of `s` that these actions have taken and not returned. -/
def balance (acts : List (Action σ)) (s : σ) : ℤ :=
  (acts.count (.down s) : ℤ) - acts.count (.up s)

/-- Process `i` holds units of `s`. -/
def Holds (c : Config ι σ) (i : ι) (s : σ) : Prop := 0 < balance (c.process i).done s

def Finished (c : Config ι σ) (i : ι) : Prop := (c.process i).rest = []

/-- The next action of process `i` can complete. -/
def CanStep (c : Config ι σ) (i : ι) : Prop :=
  ∃ a rest, (c.process i).rest = a :: rest ∧ (act c.value a).isSome

/-- The next action of process `i` on a semaphore can complete. -/
def CanOperate (c : Config ι σ) (i : ι) : Prop :=
  ∃ a rest, (c.process i).rest.dropWhile (· = .skip) = a :: rest ∧ (act c.value a).isSome

section Runs

variable [DecidableEq ι]

inductive Step : Config ι σ → Config ι σ → Prop
  | act {value value' : σ → ℕ} {process : ι → Process σ} {i : ι} {done rest : List (Action σ)}
      {a : Action σ} (hnext : process i = ⟨done, a :: rest⟩) (hact : act value a = some value') :
      Step ⟨value, process⟩ ⟨value', Function.update process i ⟨done ++ [a], rest⟩⟩

def initial (value : σ → ℕ) (program : ι → List (Action σ)) : Config ι σ :=
  ⟨value, fun i => ⟨[], program i⟩⟩

def Reachable (value : σ → ℕ) (program : ι → List (Action σ)) (c : Config ι σ) : Prop :=
  Relation.ReflTransGen Step (initial value program) c

end Runs

/-! ### Balances -/

@[simp] theorem balance_nil (s : σ) : balance [] s = 0 := rfl

theorem balance_append (xs ys : List (Action σ)) (s : σ) :
    balance (xs ++ ys) s = balance xs s + balance ys s := by
  unfold balance
  rw [List.count_append, List.count_append]
  push_cast
  ring

theorem act_balance {value value' : σ → ℕ} {a : Action σ} (h : act value a = some value') (s : σ) :
    (value' s : ℤ) + balance [a] s = value s := by
  cases a with
  | down t =>
    change (if 0 < value t then some (Function.update value t (value t - 1)) else none) =
      some value' at h
    split at h
    case isTrue hpos =>
      obtain rfl := Option.some.inj h
      by_cases hst : s = t
      · subst hst
        rw [Function.update_self]
        simp [balance]
        omega
      · rw [Function.update_of_ne hst]
        simp [balance, Ne.symm hst]
    case isFalse hpos => cases h
  | up t =>
    obtain rfl := Option.some.inj h
    by_cases hst : s = t
    · subst hst
      rw [Function.update_self]
      simp [balance]
    · rw [Function.update_of_ne hst]
      simp [balance, Ne.symm hst]
  | skip =>
    obtain rfl := Option.some.inj h
    simp [balance]

theorem CanStep.step [DecidableEq ι] {c : Config ι σ} {i : ι} (h : CanStep c i) :
    ∃ c', Step c c' := by
  obtain ⟨a, rest, hrest, hact⟩ := h
  obtain ⟨value', hvalue⟩ := Option.isSome_iff_exists.mp hact
  obtain ⟨value, process⟩ := c
  have hnext : process i = ⟨(process i).done, a :: rest⟩ := congrArg (Process.mk _) hrest
  exact ⟨_, .act hnext hvalue⟩

/-! ### What every run keeps -/

section Invariant

variable [DecidableEq ι] {value : σ → ℕ} {program : ι → List (Action σ)} {c : Config ι σ}

/-- Each process has done a part of its program. -/
theorem Reachable.done_append_rest (h : Reachable value program c) (i : ι) :
    (c.process i).done ++ (c.process i).rest = program i := by
  induction h with
  | refl => rfl
  | tail _ hstep ih =>
    cases hstep with
    | @act _ _ process j done rest a hnext hact =>
      dsimp only at ih ⊢
      by_cases hij : i = j
      · subst hij
        rw [hnext] at ih
        rw [Function.update_self, ← ih, List.append_assoc]
        rfl
      · rw [Function.update_of_ne hij]
        exact ih

/-- The units of a semaphore are those that are free and those that the processes hold. -/
theorem Reachable.conserved [Fintype ι] (h : Reachable value program c) (s : σ) :
    (c.value s : ℤ) + ∑ i, balance (c.process i).done s = value s := by
  induction h with
  | refl => simp [initial]
  | tail _ hstep ih =>
    cases hstep with
    | @act value₁ value₂ process j done rest a hnext hact =>
      have hone := act_balance hact s
      have hsum : ∑ i, balance (Function.update process j ⟨done ++ [a], rest⟩ i).done s =
          (∑ i, balance (process i).done s) + balance [a] s := by
        have hsplit := fun f : ι → ℤ => (Finset.add_sum_erase Finset.univ f (Finset.mem_univ j))
        rw [← hsplit, ← hsplit (fun i => balance (process i).done s), Function.update_self, hnext,
          balance_append]
        have hrest : ∑ i ∈ Finset.univ.erase j,
              balance (Function.update process j ⟨done ++ [a], rest⟩ i).done s =
            ∑ i ∈ Finset.univ.erase j, balance (process i).done s := by
          refine Finset.sum_congr rfl (fun i hi => ?_)
          rw [Function.update_of_ne (Finset.ne_of_mem_erase hi)]
        rw [hrest]
        ring
      show (value₂ s : ℤ) + _ = _
      rw [hsum, ← ih, ← hone]
      show _ = (value₂ s : ℤ) + balance [a] s + _
      ring

omit [DecidableEq ι] in
/-- A process that cannot go on waits for a semaphore without free units. -/
theorem waits_of_stuck {i : ι} (h : ¬ CanStep c i) (hrest : ¬ Finished c i) :
    ∃ s rest, (c.process i).rest = .down s :: rest ∧ c.value s = 0 := by
  cases hr : (c.process i).rest with
  | nil => exact absurd hr hrest
  | cons a rest =>
    have hnone : ¬ (act c.value a).isSome := fun hs => h ⟨a, rest, hr, hs⟩
    cases a with
    | down s =>
      refine ⟨s, rest, rfl, ?_⟩
      by_contra hne
      refine hnone ?_
      show (if 0 < c.value s then some _ else none).isSome
      rw [if_pos (Nat.pos_of_ne_zero hne)]
      rfl
    | up s => exact absurd rfl hnone
    | skip => exact absurd rfl hnone

/-- A semaphore that had units and has none left is held by a process. -/
theorem Reachable.holder [Fintype ι] (h : Reachable value program c) {s : σ}
    (hvalue : 0 < value s) (hnone : c.value s = 0) : ∃ i, Holds c i s := by
  have hcons := h.conserved s
  rw [hnone, Nat.cast_zero, zero_add] at hcons
  have hpos : ∑ i : ι, (0 : ℤ) < ∑ i, balance (c.process i).done s := by
    rw [hcons, Finset.sum_const_zero]
    exact_mod_cast hvalue
  obtain ⟨i, -, hi⟩ := Finset.exists_lt_of_sum_lt hpos
  exact ⟨i, hi⟩

/-- Processes that hold units of a semaphore are not more than it had, when no process has
returned more than it took. -/
theorem Reachable.card_holders [Fintype ι] (h : Reachable value program c) (s : σ)
    (hnonneg : ∀ i, 0 ≤ balance (c.process i).done s) {holders : Finset ι}
    (hholds : ∀ i ∈ holders, Holds c i s) : holders.card ≤ value s := by
  have hcons := h.conserved s
  have hsum : ∑ i ∈ holders, (1 : ℤ) ≤ ∑ i, balance (c.process i).done s :=
    calc
      ∑ i ∈ holders, (1 : ℤ) ≤ ∑ i ∈ holders, balance (c.process i).done s :=
        Finset.sum_le_sum (fun i hi => hholds i hi)
      _ ≤ ∑ i, balance (c.process i).done s :=
        Finset.sum_le_sum_of_subset_of_nonneg (Finset.subset_univ _) (fun i _ _ => hnonneg i)
  rw [Finset.sum_const, nsmul_one] at hsum
  have hcast : (holders.card : ℤ) ≤ value s := by
    have hfree : (0 : ℤ) ≤ c.value s := Int.natCast_nonneg _
    omega
  exact_mod_cast hcast

end Invariant

/-! ### Programs that repeat a round -/

section Rounds

variable {round done rest : List (Action σ)} {s : σ} {n : ℕ}

theorem balance_rounds (h : balance round s = 0) (n : ℕ) :
    balance (List.replicate n round).flatten s = 0 := by
  induction n with
  | zero => rfl
  | succ n ih => rw [List.replicate_succ, List.flatten_cons, balance_append, h, ih, add_zero]

omit [DecidableEq σ] in
/-- An unfinished process is at a place `p` of a round. -/
theorem place_of_rounds (h : done ++ rest = (List.replicate n round).flatten) (hrest : rest ≠ []) :
    ∃ m k p, p < round.length ∧ done = (List.replicate m round).flatten ++ round.take p ∧
      rest = round.drop p ++ (List.replicate k round).flatten := by
  induction n generalizing done with
  | zero => exact absurd (List.append_eq_nil_iff.mp h).2 hrest
  | succ n ih =>
    rw [List.replicate_succ, List.flatten_cons] at h
    have hlater : ∀ done', done' ++ rest = (List.replicate n round).flatten →
        done = round ++ done' → ∃ m k p, p < round.length ∧
          done = (List.replicate m round).flatten ++ round.take p ∧
            rest = round.drop p ++ (List.replicate k round).flatten := by
      intro done' hdone' hdone
      obtain ⟨m, k, p, hp, hm, hk⟩ := ih hdone'
      refine ⟨m + 1, k, p, hp, ?_, hk⟩
      rw [hdone, hm, List.replicate_succ, List.flatten_cons, List.append_assoc]
    rcases List.append_eq_append_iff.mp h with ⟨left, hround, hr⟩ | ⟨done', hd, hn⟩
    · by_cases hleft : left = []
      · subst hleft
        rw [List.append_nil] at hround
        refine hlater [] ?_ (by rw [List.append_nil, hround])
        rw [List.nil_append, hr, List.nil_append]
      · refine ⟨0, n, done.length, ?_, ?_, ?_⟩
        · rw [hround, List.length_append]
          have hpos := List.length_pos_of_ne_nil hleft
          omega
        · have htake : round.take done.length = done := by rw [hround, List.take_left]
          rw [htake]
          rfl
        · have hdrop : round.drop done.length = left := by rw [hround, List.drop_left]
          rw [hdrop, hr]
    · exact hlater done' hn.symm hd

end Rounds

end MaiFaSp.Semaphores
