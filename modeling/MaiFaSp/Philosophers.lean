import MaiFaSp.Lib.Semaphores

/-!
# Dining philosophers (`task3/main.c`)

Five processes with the numbers 1, 3, 5, 7 and 9 and the forks 0, 2, 4, 6, 8 between them.
Semaphore 0 is the doorkeeper; the forks 0 and 10 are one fork.
-/

namespace MaiFaSp.Philosophers

open Semaphores

/-- `struct sembuf`, without flags. -/
structure SemBuf where
  semNum : Fin 6
  semOp : ℤ
  deriving Repr, DecidableEq

def up0 : SemBuf := ⟨0, 1⟩
def down0 : SemBuf := ⟨0, -1⟩

def takefork1 : SemBuf := ⟨1, -1⟩
def returnfork1 : SemBuf := ⟨1, 1⟩

def takefork2 : SemBuf := ⟨2, -1⟩
def returnfork2 : SemBuf := ⟨2, 1⟩

def takefork3 : SemBuf := ⟨3, -1⟩
def returnfork3 : SemBuf := ⟨3, 1⟩

def takefork4 : SemBuf := ⟨4, -1⟩
def returnfork4 : SemBuf := ⟨4, 1⟩

def takefork5 : SemBuf := ⟨5, -1⟩
def returnfork5 : SemBuf := ⟨5, 1⟩

/-- `semop` of one operation, all of which are by one unit. -/
def semop (b : SemBuf) : Action (Fin 6) := if b.semOp < 0 then .down b.semNum else .up b.semNum

/-- The operation of `take_fork`; its default branch makes none and fails. -/
def takeFork : ℕ → Option SemBuf
  | 0 => some takefork1
  | 2 => some takefork2
  | 4 => some takefork3
  | 6 => some takefork4
  | 8 => some takefork5
  | 10 => some takefork1
  | _ => none

/-- The operation of `return_fork`, which has no default branch. -/
def returnFork : ℕ → Option SemBuf
  | 0 => some returnfork1
  | 2 => some returnfork2
  | 4 => some returnfork3
  | 6 => some returnfork4
  | 8 => some returnfork5
  | 10 => some returnfork1
  | _ => none

/-- The body of the loop of `main`; `none` when taking a fork fails. -/
def round (id : ℕ) : Option (List (Action (Fin 6))) := do
  let left ← takeFork (id - 1)
  let right ← takeFork (id + 1)
  pure ([semop down0, semop left, semop right, .skip] ++
    (returnFork (id - 1)).toList.map semop ++ (returnFork (id + 1)).toList.map semop ++ [semop up0])

/-- `for (; i < 10; i += 2)` from 1 on. -/
def ids (i : Fin 5) : ℕ := 2 * i + 1

/-- What the process of philosopher `i` does in a number of rounds. -/
def philosopher (rounds : ℕ) (i : Fin 5) : List (Action (Fin 6)) :=
  (List.replicate rounds ((round (ids i)).getD [])).flatten

/-- The values set with `semctl`. -/
def values : Fin 6 → ℕ := ![2, 1, 1, 1, 1, 1]

/-! ### One round -/

def leftFork (i : Fin 5) : Fin 6 := i.succ

def rightFork (i : Fin 5) : Fin 6 := (i + 1).succ

def roundOf (i : Fin 5) : List (Action (Fin 6)) :=
  [.down 0, .down (leftFork i), .down (rightFork i), .skip,
    .up (leftFork i), .up (rightFork i), .up 0]

theorem round_ids (i : Fin 5) : round (ids i) = some (roundOf i) := by
  revert i
  decide

theorem balance_roundOf (i : Fin 5) (s : Fin 6) : balance (roundOf i) s = 0 := by
  revert i s
  decide

theorem place_nonneg : ∀ (i : Fin 5) (p : Fin 7) (s : Fin 6), 0 ≤ balance ((roundOf i).take p) s := by
  decide

theorem place_door : ∀ (i : Fin 5) (p : Fin 7) (s : Fin 6), 0 < balance ((roundOf i).take p) s →
    0 < balance ((roundOf i).take p) 0 := by
  decide

/-- The three places at which a philosopher takes a unit, and what it holds there. -/
theorem place_takes : ∀ (i : Fin 5) (p : Fin 7) (s : Fin 6), (roundOf i)[(p : ℕ)]? = some (.down s) →
    (s = 0 ∧ ¬ 0 < balance ((roundOf i).take p) 0) ∨
    (s = leftFork i ∧ 0 < balance ((roundOf i).take p) 0 ∧
      ∀ f, f ≠ 0 → ¬ 0 < balance ((roundOf i).take p) f) ∨
    (s = rightFork i ∧ 0 < balance ((roundOf i).take p) 0 ∧
      ∀ f, f ≠ 0 → 0 < balance ((roundOf i).take p) f → f = leftFork i) := by
  decide

theorem place_eats : ∀ (i : Fin 5) (p : Fin 7), (roundOf i)[(p : ℕ)]? = some .skip →
    (roundOf i).drop p = [.skip, .up (leftFork i), .up (rightFork i), .up 0] := by
  decide

theorem left_ne_right : ∀ i : Fin 5, rightFork i ≠ leftFork i := by
  decide

/-- Two philosophers do not share both of their forks. -/
theorem forks_differ : ∀ i j : Fin 5, leftFork i = rightFork j → rightFork i ≠ leftFork j := by
  decide

theorem fork_ne_zero (i : Fin 5) : leftFork i ≠ 0 ∧ rightFork i ≠ 0 :=
  ⟨Fin.succ_ne_zero _, Fin.succ_ne_zero _⟩

theorem values_pos (s : Fin 6) : 0 < values s := by
  revert s
  decide

theorem values_fork {f : Fin 6} (h : f ≠ 0) : values f = 1 := by
  revert f
  decide

/-! ### Any number of rounds, in any order -/

/-- Every philosopher with its own number of rounds. -/
def Run (rounds : Fin 5 → ℕ) (c : Config (Fin 5) (Fin 6)) : Prop :=
  Reachable values (fun i => philosopher (rounds i) i) c

section Run

variable {rounds : Fin 5 → ℕ} {c : Config (Fin 5) (Fin 6)}

theorem Run.place (h : Run rounds c) (i : Fin 5) :
    (Finished c i ∧ ∀ s, balance (c.process i).done s = 0) ∨
      ∃ p : Fin 7, (∀ s, balance (c.process i).done s = balance ((roundOf i).take p) s) ∧
        (c.process i).rest.head? = (roundOf i)[(p : ℕ)]? ∧
          ∃ later, (c.process i).rest = (roundOf i).drop p ++ later := by
  have hprogram := Reachable.done_append_rest h i
  have hrounds : philosopher (rounds i) i = (List.replicate (rounds i) (roundOf i)).flatten := by
    rw [philosopher, round_ids]
    rfl
  rw [hrounds] at hprogram
  by_cases hrest : (c.process i).rest = []
  · refine .inl ⟨hrest, fun s => ?_⟩
    rw [hrest, List.append_nil] at hprogram
    rw [hprogram, balance_rounds (balance_roundOf i s)]
  · obtain ⟨m, k, p, hp, hdone, hr⟩ := place_of_rounds hprogram hrest
    have hlt : p < 7 := hp
    refine .inr ⟨⟨p, hlt⟩, fun s => ?_, ?_, _, hr⟩
    · rw [hdone, balance_append, balance_rounds (balance_roundOf i s), zero_add]
    · rw [hr, List.drop_eq_getElem_cons hp, List.cons_append, List.head?_cons,
        List.getElem?_eq_getElem hp]

theorem Run.nonneg (h : Run rounds c) (i : Fin 5) (s : Fin 6) :
    0 ≤ balance (c.process i).done s := by
  rcases h.place i with ⟨-, h0⟩ | ⟨p, hp, -⟩
  · exact (h0 s).ge
  · rw [hp s]
    exact place_nonneg i p s

theorem Run.holds_door (h : Run rounds c) {i : Fin 5} {s : Fin 6} (hs : Holds c i s) :
    Holds c i 0 := by
  unfold Holds at hs ⊢
  rcases h.place i with ⟨-, h0⟩ | ⟨p, hp, -⟩
  · rw [h0 s] at hs
    exact absurd hs (lt_irrefl 0)
  · rw [hp s] at hs
    rw [hp 0]
    exact place_door i p s hs

/-- No fork is held twice, and two philosophers at most are past the doorkeeper. -/
theorem Run.apart (h : Run rounds c) :
    (∀ f, f ≠ 0 → ∀ i j, Holds c i f → Holds c j f → i = j) ∧
      ∀ past : Finset (Fin 5), (∀ i ∈ past, Holds c i 0) → past.card ≤ 2 := by
  refine ⟨fun f hf i j hi hj => ?_, fun past hpast => ?_⟩
  · by_contra hij
    have hcard : ({i, j} : Finset (Fin 5)).card ≤ values f :=
      Reachable.card_holders h f (fun k => h.nonneg k f) (by simp [hi, hj])
    rw [Finset.card_pair hij, values_fork hf] at hcard
    omega
  · exact Reachable.card_holders h 0 (fun k => h.nonneg k 0) hpast

/-- What a philosopher that waits is waiting for, and what it holds. -/
theorem Run.waits (h : Run rounds c) {i : Fin 5} (hstuck : ¬ CanStep c i)
    (hrest : ¬ Finished c i) :
    (c.value 0 = 0 ∧ ¬ Holds c i 0) ∨
    (c.value (leftFork i) = 0 ∧ Holds c i 0 ∧ ∀ f, f ≠ 0 → ¬ Holds c i f) ∨
    (c.value (rightFork i) = 0 ∧ Holds c i 0 ∧
      ∀ f, f ≠ 0 → Holds c i f → f = leftFork i) := by
  obtain ⟨s, rest, hr, hvalue⟩ := waits_of_stuck hstuck hrest
  rcases h.place i with ⟨hfin, -⟩ | ⟨p, hp, hhead, -⟩
  · exact absurd hfin hrest
  · rw [hr, List.head?_cons] at hhead
    unfold Holds
    simp only [hp]
    rcases place_takes i p s hhead.symm with ⟨rfl, h0⟩ | ⟨rfl, h0, hf⟩ | ⟨rfl, h0, hf⟩
    · exact .inl ⟨hvalue, h0⟩
    · exact .inr (.inl ⟨hvalue, h0, hf⟩)
    · exact .inr (.inr ⟨hvalue, h0, hf⟩)

theorem Run.not_finished (h : Run rounds c) {i : Fin 5} (hi : Holds c i 0) : ¬ Finished c i := by
  intro hfin
  rcases h.place i with ⟨-, h0⟩ | ⟨p, -, -, later, hrest⟩
  · unfold Holds at hi
    rw [h0 0] at hi
    exact lt_irrefl 0 hi
  · have hp : (p : ℕ) < (roundOf i).length := p.isLt
    unfold Finished at hfin
    rw [hrest, List.drop_eq_getElem_cons hp] at hfin
    cases hfin

/-- When nobody can go on, each one past the doorkeeper waits for a fork of another: for the
left one with no fork, or for the right one with the left one. -/
theorem Run.blocked (h : Run rounds c) (hstuck : ∀ i, ¬ CanStep c i) {i : Fin 5}
    (hi : Holds c i 0) :
    ∃ f j, j ≠ i ∧ f ≠ 0 ∧ Holds c j f ∧
      ((f = leftFork i ∧ ∀ g, g ≠ 0 → ¬ Holds c i g) ∨
        (f = rightFork i ∧ ∀ g, g ≠ 0 → Holds c i g → g = leftFork i)) := by
  obtain ⟨hleft, hright⟩ := fork_ne_zero i
  rcases h.waits (hstuck i) (h.not_finished hi) with ⟨-, h0⟩ | ⟨hvalue, -, hnone⟩ | ⟨hvalue, -, hone⟩
  · exact absurd hi h0
  · obtain ⟨j, hj⟩ := Reachable.holder h (values_pos _) hvalue
    refine ⟨leftFork i, j, ?_, hleft, hj, .inl ⟨rfl, hnone⟩⟩
    rintro rfl
    exact hnone _ hleft hj
  · obtain ⟨j, hj⟩ := Reachable.holder h (values_pos _) hvalue
    refine ⟨rightFork i, j, ?_, hright, hj, .inr ⟨rfl, hone⟩⟩
    rintro rfl
    exact left_ne_right j (hone _ hright hj)

/-- While somebody has not finished, somebody can go on. -/
theorem Run.progress (h : Run rounds c) (hleft : ∃ i, ¬ Finished c i) : ∃ i, CanStep c i := by
  by_contra hnone
  have hstuck : ∀ i, ¬ CanStep c i := fun i hi => hnone ⟨i, hi⟩
  have hpast : ∃ i, Holds c i 0 := by
    obtain ⟨i, hi⟩ := hleft
    rcases h.waits (hstuck i) hi with ⟨hvalue, -⟩ | ⟨-, h0, -⟩ | ⟨-, h0, -⟩
    · exact Reachable.holder h (values_pos 0) hvalue
    · exact ⟨i, h0⟩
    · exact ⟨i, h0⟩
  obtain ⟨i, hi⟩ := hpast
  obtain ⟨f, j, hji, hf, hjf, hwait⟩ := h.blocked hstuck hi
  have hj := h.holds_door hjf
  obtain ⟨g, k, hkj, hg, hkg, hwait'⟩ := h.blocked hstuck hj
  -- `j` holds a fork, so it waits for its right one; only two are past the doorkeeper
  have hk : k = i := by
    by_contra hki
    have hthree : ∀ l ∈ ({i, j, k} : Finset (Fin 5)), Holds c l 0 := by
      intro l hl
      rw [Finset.mem_insert, Finset.mem_insert, Finset.mem_singleton] at hl
      rcases hl with rfl | rfl | rfl
      · exact hi
      · exact hj
      · exact h.holds_door hkg
    have hcard := h.apart.2 _ hthree
    rw [Finset.card_eq_three.mpr ⟨i, j, k, hji.symm, Ne.symm hki, Ne.symm hkj, rfl⟩] at hcard
    omega
  subst hk
  rcases hwait' with ⟨-, hnofork⟩ | ⟨rfl, hone⟩
  · exact hnofork f hf hjf
  · rcases hwait with ⟨-, hnofork⟩ | ⟨rfl, hone'⟩
    · exact hnofork _ hg hkg
    · exact forks_differ k j (hone' _ hg hkg).symm (hone _ hf hjf)

/-- Who can go on can complete its next operation on a semaphore: that after eating returns. -/
theorem Run.canOperate (h : Run rounds c) {i : Fin 5} (hi : CanStep c i) : CanOperate c i := by
  obtain ⟨a, rest, hrest, hact⟩ := hi
  unfold CanOperate
  by_cases ha : a = .skip
  · rcases h.place i with ⟨hfin, -⟩ | ⟨p, -, hhead, later, hlater⟩
    · unfold Finished at hfin
      rw [hfin] at hrest
      cases hrest
    · rw [hrest, List.head?_cons, ha] at hhead
      rw [hlater, place_eats i p hhead.symm]
      exact ⟨_, _, rfl, rfl⟩
  · refine ⟨a, rest, ?_, hact⟩
    rw [hrest, List.dropWhile_cons_of_neg (by simpa using ha)]

/-- At the table a philosopher holds both of its forks. -/
theorem Run.eats (h : Run rounds c) {i : Fin 5} (heat : (c.process i).rest.head? = some .skip) :
    Holds c i (leftFork i) ∧ Holds c i (rightFork i) := by
  have hplace : ∀ (i : Fin 5) (p : Fin 7), (roundOf i)[(p : ℕ)]? = some .skip →
      0 < balance ((roundOf i).take p) (leftFork i) ∧
        0 < balance ((roundOf i).take p) (rightFork i) := by
    decide
  unfold Holds
  rcases h.place i with ⟨hfin, -⟩ | ⟨p, hp, hhead, -⟩
  · unfold Finished at hfin
    rw [hfin] at heat
    cases heat
  · rw [hp, hp]
    exact hplace i p (hhead.symm.trans heat)

end Run

end MaiFaSp.Philosophers
