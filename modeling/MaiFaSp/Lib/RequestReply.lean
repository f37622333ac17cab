import MaiFaSp.Lib.RandomDescent
import MaiFaSp.Lib.Unwinding
import Mathlib.Algebra.Order.BigOperators.Group.Finset

/-!
# Parties that talk to one server

The messages of all parties go through one queue to a server, which answers each party in
the party's own inbox. When the server is a machine that unwinds, a party and what the server
and the queue hold of it move by themselves: a step of the whole is a step of one seat. What
holds of every seat by its own steps holds in every run, and a cost that every step of a seat
lowers bounds the length of the runs.
-/

namespace MaiFaSp

variable {κ γ μ ι ο σ ν : Type*}

/-- What a party does next. -/
inductive Turn (γ μ ο : Type*) where
  | send (m : μ) (after : γ)
  | receive (next : ο → γ)
  | halt

structure Net (κ γ μ ο σ : Type*) where
  server : σ
  queue : List μ
  party : κ → γ
  inbox : κ → List ο

/-- One party, its messages in the queue and its replies, and what it sees of the server. -/
@[ext]
structure Seat (γ μ ο ν : Type*) where
  view : ν
  pending : List μ
  party : γ
  inbox : List ο

/-- The parties, the queue and the server: `arrives m i` when the message `m` may come to the
server as the input `i`. -/
structure Talk (κ γ μ ι ο σ ν : Type*) where
  step : σ → ι → σ × List ο
  arrives : μ → ι → Prop
  turn : κ → γ → Turn γ μ ο
  sender : μ → κ
  owner : ι → κ
  addressee : ο → κ
  view : κ → σ → ν

namespace Talk

variable [DecidableEq κ] (T : Talk κ γ μ ι ο σ ν)

inductive Step : Net κ γ μ ο σ → Net κ γ μ ο σ → Prop
  | send {c : Net κ γ μ ο σ} {k : κ} {m : μ} {after : γ}
      (hturn : T.turn k (c.party k) = .send m after) :
      Step c { c with queue := c.queue ++ [m], party := Function.update c.party k after }
  | receive {c : Net κ γ μ ο σ} {k : κ} {next : ο → γ} {o : ο} {rest : List ο}
      (hturn : T.turn k (c.party k) = .receive next) (hinbox : c.inbox k = o :: rest) :
      Step c { c with party := Function.update c.party k (next o)
                      inbox := Function.update c.inbox k rest }
  | serve {c : Net κ γ μ ο σ} {m : μ} {rest : List μ} {i : ι} (hqueue : c.queue = m :: rest)
      (harrives : T.arrives m i) :
      Step c { c with server := (T.step c.server i).1, queue := rest
                      inbox := fun k => c.inbox k ++ outputsTo T.addressee k (T.step c.server i).2 }

inductive SeatStep (k : κ) : Seat γ μ ο ν → Seat γ μ ο ν → Prop
  | send {s : Seat γ μ ο ν} {m : μ} {after : γ} (hturn : T.turn k s.party = .send m after) :
      SeatStep k s { s with pending := s.pending ++ [m], party := after }
  | receive {s : Seat γ μ ο ν} {next : ο → γ} {o : ο} {rest : List ο}
      (hturn : T.turn k s.party = .receive next) (hinbox : s.inbox = o :: rest) :
      SeatStep k s { s with party := next o, inbox := rest }
  | serve {s : Seat γ μ ο ν} {m : μ} {rest : List μ} {i : ι} {server : σ}
      (hpending : s.pending = m :: rest) (harrives : T.arrives m i) (howner : T.owner i = k)
      (hview : T.view k server = s.view) :
      SeatStep k s { s with view := T.view k (T.step server i).1, pending := rest
                            inbox := s.inbox ++ outputsTo T.addressee k (T.step server i).2 }

def seat (k : κ) (c : Net κ γ μ ο σ) : Seat γ μ ο ν where
  view := T.view k c.server
  pending := c.queue.filter fun m => T.sender m = k
  party := c.party k
  inbox := c.inbox k

/-- The server unwinds, and nobody sends in the name of another. -/
structure Fair : Prop where
  unwinds : Unwinds T.step T.owner T.addressee T.view
  signed : ∀ {k g m after}, T.turn k g = .send m after → T.sender m = k
  carried : ∀ {m i}, T.arrives m i → T.owner i = T.sender m

variable {T} {c c' c₀ : Net κ γ μ ο σ} {k : κ}

/-- A step of the whole is a step of one seat, and the others do not see it. -/
theorem Step.seat (hT : T.Fair) (h : T.Step c c') :
    ∃ k, T.SeatStep k (T.seat k c) (T.seat k c') ∧ ∀ j, j ≠ k → T.seat j c' = T.seat j c := by
  cases h with
  | @send k m after hturn =>
    have hsender : T.sender m = k := hT.signed hturn
    refine ⟨k, ?_, ?_⟩
    · have hstep : T.SeatStep k (T.seat k c) { T.seat k c with
          pending := (T.seat k c).pending ++ [m], party := after } := .send hturn
      convert hstep using 1
      simp [Talk.seat, hsender]
    · intro j hj
      have hne : ¬ T.sender m = j := fun h => hj (h.symm.trans hsender)
      simp [Talk.seat, hne, hj]
  | @receive k next o rest hturn hinbox =>
    refine ⟨k, ?_, ?_⟩
    · have hstep : T.SeatStep k (T.seat k c) { T.seat k c with party := next o, inbox := rest } :=
        .receive hturn hinbox
      convert hstep using 1
      simp [Talk.seat]
    · intro j hj
      simp [Talk.seat, hj]
  | @serve m rest i hqueue harrives =>
    have howner : T.owner i = T.sender m := hT.carried harrives
    refine ⟨T.sender m, ?_, ?_⟩
    · have hpending : (T.seat (T.sender m) c).pending =
          m :: rest.filter fun m' => T.sender m' = T.sender m := by
        simp [Talk.seat, hqueue]
      exact .serve hpending harrives howner rfl
    · intro j hj
      have hne : T.owner i ≠ j := fun h => hj (h.symm.trans howner)
      obtain ⟨hview, hout⟩ := hT.unwinds.foreign (s := c.server) hne
      have hnil := outputsTo_eq_nil hout
      have hsender : ¬ T.sender m = j := fun h => hj h.symm
      simp [Talk.seat, hqueue, hview, hnil, hsender]

/-- What every seat keeps by its own steps holds of all seats in every run. -/
theorem reachable_seats (hT : T.Fair) {P : κ → Seat γ μ ο ν → Prop}
    (hkeep : ∀ {k s s'}, P k s → T.SeatStep k s s' → P k s') (hstart : ∀ k, P k (T.seat k c₀))
    (h : Relation.ReflTransGen T.Step c₀ c) : ∀ k, P k (T.seat k c) := by
  induction h with
  | refl => exact hstart
  | tail _ hstep ih =>
    obtain ⟨k, hk, hothers⟩ := hstep.seat hT
    intro j
    by_cases hj : j = k
    · subst hj
      exact hkeep (ih j) hk
    · rw [hothers j hj]
      exact ih j

/-- A net that cannot go on: nothing is in the queue, nobody has something to send, and who
waits for a reply has none. -/
theorem stuck (hin : ∀ m, ∃ i, T.arrives m i) (h : Stuck T.Step c) :
    c.queue = [] ∧ (∀ k m after, T.turn k (c.party k) ≠ .send m after) ∧
      ∀ k next, T.turn k (c.party k) = .receive next → c.inbox k = [] := by
  refine ⟨?_, ?_, ?_⟩
  · cases hqueue : c.queue with
    | nil => rfl
    | cons m rest =>
      obtain ⟨i, hi⟩ := hin m
      exact absurd (.serve hqueue hi) (h _)
  · intro k m after hturn
    exact h _ (.send hturn)
  · intro k next hturn
    cases hinbox : c.inbox k with
    | nil => rfl
    | cons o rest => exact absurd (.receive hturn hinbox) (h _)

/-- Runs are no longer than what the seats of the parties cost at the start. -/
theorem takes_le (parties : Finset κ) (cost : Seat γ μ ο ν → ℕ) (hT : T.Fair)
    {P : κ → Seat γ μ ο ν → Prop}
    (hkeep : ∀ {k s s'}, P k s → T.SeatStep k s s' → P k s') (hstart : ∀ k, P k (T.seat k c₀))
    (hidle : ∀ {k s s'}, k ∉ parties → P k s → ¬ T.SeatStep k s s')
    (hcost : ∀ {k s s'}, P k s → T.SeatStep k s s' → cost s' < cost s) {n : ℕ}
    (h : Takes T.Step n c₀ c) :
    n + ∑ k ∈ parties, cost (T.seat k c) ≤ ∑ k ∈ parties, cost (T.seat k c₀) := by
  induction h with
  | refl => simp
  | @tail n _ c' c'' hrun hstep ih =>
    have hseats := reachable_seats hT hkeep hstart hrun.reaches
    obtain ⟨k, hk, hothers⟩ := hstep.seat hT
    have hmem : k ∈ parties := by
      by_contra hne
      exact hidle hne (hseats k) hk
    have hlt : ∑ j ∈ parties, cost (T.seat j c'') < ∑ j ∈ parties, cost (T.seat j c') := by
      apply Finset.sum_lt_sum
      · intro j _
        by_cases hj : j = k
        · exact hj ▸ (hcost (hseats k) hk).le
        · rw [hothers j hj]
      · exact ⟨k, hmem, hcost (hseats k) hk⟩
    have hih := ih hstart
    omega

end Talk

end MaiFaSp
