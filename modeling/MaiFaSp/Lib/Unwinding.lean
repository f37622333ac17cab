import Mathlib.Data.List.Basic
import Mathlib.Tactic

/-!
# Machines that serve several parties

A machine answers each input with a list of outputs. When an input of one party
neither changes what another party sees nor sends it anything, and what a party
sees decides what its own inputs do to it, then a party cannot tell a run from
the run of its own inputs.
-/

namespace MaiFaSp

variable {σ ι ο κ ν : Type*}

/-- The state after a run and everything it put out. -/
def runMachine (step : σ → ι → σ × List ο) : σ → List ι → σ × List ο
  | s, [] => (s, [])
  | s, i :: w =>
    let (s', out) := step s i
    let (s'', outs) := runMachine step s' w
    (s'', out ++ outs)

section Runs

variable {step : σ → ι → σ × List ο} {s : σ} {i : ι} {w w' : List ι}

theorem runMachine_nil : runMachine step s [] = (s, []) := rfl

theorem runMachine_cons : runMachine step s (i :: w) =
    ((runMachine step (step s i).1 w).1, (step s i).2 ++ (runMachine step (step s i).1 w).2) := rfl

theorem runMachine_append : runMachine step s (w ++ w') =
    ((runMachine step (runMachine step s w).1 w').1,
      (runMachine step s w).2 ++ (runMachine step (runMachine step s w).1 w').2) := by
  induction w generalizing s with
  | nil => rfl
  | cons i w ih =>
    rw [List.cons_append, runMachine_cons, ih, runMachine_cons, List.append_assoc]

theorem runMachine_concat : runMachine step s (w ++ [i]) =
    ((step (runMachine step s w).1 i).1,
      (runMachine step s w).2 ++ (step (runMachine step s w).1 i).2) := by
  rw [runMachine_append, runMachine_cons, runMachine_nil, List.append_nil]

end Runs

/-- `owner i` gave the input `i`, `view q s` is what `q` sees of a state and
`addressee o` gets the output `o`. -/
structure Unwinds (step : σ → ι → σ × List ο) (owner : ι → κ) (addressee : ο → κ)
    (view : κ → σ → ν) : Prop where
  foreign : ∀ {q s i}, owner i ≠ q →
    view q (step s i).1 = view q s ∧ ∀ o ∈ (step s i).2, addressee o ≠ q
  own : ∀ {q s s' i}, owner i = q → view q s = view q s' →
    view q (step s i).1 = view q (step s' i).1 ∧ (step s i).2 = (step s' i).2

variable [DecidableEq κ] {step : σ → ι → σ × List ο} {owner : ι → κ} {addressee : ο → κ}
  {view : κ → σ → ν}

/-- The outputs sent to one party. -/
def outputsTo (addressee : ο → κ) (q : κ) (out : List ο) : List ο :=
  out.filter fun o => addressee o = q

theorem outputsTo_append {q : κ} {out out' : List ο} :
    outputsTo addressee q (out ++ out') = outputsTo addressee q out ++ outputsTo addressee q out' :=
  List.filter_append ..

theorem outputsTo_eq_nil {q : κ} {out : List ο} (h : ∀ o ∈ out, addressee o ≠ q) :
    outputsTo addressee q out = [] := by
  rw [outputsTo, List.filter_eq_nil_iff]
  intro o ho
  simpa using h o ho

/-- A run and the run of one party's inputs look the same to that party. -/
theorem Unwinds.run_filter (h : Unwinds step owner addressee view) {q : κ} {s s' : σ}
    (hs : view q s = view q s') (w : List ι) :
    view q (runMachine step s w).1 =
        view q (runMachine step s' (w.filter fun i => owner i = q)).1 ∧
      outputsTo addressee q (runMachine step s w).2 =
        outputsTo addressee q (runMachine step s' (w.filter fun i => owner i = q)).2 := by
  induction w generalizing s s' with
  | nil => exact ⟨hs, rfl⟩
  | cons i w ih =>
    by_cases hi : owner i = q
    · obtain ⟨hview, hout⟩ := h.own hi hs
      obtain ⟨hviews, houts⟩ := ih hview
      rw [List.filter_cons_of_pos (by simpa using hi), runMachine_cons, runMachine_cons,
        outputsTo_append, outputsTo_append]
      exact ⟨hviews, by rw [hout, houts]⟩
    · obtain ⟨hview, hout⟩ := h.foreign (s := s) hi
      obtain ⟨hviews, houts⟩ := ih (hview.trans hs)
      rw [List.filter_cons_of_neg (by simpa using hi), runMachine_cons, outputsTo_append,
        outputsTo_eq_nil hout, List.nil_append]
      exact ⟨hviews, houts⟩

end MaiFaSp
