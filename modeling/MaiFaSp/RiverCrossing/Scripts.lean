import MaiFaSp.Lib.Outcomes
import MaiFaSp.Lib.Scanning
import MaiFaSp.RiverCrossing.Puzzle

/-!
# The lists of commands of a client

How a client reads its list of commands (`client/main.c:28-107`), and how it ends with the
commands of a list when it is alone with its session. A list that keeps to the rules of the
puzzle is never refused.
-/

namespace MaiFaSp.RiverCrossing

open Scanning

/-- How `main` of a client ends, with the text of the error it prints. -/
inductive Outcome where
  | registrationFailed (errMsg : String)
  | failed (errMsg : String)
  | allMoved
  | unfinished
  deriving Repr, DecidableEq

/-! ### A list of commands by itself -/

namespace Session

/-- The session after a request, and the answer. -/
def request (s : Session) : Request → Session × Answer
  | .take objId =>
    if s.objInBoat = .none then (s.take objId, .ok) else (s, .err "Object already in boat")
  | .put => if s.objInBoat = .none then (s, .err "No object in boat") else (s.put, s.put.putAnswer)
  | .move => (s.moved, s.moved.moveAnswer)

/-- How a client ends that is alone with its session. -/
def verdict : Session → List Request → Outcome
  | _, [] => .unfinished
  | s, cmd :: cmds =>
    match (s.request cmd).2 with
    | .err errMsg => .failed errMsg
    | .allMoved => .allMoved
    | .ok => verdict (s.request cmd).1 cmds

end Session

/-! ### Lists of commands that keep to the rules -/

namespace River

/-- An object of the puzzle is taken into the empty boat, and what is put is in the boat. -/
def Fits (r : River) : Request → Prop
  | .take .wolf | .take .goat | .take .cabbage => r.wolf ≠ none ∧ r.goat ≠ none ∧ r.cabbage ≠ none
  | .take .none | .take (.other _) => False
  | .put => r.wolf = none ∨ r.goat = none ∨ r.cabbage = none
  | .move => True

/-- Every request fits the position it meets, and keeps to the rules. -/
def Legal : River → List Request → Prop
  | _, [] => True
  | r, req :: script => r.Fits req ∧ ∃ r', r.step req = some r' ∧ r'.Legal script

instance (r : River) : ∀ req : Request, Decidable (r.Fits req)
  | .take .wolf | .take .goat | .take .cabbage =>
    inferInstanceAs (Decidable (r.wolf ≠ none ∧ r.goat ≠ none ∧ r.cabbage ≠ none))
  | .take .none | .take (.other _) => isFalse id
  | .put => inferInstanceAs (Decidable (r.wolf = none ∨ r.goat = none ∨ r.cabbage = none))
  | .move => isTrue trivial

instance instDecidableLegal : ∀ (r : River) (script : List Request), Decidable (r.Legal script)
  | _, [] => isTrue trivial
  | r, req :: script =>
    match h : r.step req with
    | none => isFalse fun hl => by
        obtain ⟨-, r', hr', -⟩ := hl
        rw [h] at hr'
        cases hr'
    | some r' =>
      have : Decidable (r'.Legal script) := instDecidableLegal r' script
      decidable_of_iff (r.Fits req ∧ r'.Legal script) ⟨fun hl => ⟨hl.1, r', h, hl.2⟩, fun hl => by
        obtain ⟨hfits, r'', hr'', hrest⟩ := hl
        rw [h] at hr''
        cases hr''
        exact ⟨hfits, hrest⟩⟩

end River

section Rules

variable {s : Session} {req : Request} {script : List Request}

theorem verdict_cons : s.verdict (req :: script) =
    match (s.request req).2 with
    | .err errMsg => .failed errMsg
    | .allMoved => .allMoved
    | .ok => (s.request req).1.verdict script := rfl

/-- What the boat can hold. -/
def Session.Fitting (s : Session) : Prop :=
  s.objInBoat = .none ∨ s.objInBoat = .wolf ∨ s.objInBoat = .goat ∨ s.objInBoat = .cabbage

def Session.allRight (s : Session) : Bool := s.wolfOnRight && s.goatOnRight && s.cabbageOnRight

theorem goatEaten_moved : s.moved.goatEaten =
    (s.ashore .wolf s.wolfOnRight && s.ashore .goat s.goatOnRight) := by
  obtain ⟨queueId, objInBoat, w, g, c, b⟩ := s
  cases objInBoat <;> cases w <;> cases g <;> cases b <;> rfl

theorem cabbageEaten_moved : s.moved.cabbageEaten =
    (s.ashore .goat s.goatOnRight && s.ashore .cabbage s.cabbageOnRight) := by
  obtain ⟨queueId, objInBoat, w, g, c, b⟩ := s
  cases objInBoat <;> cases g <;> cases c <;> cases b <;> rfl

/-- The server allows a crossing exactly when the rules do. -/
theorem moveAnswer_moved (hc : s.careful .move) : s.moved.moveAnswer = .ok := by
  have hgoat : s.moved.goatEaten = false := by
    rw [goatEaten_moved, Bool.and_eq_false_iff]
    simp only [Session.careful] at hc
    by_contra hboth
    simp only [not_or, Bool.not_eq_false] at hboth
    exact hc ⟨hboth.2, Or.inl hboth.1⟩
  have hcabbage : s.moved.cabbageEaten = false := by
    rw [cabbageEaten_moved, Bool.and_eq_false_iff]
    simp only [Session.careful] at hc
    by_contra hboth
    simp only [not_or, Bool.not_eq_false] at hboth
    exact hc ⟨hboth.1, Or.inr hboth.2⟩
  simp [Session.moveAnswer, hgoat, hcabbage]

/-- A request that fits is accepted. -/
theorem accepts_of_fits (hs : s.Fitting) (h : s.river.Fits req) : s.accepts req := by
  cases req with
  | take objId =>
    rcases hs with ho | ho | ho | ho
    · exact ho
    all_goals cases objId <;> simp [River.Fits, Session.river, Session.bankOf, ho] at h
  | put =>
    intro ho
    simp [River.Fits, Session.river, Session.bankOf, ho] at h
  | move => trivial

theorem fitting_execute (hs : s.Fitting) (h : s.river.Fits req) : (s.execute req).Fitting := by
  cases req with
  | take objId =>
    cases objId with
    | wolf => exact Or.inr (Or.inl rfl)
    | goat => exact Or.inr (Or.inr (Or.inl rfl))
    | cabbage => exact Or.inr (Or.inr (Or.inr rfl))
    | none => exact absurd h id
    | other value => exact absurd h id
  | put => exact Or.inl rfl
  | move => simpa [Session.Fitting, Session.execute] using hs

/-- The game is not over: an empty boat leaves something on the left bank. -/
def Session.Goes (s : Session) : Prop := s.objInBoat = .none → s.allRight = false

theorem Session.Goes.unsolved (h : s.Goes) (hs : s.Fitting) : s.river ≠ River.solved := by
  intro he
  simp only [Session.river, Session.bankOf, River.solved, River.mk.injEq] at he
  rcases hs with ho | ho | ho | ho
  · have hright := h ho
    simp_all [Session.allRight]
  all_goals simp [ho] at he

/-- What the server does with a request that keeps to the rules: it executes it, and says so when
this was the last one. -/
theorem request_legal (hs : s.Fitting) (hsteady : s.Steady) (hgoes : s.Goes) (hfits : s.river.Fits req)
    (hcareful : s.careful req) : (s.request req).1 = s.execute req ∧
      ((s.request req).2 = .allMoved ∧ (s.execute req).river = River.solved ∨
        (s.request req).2 = .ok ∧ (s.execute req).Goes) := by
  have haccepts := accepts_of_fits hs hfits
  cases req with
  | take objId =>
    have hrequest : s.request (.take objId) = (s.take objId, .ok) := if_pos haccepts
    rw [hrequest]
    refine ⟨rfl, Or.inr ⟨rfl, ?_⟩⟩
    intro hnone
    have hobj : objId = .none := hnone
    subst hobj
    exact absurd hfits id
  | put =>
    have ho : ¬ s.objInBoat = .none := haccepts
    have hrequest : s.request .put = (s.put, s.put.putAnswer) := if_neg ho
    rw [hrequest]
    refine ⟨rfl, ?_⟩
    unfold Session.putAnswer
    cases hall : s.put.allObjectsMoved with
    | true =>
      refine Or.inl ⟨rfl, ?_⟩
      simp only [Session.allObjectsMoved, Bool.and_eq_true] at hall
      simp [Session.execute, Session.river, Session.bankOf, River.solved, Session.put]
      exact ⟨hall.1.1.1, hall.1.1.2, hall.1.2, hall.2⟩
    | false =>
      refine Or.inr ⟨rfl, fun _ => ?_⟩
      by_contra hright
      rw [Bool.not_eq_false] at hright
      simp only [Session.allRight, Session.execute, Session.put, Bool.and_eq_true] at hright
      obtain ⟨⟨hw, hg⟩, hc⟩ := hright
      -- the object that was put has the flag of the boat
      have hboat : s.boatOnRight = true := by
        rcases hs with h | h | h | h
        · exact absurd h ho
        · exact (hsteady.1 h).symm.trans hw
        · exact (hsteady.2.1 h).symm.trans hg
        · exact (hsteady.2.2 h).symm.trans hc
      simp [Session.allObjectsMoved, Session.put, hw, hg, hc, hboat] at hall
  | move =>
    refine ⟨rfl, Or.inr ⟨moveAnswer_moved hcareful, ?_⟩⟩
    intro ho
    have hnone : s.objInBoat = .none := moved_objInBoat.symm.trans ho
    have hright := hgoes hnone
    simpa [Session.allRight, Session.execute, Session.moved, hnone] using hright

theorem play_cons {r r' : River} (h : r.step req = some r') {p : List Request} :
    r.play (req :: p) = r'.play p := by
  show (r.step req >>= fun r' => r'.play p) = _
  rw [h]
  rfl

/-- What a client says of commands that keep to the rules. -/
theorem verdict_session (hs : s.Fitting) (hsteady : s.Steady) (hgoes : s.Goes)
    (hlegal : s.river.Legal script) :
    (∃ p, p <+: script ∧ s.river.play p = some River.solved) ∧ s.verdict script = .allMoved ∨
      (∀ p, p <+: script → s.river.play p ≠ some River.solved) ∧ s.verdict script = .unfinished := by
  have hnil : s.river.play [] ≠ some River.solved := fun h => hgoes.unsolved hs (Option.some.inj h)
  induction script generalizing s with
  | nil =>
    refine Or.inr ⟨fun p hp => ?_, rfl⟩
    rw [List.prefix_nil.mp hp]
    exact hnil
  | cons req script ih =>
    obtain ⟨hfits, r', hstep, hrest⟩ := hlegal
    have haccepts := accepts_of_fits hs hfits
    have hriver := river_step hsteady haccepts
    have hcareful : s.careful req := by
      by_contra hc
      rw [hriver, if_neg hc] at hstep
      cases hstep
    rw [hriver, if_pos hcareful] at hstep
    cases hstep
    have hstep : s.river.step req = some (s.execute req).river := by rw [hriver, if_pos hcareful]
    obtain ⟨hexecute, hanswer⟩ := request_legal hs hsteady hgoes hfits hcareful
    rcases hanswer with ⟨hanswer, hsolved⟩ | ⟨hanswer, hgoes'⟩
    · refine Or.inl ⟨⟨[req], by simp, ?_⟩, ?_⟩
      · rw [play_cons hstep, hsolved]
        rfl
      · rw [verdict_cons, hanswer]
    · have hs' := fitting_execute hs hfits
      have hverdict : s.verdict (req :: script) = (s.execute req).verdict script := by
        rw [verdict_cons, hanswer, hexecute]
      rw [hverdict]
      have hnil' : (s.execute req).river.play [] ≠ some River.solved :=
        fun h => hgoes'.unsolved hs' (Option.some.inj h)
      rcases ih hs' (steady_execute haccepts hcareful) hgoes' hrest hnil' with ⟨⟨p, hp, hplay⟩, hv⟩ | ⟨hno, hv⟩
      · refine Or.inl ⟨⟨req :: p, List.prefix_cons_inj req |>.mpr hp, ?_⟩, hv⟩
        rw [play_cons hstep, hplay]
      · refine Or.inr ⟨fun p hp => ?_, hv⟩
        cases p with
        | nil => exact hnil
        | cons req' p =>
          obtain ⟨rfl, hp'⟩ := List.cons_prefix_cons.mp hp
          rw [play_cons hstep]
          exact hno p hp'

theorem steady_new {q : ℤ} : (newSession q).Steady := by
  refine ⟨?_, ?_, ?_⟩ <;> intro h <;> cases h

/-- Commands that keep to the rules are never refused: a client says that all objects are moved when
they lead through a solution, and else that some are still on the left bank or in the boat. -/
theorem legal_verdict (q : ℤ) (script : List Request) (hlegal : River.start.Legal script) :
    (∃ p, p <+: script ∧ River.Solves p) ∧ (newSession q).verdict script = .allMoved ∨
      (∀ p, p <+: script → ¬ River.Solves p) ∧ (newSession q).verdict script = .unfinished :=
  verdict_session (s := newSession q) (Or.inl rfl) steady_new (fun _ => rfl) hlegal

/-- The classical solution: the goat crosses three times. -/
theorem legal_verdict_solution : (newSession 5).verdict (solution ++ [.put]) = .allMoved := by
  have hsolves : River.Solves (solution ++ [.put]) := by decide +kernel
  rcases legal_verdict 5 (solution ++ [.put]) (by decide +kernel) with ⟨-, hv⟩ | ⟨hno, -⟩
  · exact hv
  · exact absurd hsolves (hno _ (List.prefix_refl _))

end Rules

/-! ### The file of commands -/

/-- `strcmp` of a null pointer, or an unknown command or object, with what is printed of it. -/
inductive ParseFailure where
  | nullPointer
  | invalid (text : List Char)
  deriving Repr, DecidableEq

/-- `strtok(line_buf, " ")` until it returns `NULL`, on the characters before a NUL. -/
def strtok (line : List Char) : List (List Char) :=
  ((line.takeWhile fun c => c ≠ '\x00').splitOn ' ').filter fun token => token ≠ []

def parseObject : List (List Char) → Except ParseFailure Request
  | [] => throw .nullPointer
  | arg :: _ =>
    if arg = "wolf;".toList then pure (.take .wolf)
    else if arg = "goat;".toList then pure (.take .goat)
    else if arg = "cabbage;".toList then pure (.take .cabbage)
    else throw (.invalid arg)

/-- One turn of the loop of `parse_cmd_list`. -/
def parseLine (line : List Char) : Except ParseFailure Request :=
  match strtok line with
  | [] => throw .nullPointer
  | cmd :: args =>
    if cmd = "take".toList then parseObject args
    else if cmd = "put;".toList then pure .put
    else if cmd = "move;".toList then pure .move
    else throw (.invalid cmd)

/-- `parse_cmd_list` on the text of the file. -/
def parseCmdList (text : List Char) : Except ParseFailure (List Request) :=
  (getlines '\n' text).mapM parseLine

section Commands

variable {line : List Char} {text : List Char} {cmd : Request}

/-- The words of a command; there are none for what a list cannot say. -/
def Request.words : Request → List (List Char)
  | .take .wolf => ["take".toList, "wolf;".toList]
  | .take .goat => ["take".toList, "goat;".toList]
  | .take .cabbage => ["take".toList, "cabbage;".toList]
  | .take .none | .take (.other _) => []
  | .put => ["put;".toList]
  | .move => ["move;".toList]

/-- The line begins with the words of the command. -/
def Spells (line : List Char) (cmd : Request) : Prop := cmd.words ≠ [] ∧ cmd.words <+: strtok line

/-- What is wrong with a line. -/
def Refuses (line : List Char) : ParseFailure → Prop
  | .nullPointer => strtok line = [] ∨ strtok line = ["take".toList]
  | .invalid word =>
    (∃ args, strtok line = word :: args ∧ word ≠ "take".toList ∧ word ≠ "put;".toList ∧
      word ≠ "move;".toList) ∨
    ∃ args, strtok line = "take".toList :: word :: args ∧ word ≠ "wolf;".toList ∧
      word ≠ "goat;".toList ∧ word ≠ "cabbage;".toList

theorem parseLine_of_spells (h : Spells line cmd) : parseLine line = .ok cmd := by
  obtain ⟨hne, rest, hrest⟩ := h
  unfold parseLine
  rw [← hrest]
  cases cmd with
  | take objId =>
    cases objId with
    | wolf => rfl
    | goat => rfl
    | cabbage => rfl
    | none => exact absurd rfl hne
    | other value => exact absurd rfl hne
  | put => rfl
  | move => rfl

theorem parseLine_of_refuses {e : ParseFailure} (h : Refuses line e) : parseLine line = .error e := by
  unfold parseLine
  cases e with
  | nullPointer =>
    rcases h with h | h
    · rw [h]
      rfl
    · rw [h]
      rfl
  | invalid word =>
    rcases h with ⟨args, h, htake, hput, hmove⟩ | ⟨args, h, hwolf, hgoat, hcabbage⟩
    · rw [h]
      simp only [htake, hput, hmove, if_false]
      rfl
    · rw [h]
      simp only [if_true, parseObject, hwolf, hgoat, hcabbage, if_false]
      rfl

/-- A line is a command, or there is something wrong with it. -/
theorem spells_or_refuses (line : List Char) : (∃ cmd, Spells line cmd) ∨ ∃ e, Refuses line e := by
  cases h : strtok line with
  | nil => exact Or.inr ⟨.nullPointer, Or.inl h⟩
  | cons word args =>
    have spells (cmd : Request) (hne : cmd.words ≠ []) (hwords : cmd.words <+: word :: args) :
        ∃ cmd, Spells line cmd := ⟨cmd, hne, h ▸ hwords⟩
    by_cases htake : word = "take".toList
    · subst htake
      cases args with
      | nil => exact Or.inr ⟨.nullPointer, Or.inr h⟩
      | cons arg args =>
        by_cases hwolf : arg = "wolf;".toList
        · subst hwolf
          exact Or.inl (spells (.take .wolf) (by decide) (List.prefix_append _ args))
        by_cases hgoat : arg = "goat;".toList
        · subst hgoat
          exact Or.inl (spells (.take .goat) (by decide) (List.prefix_append _ args))
        by_cases hcabbage : arg = "cabbage;".toList
        · subst hcabbage
          exact Or.inl (spells (.take .cabbage) (by decide) (List.prefix_append _ args))
        exact Or.inr ⟨.invalid arg, Or.inr ⟨args, h, hwolf, hgoat, hcabbage⟩⟩
    by_cases hput : word = "put;".toList
    · subst hput
      exact Or.inl (spells .put (by decide) (List.prefix_append _ args))
    by_cases hmove : word = "move;".toList
    · subst hmove
      exact Or.inl (spells .move (by decide) (List.prefix_append _ args))
    exact Or.inr ⟨.invalid word, Or.inl ⟨args, h, htake, hput, hmove⟩⟩

theorem parseLine_eq_ok : parseLine line = .ok cmd ↔ Spells line cmd := by
  refine ⟨fun h => ?_, parseLine_of_spells⟩
  rcases spells_or_refuses line with ⟨cmd', hspells⟩ | ⟨e, hrefuses⟩
  · rw [parseLine_of_spells hspells] at h
    cases h
    exact hspells
  · rw [parseLine_of_refuses hrefuses] at h
    cases h

theorem parseLine_eq_error {e : ParseFailure} : parseLine line = .error e ↔ Refuses line e := by
  refine ⟨fun h => ?_, parseLine_of_refuses⟩
  rcases spells_or_refuses line with ⟨cmd', hspells⟩ | ⟨e', hrefuses⟩
  · rw [parseLine_of_spells hspells] at h
    cases h
  · rw [parseLine_of_refuses hrefuses] at h
    cases h
    exact hrefuses

/-- A command as a line of a list. -/
def Request.spelled (cmd : Request) : List Char := [' '].intercalate cmd.words

theorem spells_spelled (h : cmd.words ≠ []) : Spells cmd.spelled cmd ∧ '\n' ∉ cmd.spelled := by
  cases cmd with
  | take objId =>
    cases objId with
    | wolf => exact ⟨⟨h, by decide⟩, by decide⟩
    | goat => exact ⟨⟨h, by decide⟩, by decide⟩
    | cabbage => exact ⟨⟨h, by decide⟩, by decide⟩
    | none => exact absurd rfl h
    | other value => exact absurd rfl h
  | put => exact ⟨⟨h, by decide⟩, by decide⟩
  | move => exact ⟨⟨h, by decide⟩, by decide⟩

/-- What a client makes of a file: the commands that its lines say, or the failure of the first line
that says none. Commands that are written to a file are read back. -/
theorem parseCmdList_reads (text : List Char) :
    (∀ script, parseCmdList text = .ok script ↔ List.Forall₂ Spells (getlines '\n' text) script) ∧
      (∀ e, parseCmdList text = .error e ↔ ∃ before line after, getlines '\n' text = before ++ line :: after ∧
        (∀ l ∈ before, ∃ cmd, Spells l cmd) ∧ Refuses line e) ∧
      ∀ script : List Request, (∀ cmd ∈ script, cmd.words ≠ []) →
        parseCmdList (script.flatMap fun cmd => cmd.spelled ++ ['\n']) = .ok script := by
  have hok (text : List Char) (script : List Request) :
      parseCmdList text = .ok script ↔ List.Forall₂ Spells (getlines '\n' text) script := by
    simp only [parseCmdList, mapM_eq_ok, parseLine_eq_ok]
  refine ⟨hok text, fun e => ?_, fun script hscript => ?_⟩
  · simp only [parseCmdList, mapM_eq_error, parseLine_eq_ok, parseLine_eq_error]
  · rw [hok]
    induction script with
    | nil => exact .nil
    | cons cmd script ih =>
      obtain ⟨hspells, hline⟩ := spells_spelled (hscript cmd List.mem_cons_self)
      rw [List.flatMap_cons, List.append_assoc]
      change List.Forall₂ Spells (getlines '\n' (cmd.spelled ++ '\n' :: _)) _
      rw [getlines_append hline]
      exact .cons hspells (ih fun c hc => hscript c (List.mem_cons_of_mem _ hc))

end Commands

end MaiFaSp.RiverCrossing
