import Mathlib.Data.List.TakeWhile
import Mathlib.Tactic.Common

/-!
# Scanning a text

The longest front of a text whose characters pass a test, and the word that `>>` extracts
into a string.
-/

namespace MaiFaSp.Scanning

variable {p : Char → Bool} {cs rest : List Char}

/-- The text is at its end or goes on with a character that fails the test. -/
def Stops (p : Char → Bool) (cs : List Char) : Prop := ∀ c ∈ cs.head?, p c = false

theorem stops_nil (p : Char → Bool) : Stops p [] := by simp [Stops]

theorem stops_cons {c : Char} (h : p c = false) (cs : List Char) : Stops p (c :: cs) := by
  simpa [Stops] using h

theorem stops_append (hcs : ∀ c ∈ cs, p c = false) (hne : cs ≠ []) (rest : List Char) :
    Stops p (cs ++ rest) := by
  cases cs with
  | nil => exact absurd rfl hne
  | cons c cs => exact stops_cons (hcs c List.mem_cons_self) _

theorem takeWhile_of_stops (h : Stops p rest) : rest.takeWhile p = [] := by
  cases rest with
  | nil => rfl
  | cons c cs => simp [h c rfl]

theorem dropWhile_of_stops (h : Stops p rest) : rest.dropWhile p = rest := by
  cases rest with
  | nil => rfl
  | cons c cs => simp [h c rfl]

theorem takeWhile_append (hcs : ∀ c ∈ cs, p c = true) (h : Stops p rest) :
    (cs ++ rest).takeWhile p = cs := by
  simp [List.takeWhile_append_of_pos hcs, takeWhile_of_stops h]

theorem dropWhile_append (hcs : ∀ c ∈ cs, p c = true) (h : Stops p rest) :
    (cs ++ rest).dropWhile p = rest := by
  simp [List.dropWhile_append_of_pos hcs, dropWhile_of_stops h]

/-- Every text splits behind the longest front that passes. -/
theorem exists_front (p : Char → Bool) (text : List Char) :
    ∃ front rest, text = front ++ rest ∧ (∀ c ∈ front, p c = true) ∧ Stops p rest := by
  refine ⟨text.takeWhile p, text.dropWhile p, List.takeWhile_append_dropWhile.symm,
    fun c hc => List.mem_takeWhile_imp hc, fun c hc => ?_⟩
  have hhead := List.head?_dropWhile_not p text
  rw [Option.mem_def.mp hc] at hhead
  simpa using hhead

/-! ### Words -/

/-- `isspace` in the locale `C`. -/
def isSpace (c : Char) : Bool := c = ' ' ∨ 9 ≤ c.toNat ∧ c.toNat ≤ 13

/-- `stream >> word`: the word, which is empty at the end of the stream, and what is left. -/
def extractWord (stream : List Char) : List Char × List Char :=
  let stream := stream.dropWhile isSpace
  (stream.takeWhile fun c => !isSpace c, stream.dropWhile fun c => !isSpace c)

theorem extractWord_append {blanks word : List Char} (hblanks : ∀ c ∈ blanks, isSpace c = true)
    (hword : ∀ c ∈ word, isSpace c = false) (hne : word ≠ [])
    (hrest : Stops (fun c => !isSpace c) rest) :
    extractWord (blanks ++ word ++ rest) = (word, rest) := by
  have hstart : Stops isSpace (word ++ rest) := stops_append hword hne rest
  have hpass : ∀ c ∈ word, (!isSpace c) = true := by
    intro c hc
    simp [hword c hc]
  unfold extractWord
  rw [List.append_assoc, dropWhile_append hblanks hstart]
  simp only [takeWhile_append hpass hrest, dropWhile_append hpass hrest]

/-! ### Lines -/

/-- The lines that `getline` returns one after another, without the newlines. -/
def getlines {α : Type*} [DecidableEq α] (newline : α) : List α → List (List α)
  | [] => []
  | c :: text =>
    if c = newline then [] :: getlines newline text
    else
      match getlines newline text with
      | [] => [[c]]
      | line :: lines => (c :: line) :: lines

theorem getlines_append {α : Type*} [DecidableEq α] {newline : α} {line text : List α}
    (hline : newline ∉ line) :
    getlines newline (line ++ newline :: text) = line :: getlines newline text := by
  induction line with
  | nil => simp [getlines]
  | cons c line ih =>
    rw [List.mem_cons, not_or] at hline
    rw [List.cons_append, getlines, if_neg fun h => hline.1 h.symm, ih hline.2]

end MaiFaSp.Scanning
