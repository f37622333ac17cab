import Mathlib.Tactic

/-!
# Severities and formats

The names of the severities (`logger.cpp`, `logger_builder.cpp`) and the text that a
`client_logger` makes of a message (`client_logger.cpp:41-82`).
-/

namespace MaiFaSp.Logger

inductive Severity where
  | trace
  | debug
  | information
  | warning
  | error
  | critical
  deriving Repr, DecidableEq

def severities : List Severity := [.trace, .debug, .information, .warning, .error, .critical]

theorem severities_nodup : severities.Nodup := by decide

theorem mem_severities (severity : Severity) : severity ∈ severities := by
  cases severity <;> decide

/-- `logger::severity_to_string`. -/
def severityToString : Severity → List Char
  | .trace => "TRACE".toList
  | .debug => "DEBUG".toList
  | .information => "INFORMATION".toList
  | .warning => "WARNING".toList
  | .error => "ERROR".toList
  | .critical => "CRITICAL".toList

/-- `logger_builder::string_to_severity`; `none` where it throws. -/
def stringToSeverity (severityString : List Char) : Option Severity :=
  if severityString = "TRACE".toList then some .trace
  else if severityString = "DEBUG".toList then some .debug
  else if severityString = "INFORMATION".toList then some .information
  else if severityString = "WARNING".toList then some .warning
  else if severityString = "ERROR".toList then some .error
  else if severityString = "CRITICAL".toList then some .critical
  else none

theorem stringToSeverity_toString (severity : Severity) :
    stringToSeverity (severityToString severity) = some severity := by
  cases severity <;> rfl

theorem stringToSeverity_eq_some {s : List Char} {severity : Severity} :
    stringToSeverity s = some severity ↔ s = severityToString severity := by
  constructor
  · intro h
    unfold stringToSeverity at h
    split_ifs at h with h₁ h₂ h₃ h₄ h₅ h₆ <;> cases h <;> assumption
  · rintro rfl
    exact stringToSeverity_toString severity

inductive Flag where
  | date
  | time
  | severity
  | message
  | noFlag
  deriving Repr, DecidableEq

def charToFlag (c : Char) : Flag :=
  if c = 'd' then .date
  else if c = 't' then .time
  else if c = 's' then .severity
  else if c = 'm' then .message
  else .noFlag

/-- What the clock shows, the severity and the message that is logged. -/
structure Entry where
  date : List Char
  time : List Char
  severity : Severity
  message : List Char

/-- The `switch` on the character behind a percent sign. -/
def Entry.flagged (entry : Entry) (c : Char) : List Char :=
  match charToFlag c with
  | .date => entry.date
  | .time => entry.time
  | .severity => severityToString entry.severity
  | .message => entry.message
  | .noFlag => [c]

/-- The loop of `make_format`, with its flag `in_flag`. -/
def formatLoop (entry : Entry) : Bool → List Char → List Char
  | _, [] => []
  | inFlag, c :: format =>
    if c = '%' then formatLoop entry true format
    else if !inFlag then c :: formatLoop entry false format
    else entry.flagged c ++ formatLoop entry false format

def makeFormat (format : List Char) (entry : Entry) : List Char := formatLoop entry false format

/-! ### The parts of a format -/

/-- A run of percent signs, the character behind it, and the text up to the next one. -/
structure Directive where
  more : ℕ
  char : Char
  text : List Char

/-- A text, directives, and percent signs at the end that stand before nothing. -/
structure Format where
  text : List Char
  directives : List Directive
  pending : ℕ

namespace Directive

def written (d : Directive) : List Char := '%' :: List.replicate d.more '%' ++ d.char :: d.text

def shown (entry : Entry) (d : Directive) : List Char := entry.flagged d.char ++ d.text

/-- The percent signs are those of the run. -/
def Proper (d : Directive) : Prop := d.char ≠ '%' ∧ '%' ∉ d.text

end Directive

namespace Format

def written (f : Format) : List Char :=
  f.text ++ f.directives.flatMap Directive.written ++ List.replicate f.pending '%'

def shown (entry : Entry) (f : Format) : List Char :=
  f.text ++ f.directives.flatMap (Directive.shown entry)

def Proper (f : Format) : Prop := '%' ∉ f.text ∧ ∀ d ∈ f.directives, d.Proper

end Format

section Formats

variable {entry : Entry} {inFlag : Bool} {text format : List Char}

theorem formatLoop_text (h : '%' ∉ text) :
    formatLoop entry false (text ++ format) = text ++ formatLoop entry false format := by
  induction text with
  | nil => rfl
  | cons c text ih =>
    rw [List.mem_cons, not_or] at h
    simp [formatLoop, Ne.symm h.1, ih h.2]

theorem formatLoop_percents (k : ℕ) :
    formatLoop entry true (List.replicate k '%' ++ format) = formatLoop entry true format := by
  induction k with
  | zero => rfl
  | succ k ih => simp [List.replicate_succ, formatLoop, ih]

theorem formatLoop_directive {d : Directive} (h : d.Proper) :
    formatLoop entry false (d.written ++ format) = d.shown entry ++ formatLoop entry false format := by
  have hrun : formatLoop entry false (d.written ++ format) =
      formatLoop entry true (List.replicate d.more '%' ++ (d.char :: (d.text ++ format))) := by
    simp [Directive.written, formatLoop]
  rw [hrun, formatLoop_percents]
  simp [formatLoop, h.1, formatLoop_text h.2, Directive.shown]

theorem formatLoop_directives {ds : List Directive} (h : ∀ d ∈ ds, d.Proper) :
    formatLoop entry false (ds.flatMap Directive.written ++ format) =
      ds.flatMap (Directive.shown entry) ++ formatLoop entry false format := by
  induction ds with
  | nil => rfl
  | cons d ds ih =>
    simp only [List.flatMap_cons, List.append_assoc]
    rw [formatLoop_directive (h d List.mem_cons_self), ih fun d' hd' => h d' (List.mem_cons_of_mem _ hd')]

theorem formatLoop_pending (k : ℕ) : formatLoop entry inFlag (List.replicate k '%') = [] := by
  cases k with
  | zero => rfl
  | succ k =>
    have h : formatLoop entry true (List.replicate k '%' ++ []) = formatLoop entry true [] :=
      formatLoop_percents k
    rw [List.append_nil] at h
    simp [List.replicate_succ, formatLoop, h]

/-- Every format has parts. -/
theorem exists_format (format : List Char) : ∃ f : Format, f.Proper ∧ f.written = format := by
  induction format with
  | nil => exact ⟨⟨[], [], 0⟩, ⟨by simp, by simp⟩, rfl⟩
  | cons c format ih =>
    obtain ⟨⟨text, directives, pending⟩, ⟨htext, hproper⟩, rfl⟩ := ih
    by_cases hc : c = '%'
    · subst hc
      cases text with
      | cons c' text =>
        rw [List.mem_cons, not_or] at htext
        refine ⟨⟨[], ⟨0, c', text⟩ :: directives, pending⟩, ⟨by simp, ?_⟩, ?_⟩
        · rintro d (_ | ⟨_, hd⟩)
          · exact ⟨Ne.symm htext.1, htext.2⟩
          · exact hproper d hd
        · simp [Format.written, Directive.written]
      | nil =>
        cases directives with
        | nil => exact ⟨⟨[], [], pending + 1⟩, ⟨by simp, by simp⟩, by simp [Format.written, List.replicate_succ]⟩
        | cons d directives =>
          refine ⟨⟨[], ⟨d.more + 1, d.char, d.text⟩ :: directives, pending⟩, ⟨by simp, ?_⟩, ?_⟩
          · rintro d' (_ | ⟨_, hd⟩)
            · exact hproper d List.mem_cons_self
            · exact hproper d' (List.mem_cons_of_mem _ hd)
          · simp [Format.written, Directive.written, List.replicate_succ]
    · refine ⟨⟨c :: text, directives, pending⟩, ⟨?_, hproper⟩, by simp [Format.written]⟩
      rw [List.mem_cons, not_or]
      exact ⟨Ne.symm hc, htext⟩

end Formats

end MaiFaSp.Logger

/-!
## Configuration of a builder

`transform_with_configuration` and `parse_severity`, which `client_logger_builder.cpp:25-56,75-85`
and `server_logger_builder.cpp:30-72` write alike. They are for the builder only what the calls
are that they make.
-/

namespace MaiFaSp.Logger

/-- A parsed JSON text; the members of an object in the order of their keys. -/
inductive Json where
  | null
  | bool (b : Bool)
  | number (n : ℤ)
  | string (s : List Char)
  | array (elements : List Json)
  | object (members : List (List Char × Json))

namespace Json

def contains (j : Json) (key : List Char) : Bool :=
  match j with
  | .object members => members.any fun m => m.1 = key
  | _ => false

/-- `j[key]` on an object or on null. -/
def member (j : Json) (key : List Char) : Json :=
  match j with
  | .object members => (members.lookup key).getD .null
  | _ => .null

/-- `j.items()`. The elements of an array go by their numbers, any other value by the empty key. -/
def items : Json → List (List Char × Json)
  | .null => []
  | .object members => members
  | .array elements => elements.zipIdx.map fun e => ((Nat.repr e.2).toList, e.1)
  | j => [([], j)]

/-- What a loop over `j` goes through. -/
def elements : Json → List Json
  | .null => []
  | .object members => members.map Prod.snd
  | .array elements => elements
  | j => [j]

end Json

def formatKey : List Char := "format".toList

def consoleKey : List Char := "console".toList

def pathsKey : List Char := "paths".toList

/-- The calls of `logger_builder` that a configuration makes. -/
structure Builder (β : Type*) where
  addFileStream : β → List Char → Severity → β
  addConsoleStream : β → Severity → β
  setFormat : β → List Char → β

inductive Call where
  | addFileStream (path : List Char) (severity : Severity)
  | addConsoleStream (severity : Severity)
  | setFormat (format : List Char)
  deriving Repr, DecidableEq

namespace Builder

variable {β : Type*} (ops : Builder β)

def call (b : β) : Call → β
  | .addFileStream path severity => ops.addFileStream b path severity
  | .addConsoleStream severity => ops.addConsoleStream b severity
  | .setFormat format => ops.setFormat b format

/-- The loop over the paths; `false` where it throws, at an element that is no string. -/
def addPaths (severity : Severity) : β → List Json → β × Bool
  | b, [] => (b, true)
  | b, .string path :: rest => addPaths severity (ops.addFileStream b path severity) rest
  | b, _ :: _ => (b, false)

def parseSeverity (b : β) (severity : Severity) (j : Json) : β × Bool :=
  let b := if j.contains consoleKey then ops.addConsoleStream b severity else b
  if j.contains pathsKey then ops.addPaths severity b (j.member pathsKey).elements
  else (b, true)

def parseItems : β → List (List Char × Json) → β × Bool
  | b, [] => (b, true)
  | b, (key, value) :: items =>
    if key = formatKey then parseItems b items
    else
      match stringToSeverity key with
      | none => (b, false)
      | some severity =>
        let (b', ok) := ops.parseSeverity b severity value
        if ok then parseItems b' items else (b', false)

def configure (b : β) (config : Json) : β × Bool :=
  if config.contains formatKey then
    match config.member formatKey with
    | .string format => ops.parseItems (ops.setFormat b format) config.items
    | _ => (b, false)
  else ops.parseItems b config.items

/-- `configJson` is `none` where the file cannot be opened or is no JSON text. -/
def transformWithConfiguration (b : β) (configJson : Option Json) (configurationPath : List Char) :
    β × Bool :=
  match configJson with
  | some (.object members) => ops.configure b ((Json.object members).member configurationPath)
  | some .null => ops.configure b .null
  | _ => (b, false)

end Builder

/-- A builder that only notes down its calls. -/
def recorder : Builder (List Call) where
  addFileStream calls path severity := calls ++ [.addFileStream path severity]
  addConsoleStream calls severity := calls ++ [.addConsoleStream severity]
  setFormat calls format := calls ++ [.setFormat format]

/-- The calls of a configuration, and `false` where it throws after them. -/
def configuredCalls (configJson : Option Json) (configurationPath : List Char) : List Call × Bool :=
  recorder.transformWithConfiguration [] configJson configurationPath

theorem recorder_call (calls : List Call) (c : Call) : recorder.call calls c = calls ++ [c] := by
  cases c <;> rfl

section Simulation

variable {β γ : Type*} {ops : Builder β} {ops' : Builder γ} {φ : β → γ}

theorem addPaths_simulated (h : ∀ b c, φ (ops.call b c) = ops'.call (φ b) c) (severity : Severity)
    (b : β) (elements : List Json) : ops'.addPaths severity (φ b) elements =
      ((φ (ops.addPaths severity b elements).1), (ops.addPaths severity b elements).2) := by
  induction elements generalizing b with
  | nil => rfl
  | cons j elements ih =>
    cases j with
    | string path =>
      have hfile : φ (ops.addFileStream b path severity) = ops'.addFileStream (φ b) path severity :=
        h b (.addFileStream path severity)
      simp only [Builder.addPaths, ← hfile, ih]
    | _ => rfl

theorem parseSeverity_simulated (h : ∀ b c, φ (ops.call b c) = ops'.call (φ b) c)
    (severity : Severity) (b : β) (j : Json) : ops'.parseSeverity (φ b) severity j =
      ((φ (ops.parseSeverity b severity j).1), (ops.parseSeverity b severity j).2) := by
  have hconsole : φ (ops.addConsoleStream b severity) = ops'.addConsoleStream (φ b) severity :=
    h b (.addConsoleStream severity)
  unfold Builder.parseSeverity
  split_ifs <;> simp only [← hconsole, addPaths_simulated h]

theorem parseItems_simulated (h : ∀ b c, φ (ops.call b c) = ops'.call (φ b) c) (b : β)
    (items : List (List Char × Json)) : ops'.parseItems (φ b) items =
      ((φ (ops.parseItems b items).1), (ops.parseItems b items).2) := by
  induction items generalizing b with
  | nil => rfl
  | cons item items ih =>
    obtain ⟨key, value⟩ := item
    unfold Builder.parseItems
    by_cases hkey : key = formatKey
    · simp only [if_pos hkey, ih]
    · simp only [if_neg hkey]
      cases stringToSeverity key with
      | none => rfl
      | some severity =>
        simp only [parseSeverity_simulated h severity b value]
        cases (ops.parseSeverity b severity value).2 with
        | true => simp [ih]
        | false => rfl

theorem configure_simulated (h : ∀ b c, φ (ops.call b c) = ops'.call (φ b) c) (b : β)
    (config : Json) : ops'.configure (φ b) config =
      ((φ (ops.configure b config).1), (ops.configure b config).2) := by
  unfold Builder.configure
  by_cases hformat : config.contains formatKey
  · simp only [hformat, ↓reduceIte]
    cases config.member formatKey with
    | string format =>
      have hset : φ (ops.setFormat b format) = ops'.setFormat (φ b) format := h b (.setFormat format)
      simp only [← hset, parseItems_simulated h]
    | _ => rfl
  · simp only [hformat, Bool.false_eq_true, ↓reduceIte, parseItems_simulated h]

theorem transformWithConfiguration_simulated (h : ∀ b c, φ (ops.call b c) = ops'.call (φ b) c)
    (b : β) (configJson : Option Json) (configurationPath : List Char) :
    ops'.transformWithConfiguration (φ b) configJson configurationPath =
      ((φ (ops.transformWithConfiguration b configJson configurationPath).1),
        (ops.transformWithConfiguration b configJson configurationPath).2) := by
  cases configJson with
  | none => rfl
  | some j =>
    cases j with
    | object members => exact configure_simulated h b _
    | null => exact configure_simulated h b _
    | _ => rfl

end Simulation

/-- A configuration, also one that throws, is the calls that it makes, whatever the builder is. -/
theorem transformWithConfiguration_calls {β : Type*} (ops : Builder β) (b : β)
    (configJson : Option Json) (configurationPath : List Char) :
    ops.transformWithConfiguration b configJson configurationPath =
      ((configuredCalls configJson configurationPath).1.foldl ops.call b,
        (configuredCalls configJson configurationPath).2) := by
  have hcall : ∀ calls c, (recorder.call calls c).foldl ops.call b =
      ops.call (calls.foldl ops.call b) c := by
    intro calls c
    rw [recorder_call, List.foldl_append, List.foldl_cons, List.foldl_nil]
  exact transformWithConfiguration_simulated hcall [] configJson configurationPath

end MaiFaSp.Logger
