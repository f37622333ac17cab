import MaiFaSp.Lib.DecimalText
import MaiFaSp.Lib.Scanning
import MaiFaSp.Lib.Unwinding
import MaiFaSp.Logger.Configuration

/-!
# The server of the logs and its processes

The requests that a `server_logger` sends (`server_logger.cpp`) and the handlers that serve them
(`tests/server.cpp`), one request after another under the lock. The server knows a process by its
pid and a severity only: what it writes depends on what the process has registered, not on the
logger.
-/

namespace MaiFaSp.Logger

open DecimalText Scanning

abbrev Registered := Severity → Option (List Char × Bool)

structure Server where
  streams : ℤ → Option Registered
  files : List Char → List Char
  console : List Char

inductive Status where
  | noContent
  | methodNotAllowed
  | internalServerError
  deriving Repr, DecidableEq

inductive Route where
  | init
  | destroy
  | log
  deriving Repr, DecidableEq

/-- `params` are decoded. -/
structure Request where
  isGet : Bool
  route : Route
  params : List (List Char × List Char)
  deriving Repr, DecidableEq

/-- The text that a `char*` stands for. -/
def cString (text : List Char) : List Char := text.takeWhile fun c => c ≠ '\x00'

/-- `req.url_params.get(name)`; a `std::string` of a null pointer throws. -/
def Request.param (r : Request) (name : List Char) : Option (List Char) :=
  (r.params.lookup name).map cString

def pidKey : List Char := "pid".toList

def sevKey : List Char := "sev".toList

def pathKey : List Char := "path".toList

def messageKey : List Char := "message".toList

/-- The sign and what follows it. -/
def signed : List Char → ℤ × List Char
  | '-' :: cs => (-1, cs)
  | '+' :: cs => (1, cs)
  | cs => (1, cs)

/-- `std::stoi`; `none` where it throws. What follows the digits is not looked at. -/
def stoi (str : List Char) : Option ℤ :=
  let (sign, cs) := signed (str.dropWhile isSpace)
  let digits := cs.takeWhile Char.isDigit
  let v := sign * valueOf digits
  if digits = [] ∨ v < -2 ^ 31 ∨ 2 ^ 31 ≤ v then none else some v

/-- `std::to_string` of an `int`. -/
def intToString (v : ℤ) : List Char :=
  if v < 0 then '-' :: Nat.toDigits 10 v.natAbs else Nat.toDigits 10 v.natAbs

namespace Server

/-- `std::cout << text << std::endl`. -/
def print (s : Server) (text : List Char) : Server := { s with console := s.console ++ (text ++ ['\n']) }

/-- `std::ofstream tmp(path)`, where `can path` when the file can be opened. -/
def empty (can : List Char → Bool) (s : Server) (path : List Char) : Server :=
  if path ≠ [] ∧ can path then { s with files := Function.update s.files path [] } else s

def handleInit (can : List Char → Bool) (s : Server) (r : Request) : Server × Status :=
  match r.param pidKey, r.param sevKey, r.param pathKey, r.param consoleKey with
  | some pidStr, some sevStr, some pathStr, some consoleStr =>
    let s := s.print ("INIT PID: ".toList ++ pidStr ++ " SEVERITY: ".toList ++ sevStr ++
      " PATH: ".toList ++ pathStr ++ " CONSOLE: ".toList ++ consoleStr)
    match stoi pidStr, stringToSeverity sevStr with
    | some pid, some sev =>
      let inner := (s.streams pid).getD fun _ => none
      let inner := Function.update inner sev (some (pathStr, decide (consoleStr = ['1'])))
      let s := { s with streams := Function.update s.streams pid (some inner) }
      (s.empty can pathStr, .noContent)
    | _, _ => (s, .internalServerError)
  | _, _, _, _ => (s, .internalServerError)

def handleDestroy (s : Server) (r : Request) : Server × Status :=
  match r.param pidKey with
  | some pidStr =>
    let s := s.print ("DESTROY PID: ".toList ++ pidStr)
    match stoi pidStr with
    | some pid => ({ s with streams := Function.update s.streams pid none }, .noContent)
    | none => (s, .internalServerError)
  | none => (s, .internalServerError)

/-- What the process has registered for the severity. -/
def registered (s : Server) (pid : ℤ) (sev : Severity) : Option (List Char × Bool) :=
  (s.streams pid).bind fun inner => inner sev

def write (can : List Char → Bool) (s : Server) (registered : Option (List Char × Bool)) (message : List Char) : Server × Status :=
  match registered with
  | none => (s, .noContent)
  | some (path, console) =>
    if path ≠ [] ∧ ¬ can path then (s, .internalServerError)
    else
      let s := if path ≠ [] then
        { s with files := Function.update s.files path (s.files path ++ (message ++ ['\n'])) } else s
      (if console then s.print message else s, .noContent)

def handleLog (can : List Char → Bool) (s : Server) (r : Request) : Server × Status :=
  match r.param pidKey, r.param sevKey, r.param messageKey with
  | some pidStr, some sevStr, some message =>
    let s := s.print ("LOG PID: ".toList ++ pidStr ++ " SEVERITY: ".toList ++ sevStr ++
      " MESSAGE: ".toList ++ message)
    match stoi pidStr, stringToSeverity sevStr with
    | some pid, some sev => s.write can (s.registered pid sev) message
    | _, _ => (s, .internalServerError)
  | _, _, _ => (s, .internalServerError)

/-- An exception of a handler becomes the status 500. -/
def handle (can : List Char → Bool) (s : Server) (r : Request) : Server × Status :=
  if !r.isGet then (s, .methodNotAllowed)
  else
    match r.route with
    | .init => s.handleInit can r
    | .destroy => s.handleDestroy r
    | .log => s.handleLog can r

/-- Requests in the order in which they get the lock, with the answers. -/
def step (can : List Char → Bool) (s : Server) (r : Request) : Server × List (Request × Status) :=
  ((s.handle can r).1, [(r, (s.handle can r).2)])

end Server

/-! ### The processes -/

def initRequest (pid : ℤ) (stream : Severity × List Char × Bool) : Request :=
  ⟨true, .init, [(pidKey, intToString pid), (sevKey, severityToString stream.1), (pathKey, stream.2.1),
    (consoleKey, if stream.2.2 then ['1'] else ['0'])]⟩

def destroyRequest (pid : ℤ) : Request := ⟨true, .destroy, [(pidKey, intToString pid)]⟩

/-- The line of `server_logger::log`. -/
def serverLine (entry : Entry) : List Char :=
  '[' :: entry.date ++ ' ' :: entry.time ++ "][".toList ++ severityToString entry.severity ++
    "] ".toList ++ entry.message

def logRequest (pid : ℤ) (entry : Entry) : Request :=
  ⟨true, .log, [(pidKey, intToString pid), (sevKey, severityToString entry.severity),
    (messageKey, serverLine entry)]⟩

/-- The members of `server_logger` that a process calls; the streams in the order of the map. -/
inductive Member where
  | construct (streams : List (Severity × List Char × Bool))
  | copy
  | move
  | assign
  | moveAssign
  | destroy
  | log (entry : Entry)

/-- What a call sends. A copy registers nothing and every destructor withdraws all of the process;
an assignment to itself is none of these. -/
def Member.requests (pid : ℤ) : Member → List Request
  | .construct streams => streams.map (initRequest pid)
  | .copy => []
  | .move => []
  | .assign => [destroyRequest pid]
  | .moveAssign => [destroyRequest pid]
  | .destroy => [destroyRequest pid]
  | .log entry => [logRequest pid entry]

/-- `server_logger_builder`. -/
structure ServerBuilder where
  destination : List Char
  outputStreams : Registered

namespace ServerBuilder

def defaultDestination : List Char := "http://127.0.0.1:9200".toList

def new : ServerBuilder := ⟨defaultDestination, fun _ => none⟩

def element (b : ServerBuilder) (sev : Severity) : List Char × Bool := (b.outputStreams sev).getD ([], false)

/-- Of the files of a severity the last one counts. -/
def addFileStream (b : ServerBuilder) (path : List Char) (sev : Severity) : ServerBuilder :=
  { b with outputStreams := Function.update b.outputStreams sev (some (path, (b.element sev).2)) }

def addConsoleStream (b : ServerBuilder) (sev : Severity) : ServerBuilder :=
  { b with outputStreams := Function.update b.outputStreams sev (some ((b.element sev).1, true)) }

def setDestination (b : ServerBuilder) (dest : List Char) : ServerBuilder := { b with destination := dest }

/-- The server puts the lines together; the format is not used. -/
def setFormat (b : ServerBuilder) (_ : List Char) : ServerBuilder := b

def clear (_ : ServerBuilder) : ServerBuilder := new

/-- The elements of the map in some order. -/
def streams (b : ServerBuilder) (order : List Severity) : List (Severity × List Char × Bool) :=
  order.filterMap fun sev => (b.outputStreams sev).map fun x => (sev, x)

def build (b : ServerBuilder) (order : List Severity) : Member := .construct (b.streams order)

end ServerBuilder

/-- `server_logger_builder` as what a configuration calls. -/
def serverBuilder : Builder ServerBuilder where
  addFileStream := .addFileStream
  addConsoleStream := .addConsoleStream
  setFormat := .setFormat

/-- The process that a handler takes the request to come from. -/
def Request.pid (r : Request) : Option ℤ := (r.param pidKey).bind stoi

/-! ### Texts -/

section Texts

variable {text : List Char} {v : ℤ}

theorem cString_eq_self (h : '\x00' ∉ text) : cString text = text := by
  unfold cString
  rw [List.takeWhile_eq_self_iff]
  intro c hc
  have hne : c ≠ '\x00' := fun hzero => h (hzero ▸ hc)
  simpa using hne

theorem not_digit_zero {digits : List Char} (h : Digits digits) : '\x00' ∉ digits := fun hmem =>
  absurd (h _ hmem) (by decide)

theorem cString_intToString : cString (intToString v) = intToString v := by
  refine cString_eq_self ?_
  have hdigits := not_digit_zero (digits_toDigits v.natAbs)
  unfold intToString
  split_ifs
  · rw [List.mem_cons, not_or]
    exact ⟨by decide, hdigits⟩
  · exact hdigits

theorem cString_severityToString (sev : Severity) :
    cString (severityToString sev) = severityToString sev := by
  cases sev <;> decide

theorem not_isSpace_of_isDigit {c : Char} (h : c.isDigit = true) : isSpace c = false := by
  have hc := (isDigit_iff c).mp h
  have hspace : c ≠ ' ' := by
    rintro rfl
    exact absurd h (by decide)
  simp only [isSpace, hspace, false_or, decide_eq_false_iff_not]
  omega

theorem signed_digits {digits : List Char} (h : Digits digits) : signed digits = (1, digits) := by
  unfold signed
  split
  · exact absurd (h _ List.mem_cons_self) (by decide)
  · exact absurd (h _ List.mem_cons_self) (by decide)
  · rfl

theorem takeWhile_digits {digits : List Char} (h : Digits digits) :
    digits.takeWhile Char.isDigit = digits := List.takeWhile_eq_self_iff.mpr h

/-- What `to_string` writes `stoi` reads. -/
theorem stoi_intToString (hlow : -2 ^ 31 ≤ v) (hhigh : v < 2 ^ 31) : stoi (intToString v) = some v := by
  have hdigits := digits_toDigits v.natAbs
  have hne : Nat.toDigits 10 v.natAbs ≠ [] := Nat.toDigits_ne_nil
  have hvalue : valueOf (Nat.toDigits 10 v.natAbs) = v.natAbs := valueOf_toDigits _
  have hstart : (intToString v).dropWhile isSpace = intToString v := by
    refine dropWhile_of_stops ?_
    unfold intToString
    split_ifs
    · exact stops_cons (by decide) _
    · rw [← List.append_nil (Nat.toDigits 10 v.natAbs)]
      exact stops_append (fun c hc => not_isSpace_of_isDigit (hdigits c hc)) hne []
  unfold stoi
  rw [hstart]
  by_cases hneg : v < 0
  · have hsigned : signed (intToString v) = (-1, Nat.toDigits 10 v.natAbs) := by
      rw [intToString, if_pos hneg]
      rfl
    have hv : -1 * (v.natAbs : ℤ) = v := by omega
    simp only [hsigned, takeWhile_digits hdigits, hvalue, hv]
    exact if_neg (not_or.mpr ⟨hne, not_or.mpr ⟨by omega, by omega⟩⟩)
  · have hsigned : signed (intToString v) = (1, Nat.toDigits 10 v.natAbs) := by
      rw [intToString, if_neg hneg, signed_digits hdigits]
    have hv : 1 * (v.natAbs : ℤ) = v := by omega
    simp only [hsigned, takeWhile_digits hdigits, hvalue, hv]
    exact if_neg (not_or.mpr ⟨hne, not_or.mpr ⟨by omega, by omega⟩⟩)

end Texts

/-! ### The registry and the files -/

/-- What the handlers read and write besides the console. -/
structure Logs where
  streams : ℤ → Option Registered
  files : List Char → List Char

/-- What a request asks for once its parameters are read. -/
inductive Event where
  | register (pid : ℤ) (sev : Severity) (path : List Char) (console : Bool)
  | withdraw (pid : ℤ)
  | write (pid : ℤ) (sev : Severity) (message : List Char)

def Event.pid : Event → ℤ
  | .register pid _ _ _ => pid
  | .withdraw pid => pid
  | .write pid _ _ => pid

def Request.event (r : Request) : Option Event :=
  if !r.isGet then none
  else
    match r.route with
    | .init =>
      match r.param pidKey, r.param sevKey, r.param pathKey, r.param consoleKey with
      | some pidStr, some sevStr, some pathStr, some consoleStr =>
        match stoi pidStr, stringToSeverity sevStr with
        | some pid, some sev => some (.register pid sev pathStr (decide (consoleStr = ['1'])))
        | _, _ => none
      | _, _, _, _ => none
    | .destroy => ((r.param pidKey).bind stoi).map .withdraw
    | .log =>
      match r.param pidKey, r.param sevKey, r.param messageKey with
      | some pidStr, some sevStr, some message =>
        match stoi pidStr, stringToSeverity sevStr with
        | some pid, some sev => some (.write pid sev message)
        | _, _ => none
      | _, _, _ => none

namespace Logs

variable (can : List Char → Bool)

def registered (l : Logs) (pid : ℤ) (sev : Severity) : Option (List Char × Bool) :=
  (l.streams pid).bind fun inner => inner sev

/-- The path that the process has registered for the severity, if it is a file that can be opened. -/
def target (l : Logs) (pid : ℤ) (sev : Severity) : Option (List Char) :=
  ((l.registered pid sev).map Prod.fst).filter fun path => path ≠ [] ∧ can path

def act (l : Logs) : Event → Logs
  | .register pid sev path console =>
    { streams := Function.update l.streams pid (some (Function.update
        ((l.streams pid).getD fun _ => none) sev (some (path, console))))
      files := if path ≠ [] ∧ can path then Function.update l.files path [] else l.files }
  | .withdraw pid => { l with streams := Function.update l.streams pid none }
  | .write pid sev message =>
    match l.target can pid sev with
    | none => l
    | some path => { l with files := Function.update l.files path (l.files path ++ (message ++ ['\n'])) }

def run (l : Logs) (events : List Event) : Logs := events.foldl (act can) l

end Logs

def Server.logs (s : Server) : Logs := ⟨s.streams, s.files⟩

section Events

variable {can : List Char → Bool} {s : Server} {r : Request}

theorem write_logs (pid : ℤ) (sev : Severity) (message : List Char) :
    (s.write can (s.registered pid sev) message).1.logs = s.logs.act can (.write pid sev message) := by
  have htarget : s.logs.target can pid sev =
      ((s.registered pid sev).map Prod.fst).filter fun path => path ≠ [] ∧ can path := rfl
  simp only [Logs.act, htarget, Server.write]
  cases s.registered pid sev with
  | none => rfl
  | some x =>
    obtain ⟨path, console⟩ := x
    by_cases hpath : path = []
    · cases console <;> simp [hpath, Server.logs, Server.print, Option.filter]
    · by_cases hcan : can path = true
      · cases console <;> simp [hpath, hcan, Server.logs, Server.print, Option.filter]
      · simp [hpath, hcan, Server.logs, Option.filter]

theorem empty_logs (path : List Char) : (s.empty can path).logs = { s.logs with
    files := if path ≠ [] ∧ can path then Function.update s.files path [] else s.files } := by
  unfold Server.empty
  split_ifs <;> rfl

theorem print_logs (text : List Char) : (s.print text).logs = s.logs := rfl

/-- The handlers do to the registry and the files what the request asks for. -/
theorem handle_logs : (s.handle can r).1.logs = r.event.elim s.logs (s.logs.act can) := by
  unfold Server.handle Request.event
  cases r.isGet with
  | false => rfl
  | true =>
    cases r.route with
    | init =>
      simp only [Server.handleInit]
      cases r.param pidKey <;> cases r.param sevKey <;> cases r.param pathKey <;>
        cases r.param consoleKey <;> try rfl
      rename_i pidStr sevStr pathStr consoleStr
      dsimp only
      cases stoi pidStr <;> cases stringToSeverity sevStr <;> try rfl
      exact empty_logs pathStr
    | destroy =>
      simp only [Server.handleDestroy]
      cases hpid : r.param pidKey with
      | none => rfl
      | some pidStr =>
        cases hv : stoi pidStr with
        | none => simp [hv, print_logs]
        | some pid => simp [hv]; rfl
    | log =>
      simp only [Server.handleLog]
      cases r.param pidKey <;> cases r.param sevKey <;> cases r.param messageKey <;> try rfl
      rename_i pidStr sevStr message
      dsimp only
      cases stoi pidStr <;> cases stringToSeverity sevStr <;> try rfl
      rename_i pid sev
      exact write_logs pid sev message

/-- A request asks in the name of the process that it names. -/
theorem event_pid {e : Event} (h : r.event = some e) : r.pid = some e.pid := by
  unfold Request.event at h
  unfold Request.pid
  split_ifs at h
  split at h
  · split at h
    · next hpid _ _ _ =>
      split at h
      · next hv _ =>
        cases h
        simp [hpid, hv, Event.pid]
      · cases h
    · cases h
  · cases hpid : (r.param pidKey).bind stoi with
    | none => simp [hpid] at h
    | some pid =>
      simp only [hpid, Option.map_some, Option.some.injEq] at h
      rw [← h]
      rfl
  · split at h
    · next hpid _ _ =>
      split at h
      · next hv _ =>
        cases h
        simp [hpid, hv, Event.pid]
      · cases h
    · cases h

theorem destroyRequest_param {pid : ℤ} : (destroyRequest pid).param pidKey = some (intToString pid) :=
  congrArg some cString_intToString

theorem logRequest_params (pid : ℤ) (entry : Entry) :
    (logRequest pid entry).param pidKey = some (intToString pid) ∧
      (logRequest pid entry).param sevKey = some (severityToString entry.severity) ∧
      (logRequest pid entry).param messageKey = some (cString (serverLine entry)) :=
  ⟨congrArg some cString_intToString, congrArg some (cString_severityToString entry.severity), rfl⟩

section Own

variable {pid : ℤ} (hlow : -2 ^ 31 ≤ pid) (hhigh : pid < 2 ^ 31)

include hlow hhigh

theorem event_initRequest (stream : Severity × List Char × Bool) : (initRequest pid stream).event =
    some (.register pid stream.1 (cString stream.2.1) stream.2.2) := by
  obtain ⟨sev, path, console⟩ := stream
  have hpid : (initRequest pid (sev, path, console)).param pidKey = some (intToString pid) :=
    congrArg some cString_intToString
  have hsev : (initRequest pid (sev, path, console)).param sevKey = some (severityToString sev) :=
    congrArg some (cString_severityToString sev)
  have hpath : (initRequest pid (sev, path, console)).param pathKey = some (cString path) := rfl
  have hconsole : (initRequest pid (sev, path, console)).param consoleKey =
      some (if console then ['1'] else ['0']) := by
    cases console <;> rfl
  simp only [Request.event, hpid, hsev, hpath, hconsole, stoi_intToString hlow hhigh,
    stringToSeverity_toString]
  cases console <;> rfl

theorem event_destroyRequest : (destroyRequest pid).event = some (.withdraw pid) := by
  simp only [Request.event, destroyRequest_param, Option.bind_some, stoi_intToString hlow hhigh]
  rfl

theorem event_logRequest (entry : Entry) : (logRequest pid entry).event =
    some (.write pid entry.severity (cString (serverLine entry))) := by
  obtain ⟨hpid, hsev, hmessage⟩ := logRequest_params pid entry
  simp only [Request.event, hpid, hsev, hmessage, stoi_intToString hlow hhigh, stringToSeverity_toString]
  rfl

/-- A line of a process that has nothing registered goes nowhere, and the answer does not tell. -/
theorem handle_unregistered (hnone : ∀ sev, s.registered pid sev = none) (entry : Entry) :
    (s.handle can (logRequest pid entry)).1.logs = s.logs ∧
      (s.handle can (logRequest pid entry)).2 = .noContent := by
  obtain ⟨hpid, hsev, hmessage⟩ := logRequest_params pid entry
  have hhandle : s.handle can (logRequest pid entry) = s.handleLog can (logRequest pid entry) := rfl
  have hprint : ∀ text, (s.print text).registered pid entry.severity = none :=
    fun text => hnone entry.severity
  rw [hhandle]
  simp only [Server.handleLog, hpid, hsev, hmessage, stoi_intToString hlow hhigh,
    stringToSeverity_toString, hprint, Server.write, and_true]
  rfl

theorem handle_destroyRequest : (s.handle can (destroyRequest pid)).1.logs = s.logs.act can (.withdraw pid) ∧
    (s.handle can (destroyRequest pid)).2 = .noContent := by
  refine ⟨by rw [handle_logs, event_destroyRequest hlow hhigh]; rfl, ?_⟩
  have hhandle : s.handle can (destroyRequest pid) = s.handleDestroy (destroyRequest pid) := rfl
  rw [hhandle]
  simp only [Server.handleDestroy, destroyRequest_param, stoi_intToString hlow hhigh]

end Own

end Events

end MaiFaSp.Logger
