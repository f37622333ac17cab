import MaiFaSp.Lib.DecimalText
import Mathlib.Data.Rat.Defs
import Mathlib.Tactic

/-!
# The shell: users, time and commands (`task1/main.c`)

The standard input is the list of the characters still to be read. What C leaves undefined
(an empty or too long command line, `strcmp` of a null pointer) is a fault, and so is the end
of the input, at which the loops of `flush` and `interaction` go on for ever.
-/

namespace MaiFaSp.Shell

inductive Fault where
  | endOfInput
  | uninitialised
  | bufferOverflow
  | nullPointer
  | intRange
  deriving Repr, DecidableEq

inductive KErrors where
  | ok
  | incArgs
  | incNumArgs
  | incInput
  | incCommand
  | memAllocErr
  | loginFailed
  | loginSuccess
  | logout
  | noSuchUser
  | sanctionsApplied
  deriving Repr, DecidableEq

structure User where
  login : List Char
  pincode : ℤ
  sanctions : ℤ
  sanctionsCurrent : ℤ
  deriving Repr, DecidableEq

structure State where
  users : List User
  stdin : List Char
  deriving Repr, DecidableEq

def INT_MAX : ℤ := 2 ^ 31 - 1

/-! ### Reading -/

def isspace (c : Char) : Bool := c ∈ [' ', '\t', '\n', '\x0b', '\x0c', '\r']

/-- `scanf("%5s", …)` with another width. -/
def scanWord (width : ℕ) (stdin : List Char) : Except Fault (List Char × List Char) :=
  match stdin.dropWhile isspace with
  | [] => throw .endOfInput
  | c :: cs =>
    let word := ((c :: cs).take width).takeWhile (fun c => !isspace c)
    pure (word, (c :: cs).drop word.length)

/-- `scanf("%c", …)`. -/
def scanChar : List Char → Except Fault (Char × List Char)
  | [] => throw .endOfInput
  | c :: cs => pure (c, cs)

def flush : List Char → Except Fault (List Char)
  | [] => throw .endOfInput
  | c :: cs => if c = '\n' then pure cs else flush cs

/-- `scanf("%[^\n]s", command)` into 128 characters. -/
def scanLine (stdin : List Char) : Except Fault (List Char × List Char) :=
  let line := stdin.takeWhile (fun c => c ≠ '\n')
  if stdin = [] then throw .endOfInput
  else if line = [] then throw .uninitialised
  else if 127 < line.length then throw .bufferOverflow
  else pure (line, stdin.drop line.length)

/-- `strtol` in base ten: the number and `endptr`; `none` when there is no digit. -/
def strtol (cs : List Char) : Option (ℤ × List Char) :=
  let body := cs.dropWhile isspace
  let negative := body.head? = some '-'
  let body := if negative ∨ body.head? = some '+' then body.tail else body
  let digits := body.takeWhile Char.isDigit
  if digits = [] then none
  else
    let value : ℤ := DecimalText.valueOf digits
    some (if negative then -value else value, body.dropWhile Char.isDigit)

/-- `scanf("%d", …)`. -/
def scanInt (stdin : List Char) : Except Fault (Option ℤ × List Char) :=
  match strtol stdin with
  | none =>
    let body := stdin.dropWhile isspace
    pure (none, if body.head? = some '-' ∨ body.head? = some '+' then body.tail else body)
  | some (value, rest) =>
    if value < -INT_MAX - 1 ∨ INT_MAX < value then throw .intRange else pure (some value, rest)

/-- `strtok(command, " ")` until it returns `NULL`. -/
def strtok (command : List Char) : List (List Char) :=
  (command.splitOn ' ').filter (fun token => token ≠ [])

/-! ### Users -/

def vectorSearch (users : List User) (element : List Char) : Option ℕ :=
  users.findIdx? (fun u => u.login = element)

/-- `sanctions_current` of the user at an index. -/
def State.current (s : State) (i : ℕ) : Option ℤ := s.users[i]?.map User.sanctionsCurrent

def State.update (s : State) (i : ℕ) (f : User → User) : State :=
  { s with users := s.users.modify i f }

/-- The checks of the argument `count` of `Sanctions`. -/
def sanctionsCount (count : List Char) : Option ℤ :=
  if 8 < count.length then none
  else match strtol count with
    | none => none
    | some (num, rest) =>
      if ¬ rest.all isspace then none
      else if num < 0 ∨ INT_MAX < num then none
      else some num

def sanctions (userString count : List Char) (s : State) : Except Fault (KErrors × State) :=
  match sanctionsCount count with
  | none => pure (.incInput, s)
  | some num =>
    match vectorSearch s.users userString with
    | none => pure (.noSuchUser, s)
    | some man => do
      let (command, stdin) ← scanWord 5 s.stdin
      let (check, stdin) ← scanChar stdin
      if check ≠ '\n' then
        let stdin ← flush stdin
        pure (.incInput, { s with stdin := stdin })
      else if command ≠ ['1', '2', '3', '4', '5'] then pure (.ok, { s with stdin := stdin })
      else
        let s := { s with stdin := stdin }
        pure (.ok, s.update man (fun u => { u with sanctions := num, sanctionsCurrent := num + 1 }))

/-- `Login`: the status, the user that is logged in and the shell. -/
def login (s : State) : Except Fault (KErrors × Option ℕ × State) := do
  let (name, stdin) ← scanWord 6 s.stdin
  let (check, stdin) ← scanChar stdin
  if check ≠ '\n' then pure (.incInput, none, { s with stdin := stdin })
  else
    match vectorSearch s.users name with
    | none => pure (.loginFailed, none, { s with stdin := stdin })
    | some us =>
      let (pincode, stdin) ← scanInt stdin
      match pincode with
      | none => pure (.incInput, none, { s with stdin := stdin })
      | some pincode =>
        if pincode < 0 ∨ 100000 < pincode then pure (.incInput, none, { s with stdin := stdin })
        else
          let (check, stdin) ← scanChar stdin
          let s := { s with stdin := stdin }
          if check ≠ '\n' then pure (.incInput, none, s)
          else if s.users[us]?.map User.pincode = some pincode then
            pure (.loginSuccess, some us,
              s.update us (fun u => { u with sanctionsCurrent := u.sanctions }))
          else pure (.loginFailed, none, s)

/-! ### Time -/

/-- `struct tm` as `ConvertToTm` fills it. -/
structure Tm where
  mday : ℤ
  mon : ℤ
  year : ℤ
  hour : ℤ
  min : ℤ
  sec : ℤ
  deriving Repr, DecidableEq

/-- `%*[0-9]%n` for each field: the positions behind the fields. A blank of the format stands
for any white space. -/
def fieldEnds : List Char → ℕ → List Char → List ℕ
  | separators, pos, cs =>
    let digits := cs.takeWhile Char.isDigit
    let rest := cs.dropWhile Char.isDigit
    let here := pos + digits.length
    if digits = [] then []
    else match separators with
      | [] => [here]
      | sep :: separators =>
        if sep = ' ' then
          let blanks := rest.takeWhile isspace
          here :: fieldEnds separators (here + blanks.length) (rest.drop blanks.length)
        else if rest.head? = some sep then here :: fieldEnds separators (here + 1) rest.tail
        else [here]

/-- `sscanf(time, "%d:%d:%d %d:%d:%d", …)`: the fields that are read. -/
def scanFields : List Char → List Char → List ℤ
  | separators, cs =>
    match strtol cs with
    | none => []
    | some (value, rest) =>
      match separators with
      | [] => [value]
      | sep :: separators =>
        if sep = ' ' then value :: scanFields separators (rest.dropWhile isspace)
        else if rest.head? = some sep then value :: scanFields separators rest.tail
        else [value]

def separators : List Char := [':', ':', ' ', ':', ':']

def maxDays (month year : ℤ) : ℤ :=
  if month = 4 ∨ month = 6 ∨ month = 9 ∨ month = 11 then 30
  else if month = 2 then
    if year % 400 = 0 ∨ (year % 100 ≠ 0 ∧ year % 4 = 0) then 29 else 28
  else 31

/-- The ranges that `ValidateTime` checks. -/
def validFields : List ℤ → Bool
  | [day, month, year, hour, minute, second] =>
    0 ≤ hour ∧ hour ≤ 23 ∧ 0 ≤ minute ∧ minute ≤ 59 ∧ 0 ≤ second ∧ second ≤ 59 ∧
      1980 ≤ year ∧ 1 ≤ month ∧ month ≤ 12 ∧ 1 ≤ day ∧ day ≤ 31 ∧ day ≤ maxDays month year
  | _ => false

def validateTime (time : List Char) : Bool :=
  time.length = 19 ∧ fieldEnds separators 0 time = [2, 5, 10, 13, 16, 19] ∧
    validFields (scanFields separators time)

/-- `ConvertToTm`, for a string that was validated. -/
def convertToTm (time : List Char) : Option Tm :=
  match scanFields separators time with
  | [d, M, y, h, m, s] => some ⟨d, M - 1, y - 1900, h, m, s⟩
  | _ => none

section Commands

/- `mktime`, and `time(NULL)` at the time of the command. -/
variable (mktime : Tm → ℤ) (now : ℤ)

/-- `GetPassedSeconds`, without rounding: only whether the result is -1 is looked at, and no
quotient of a whole number of seconds is rounded to it. -/
def getPassedSeconds (ttime flag : List Char) : Except Fault ℚ :=
  match convertToTm ttime with
  | none => throw .uninitialised
  | some tm =>
    let passed : ℚ := now - mktime tm
    pure (if flag = ['-', 's'] then passed
      else if flag = ['-', 'm'] then passed / 60
      else if flag = ['-', 'h'] then passed / 60 / 60
      else if flag = ['-', 'y'] then passed / 60 / 60 / 24 / 365
      else -1)

def howMuch (ttime flag : List Char) : Except Fault KErrors :=
  if ¬ validateTime ttime then pure .incInput
  else do
    let res ← getPassedSeconds mktime now ttime flag
    pure (if res = -1 then .incInput else .ok)

/-! ### Commands -/

def proccessCommands (command : List Char) (currentUser : ℕ) (s : State) :
    Except Fault (KErrors × State) :=
  let tokens := strtok command
  if 5 ≤ tokens.length then pure (.incInput, s)
  else match tokens with
    | [_, _] => pure (.incNumArgs, s)
    | [l1] =>
      if l1 = "Logout".toList then pure (.logout, s)
      else match s.current currentUser with
        | none => throw .nullPointer
        | some current =>
          if current = 0 then pure (.sanctionsApplied, s)
          else if l1 = "Time".toList then pure (.ok, s)
          else if l1 = "Date".toList then pure (.ok, s)
          else pure (.incInput, s)
    | l1 :: l2 :: l3 :: more =>
      if l1 = "Howmuch".toList then
        if 256 < l2.length + l3.length then pure (.incInput, s)
        else match more with
          | l4 :: _ => do
            let status ← howMuch mktime now (l2 ++ ' ' :: l3) l4
            pure (status, s)
          | [] => pure (.incInput, s)
      else if l1 = "Sanctions".toList then
        if more = [] then sanctions l2 l3 s else pure (.incInput, s)
      else pure (.incInput, s)
    | [] => throw .nullPointer

/-- The start of a turn of `interaction`: the command line. -/
def readCommand (s : State) : Except Fault (List Char × State) := do
  let (command, stdin) ← scanLine s.stdin
  let (check, stdin) ← scanChar stdin
  let stdin ← if check ≠ '\n' then flush stdin else pure stdin
  pure (command, { s with stdin := stdin })

/-- One turn of `interaction`. -/
def turn (currentUser : ℕ) (s : State) : Except Fault (KErrors × State) := do
  let (command, s) ← readCommand s
  let (status, s) ← proccessCommands mktime now command currentUser s
  if status = .ok then
    pure (status,
      s.update currentUser (fun u => { u with sanctionsCurrent := u.sanctionsCurrent - 1 }))
  else pure (status, s)

end Commands

end MaiFaSp.Shell
