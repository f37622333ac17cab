import MaiFaSp.Lib.Unwinding

/-!
# The river-crossing server

The messages, the list of sessions and the handlers of the server. A message is
taken from the server's queue and answered on the queue it names.
-/

namespace MaiFaSp.RiverCrossing

/-- `other` stands for a value that is none of the enumerators. -/
inductive ObjectId where
  | wolf
  | goat
  | cabbage
  | none
  | other (value : ℕ)
  deriving Repr, DecidableEq

inductive MsgId where
  | init
  | take
  | put
  | move
  | ok
  | err
  | fin
  | allMoved
  | unknown (id : ℤ)
  deriving Repr, DecidableEq

structure Message where
  msgId : MsgId
  queueId : ℤ
  objId : ObjectId
  deriving Repr, DecidableEq

/-- A message with what `malloc` does while it is handled. -/
structure Delivery where
  msg : Message
  allocated : Bool
  deriving Repr, DecidableEq

inductive Answer where
  | ok
  | err (errMsg : String)
  | allMoved
  deriving Repr, DecidableEq

structure Reply where
  queueId : ℤ
  answer : Answer
  deriving Repr, DecidableEq

structure Session where
  queueId : ℤ
  objInBoat : ObjectId
  wolfOnRight : Bool
  goatOnRight : Bool
  cabbageOnRight : Bool
  boatOnRight : Bool
  deriving Repr, DecidableEq

def newSession (queueId : ℤ) : Session := ⟨queueId, .none, false, false, false, false⟩

/-- New sessions stand at the front of the list. -/
def registerClient (sessions : List Session) (queueId : ℤ) (allocated : Bool) :
    Bool × List Session :=
  if allocated then (true, newSession queueId :: sessions) else (false, sessions)

def unregisterClient : List Session → ℤ → List Session
  | [], _ => []
  | current :: rest, queueId =>
    if current.queueId = queueId then rest else current :: unregisterClient rest queueId

def getSession : List Session → ℤ → Option Session
  | [], _ => none
  | current :: rest, queueId =>
    if current.queueId = queueId then some current else getSession rest queueId

/-- What is stored through the pointer `getSession` gave. -/
def storeSession : List Session → Session → List Session
  | [], _ => []
  | current :: rest, s =>
    if current.queueId = s.queueId then s :: rest else current :: storeSession rest s

def sendError (queueId : ℤ) (errMsg : String) : List Reply := [⟨queueId, .err errMsg⟩]
def sendOk (queueId : ℤ) : List Reply := [⟨queueId, .ok⟩]
def sendAllMoved (queueId : ℤ) : List Reply := [⟨queueId, .allMoved⟩]

def handleInit (sessions : List Session) (d : Delivery) : List Session × List Reply :=
  let queueId := d.msg.queueId
  let (registered, sessions) := registerClient sessions queueId d.allocated
  if registered then (sessions, sendOk queueId)
  else (sessions, sendError queueId "Failed to register client")

def handleTake (sessions : List Session) (msg : Message) : List Session × List Reply :=
  match getSession sessions msg.queueId with
  | none => (sessions, sendError msg.queueId "Not registered")
  | some s =>
    if s.objInBoat ≠ .none then (sessions, sendError msg.queueId "Object already in boat")
    else (storeSession sessions { s with objInBoat := msg.objId }, sendOk msg.queueId)

def Session.allObjectsMoved (s : Session) : Bool :=
  s.wolfOnRight && s.goatOnRight && s.cabbageOnRight && s.boatOnRight

def handlePut (sessions : List Session) (msg : Message) : List Session × List Reply :=
  match getSession sessions msg.queueId with
  | none => (sessions, sendError msg.queueId "Not registered")
  | some s =>
    if s.objInBoat = .none then (sessions, sendError msg.queueId "No object in boat")
    else
      let s := { s with objInBoat := .none }
      (storeSession sessions s,
        if s.allObjectsMoved then sendAllMoved msg.queueId else sendOk msg.queueId)

/-- The boat crosses with what is in it. -/
def Session.moved (s : Session) : Session :=
  let s := { s with boatOnRight := !s.boatOnRight }
  match s.objInBoat with
  | .wolf => { s with wolfOnRight := s.boatOnRight }
  | .goat => { s with goatOnRight := s.boatOnRight }
  | .cabbage => { s with cabbageOnRight := s.boatOnRight }
  | .none => s
  | .other _ => s

def Session.goatEaten (s : Session) : Bool :=
  s.wolfOnRight == s.goatOnRight && s.wolfOnRight != s.boatOnRight

def Session.cabbageEaten (s : Session) : Bool :=
  s.goatOnRight == s.cabbageOnRight && s.goatOnRight != s.boatOnRight

def handleMove (sessions : List Session) (msg : Message) : List Session × List Reply :=
  match getSession sessions msg.queueId with
  | none => (sessions, sendError msg.queueId "Not registered")
  | some s =>
    let s := s.moved
    (storeSession sessions s,
      if s.goatEaten then sendError msg.queueId "Goat eaten"
      else if s.cabbageEaten then sendError msg.queueId "Cabbage eaten"
      else sendOk msg.queueId)

def handleFin (sessions : List Session) (msg : Message) : List Session × List Reply :=
  (unregisterClient sessions msg.queueId, [])

/-- One turn of the main loop. -/
def handle (sessions : List Session) (d : Delivery) : List Session × List Reply :=
  match d.msg.msgId with
  | .init => handleInit sessions d
  | .take => handleTake sessions d.msg
  | .put => handlePut sessions d.msg
  | .move => handleMove sessions d.msg
  | .fin => handleFin sessions d.msg
  | .ok | .err | .allMoved | .unknown _ => (sessions, [])

/-- The main loop on the messages it receives; there are no sessions at first. -/
def serve (w : List Delivery) : List Session × List Reply := runMachine handle [] w

/-- The sessions of one client, the newest first. -/
def sessionsOf (q : ℤ) (sessions : List Session) : List Session :=
  sessions.filter fun s => s.queueId = q

/-! ### The list of sessions, seen by one client -/

section Lists

variable {q : ℤ} {sessions : List Session} {s : Session} {d : Delivery}

@[simp] theorem moved_queueId : s.moved.queueId = s.queueId := by
  cases h : s.objInBoat <;> simp [Session.moved, h]

@[simp] theorem moved_objInBoat : s.moved.objInBoat = s.objInBoat := by
  cases h : s.objInBoat <;> simp [Session.moved, h]

@[simp] theorem moved_boatOnRight : s.moved.boatOnRight = !s.boatOnRight := by
  cases h : s.objInBoat <;> simp [Session.moved, h]

theorem sessionsOf_cons_own (h : s.queueId = q) :
    sessionsOf q (s :: sessions) = s :: sessionsOf q sessions :=
  List.filter_cons_of_pos (by simpa using h)

theorem sessionsOf_cons_other (h : s.queueId ≠ q) :
    sessionsOf q (s :: sessions) = sessionsOf q sessions :=
  List.filter_cons_of_neg (by simpa using h)

theorem queueId_of_mem_sessionsOf (h : s ∈ sessionsOf q sessions) : s.queueId = q := by
  simpa using (List.mem_filter.mp h).2

theorem getSession_eq_head : getSession sessions q = (sessionsOf q sessions).head? := by
  induction sessions with
  | nil => rfl
  | cons c rest ih =>
    by_cases hc : c.queueId = q
    · rw [sessionsOf_cons_own hc]
      exact if_pos hc
    · rw [sessionsOf_cons_other hc, ← ih]
      exact if_neg hc

theorem sessionsOf_unregister_own :
    sessionsOf q (unregisterClient sessions q) = (sessionsOf q sessions).tail := by
  induction sessions with
  | nil => rfl
  | cons c rest ih =>
    unfold unregisterClient
    by_cases hc : c.queueId = q
    · rw [if_pos hc, sessionsOf_cons_own hc, List.tail_cons]
    · rw [if_neg hc, sessionsOf_cons_other hc, sessionsOf_cons_other hc, ih]

theorem sessionsOf_unregister_other {q' : ℤ} (h : q' ≠ q) :
    sessionsOf q (unregisterClient sessions q') = sessionsOf q sessions := by
  induction sessions with
  | nil => rfl
  | cons c rest ih =>
    unfold unregisterClient
    by_cases hc : c.queueId = q'
    · rw [if_pos hc, sessionsOf_cons_other (hc ▸ h)]
    · rw [if_neg hc]
      by_cases hq : c.queueId = q
      · rw [sessionsOf_cons_own hq, sessionsOf_cons_own hq, ih]
      · rw [sessionsOf_cons_other hq, sessionsOf_cons_other hq, ih]

theorem sessionsOf_store_own {t : List Session} {c : Session} (h : sessionsOf s.queueId sessions = c :: t) :
    sessionsOf s.queueId (storeSession sessions s) = s :: t := by
  induction sessions with
  | nil => cases h
  | cons c' rest ih =>
    unfold storeSession
    by_cases hc : c'.queueId = s.queueId
    · rw [sessionsOf_cons_own hc] at h
      rw [if_pos hc, sessionsOf_cons_own rfl]
      exact congrArg (s :: ·) (List.cons.inj h).2
    · rw [sessionsOf_cons_other hc] at h
      rw [if_neg hc, sessionsOf_cons_other hc, ih h]

theorem sessionsOf_store_other (h : s.queueId ≠ q) :
    sessionsOf q (storeSession sessions s) = sessionsOf q sessions := by
  induction sessions with
  | nil => rfl
  | cons c rest ih =>
    unfold storeSession
    by_cases hc : c.queueId = s.queueId
    · rw [if_pos hc, sessionsOf_cons_other h, sessionsOf_cons_other (hc ▸ h)]
    · rw [if_neg hc]
      by_cases hq : c.queueId = q
      · rw [sessionsOf_cons_own hq, sessionsOf_cons_own hq, ih]
      · rw [sessionsOf_cons_other hq, sessionsOf_cons_other hq, ih]

end Lists

end MaiFaSp.RiverCrossing
