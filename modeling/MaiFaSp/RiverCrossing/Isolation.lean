import MaiFaSp.RiverCrossing.Server

/-!
# One client of the server

To one client the server is a stack of sessions: INIT pushes one, FIN pops one,
and the other requests work on the newest. The messages of other clients do not
touch the stack and are not answered to it.
-/

namespace MaiFaSp.RiverCrossing

def Session.take (s : Session) (objId : ObjectId) : Session := { s with objInBoat := objId }
def Session.put (s : Session) : Session := { s with objInBoat := .none }

/-- The reply to a move, from the session after it. -/
def Session.moveAnswer (s : Session) : Answer :=
  if s.goatEaten then .err "Goat eaten" else if s.cabbageEaten then .err "Cabbage eaten" else .ok

def Session.putAnswer (s : Session) : Answer := if s.allObjectsMoved then .allMoved else .ok

/-- One turn of the server on the stack of the client that sent the message. -/
def clientStep (stack : List Session) (d : Delivery) : List Session × List Answer :=
  match d.msg.msgId, stack with
  | .init, stack =>
    if d.allocated then (newSession d.msg.queueId :: stack, [.ok])
    else (stack, [.err "Failed to register client"])
  | .take, [] | .put, [] | .move, [] => ([], [.err "Not registered"])
  | .take, s :: rest =>
    if s.objInBoat = .none then (s.take d.msg.objId :: rest, [.ok])
    else (s :: rest, [.err "Object already in boat"])
  | .put, s :: rest =>
    if s.objInBoat = .none then (s :: rest, [.err "No object in boat"])
    else (s.put :: rest, [s.putAnswer])
  | .move, s :: rest => (s.moved :: rest, [s.moved.moveAnswer])
  | .fin, stack => (stack.tail, [])
  | .ok, stack | .err, stack | .allMoved, stack | .unknown _, stack => (stack, [])

section Refinement

variable {q : ℤ} {sessions : List Session} {s : Session} {d : Delivery} {rest : List Session}

/-- The answers of a turn as messages to its client. -/
def repliesTo (q : ℤ) (answers : List Answer) : List Reply := answers.map fun a => ⟨q, a⟩

theorem getSession_of_stack (h : sessionsOf q sessions = s :: rest) : getSession sessions q = some s := by
  rw [getSession_eq_head, h]
  rfl

theorem getSession_of_empty (h : sessionsOf q sessions = []) : getSession sessions q = none := by
  rw [getSession_eq_head, h]
  rfl

theorem queueId_of_stack (h : sessionsOf q sessions = s :: rest) : s.queueId = q :=
  queueId_of_mem_sessionsOf (h ▸ List.mem_cons_self ..)

/-- The session a request works on is stored back on top of its client's stack. -/
theorem sessionsOf_store {s' : Session} (h : sessionsOf q sessions = s :: rest)
    (hs' : s'.queueId = s.queueId) : sessionsOf q (storeSession sessions s') = s' :: rest := by
  have hq : s'.queueId = q := hs'.trans (queueId_of_stack h)
  subst hq
  exact sessionsOf_store_own h

theorem handleInit_own : (sessionsOf d.msg.queueId (handleInit sessions d).1, (handleInit sessions d).2) =
    (if d.allocated then (newSession d.msg.queueId :: sessionsOf d.msg.queueId sessions,
        sendOk d.msg.queueId)
      else (sessionsOf d.msg.queueId sessions,
        sendError d.msg.queueId "Failed to register client")) := by
  unfold handleInit registerClient
  cases d.allocated with
  | true => exact congrArg (·, sendOk d.msg.queueId) (sessionsOf_cons_own rfl)
  | false => rfl

/-- What a turn does to the stack of its client, and what it answers. -/
theorem handle_own (h : d.msg.queueId = q) :
    sessionsOf q (handle sessions d).1 = (clientStep (sessionsOf q sessions) d).1 ∧
      (handle sessions d).2 = repliesTo q (clientStep (sessionsOf q sessions) d).2 := by
  subst h
  unfold handle clientStep
  generalize hstack : sessionsOf d.msg.queueId sessions = stack
  cases d.msg.msgId with
  | init =>
    obtain hi : _ ∧ (handleInit sessions d).2 = _ := Prod.mk.inj handleInit_own
    dsimp only
    rw [hi.1, hi.2, ← hstack]
    cases d.allocated <;> exact ⟨rfl, rfl⟩
  | take =>
    cases stack with
    | nil =>
      simp only [handleTake, getSession_of_empty hstack]
      exact ⟨hstack, rfl⟩
    | cons s rest =>
      simp only [handleTake, getSession_of_stack hstack]
      by_cases ho : s.objInBoat = .none
      · rw [if_neg (not_not.mpr ho), if_pos ho]
        exact ⟨sessionsOf_store hstack rfl, rfl⟩
      · rw [if_pos ho, if_neg ho]
        exact ⟨hstack, rfl⟩
  | put =>
    cases stack with
    | nil =>
      simp only [handlePut, getSession_of_empty hstack]
      exact ⟨hstack, rfl⟩
    | cons s rest =>
      simp only [handlePut, getSession_of_stack hstack]
      by_cases ho : s.objInBoat = .none
      · rw [if_pos ho, if_pos ho]
        exact ⟨hstack, rfl⟩
      · rw [if_neg ho, if_neg ho]
        refine ⟨sessionsOf_store hstack rfl, ?_⟩
        show (if s.allObjectsMoved then _ else _) = repliesTo _ [s.putAnswer]
        unfold Session.putAnswer
        cases s.allObjectsMoved <;> rfl
  | move =>
    cases stack with
    | nil =>
      simp only [handleMove, getSession_of_empty hstack]
      exact ⟨hstack, rfl⟩
    | cons s rest =>
      simp only [handleMove, getSession_of_stack hstack]
      refine ⟨sessionsOf_store hstack moved_queueId, ?_⟩
      unfold Session.moveAnswer
      cases s.moved.goatEaten
      · cases s.moved.cabbageEaten <;> rfl
      · rfl
  | fin => exact ⟨sessionsOf_unregister_own.trans (congrArg List.tail hstack), rfl⟩
  | ok => exact ⟨hstack, rfl⟩
  | err => exact ⟨hstack, rfl⟩
  | allMoved => exact ⟨hstack, rfl⟩
  | unknown id => exact ⟨hstack, rfl⟩

theorem mem_repliesTo {r : Reply} {answers : List Answer} (h : r ∈ repliesTo q answers) :
    r.queueId = q := by
  obtain ⟨a, _, rfl⟩ := List.mem_map.mp h
  rfl

theorem sessionsOf_storeHead {q' : ℤ} {s' : Session} (hne : q' ≠ q) (h : getSession sessions q' = some s)
    (hs' : s'.queueId = s.queueId) : sessionsOf q (storeSession sessions s') = sessionsOf q sessions := by
  rw [getSession_eq_head] at h
  have hs : s.queueId = q' := queueId_of_mem_sessionsOf (List.mem_of_mem_head? h)
  exact sessionsOf_store_other (by rw [hs', hs]; exact hne)

theorem handle_foreign (h : d.msg.queueId ≠ q) :
    sessionsOf q (handle sessions d).1 = sessionsOf q sessions := by
  unfold handle
  cases d.msg.msgId with
  | init =>
    dsimp only [handleInit, registerClient]
    cases d.allocated with
    | true => exact sessionsOf_cons_other h
    | false => rfl
  | take =>
    dsimp only [handleTake]
    cases hg : getSession sessions d.msg.queueId with
    | none => rfl
    | some s =>
      dsimp only
      split
      · rfl
      · exact sessionsOf_storeHead h hg rfl
  | put =>
    dsimp only [handlePut]
    cases hg : getSession sessions d.msg.queueId with
    | none => rfl
    | some s =>
      dsimp only
      split
      · rfl
      · exact sessionsOf_storeHead h hg rfl
  | move =>
    dsimp only [handleMove]
    cases hg : getSession sessions d.msg.queueId with
    | none => rfl
    | some s => exact sessionsOf_storeHead h hg moved_queueId
  | fin => exact sessionsOf_unregister_other h
  | ok => rfl
  | err => rfl
  | allMoved => rfl
  | unknown id => rfl

end Refinement

/-- A client's view of the server is its stack of sessions. -/
theorem handle_unwinds :
    Unwinds handle (fun d => d.msg.queueId) Reply.queueId sessionsOf where
  foreign := by
    intro q sessions d hd
    refine ⟨handle_foreign hd, ?_⟩
    intro r hr
    rw [(handle_own rfl).2] at hr
    rw [mem_repliesTo hr]
    exact hd
  own := by
    intro q sessions sessions' d hd hview
    have h : sessionsOf q (handle sessions d).1 = _ ∧ _ := handle_own hd
    have h' : sessionsOf q (handle sessions' d).1 = _ ∧ _ := handle_own hd
    rw [h.1, h.2, h'.1, h'.2, hview]
    exact ⟨rfl, rfl⟩

/-- What a client gets and the sessions it has are those of its own messages alone. -/
theorem serve_isolated (q : ℤ) (w : List Delivery) :
    outputsTo Reply.queueId q (serve w).2 =
        outputsTo Reply.queueId q (serve (w.filter fun d => d.msg.queueId = q)).2 ∧
      sessionsOf q (serve w).1 = sessionsOf q (serve (w.filter fun d => d.msg.queueId = q)).1 ∧
      getSession (serve w).1 q = getSession (serve (w.filter fun d => d.msg.queueId = q)).1 q := by
  have hempty : sessionsOf q [] = sessionsOf q [] := rfl
  obtain ⟨hview, hout⟩ := handle_unwinds.run_filter hempty w
  refine ⟨hout, hview, ?_⟩
  rw [getSession_eq_head, getSession_eq_head]
  exact congrArg List.head? hview

end MaiFaSp.RiverCrossing
