import MaiFaSp.Lib.RequestReply
import MaiFaSp.RiverCrossing.Scripts

/-!
# Clients and server together

The client program (`client/main.c`) registers, sends the commands of its list one by one, each
after the reply to the one before, and takes its leave. Any number of clients run against the
server in any order of steps. Each ends with the verdict on its own list, and every run ends.
-/

namespace MaiFaSp.RiverCrossing

/-- Where `main` of a client is. `absent`: no client has this queue. -/
inductive Phase where
  | absent
  | start (cmds : List Request)
  | awaitsInit (cmds : List Request)
  | next (cmd : Request) (cmds : List Request)
  | awaits (cmds : List Request)
  | ends (outcome : Outcome)
  | exited (outcome : Outcome)
  deriving Repr, DecidableEq

/-- A command with the queue to reply on. The object is zero where none is given. -/
def message (qid : ℤ) : Request → Message
  | .take objId => ⟨.take, qid, objId⟩
  | .put => ⟨.put, qid, .wolf⟩
  | .move => ⟨.move, qid, .wolf⟩

/-- The head of the loop over the commands. -/
def loop : List Request → Phase
  | [] => .ends .unfinished
  | cmd :: cmds => .next cmd cmds

def onInit (cmds : List Request) (msg : Reply) : Phase :=
  match msg.answer with
  | .err errMsg => .exited (.registrationFailed errMsg)
  | .ok | .allMoved => loop cmds

def onReply (cmds : List Request) (msg : Reply) : Phase :=
  match msg.answer with
  | .err errMsg => .ends (.failed errMsg)
  | .allMoved => .ends .allMoved
  | .ok => loop cmds

/-- The sends and receives of `main`. The server does not read the object of an INIT or a FIN. -/
def turn (qid : ℤ) : Phase → Turn Phase Message Reply
  | .absent => .halt
  | .start cmds => .send ⟨.init, qid, .wolf⟩ (.awaitsInit cmds)
  | .awaitsInit cmds => .receive (onInit cmds)
  | .next cmd cmds => .send (message qid cmd) (.awaits cmds)
  | .awaits cmds => .receive (onReply cmds)
  | .ends outcome => .send ⟨.fin, qid, .wolf⟩ (.exited outcome)
  | .exited _ => .halt

/-- The queues and the processes. `malloc` fails for the clients in `mayFail` only. -/
def talk (mayFail : ℤ → Prop) : Talk ℤ Phase Message Delivery Reply (List Session) (List Session) where
  step := handle
  arrives m d := d.msg = m ∧ (d.allocated = false → mayFail m.queueId)
  turn := turn
  sender := Message.queueId
  owner d := d.msg.queueId
  addressee := Reply.queueId
  view := sessionsOf

/-- The server without a session, and a client for each queue. -/
def clients (qids : Finset ℤ) (scripts : ℤ → List Request) : Net ℤ Phase Message Reply (List Session) where
  server := []
  queue := []
  party q := if q ∈ qids then .start (scripts q) else .absent
  inbox _ := []

/-! ### The seat of a client -/

section Seats

variable {q : ℤ} {mayFail : ℤ → Prop} {script cmds : List Request} {cmd : Request} {s : Session}
  {rest stack server : List Session} {d : Delivery} {o : Outcome}

@[simp] theorem message_queueId : (message q cmd).queueId = q := by
  cases cmd <;> rfl

theorem clientStep_message (hd : d.msg = message q cmd) :
    clientStep (s :: rest) d = ((s.request cmd).1 :: rest, [(s.request cmd).2]) := by
  unfold clientStep Session.request
  rw [hd]
  cases cmd with
  | take objId => by_cases ho : s.objInBoat = .none <;> simp [message, ho]
  | put =>
    by_cases ho : s.objInBoat = .none
    · simp [message, ho]
    · simp only [message, ho, if_false]
      rfl
  | move => rfl

/-- The server's turn, as the client of the message sees it. -/
theorem handle_seat (howner : d.msg.queueId = q) (hview : sessionsOf q server = stack) :
    sessionsOf q (handle server d).1 = (clientStep stack d).1 ∧
      outputsTo Reply.queueId q (handle server d).2 = repliesTo q (clientStep stack d).2 := by
  obtain ⟨hsessions, hreplies⟩ : sessionsOf q (handle server d).1 = (clientStep (sessionsOf q server) d).1 ∧
    (handle server d).2 = repliesTo q (clientStep (sessionsOf q server) d).2 := handle_own howner
  rw [hsessions, hreplies, hview]
  refine ⟨rfl, ?_⟩
  unfold outputsTo
  apply List.filter_eq_self.mpr
  intro r hr
  simpa using mem_repliesTo hr

theorem talk_fair : (talk mayFail).Fair where
  unwinds := handle_unwinds
  signed := by
    intro k g m after h
    cases g with
    | start cmds => cases h; rfl
    | next cmd cmds => cases h; exact message_queueId
    | ends o => cases h; rfl
    | absent => cases h
    | awaitsInit cmds => cases h
    | awaits cmds => cases h
    | exited o => cases h
  carried := by
    rintro m d ⟨rfl, -⟩
    rfl

/-- What a client, its session and the messages in between can look like. -/
inductive Seated (mayFail : ℤ → Prop) (q : ℤ) (script : List Request) :
    Seat Phase Message Reply (List Session) → Prop
  | start : Seated mayFail q script ⟨[], [], .start script, []⟩
  | initSent : Seated mayFail q script ⟨[], [⟨.init, q, .wolf⟩], .awaitsInit script, []⟩
  | registered : Seated mayFail q script ⟨[newSession q], [], .awaitsInit script, [⟨q, .ok⟩]⟩
  | refused (h : mayFail q) :
      Seated mayFail q script ⟨[], [], .awaitsInit script, [⟨q, .err "Failed to register client"⟩]⟩
  | rejected (h : mayFail q) :
      Seated mayFail q script ⟨[], [], .exited (.registrationFailed "Failed to register client"), []⟩
  | playing {s : Session} {cmds : List Request}
      (h : s.verdict cmds = (newSession q).verdict script) :
      Seated mayFail q script ⟨[s], [], loop cmds, []⟩
  | asked {s : Session} {cmd : Request} {cmds : List Request}
      (h : s.verdict (cmd :: cmds) = (newSession q).verdict script) :
      Seated mayFail q script ⟨[s], [message q cmd], .awaits cmds, []⟩
  | answered {s : Session} {cmd : Request} {cmds : List Request}
      (h : s.verdict (cmd :: cmds) = (newSession q).verdict script) :
      Seated mayFail q script ⟨[(s.request cmd).1], [], .awaits cmds, [⟨q, (s.request cmd).2⟩]⟩
  | decided {s : Session} : Seated mayFail q script ⟨[s], [], .ends ((newSession q).verdict script), []⟩
  | finSent {s : Session} :
      Seated mayFail q script ⟨[s], [⟨.fin, q, .wolf⟩], .exited ((newSession q).verdict script), []⟩
  | gone : Seated mayFail q script ⟨[], [], .exited ((newSession q).verdict script), []⟩

theorem seated_answered (h : s.verdict (cmd :: cmds) = (newSession q).verdict script) :
    Seated mayFail q script ⟨[(s.request cmd).1], [], onReply cmds ⟨q, (s.request cmd).2⟩, []⟩ := by
  rw [verdict_cons] at h
  unfold onReply
  cases ha : (s.request cmd).2 with
  | ok =>
    rw [ha] at h
    exact .playing h
  | err errMsg =>
    rw [ha] at h
    dsimp only at h ⊢
    rw [h]
    exact .decided
  | allMoved =>
    rw [ha] at h
    dsimp only at h ⊢
    rw [h]
    exact .decided

/-- The next step of a client that waits, while its message is in the queue. -/
theorem serve_cases {x' : Seat Phase Message Reply (List Session)} {m : Message} {p : Phase}
    (h : (talk mayFail).SeatStep q ⟨stack, [m], p, []⟩ x') (hm : m.queueId = q)
    (hwaits : ∀ m after, turn q p ≠ .send m after) :
    ∃ d : Delivery, d.msg = m ∧ (d.allocated = false → mayFail q) ∧
      x' = ⟨(clientStep stack d).1, [], p, repliesTo q (clientStep stack d).2⟩ := by
  cases h with
  | send hturn => exact absurd hturn (hwaits _ _)
  | receive _ hinbox => cases hinbox
  | @serve m' rest d server hpending harrives howner hview =>
    cases hpending
    obtain ⟨hmsg, hfail⟩ := harrives
    obtain ⟨hsessions, hreplies⟩ := handle_seat howner hview
    refine ⟨d, hmsg, fun hd => hm ▸ hfail hd, ?_⟩
    show Seat.mk (sessionsOf q (handle server d).1) [] p
      (outputsTo Reply.queueId q (handle server d).2) = _
    rw [hsessions, hreplies]

theorem seated_step {x x' : Seat Phase Message Reply (List Session)} (hx : Seated mayFail q script x)
    (h : (talk mayFail).SeatStep q x x') : Seated mayFail q script x' := by
  cases hx with
  | start =>
    cases h with
    | send hturn => cases hturn; exact .initSent
    | receive hturn => cases hturn
    | serve hpending => cases hpending
  | initSent =>
    obtain ⟨d, hmsg, hfail, rfl⟩ := serve_cases h rfl (by intro m after hturn; cases hturn)
    cases hd : d.allocated with
    | true =>
      have hstep : clientStep [] d = ([newSession q], [.ok]) := by simp [clientStep, hmsg, hd]
      rw [hstep]
      exact .registered
    | false =>
      have hstep : clientStep [] d = ([], [.err "Failed to register client"]) := by
        simp [clientStep, hmsg, hd]
      rw [hstep]
      exact .refused (hfail hd)
  | registered =>
    cases h with
    | send hturn => cases hturn
    | receive hturn hinbox => cases hturn; cases hinbox; exact .playing rfl
    | serve hpending => cases hpending
  | refused hfail =>
    cases h with
    | send hturn => cases hturn
    | receive hturn hinbox => cases hturn; cases hinbox; exact .rejected hfail
    | serve hpending => cases hpending
  | rejected =>
    cases h with
    | send hturn => cases hturn
    | receive hturn => cases hturn
    | serve hpending => cases hpending
  | @playing s cmds hverdict =>
    cases cmds with
    | nil =>
      cases h with
      | send hturn =>
        cases hturn
        have hv : Outcome.unfinished = (newSession q).verdict script := hverdict
        rw [hv]
        exact .finSent
      | receive hturn => cases hturn
      | serve hpending => cases hpending
    | cons cmd cmds =>
      cases h with
      | send hturn => cases hturn; exact .asked hverdict
      | receive hturn => cases hturn
      | serve hpending => cases hpending
  | @asked s cmd cmds hverdict =>
    obtain ⟨d, hmsg, -, rfl⟩ := serve_cases h message_queueId (by intro m after hturn; cases hturn)
    rw [clientStep_message hmsg]
    exact .answered hverdict
  | answered hverdict =>
    cases h with
    | send hturn => cases hturn
    | receive hturn hinbox => cases hturn; cases hinbox; exact seated_answered hverdict
    | serve hpending => cases hpending
  | decided =>
    cases h with
    | send hturn => cases hturn; exact .finSent
    | receive hturn => cases hturn
    | serve hpending => cases hpending
  | @finSent s =>
    obtain ⟨d, hmsg, -, rfl⟩ := serve_cases h rfl (by intro m after hturn; cases hturn)
    have hstep : clientStep [s] d = ([], []) := by simp [clientStep, hmsg]
    rw [hstep]
    exact .gone
  | gone =>
    cases h with
    | send hturn => cases hturn
    | receive hturn => cases hturn
    | serve hpending => cases hpending

/-! ### The length of a run -/

/-- Three for every command that is left and for the FIN, and three more for the INIT. -/
def Phase.cost : Phase → ℕ
  | .absent => 0
  | .start cmds => 3 * cmds.length + 6
  | .awaitsInit cmds => 3 * cmds.length + 3
  | .next _ cmds => 3 * cmds.length + 6
  | .awaits cmds => 3 * cmds.length + 3
  | .ends _ => 3
  | .exited _ => 0

def cost (x : Seat Phase Message Reply (List Session)) : ℕ :=
  x.party.cost + 2 * x.pending.length + x.inbox.length

theorem cost_loop : (loop cmds).cost = 3 * cmds.length + 3 := by
  cases cmds with
  | nil => rfl
  | cons cmd cmds => simp [loop, Phase.cost]; omega

theorem cost_onReply {msg : Reply} : (onReply cmds msg).cost ≤ 3 * cmds.length + 3 := by
  unfold onReply
  cases msg.answer with
  | ok => exact cost_loop.le
  | err errMsg => exact Nat.le_add_left ..
  | allMoved => exact Nat.le_add_left ..

theorem cost_onInit {msg : Reply} : (onInit cmds msg).cost ≤ 3 * cmds.length + 3 := by
  unfold onInit
  cases msg.answer with
  | ok => exact cost_loop.le
  | err errMsg => exact Nat.zero_le _
  | allMoved => exact cost_loop.le

theorem length_clientStep : (clientStep stack d).2.length ≤ 1 := by
  unfold clientStep
  split <;> first | exact le_rfl | exact Nat.zero_le _ | (split <;> exact le_rfl)

/-- A message costs more than the reply to it. -/
theorem cost_lt {x x' : Seat Phase Message Reply (List Session)} (h : (talk mayFail).SeatStep q x x') :
    cost x' < cost x := by
  cases h with
  | @send m after hturn =>
    cases hp : x.party with
    | start cmds =>
      rw [hp] at hturn
      cases hturn
      simp [cost, hp, Phase.cost]
      omega
    | next cmd cmds =>
      rw [hp] at hturn
      cases hturn
      simp [cost, hp, Phase.cost]
      omega
    | ends o =>
      rw [hp] at hturn
      cases hturn
      simp [cost, hp, Phase.cost]
      omega
    | absent => rw [hp] at hturn; cases hturn
    | awaitsInit cmds => rw [hp] at hturn; cases hturn
    | awaits cmds => rw [hp] at hturn; cases hturn
    | exited o => rw [hp] at hturn; cases hturn
  | @receive next r rest hturn hinbox =>
    have hshorter : rest.length < x.inbox.length := by simp [hinbox]
    cases hp : x.party with
    | awaitsInit cmds =>
      rw [hp] at hturn
      cases hturn
      have hle : (onInit cmds r).cost ≤ 3 * cmds.length + 3 := cost_onInit
      have hcost : x.party.cost = 3 * cmds.length + 3 := by rw [hp]; rfl
      simp only [cost, hcost]
      omega
    | awaits cmds =>
      rw [hp] at hturn
      cases hturn
      have hle : (onReply cmds r).cost ≤ 3 * cmds.length + 3 := cost_onReply
      have hcost : x.party.cost = 3 * cmds.length + 3 := by rw [hp]; rfl
      simp only [cost, hcost]
      omega
    | start cmds => rw [hp] at hturn; cases hturn
    | next cmd cmds => rw [hp] at hturn; cases hturn
    | ends o => rw [hp] at hturn; cases hturn
    | absent => rw [hp] at hturn; cases hturn
    | exited o => rw [hp] at hturn; cases hturn
  | @serve m rest d server hpending harrives howner hview =>
    have hreplies : (outputsTo Reply.queueId q (handle server d).2).length ≤ 1 := by
      rw [(handle_seat howner rfl).2]
      unfold repliesTo
      rw [List.length_map]
      exact length_clientStep
    have hone : x.pending.length = rest.length + 1 := by rw [hpending, List.length_cons]
    simp only [cost, List.length_append]
    change x.party.cost + 2 * rest.length +
      (x.inbox.length + (outputsTo Reply.queueId q (handle server d).2).length) < _
    omega

end Seats

/-! ### All clients -/

section All

variable {mayFail : ℤ → Prop} {qids : Finset ℤ} {scripts : ℤ → List Request} {n : ℕ}
  {c : Net ℤ Phase Message Reply (List Session)} {q : ℤ}

/-- Every client in its own way, and nothing where there is no client. -/
def Served (mayFail : ℤ → Prop) (qids : Finset ℤ) (scripts : ℤ → List Request) (q : ℤ)
    (x : Seat Phase Message Reply (List Session)) : Prop :=
  if q ∈ qids then Seated mayFail q (scripts q) x else x = ⟨[], [], .absent, []⟩

theorem absent_stays {x : Seat Phase Message Reply (List Session)} :
    ¬ (talk mayFail).SeatStep q ⟨[], [], .absent, []⟩ x := by
  intro h
  cases h with
  | send hturn => cases hturn
  | receive hturn => cases hturn
  | serve hpending => cases hpending

theorem served_step {x x' : Seat Phase Message Reply (List Session)}
    (hx : Served mayFail qids scripts q x) (h : (talk mayFail).SeatStep q x x') :
    Served mayFail qids scripts q x' := by
  unfold Served at hx ⊢
  by_cases hq : q ∈ qids
  · rw [if_pos hq] at hx ⊢
    exact seated_step hx h
  · rw [if_neg hq] at hx
    subst hx
    exact absurd h absent_stays

theorem served_start (q : ℤ) :
    Served mayFail qids scripts q ((talk mayFail).seat q (clients qids scripts)) := by
  unfold Served
  by_cases hq : q ∈ qids
  · rw [if_pos hq]
    have hseat : (talk mayFail).seat q (clients qids scripts) = ⟨[], [], .start (scripts q), []⟩ := by
      simp [Talk.seat, clients, talk, hq, sessionsOf]
    rw [hseat]
    exact .start
  · rw [if_neg hq]
    simp [Talk.seat, clients, talk, hq, sessionsOf]

theorem served_reachable (h : Relation.ReflTransGen (talk mayFail).Step (clients qids scripts) c) (q : ℤ) :
    Served mayFail qids scripts q ((talk mayFail).seat q c) :=
  Talk.reachable_seats talk_fair served_step served_start h q

/-- The verdict on a list of commands does not depend on the other clients. -/
theorem exited_verdict (h : Relation.ReflTransGen (talk mayFail).Step (clients qids scripts) c)
    (hq : q ∈ qids) {o : Outcome} (ho : c.party q = .exited o) :
    o = (newSession q).verdict (scripts q) ∨
      mayFail q ∧ o = .registrationFailed "Failed to register client" := by
  have hserved := served_reachable h q
  unfold Served at hserved
  rw [if_pos hq] at hserved
  generalize hx : (talk mayFail).seat q c = x at hserved
  have hparty : x.party = .exited o := by rw [← hx]; exact ho
  cases hserved with
  | rejected hfail => cases hparty; exact Or.inr ⟨hfail, rfl⟩
  | finSent => cases hparty; exact Or.inl rfl
  | gone => cases hparty; exact Or.inl rfl
  | @playing s cmds => cases cmds <;> cases hparty
  | start => cases hparty
  | initSent => cases hparty
  | registered => cases hparty
  | refused => cases hparty
  | asked => cases hparty
  | answered => cases hparty
  | decided => cases hparty

theorem delivered (m : Message) : ∃ d, (talk mayFail).arrives m d :=
  ⟨⟨m, true⟩, rfl, fun hd => Bool.noConfusion hd⟩

/-- Where nothing can go on, a client has ended and left nothing behind. -/
theorem stuck_seat (h : Relation.ReflTransGen (talk mayFail).Step (clients qids scripts) c)
    (hstuck : Stuck (talk mayFail).Step c) (q : ℤ) :
    sessionsOf q c.server = [] ∧ c.inbox q = [] ∧ (q ∈ qids → ∃ o, c.party q = .exited o) := by
  obtain ⟨hqueue, hsend, hreceive⟩ := Talk.stuck delivered hstuck
  have hserved := served_reachable h q
  unfold Served at hserved
  generalize hx : (talk mayFail).seat q c = x at hserved
  have hview : sessionsOf q c.server = x.view := congrArg Seat.view hx
  have hinbox : c.inbox q = x.inbox := congrArg Seat.inbox hx
  have hparty : c.party q = x.party := congrArg Seat.party hx
  have hpending : x.pending = [] := by
    rw [← hx]
    simp [Talk.seat, hqueue]
  have hsend' (m : Message) (after : Phase) : turn q x.party ≠ .send m after := by
    rw [← hparty]
    exact hsend q m after
  have hreceive' (next : Reply → Phase) (hturn : turn q x.party = .receive next) : x.inbox = [] := by
    rw [← hinbox]
    exact hreceive q next (by rw [← hturn, ← hparty]; rfl)
  rw [hview, hinbox, hparty]
  by_cases hq : q ∈ qids
  · rw [if_pos hq] at hserved
    cases hserved with
    | rejected hfail => exact ⟨rfl, rfl, fun _ => ⟨_, rfl⟩⟩
    | gone => exact ⟨rfl, rfl, fun _ => ⟨_, rfl⟩⟩
    | start => exact absurd rfl (hsend' _ _)
    | initSent => cases hpending
    | registered => cases hreceive' _ rfl
    | refused => cases hreceive' _ rfl
    | @playing s cmds =>
      cases cmds with
      | nil => exact absurd rfl (hsend' _ _)
      | cons cmd cmds => exact absurd rfl (hsend' _ _)
    | asked => cases hpending
    | answered => cases hreceive' _ rfl
    | decided => exact absurd rfl (hsend' _ _)
    | finSent => cases hpending
  · rw [if_neg hq] at hserved
    subst hserved
    exact ⟨rfl, rfl, fun h => absurd h hq⟩

/-- In every order of steps the clients and the server come to an end, after a number of steps that
the lists of commands bound. Every client that has ended has the verdict on its own list, and at
the end all have ended and the server has no session and no message left. -/
theorem clients_served (h : Takes (talk mayFail).Step n (clients qids scripts) c) :
    n ≤ ∑ q ∈ qids, (3 * (scripts q).length + 6) ∧
      (∀ q ∈ qids, ∀ o, c.party q = .exited o → o = (newSession q).verdict (scripts q) ∨
        mayFail q ∧ o = .registrationFailed "Failed to register client") ∧
      (Stuck (talk mayFail).Step c → (∀ q ∈ qids, ∃ o, c.party q = .exited o) ∧
        c.server = [] ∧ c.queue = [] ∧ ∀ q, c.inbox q = []) := by
  refine ⟨?_, ?_, ?_⟩
  · have hle := Talk.takes_le qids cost talk_fair served_step served_start
      (by
        intro q x x' hq hx hstep
        rw [Served, if_neg hq] at hx
        subst hx
        exact absent_stays hstep)
      (fun _ hstep => cost_lt hstep) h
    have hstart : ∀ q ∈ qids, cost ((talk mayFail).seat q (clients qids scripts)) =
        3 * (scripts q).length + 6 := by
      intro q hq
      simp [cost, Talk.seat, clients, hq, Phase.cost]
    rw [Finset.sum_congr rfl hstart] at hle
    exact le_trans (Nat.le_add_right ..) hle
  · intro q hq o ho
    exact exited_verdict h.reaches hq ho
  · intro hstuck
    have hseat := stuck_seat h.reaches hstuck
    refine ⟨fun q hq => (hseat q).2.2 hq, ?_, ?_, fun q => (hseat q).2.1⟩
    · apply List.eq_nil_iff_forall_not_mem.mpr
      intro s hs
      have hmem : s ∈ sessionsOf s.queueId c.server := List.mem_filter.mpr ⟨hs, by simp⟩
      rw [(hseat s.queueId).1] at hmem
      exact absurd hmem List.not_mem_nil
    · exact (Talk.stuck delivered hstuck).1

/-- One client, which asks for what it cannot do and gets the error. -/
theorem clients_served_one : ∃ c, Takes (talk fun _ => False).Step 8 (clients {5} fun _ => [.put]) c ∧
    8 ≤ ∑ _q ∈ ({5} : Finset ℤ), (3 * ([.put] : List Request).length + 6) ∧
    c.party 5 = .exited (.failed "No object in boat") ∧
    ∀ o, c.party 5 = .exited o → o = (newSession 5).verdict [.put] := by
  have hrun : ∃ c, Takes (talk fun _ => False).Step 8 (clients {5} fun _ => [.put]) c ∧
      c.party 5 = .exited (.failed "No object in boat") := by
    refine ⟨_, .tail (.tail (.tail (.tail (.tail (.tail (.tail (.tail (.refl _)
      (.send (k := 5) rfl)) (.serve (i := ⟨⟨.init, 5, .wolf⟩, true⟩) rfl ⟨rfl, by decide⟩))
      (.receive (k := 5) rfl rfl)) (.send (k := 5) rfl))
      (.serve (i := ⟨⟨.put, 5, .wolf⟩, true⟩) rfl ⟨rfl, by decide⟩)) (.receive (k := 5) rfl rfl))
      (.send (k := 5) rfl)) (.serve (i := ⟨⟨.fin, 5, .wolf⟩, true⟩) rfl ⟨rfl, by decide⟩), rfl⟩
  obtain ⟨c, hc, ho⟩ := hrun
  obtain ⟨hlen, hverdict, -⟩ := clients_served hc
  refine ⟨c, hc, hlen, ho, fun o ho' => ?_⟩
  exact (hverdict 5 (by decide) o ho').resolve_right fun h => h.1

end All

end MaiFaSp.RiverCrossing
