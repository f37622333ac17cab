import MaiFaSp.RiverCrossing.Lifecycle

/-!
# The puzzle the server referees

The positions of the puzzle and its rules, and when what a session executed is a
solution. The flags of a session are the positions of a legal game, except that
the flag of the object in the boat stands for the bank the boat is at.
-/

namespace MaiFaSp.RiverCrossing

/-- Where the wolf, the goat and the cabbage are: on a bank (`true` is the right
one) or in the boat. -/
structure River where
  wolf : Option Bool
  goat : Option Bool
  cabbage : Option Bool
  boat : Bool
  deriving Repr, DecidableEq

/-- What a client asks of its session. -/
inductive Request where
  | take (objId : ObjectId)
  | put
  | move
  deriving Repr, DecidableEq

namespace River

def start : River := ⟨some false, some false, some false, false⟩
def solved : River := ⟨some true, some true, some true, true⟩

/-- Together on the bank without the boat. -/
def leftAlone (r : River) (x y : Option Bool) : Bool := x == some (!r.boat) && y == some (!r.boat)

/-- An object is taken from the bank the boat is at, and a crossing leaves nothing to
be eaten. What is no object of the puzzle may be taken. -/
def step (r : River) : Request → Option River
  | .take .wolf => if r.wolf = some r.boat then some { r with wolf := none } else none
  | .take .goat => if r.goat = some r.boat then some { r with goat := none } else none
  | .take .cabbage => if r.cabbage = some r.boat then some { r with cabbage := none } else none
  | .take .none => some r
  | .take (.other _) => some r
  | .put => some ⟨some (r.wolf.getD r.boat), some (r.goat.getD r.boat), some (r.cabbage.getD r.boat), r.boat⟩
  | .move =>
    let r := { r with boat := !r.boat }
    if r.leftAlone r.wolf r.goat || r.leftAlone r.goat r.cabbage then none else some r

/-- The position after requests that all keep to the rules. -/
def play (r : River) (history : List Request) : Option River := history.foldlM step r

/-- The requests keep to the rules and bring everything to the right bank. -/
def Solves (history : List Request) : Prop := start.play history = some solved

instance (history : List Request) : Decidable (Solves history) :=
  inferInstanceAs (Decidable (start.play history = some solved))

theorem play_concat {r : River} {history : List Request} {req : Request} :
    r.play (history ++ [req]) = (r.play history).bind fun r' => r'.step req := by
  unfold play
  rw [List.foldlM_append]
  cases List.foldlM step r history with
  | none => rfl
  | some r' => exact bind_pure (r'.step req)

end River

/-! ### The session as a position -/

namespace Session

def execute (s : Session) : Request → Session
  | .take objId => s.take objId
  | .put => s.put
  | .move => s.moved

/-- The server executes the request. -/
def accepts (s : Session) : Request → Prop
  | .take _ => s.objInBoat = .none
  | .put => s.objInBoat ≠ .none
  | .move => True

/-- On the bank the boat is at, not in the boat. -/
def ashore (s : Session) (objId : ObjectId) (onRight : Bool) : Bool :=
  decide (s.objInBoat ≠ objId) && onRight == s.boatOnRight

/-- The object that is taken has the flag of the boat, and the boat does not leave the goat
behind with the wolf or the cabbage. -/
def careful (s : Session) : Request → Prop
  | .take .wolf => s.wolfOnRight = s.boatOnRight
  | .take .goat => s.goatOnRight = s.boatOnRight
  | .take .cabbage => s.cabbageOnRight = s.boatOnRight
  | .take .none => True
  | .take (.other _) => True
  | .put => True
  | .move => ¬ (s.ashore .goat s.goatOnRight ∧
      (s.ashore .wolf s.wolfOnRight ∨ s.ashore .cabbage s.cabbageOnRight))

/-- Every request is careful in the session it meets. -/
def Careful : Session → List Request → Prop
  | _, [] => True
  | s, req :: history => s.careful req ∧ Careful (s.execute req) history

def bankOf (s : Session) (objId : ObjectId) (onRight : Bool) : Option Bool :=
  if s.objInBoat = objId then none else some onRight

def river (s : Session) : River :=
  ⟨s.bankOf .wolf s.wolfOnRight, s.bankOf .goat s.goatOnRight, s.bankOf .cabbage s.cabbageOnRight,
    s.boatOnRight⟩

/-- The object in the boat has the flag of the boat. -/
def Steady (s : Session) : Prop :=
  (s.objInBoat = .wolf → s.wolfOnRight = s.boatOnRight) ∧
    (s.objInBoat = .goat → s.goatOnRight = s.boatOnRight) ∧
    (s.objInBoat = .cabbage → s.cabbageOnRight = s.boatOnRight)

instance (s : Session) (req : Request) : Decidable (s.careful req) := by
  unfold careful
  split <;> infer_instance

end Session

section Positions

variable {s : Session} {req : Request} {history : List Request}

theorem careful_concat : s.Careful (history ++ [req]) ↔
    s.Careful history ∧ (history.foldl Session.execute s).careful req := by
  induction history generalizing s with
  | nil => simp [Session.Careful]
  | cons r history ih =>
    rw [List.cons_append, List.foldl_cons]
    unfold Session.Careful
    rw [ih, and_assoc]

theorem river_take {objId : ObjectId} (ha : s.objInBoat = .none) : s.river.step (.take objId) =
    if s.careful (.take objId) then some (s.take objId).river else none := by
  cases objId <;> simp [Session.river, Session.bankOf, River.step, Session.careful, Session.take, ha]

theorem river_put (hs : s.Steady) : s.river.step .put = some s.put.river := by
  obtain ⟨hwolf, hgoat, hcabbage⟩ := hs
  cases hobj : s.objInBoat <;>
    simp_all [Session.river, Session.bankOf, River.step, Session.put]

/-- The flags of what stays behind do not change in a crossing. -/
theorem river_moved : s.moved.river = { s.river with boat := !s.boatOnRight } := by
  cases h : s.objInBoat <;> simp [Session.river, Session.bankOf, Session.moved, h]

theorem leftAlone_moved {x y : ObjectId} {a b : Bool} :
    s.moved.river.leftAlone (s.bankOf x a) (s.bankOf y b) = (s.ashore x a && s.ashore y b) := by
  unfold River.leftAlone Session.bankOf Session.ashore
  rw [river_moved, Bool.not_not]
  by_cases hx : s.objInBoat = x <;> by_cases hy : s.objInBoat = y <;> simp [hx, hy]

theorem river_move : s.river.step .move = if s.careful .move then some s.moved.river else none := by
  have hstep : s.river.step .move =
      if s.moved.river.leftAlone s.river.wolf s.river.goat ||
        s.moved.river.leftAlone s.river.goat s.river.cabbage then none
      else some s.moved.river := by
    rw [river_moved]
    rfl
  have hcareful : s.careful .move ↔ ¬ ((s.moved.river.leftAlone s.river.wolf s.river.goat ||
      s.moved.river.leftAlone s.river.goat s.river.cabbage) = true) := by
    have hwolf := leftAlone_moved (s := s) (x := .wolf) (y := .goat) (a := s.wolfOnRight)
      (b := s.goatOnRight)
    have hcabbage := leftAlone_moved (s := s) (x := .goat) (y := .cabbage) (a := s.goatOnRight)
      (b := s.cabbageOnRight)
    dsimp only [Session.river] at hwolf hcabbage ⊢
    rw [hwolf, hcabbage]
    simp only [Session.careful, Bool.or_eq_true, Bool.and_eq_true]
    tauto
  rw [hstep]
  by_cases hc : s.careful .move
  · rw [if_pos hc, if_neg (hcareful.mp hc)]
  · rw [if_neg hc, if_pos (not_not.mp fun h => hc (hcareful.mpr h))]

/-- A request in a steady session is the rules' step exactly when it is careful. -/
theorem river_step (hs : s.Steady) (ha : s.accepts req) :
    s.river.step req = if s.careful req then some (s.execute req).river else none := by
  cases req with
  | take objId => exact river_take ha
  | put => exact (river_put hs).trans (if_pos trivial).symm
  | move => exact river_move

theorem steady_moved : s.moved.Steady := by
  cases h : s.objInBoat <;> simp [Session.Steady, Session.moved, h]

theorem steady_execute (ha : s.accepts req) (hc : s.careful req) : (s.execute req).Steady := by
  cases req with
  | take objId =>
    cases objId <;> simp_all [Session.execute, Session.take, Session.Steady, Session.careful]
  | put => exact ⟨fun h => (nomatch h), fun h => (nomatch h), fun h => (nomatch h)⟩
  | move => exact steady_moved

end Positions

/-! ### What a session executed -/

/-- A session with the requests executed since its INIT. -/
structure Traced where
  session : Session
  history : List Request
  deriving Repr, DecidableEq

def requestOf (msg : Message) : Option Request :=
  match msg.msgId with
  | .take => some (.take msg.objId)
  | .put => some .put
  | .move => some .move
  | _ => none

instance (s : Session) (req : Request) : Decidable (s.accepts req) := by
  unfold Session.accepts
  split <;> infer_instance

def Traced.after (t : Traced) (req : Request) : Traced :=
  if t.session.accepts req then ⟨t.session.execute req, t.history ++ [req]⟩ else t

/-- The stack of a client with what each of its sessions executed. -/
def tracedStep (stack : List Traced) (d : Delivery) : List Traced :=
  match d.msg.msgId, stack with
  | .init, stack => if d.allocated then ⟨newSession d.msg.queueId, []⟩ :: stack else stack
  | .fin, stack => stack.tail
  | _, [] => []
  | _, t :: rest =>
    match requestOf d.msg with
    | some req => t.after req :: rest
    | none => t :: rest

def traced (q : ℤ) (w : List Delivery) : List Traced :=
  (w.filter fun d => d.msg.queueId = q).foldl tracedStep []

/-- The requests the client's current session executed since its INIT. -/
def currentHistory (q : ℤ) (w : List Delivery) : List Request :=
  ((traced q w).head?.map Traced.history).getD []

section Traces

variable {q : ℤ} {w : List Delivery} {d : Delivery} {stack : List Traced} {t : Traced} {req : Request}

theorem traced_concat_own (h : d.msg.queueId = q) :
    traced q (w ++ [d]) = tracedStep (traced q w) d := by
  unfold traced
  rw [List.filter_append, List.filter_cons_of_pos (by simpa using h), List.foldl_append]
  rfl

theorem traced_concat_other (h : d.msg.queueId ≠ q) : traced q (w ++ [d]) = traced q w := by
  unfold traced
  rw [List.filter_append, List.filter_cons_of_neg (by simpa using h), List.filter_nil, List.append_nil]

theorem tracedStep_sessions :
    (tracedStep stack d).map Traced.session = (clientStep (stack.map Traced.session) d).1 := by
  unfold tracedStep clientStep requestOf
  cases hm : d.msg.msgId with
  | init => cases d.allocated <;> rfl
  | take =>
    cases stack with
    | nil => rfl
    | cons t rest =>
      by_cases ho : t.session.objInBoat = .none <;>
        simp [Traced.after, Session.accepts, Session.execute, ho]
  | put =>
    cases stack with
    | nil => rfl
    | cons t rest =>
      by_cases ho : t.session.objInBoat = .none <;>
        simp [Traced.after, Session.accepts, Session.execute, ho]
  | move => cases stack <;> simp [Traced.after, Session.accepts, Session.execute]
  | fin => exact List.map_tail
  | ok => cases stack <;> rfl
  | err => cases stack <;> rfl
  | allMoved => cases stack <;> rfl
  | unknown id => cases stack <;> rfl

theorem traced_sessions : (traced q w).map Traced.session = stackOf q w := by
  induction w using List.reverseRecOn with
  | nil => rfl
  | append_singleton w d ih =>
    by_cases hd : d.msg.queueId = q
    · rw [traced_concat_own hd, tracedStep_sessions, ih, stackOf_concat_own hd]
    · rw [traced_concat_other hd, ih, stackOf_concat_other hd]

/-- The session is its history played from a new one; a careful history is legal
and leaves the positions of the session, another one breaks a rule. -/
structure Traced.Faithful (q : ℤ) (t : Traced) : Prop where
  played : t.session = t.history.foldl Session.execute (newSession q)
  legal : (newSession q).Careful t.history →
    t.session.Steady ∧ River.start.play t.history = some t.session.river
  illegal : ¬ (newSession q).Careful t.history → River.start.play t.history = none

theorem faithful_new : Traced.Faithful q ⟨newSession q, []⟩ where
  played := rfl
  legal := fun _ => ⟨⟨fun h => (nomatch h), fun h => (nomatch h), fun h => (nomatch h)⟩, rfl⟩
  illegal := fun h => absurd trivial h

theorem Traced.Faithful.after (h : t.Faithful q) : (t.after req).Faithful q := by
  unfold Traced.after
  by_cases ha : t.session.accepts req
  · rw [if_pos ha]
    have hcareful : (newSession q).Careful (t.history ++ [req]) ↔
        (newSession q).Careful t.history ∧ t.session.careful req := by
      rw [careful_concat, ← h.played]
    refine ⟨?_, ?_, ?_⟩
    · rw [List.foldl_append, ← h.played]
      rfl
    · intro hc
      obtain ⟨hpast, hnow⟩ := hcareful.mp hc
      obtain ⟨hsteady, hplay⟩ := h.legal hpast
      refine ⟨steady_execute ha hnow, ?_⟩
      rw [River.play_concat, hplay, Option.bind_some, river_step hsteady ha, if_pos hnow]
    · intro hc
      show River.start.play (t.history ++ [req]) = none
      rw [River.play_concat]
      by_cases hpast : (newSession q).Careful t.history
      · obtain ⟨hsteady, hplay⟩ := h.legal hpast
        rw [hplay, Option.bind_some, river_step hsteady ha,
          if_neg fun hnow => hc (hcareful.mpr ⟨hpast, hnow⟩)]
      · rw [h.illegal hpast]
        rfl
  · rw [if_neg ha]
    exact h

theorem tracedStep_faithful (hd : d.msg.queueId = q) (h : ∀ t ∈ stack, t.Faithful q) :
    ∀ t ∈ tracedStep stack d, t.Faithful q := by
  have hafter : ∀ {t rest}, (∀ t' ∈ t :: rest, Traced.Faithful q t') →
      ∀ t' ∈ (match requestOf d.msg with
        | some req => t.after req :: rest
        | none => t :: rest), t'.Faithful q := by
    intro t rest hall
    cases requestOf d.msg with
    | none => exact hall
    | some req =>
      intro t' ht'
      rcases List.mem_cons.mp ht' with rfl | ht'
      · exact (hall t (List.mem_cons_self ..)).after
      · exact hall t' (List.mem_cons_of_mem _ ht')
  unfold tracedStep
  split
  · split
    · intro t ht
      rcases List.mem_cons.mp ht with rfl | ht
      · rw [hd]
        exact faithful_new
      · exact h t ht
    · exact h
  · exact fun t ht => h t (List.mem_of_mem_tail ht)
  · exact fun t ht => nomatch ht
  · exact hafter h

theorem traced_faithful (h : t ∈ traced q w) : t.Faithful q := by
  induction w using List.reverseRecOn generalizing t with
  | nil => cases h
  | append_singleton w d ih =>
    by_cases hd : d.msg.queueId = q
    · rw [traced_concat_own hd] at h
      exact tracedStep_faithful hd (fun t ht => ih ht) t h
    · rw [traced_concat_other hd] at h
      exact ih h

/-- ALL_MOVED answers a PUT only. -/
theorem clientStep_allMoved {sessions : List Session}
    (h : Answer.allMoved ∈ (clientStep sessions d).2) :
    d.msg.msgId = .put ∧ ∃ s rest, sessions = s :: rest ∧ s.accepts .put ∧ s.allObjectsMoved := by
  unfold clientStep at h
  cases hm : d.msg.msgId with
  | put =>
    cases sessions with
    | nil => simp [hm] at h
    | cons s rest =>
      by_cases ho : s.objInBoat = .none
      · simp [hm, ho] at h
      · refine ⟨rfl, s, rest, rfl, ho, ?_⟩
        by_contra hmoved
        simp [hm, ho, Session.putAnswer, hmoved] at h
  | init => cases ha : d.allocated <;> simp [hm, ha] at h
  | take =>
    cases sessions with
    | nil => simp [hm] at h
    | cons s rest => by_cases ho : s.objInBoat = .none <;> simp [hm, ho] at h
  | move =>
    cases sessions with
    | nil => simp [hm] at h
    | cons s rest =>
      cases hg : s.moved.goatEaten <;> cases hc : s.moved.cabbageEaten <;>
        simp [hm, Session.moveAnswer, hg, hc] at h
  | fin => simp [hm] at h
  | ok => simp [hm] at h
  | err => simp [hm] at h
  | allMoved => simp [hm] at h
  | unknown id => simp [hm] at h

theorem allMoved_cases (h : (⟨d.msg.queueId, .allMoved⟩ : Reply) ∈ (handle (serve w).1 d).2) :
    ∃ (t : Traced) (rest : List Traced), t.session.accepts .put ∧ t.session.allObjectsMoved ∧
      traced d.msg.queueId (w ++ [d]) = t.after .put :: rest := by
  rw [(handle_own rfl).2] at h
  obtain ⟨a, ha, haq⟩ := List.mem_map.mp h
  rw [show a = .allMoved from congrArg Reply.answer haq] at ha
  obtain ⟨hput, s, rest, hstack, haccepts, hmoved⟩ := clientStep_allMoved ha
  have hsessions : (traced d.msg.queueId w).map Traced.session = s :: rest :=
    traced_sessions.trans hstack
  rw [traced_concat_own rfl]
  cases htraced : traced d.msg.queueId w with
  | nil =>
    rw [htraced] at hsessions
    cases hsessions
  | cons t rest' =>
    rw [htraced] at hsessions
    obtain rfl : t.session = s := (List.cons.inj hsessions).1
    refine ⟨t, rest', haccepts, hmoved, ?_⟩
    simp [tracedStep, requestOf, hput]

/-- When the server answers that all objects are moved, the session's requests are a
solution exactly when each was careful. -/
theorem allMoved_solves_iff (w : List Delivery) (d : Delivery)
    (hanswer : (⟨d.msg.queueId, .allMoved⟩ : Reply) ∈ (handle (serve w).1 d).2) :
    River.Solves (currentHistory d.msg.queueId (w ++ [d])) ↔
      (newSession d.msg.queueId).Careful (currentHistory d.msg.queueId (w ++ [d])) := by
  obtain ⟨t, rest, haccepts, hmoved, htop⟩ := allMoved_cases hanswer
  have hfaithful : (t.after .put).Faithful d.msg.queueId :=
    traced_faithful (w := w ++ [d]) (by rw [htop]; exact List.mem_cons_self ..)
  have hcurrent : currentHistory d.msg.queueId (w ++ [d]) = (t.after .put).history := by
    unfold currentHistory
    rw [htop]
    rfl
  rw [hcurrent]
  constructor
  · intro hsolves
    by_contra hc
    rw [River.Solves, hfaithful.illegal hc] at hsolves
    cases hsolves
  · intro hc
    rw [River.Solves, (hfaithful.legal hc).2]
    have hput : (t.after .put).session = t.session.put := by
      unfold Traced.after
      rw [if_pos haccepts]
      rfl
    rw [hput]
    simp only [Session.allObjectsMoved, Bool.and_eq_true] at hmoved
    simp [Session.river, Session.bankOf, Session.put, River.solved, hmoved]

end Traces

instance instDecidableCareful : ∀ (s : Session) (history : List Request), Decidable (s.Careful history)
  | _, [] => isTrue trivial
  | s, req :: history =>
    have : Decidable ((s.execute req).Careful history) := instDecidableCareful (s.execute req) history
    inferInstanceAs (Decidable (s.careful req ∧ (s.execute req).Careful history))

/-- The messages of client 5 for requests of its session. -/
def ask : Request → Delivery
  | .take objId => ⟨⟨.take, 5, objId⟩, true⟩
  | .put => ⟨⟨.put, 5, .none⟩, true⟩
  | .move => ⟨⟨.move, 5, .none⟩, true⟩

def asked (requests : List Request) : List Delivery :=
  ⟨⟨.init, 5, .none⟩, true⟩ :: requests.map ask

def ferry (objId : ObjectId) : List Request := [.take objId, .move, .put]

/-- The goat first, then the wolf and back with the goat, the cabbage, and the goat again. -/
def solution : List Request :=
  ferry .goat ++ .move :: ferry .wolf ++ ferry .goat ++ ferry .cabbage ++ .move :: [.take .goat, .move]

theorem solution_solves : River.Solves (currentHistory 5 (asked solution ++ [ask .put])) :=
  (allMoved_solves_iff (asked solution) (ask .put) (by decide +kernel)).mpr (by decide +kernel)

/-- The boat is on the right bank when the wolf is taken from the left one. -/
def wolfAcross : List Request :=
  ferry .goat ++ [.take .wolf, .move, .move, .put] ++ ferry .goat ++ ferry .cabbage ++
    .move :: [.take .goat, .move]

/-- The goat eats the cabbage in the first crossing, and the session goes on. -/
def cabbageEaten : List Request :=
  ferry .wolf ++ .move :: ferry .goat ++ .move :: [.take .cabbage, .move]

theorem allMoved_without_solution :
    ((⟨5, .allMoved⟩ : Reply) ∈ (handle (serve (asked wolfAcross)).1 (ask .put)).2 ∧
      (∀ r ∈ (serve (asked wolfAcross)).2, r.answer = .ok) ∧
      ¬ River.Solves (currentHistory 5 (asked wolfAcross ++ [ask .put]))) ∧
    (⟨5, .allMoved⟩ : Reply) ∈ (handle (serve (asked cabbageEaten)).1 (ask .put)).2 ∧
      ¬ River.Solves (currentHistory 5 (asked cabbageEaten ++ [ask .put])) := by
  decide +kernel

end MaiFaSp.RiverCrossing
