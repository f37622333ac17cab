import MaiFaSp.RiverCrossing.Isolation

/-!
# The life of a session

A client has one session from its INIT to its FIN as long as it sends no INIT in
between: INIT does not look for a session, and FIN closes the newest one only.
-/

namespace MaiFaSp.RiverCrossing

/-- The sessions of a client after a run. -/
def stackOf (q : ℤ) (w : List Delivery) : List Session := sessionsOf q (serve w).1

/-- The requests that need a session. -/
def MsgId.needsSession : MsgId → Bool
  | .take | .put | .move => true
  | _ => false

section Stack

variable {q : ℤ} {w v : List Delivery} {d : Delivery} {stack : List Session}

theorem serve_concat : (serve (w ++ [d])).1 = (handle (serve w).1 d).1 := by
  unfold serve
  rw [runMachine_concat]

theorem stackOf_concat_own (h : d.msg.queueId = q) :
    stackOf q (w ++ [d]) = (clientStep (stackOf q w) d).1 := by
  unfold stackOf
  rw [serve_concat]
  exact (handle_own h).1

theorem stackOf_concat_other (h : d.msg.queueId ≠ q) : stackOf q (w ++ [d]) = stackOf q w := by
  unfold stackOf
  rw [serve_concat]
  exact handle_foreign h

theorem getSession_serve : getSession (serve w).1 q = (stackOf q w).head? := getSession_eq_head

theorem clientStep_length : (clientStep stack d).1.length =
    if d.msg.msgId = .init ∧ d.allocated then stack.length + 1
    else if d.msg.msgId = .fin then stack.length - 1 else stack.length := by
  unfold clientStep
  cases hm : d.msg.msgId with
  | init => cases d.allocated <;> simp
  | take =>
    cases stack with
    | nil => rfl
    | cons s rest => by_cases ho : s.objInBoat = .none <;> simp [ho]
  | put =>
    cases stack with
    | nil => rfl
    | cons s rest => by_cases ho : s.objInBoat = .none <;> simp [ho]
  | move => cases stack <;> simp
  | fin => simp
  | ok => simp
  | err => simp
  | allMoved => simp
  | unknown id => simp

theorem clientStep_length_le (h : ¬ (d.msg.msgId = .init ∧ d.allocated)) :
    (clientStep stack d).1.length ≤ stack.length := by
  rw [clientStep_length, if_neg h]
  split <;> omega

theorem clientStep_empty (h : d.msg.msgId.needsSession) :
    (clientStep [] d).2 = [.err "Not registered"] := by
  unfold clientStep
  cases hm : d.msg.msgId <;> rw [hm] at h <;> first | rfl | cases h

/-- A client without a session gets one by INIT only. -/
theorem stackOf_append_empty (hw : stackOf q w = [])
    (hv : ∀ d ∈ v, d.msg.queueId = q → d.msg.msgId ≠ .init) : stackOf q (w ++ v) = [] := by
  induction v using List.reverseRecOn with
  | nil => rwa [List.append_nil]
  | append_singleton v d ih =>
    have hempty := ih fun d' hd' => hv d' (List.mem_append_left _ hd')
    rw [← List.append_assoc]
    by_cases hd : d.msg.queueId = q
    · have hne := hv d (by simp) hd
      have hlen : (clientStep [] d).1.length ≤ 0 := clientStep_length_le fun h => hne h.1
      rw [stackOf_concat_own hd, hempty]
      exact List.length_eq_zero_iff.mp (Nat.le_zero.mp hlen)
    · rw [stackOf_concat_other hd, hempty]

end Stack

/-- In every state of the run a client has one session at most, and between a FIN
and the next INIT it has none: its requests are answered with the error. -/
structure LifecycleHolds (w : List Delivery) : Prop where
  unique : ∀ u, u <+: w → ∀ q, (sessionsOf q (serve u).1).length ≤ 1
  closed : ∀ u fin v d, u ++ fin :: v ++ [d] <+: w → fin.msg.msgId = .fin →
    (∀ d' ∈ v, d'.msg.queueId = fin.msg.queueId → d'.msg.msgId ≠ .init) →
    d.msg.queueId = fin.msg.queueId → d.msg.msgId.needsSession →
    (handle (serve (u ++ fin :: v)).1 d).2 = [⟨d.msg.queueId, .err "Not registered"⟩]

/-- No session is created for a client that has one. -/
def FreshInits (w : List Delivery) : Prop :=
  ∀ u d, u ++ [d] <+: w → d.msg.msgId = .init → d.allocated →
    getSession (serve u).1 d.msg.queueId = none

theorem FreshInits.shorten {u w : List Delivery} (h : FreshInits w) (hu : u <+: w) : FreshInits u :=
  fun u' d hd => h u' d (hd.trans hu)

theorem FreshInits.length_le {w : List Delivery} (h : FreshInits w) (q : ℤ) :
    (stackOf q w).length ≤ 1 := by
  induction w using List.reverseRecOn with
  | nil => exact Nat.zero_le _
  | append_singleton w d ih =>
    have hw := ih (h.shorten (List.prefix_append ..))
    by_cases hd : d.msg.queueId = q
    · rw [stackOf_concat_own hd]
      by_cases hi : d.msg.msgId = .init ∧ d.allocated
      · have hnone := h w d List.prefix_rfl hi.1 hi.2
        rw [getSession_serve, List.head?_eq_none_iff, hd] at hnone
        rw [clientStep_length, if_pos hi, hnone]
        exact le_refl 1
      · exact (clientStep_length_le hi).trans hw
    · rwa [stackOf_concat_other hd]

theorem lifecycleHolds_iff (w : List Delivery) : LifecycleHolds w ↔ FreshInits w := by
  constructor
  · intro h u d hu hinit halloc
    have hlen := h.unique _ hu d.msg.queueId
    have hstack : sessionsOf d.msg.queueId (serve (u ++ [d])).1 = (clientStep (stackOf _ u) d).1 :=
      stackOf_concat_own rfl
    rw [hstack, clientStep_length, if_pos ⟨hinit, halloc⟩] at hlen
    have hempty : stackOf d.msg.queueId u = [] := List.length_eq_zero_iff.mp (by omega)
    rw [getSession_serve, hempty]
    rfl
  · intro h
    refine ⟨fun u hu q => (h.shorten hu).length_le q, ?_⟩
    intro u fin v d hw hfin hv hd hneeds
    have hu : u <+: w := by
      refine List.IsPrefix.trans ?_ hw
      rw [List.append_assoc]
      exact List.prefix_append ..
    have hlen := (h.shorten hu).length_le fin.msg.queueId
    have hclosed : stackOf fin.msg.queueId (u ++ [fin]) = [] := by
      rw [stackOf_concat_own rfl]
      refine List.length_eq_zero_iff.mp ?_
      rw [clientStep_length, if_neg (by simp [hfin]), if_pos hfin]
      omega
    have hstack : stackOf d.msg.queueId (u ++ fin :: v) = [] := by
      have happend := stackOf_append_empty (v := v) hclosed hv
      rw [List.append_assoc, List.singleton_append] at happend
      rw [hd, happend]
    have hreply : (handle (serve (u ++ fin :: v)).1 d).2 = _ := (handle_own rfl).2
    rw [hreply, show sessionsOf d.msg.queueId (serve (u ++ fin :: v)).1 = [] from hstack,
      clientStep_empty hneeds]
    rfl

/-- A second INIT, one FIN: the first session is still there. -/
theorem second_session_survives :
    ¬ LifecycleHolds [⟨⟨.init, 5, .wolf⟩, true⟩, ⟨⟨.init, 5, .wolf⟩, true⟩, ⟨⟨.fin, 5, .wolf⟩, true⟩,
      ⟨⟨.take, 5, .goat⟩, true⟩] ∧
      (sessionsOf 5 (serve [⟨⟨.init, 5, .wolf⟩, true⟩, ⟨⟨.init, 5, .wolf⟩, true⟩]).1).length = 2 ∧
      (handle (serve [⟨⟨.init, 5, .wolf⟩, true⟩, ⟨⟨.init, 5, .wolf⟩, true⟩,
        ⟨⟨.fin, 5, .wolf⟩, true⟩]).1 ⟨⟨.take, 5, .goat⟩, true⟩).2 = [⟨5, .ok⟩] := by
  have htwo : (sessionsOf 5 (serve [⟨⟨.init, 5, .wolf⟩, true⟩,
      ⟨⟨.init, 5, .wolf⟩, true⟩]).1).length = 2 := by decide
  refine ⟨?_, htwo, by decide⟩
  intro h
  have hone := h.unique [⟨⟨.init, 5, .wolf⟩, true⟩, ⟨⟨.init, 5, .wolf⟩, true⟩] ⟨_, rfl⟩ 5
  rw [htwo] at hone
  exact absurd hone (by decide)

end MaiFaSp.RiverCrossing
