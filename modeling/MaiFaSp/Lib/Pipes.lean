import MaiFaSp.Lib.RandomDescent
import Mathlib.Data.List.Basic
import Mathlib.Tactic

/-!
# Two processes and a connection

Two processes send each other bytes through two queues of a limited size. A `send` puts in its
bytes one by one, a `receive` waits for all of its bytes or for the other process to be gone. The
steps of the two commute, so a conversation that comes to an end in one order of the steps comes to
it in every order.
-/

namespace MaiFaSp

variable {β γ σ : Type*}

/-- What a process does next. A `receive` gives nothing when the other side hangs up before. -/
inductive Io (β γ : Type*) where
  | send (bytes : List β) (after : γ)
  | receive (count : ℕ) (next : Option (List β) → γ)
  | halt

/-- A process with the bytes of its command that are through already. -/
structure Peer (β γ : Type*) where
  state : γ
  done : List β

structure Connection (β γ σ : Type*) where
  left : Peer β γ
  right : Peer β σ
  toRight : List β
  toLeft : List β

namespace Peer

/-- A process halts by hanging up. -/
def gone (io : γ → Io β γ) (p : Peer β γ) : Bool :=
  match io p.state with
  | .halt => true
  | _ => false

/-- One step: what becomes of the process, of its incoming and of its outgoing queue. -/
def step (io : γ → Io β γ) (capacity : ℕ) (otherGone : Bool) (p : Peer β γ) (incoming outgoing : List β) :
    Option (Peer β γ × List β × List β) :=
  match io p.state with
  | .send bytes after =>
    match bytes.drop p.done.length with
    | [] => some (⟨after, []⟩, incoming, outgoing)
    | b :: _ =>
      if outgoing.length < capacity then some (⟨p.state, p.done ++ [b]⟩, incoming, outgoing ++ [b]) else none
  | .receive count next =>
    if p.done.length = count then some (⟨next (some p.done), []⟩, incoming, outgoing)
    else
      match incoming with
      | b :: rest => some (⟨p.state, p.done ++ [b]⟩, rest, outgoing)
      | [] => if otherGone then some (⟨next none, []⟩, [], outgoing) else none
  | .halt => none

end Peer

namespace Connection

/-- The same connection from the other side. -/
def swap (c : Connection β γ σ) : Connection β σ γ := ⟨c.right, c.left, c.toLeft, c.toRight⟩

/-- Both processes before a command, and nothing under way. -/
def idle (g : γ) (s : σ) : Connection β γ σ := ⟨⟨g, []⟩, ⟨s, []⟩, [], []⟩

/-- A step of the left process. -/
def leftStep (left : γ → Io β γ) (right : σ → Io β σ) (capacity : ℕ) (c : Connection β γ σ) :
    Option (Connection β γ σ) :=
  (c.left.step left capacity (c.right.gone right) c.toLeft c.toRight).map fun x =>
    ⟨x.1, c.right, x.2.2, x.2.1⟩

def rightStep (left : γ → Io β γ) (right : σ → Io β σ) (capacity : ℕ) (c : Connection β γ σ) :
    Option (Connection β γ σ) :=
  (c.swap.leftStep right left capacity).map swap

def Step (left : γ → Io β γ) (right : σ → Io β σ) (capacity : ℕ) (c c' : Connection β γ σ) : Prop :=
  c.leftStep left right capacity = some c' ∨ c.rightStep left right capacity = some c'

end Connection

section Steps

variable {io : γ → Io β γ} {left : γ → Io β γ} {right : σ → Io β σ} {capacity : ℕ}
  {p p' : Peer β γ} {incoming incoming' outgoing outgoing' : List β} {otherGone : Bool}
  {c c' : Connection β γ σ} {g g' : γ} {s s' : σ}

/-- A step that the other side's end has nothing to do with can be made as well when more bytes
come in and fewer wait to go out. -/
theorem Peer.step_stable (h : p.step io capacity false incoming outgoing = some (p', incoming', outgoing')) :
    ∃ popped pushed, incoming = popped ++ incoming' ∧ outgoing' = outgoing ++ pushed ∧
      ∀ gone more outgoing₂, outgoing₂.length ≤ outgoing.length →
        p.step io capacity gone (incoming ++ more) outgoing₂ =
          some (p', incoming' ++ more, outgoing₂ ++ pushed) := by
  unfold Peer.step at h ⊢
  cases hio : io p.state with
  | halt => simp [hio] at h
  | send bytes after =>
    simp only [hio] at h ⊢
    cases hdrop : bytes.drop p.done.length with
    | nil =>
      simp only [hdrop, Option.some.injEq, Prod.mk.injEq] at h ⊢
      obtain ⟨rfl, rfl, rfl⟩ := h
      exact ⟨[], [], rfl, (List.append_nil _).symm, fun _ more outgoing₂ _ => by simp⟩
    | cons b rest =>
      simp only [hdrop] at h ⊢
      split_ifs at h with hroom
      simp only [Option.some.injEq, Prod.mk.injEq] at h
      obtain ⟨rfl, rfl, rfl⟩ := h
      refine ⟨[], [b], rfl, rfl, fun _ more outgoing₂ hle => ?_⟩
      rw [if_pos (by omega)]
  | receive count next =>
    simp only [hio] at h ⊢
    by_cases hcount : p.done.length = count
    · simp only [hcount, ↓reduceIte, Option.some.injEq, Prod.mk.injEq] at h ⊢
      obtain ⟨rfl, rfl, rfl⟩ := h
      exact ⟨[], [], rfl, (List.append_nil _).symm, fun _ more outgoing₂ _ => by simp⟩
    · simp only [hcount, ↓reduceIte] at h ⊢
      cases incoming with
      | nil => simp at h
      | cons b rest =>
        simp only [Option.some.injEq, Prod.mk.injEq] at h
        obtain ⟨rfl, rfl, rfl⟩ := h
        exact ⟨[b], [], rfl, (List.append_nil _).symm, fun _ more outgoing₂ _ => by simp⟩

theorem Peer.not_gone (h : p.step io capacity otherGone incoming outgoing = some (p', incoming', outgoing')) :
    p.gone io = false := by
  unfold Peer.step at h
  unfold Peer.gone
  cases hio : io p.state with
  | halt => simp [hio] at h
  | _ => rfl

theorem Connection.leftStep_eq_some : c.leftStep left right capacity = some c' ↔
    c'.right = c.right ∧ c.left.step left capacity (c.right.gone right) c.toLeft c.toRight =
      some (c'.left, c'.toLeft, c'.toRight) := by
  unfold Connection.leftStep
  rw [Option.map_eq_some_iff]
  constructor
  · rintro ⟨⟨p, incoming, outgoing⟩, h, rfl⟩
    exact ⟨rfl, h⟩
  · rintro ⟨hright, h⟩
    refine ⟨_, h, ?_⟩
    rw [← hright]

theorem Connection.rightStep_eq_some : c.rightStep left right capacity = some c' ↔
    c'.left = c.left ∧ c.right.step right capacity (c.left.gone left) c.toRight c.toLeft =
      some (c'.right, c'.toRight, c'.toLeft) := by
  unfold Connection.rightStep
  rw [Option.map_eq_some_iff]
  constructor
  · rintro ⟨d, h, rfl⟩
    exact Connection.leftStep_eq_some.mp h
  · rintro h
    exact ⟨c'.swap, Connection.leftStep_eq_some.mpr h, rfl⟩

/-- A step of the one and a step of the other can be made in either order. -/
theorem Connection.steps_commute {c₁ c₂ : Connection β γ σ} (h₁ : c.leftStep left right capacity = some c₁)
    (h₂ : c.rightStep left right capacity = some c₂) :
    ∃ d, c₁.rightStep left right capacity = some d ∧ c₂.leftStep left right capacity = some d := by
  obtain ⟨hright, hleft⟩ := Connection.leftStep_eq_some.mp h₁
  obtain ⟨hleft', hright'⟩ := Connection.rightStep_eq_some.mp h₂
  rw [Peer.not_gone hright'] at hleft
  rw [Peer.not_gone hleft] at hright'
  obtain ⟨popped, pushed, hin, hout, hstable⟩ := Peer.step_stable hleft
  obtain ⟨popped', pushed', hin', hout', hstable'⟩ := Peer.step_stable hright'
  refine ⟨⟨c₁.left, c₂.right, c₂.toRight ++ pushed, c₁.toLeft ++ pushed'⟩, ?_, ?_⟩
  · refine Connection.rightStep_eq_some.mpr ⟨rfl, ?_⟩
    rw [hright, hout]
    refine hstable' _ pushed c₁.toLeft ?_
    rw [hin, List.length_append]
    omega
  · refine Connection.leftStep_eq_some.mpr ⟨rfl, ?_⟩
    rw [hleft', hout']
    refine hstable _ pushed' c₂.toRight ?_
    rw [hin', List.length_append]
    omega

theorem Connection.diamond : Diamond (Connection.Step left right capacity) := by
  intro c c₁ c₂ h₁ h₂
  obtain h₁ | h₁ := h₁ <;> obtain h₂ | h₂ := h₂
  · exact .inl (Option.some.inj (h₁.symm.trans h₂))
  · obtain ⟨d, hd₁, hd₂⟩ := steps_commute h₁ h₂
    exact .inr ⟨d, .inr hd₁, .inl hd₂⟩
  · obtain ⟨d, hd₂, hd₁⟩ := steps_commute h₂ h₁
    exact .inr ⟨d, .inl hd₁, .inr hd₂⟩
  · exact .inl (Option.some.inj (h₁.symm.trans h₂))

/-! ### Conversations -/

theorem Connection.Step.swap (h : Connection.Step left right capacity c c') :
    Connection.Step right left capacity c.swap c'.swap := by
  obtain h | h := h
  · exact .inr (rightStep_eq_some.mpr (leftStep_eq_some.mp h))
  · exact .inl (leftStep_eq_some.mpr (rightStep_eq_some.mp h))

theorem Connection.takes_swap {n : ℕ} (h : Takes (Connection.Step left right capacity) n c c') :
    Takes (Connection.Step right left capacity) n c.swap c'.swap := by
  induction h with
  | refl c => exact .refl c.swap
  | tail h hstep ih => exact ih.tail hstep.swap

variable {bytes sent rest : List β} {after : γ} {next : Option (List β) → σ}

theorem Connection.sends (hcapacity : 0 < capacity) (hleft : left g = .send bytes after)
    (hright : right s = .receive bytes.length next) (hbytes : bytes = sent ++ rest) :
    Takes (Connection.Step left right capacity) (2 * rest.length + 2) ⟨⟨g, sent⟩, ⟨s, sent⟩, [], []⟩
      (.idle after (next (some bytes))) := by
  induction rest generalizing sent with
  | nil =>
    rw [List.append_nil] at hbytes
    subst hbytes
    have hsent : Connection.Step left right capacity ⟨⟨g, bytes⟩, ⟨s, bytes⟩, [], []⟩
        ⟨⟨after, []⟩, ⟨s, bytes⟩, [], []⟩ :=
      .inl (leftStep_eq_some.mpr ⟨rfl, by simp [Peer.step, hleft]⟩)
    have hheard : Connection.Step left right capacity ⟨⟨after, []⟩, ⟨s, bytes⟩, [], []⟩
        ⟨⟨after, []⟩, ⟨next (some bytes), []⟩, [], []⟩ :=
      .inr (rightStep_eq_some.mpr ⟨rfl, by simp [Peer.step, hright]⟩)
    exact .tail (.tail (.refl _) hsent) hheard
  | cons b rest ih =>
    have hdrop : bytes.drop sent.length = b :: rest := by rw [hbytes, List.drop_left]
    have hshort : sent.length ≠ bytes.length := by
      rw [hbytes, List.length_append, List.length_cons]
      omega
    have hsent : Connection.Step left right capacity ⟨⟨g, sent⟩, ⟨s, sent⟩, [], []⟩
        ⟨⟨g, sent ++ [b]⟩, ⟨s, sent⟩, [b], []⟩ :=
      .inl (leftStep_eq_some.mpr ⟨rfl, by simp [Peer.step, hleft, hdrop, hcapacity]⟩)
    have hheard : Connection.Step left right capacity ⟨⟨g, sent ++ [b]⟩, ⟨s, sent⟩, [b], []⟩
        ⟨⟨g, sent ++ [b]⟩, ⟨s, sent ++ [b]⟩, [], []⟩ :=
      .inr (rightStep_eq_some.mpr ⟨rfl, by simp [Peer.step, hright, hshort]⟩)
    have hbytes' : bytes = (sent ++ [b]) ++ rest := by
      rw [hbytes, List.append_assoc, List.singleton_append]
    exact .head hsent (.head hheard (ih hbytes'))

theorem Connection.hears_end (hleft : left g = .halt) {count : ℕ} (hcount : count ≠ 0)
    (hright : right s = .receive count next) :
    Connection.Step left right capacity (.idle g s) (.idle g (next none)) := by
  refine .inr (rightStep_eq_some.mpr ⟨rfl, ?_⟩)
  simp [Connection.idle, Peer.step, Peer.gone, hleft, hright, Ne.symm hcount]

end Steps

/-- One process speaks and the other listens, in turn. When the left one has hung up, the right one
hears the end. -/
inductive Dialogue (left : γ → Io β γ) (right : σ → Io β σ) : γ → σ → γ → σ → Prop
  | refl (g : γ) (s : σ) : Dialogue left right g s g s
  | left_speaks {g g' after : γ} {s s' : σ} {bytes : List β} {next : Option (List β) → σ}
      (hleft : left g = .send bytes after) (hright : right s = .receive bytes.length next)
      (h : Dialogue left right after (next (some bytes)) g' s') : Dialogue left right g s g' s'
  | right_speaks {g g' : γ} {s s' after : σ} {bytes : List β} {next : Option (List β) → γ}
      (hright : right s = .send bytes after) (hleft : left g = .receive bytes.length next)
      (h : Dialogue left right (next (some bytes)) after g' s') : Dialogue left right g s g' s'
  | left_hangs_up {g g' : γ} {s s' : σ} {count : ℕ} {next : Option (List β) → σ}
      (hleft : left g = .halt) (hright : right s = .receive count next) (hcount : count ≠ 0)
      (h : Dialogue left right g (next none) g' s') : Dialogue left right g s g' s'

namespace Dialogue

variable {left : γ → Io β γ} {right : σ → Io β σ} {capacity : ℕ} {g g' : γ} {s s' : σ}

theorem takes (h : Dialogue left right g s g' s') (hcapacity : 0 < capacity) :
    ∃ n, Takes (Connection.Step left right capacity) n (.idle g s) (.idle g' s') := by
  induction h with
  | refl g s => exact ⟨0, .refl _⟩
  | left_speaks hleft hright h ih =>
    obtain ⟨n, hn⟩ := ih
    exact ⟨_, (Connection.sends hcapacity hleft hright (List.nil_append _).symm).trans hn⟩
  | right_speaks hright hleft h ih =>
    obtain ⟨n, hn⟩ := ih
    have hsends := Connection.sends hcapacity hright hleft (List.nil_append _).symm
    exact ⟨_, (Connection.takes_swap hsends).trans hn⟩
  | left_hangs_up hleft hright hcount h ih =>
    obtain ⟨n, hn⟩ := ih
    exact ⟨n + 1, hn.head (Connection.hears_end hleft hcount hright)⟩

/-- However the steps fall and however little the queues hold, both processes come to the end of
the conversation after the same number of steps, with nothing left under way. -/
theorem all_runs (h : Dialogue left right g s g' s') (hcapacity : 0 < capacity)
    (hleft : left g' = .halt) (hright : right s' = .halt) :
    ∃ n, ∀ m c, Takes (Connection.Step left right capacity) m (.idle g s) c →
      m ≤ n ∧ (Stuck (Connection.Step left right capacity) c → m = n ∧ c = .idle g' s') := by
  have hstuck : Stuck (Connection.Step left right capacity) (Connection.idle g' s') := by
    rintro c (hc | hc)
    · have hstep := (Connection.leftStep_eq_some.mp hc).2
      simp [Connection.idle, Peer.step, hleft] at hstep
    · have hstep := (Connection.rightStep_eq_some.mp hc).2
      simp [Connection.idle, Peer.step, hright] at hstep
  obtain ⟨n, hn⟩ := h.takes hcapacity
  refine ⟨n, fun m c hm => ?_⟩
  obtain ⟨k, rfl, hk⟩ := hn.descends Connection.diamond hstuck hm
  refine ⟨Nat.le_add_right m k, fun hc => ?_⟩
  cases k with
  | zero =>
    cases hk
    exact ⟨rfl, rfl⟩
  | succ k =>
    obtain ⟨d, hstep, -⟩ := hk.exists_head
    exact absurd hstep (hc d)

end Dialogue

end MaiFaSp
