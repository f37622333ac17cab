import Mathlib.Data.Set.Card
import Mathlib.Logic.Relation
import Mathlib.Tactic

/-!
# The shared room

Men and women threads that share a room of limited capacity. A thread locks the
mutex for each attempt to enter and for leaving; between these the threads run in
any order.
-/

namespace MaiFaSp.SharedRoom

inductive RoomState where
  | empty
  | manOnly
  | womanOnly
  deriving Repr, DecidableEq

inductive Gender where
  | man
  | woman
  deriving Repr, DecidableEq

structure Room where
  curState : RoomState
  currentNumber : ℤ
  deriving Repr, DecidableEq

/-- One turn of the loops below with the mutex locked: whether the thread is in, and the room. The
state is set before the room is found to be full. -/
def attempt (only : RoomState) (maxInRoom : ℤ) (room : Room) : Bool × Room :=
  if room.curState = .empty ∨ room.curState = only then
    let room := { room with curState := only }
    if room.currentNumber < maxInRoom then
      (true, { room with currentNumber := room.currentNumber + 1 })
    else (false, room)
  else (false, room)

def womanWantsToEnter (maxInRoom : ℤ) (room : Room) : Bool × Room := attempt .womanOnly maxInRoom room

def manWantsToEnter (maxInRoom : ℤ) (room : Room) : Bool × Room := attempt .manOnly maxInRoom room

/-- One leaves; the last one out resets the state. -/
def leave (room : Room) : Room :=
  let room := { room with currentNumber := room.currentNumber - 1 }
  if room.currentNumber = 0 then { room with curState := .empty } else room

def womanLeave (room : Room) : Room := leave room
def manLeave (room : Room) : Room := leave room

/-- Which functions a thread calls: those of the women when its argument is "m". -/
def manageGender (g : String) : Gender := if g = "m" then .woman else .man

def wantsToEnter : Gender → ℤ → Room → Bool × Room
  | .woman => womanWantsToEnter
  | .man => manWantsToEnter

def leaves : Gender → Room → Room
  | .woman => womanLeave
  | .man => manLeave

inductive Phase where
  | wanting
  | inside
  | gone
  deriving Repr, DecidableEq

/-- The room and where each thread is. -/
structure Config (ι : Type*) where
  room : Room
  phase : ι → Phase

/-- Nobody has entered. -/
def initial (ι : Type*) : Config ι := ⟨⟨.empty, 0⟩, fun _ => .wanting⟩

section Steps

variable {ι : Type*} [DecidableEq ι] (maxInRoom : ℤ) (arg : ι → String)

inductive Step : Config ι → Config ι → Prop
  | enter {room phase i room'} (hphase : phase i = .wanting)
      (h : wantsToEnter (manageGender (arg i)) maxInRoom room = (true, room')) :
      Step ⟨room, phase⟩ ⟨room', Function.update phase i .inside⟩
  | fail {room phase i room'} (hphase : phase i = .wanting)
      (h : wantsToEnter (manageGender (arg i)) maxInRoom room = (false, room')) :
      Step ⟨room, phase⟩ ⟨room', phase⟩
  | leave {room phase i} (hphase : phase i = .inside) :
      Step ⟨room, phase⟩ ⟨leaves (manageGender (arg i)) room, Function.update phase i .gone⟩

def Reachable (c : Config ι) : Prop := Relation.ReflTransGen (Step maxInRoom arg) (initial ι) c

end Steps

/-! ### The room and those inside -/

def Gender.only : Gender → RoomState
  | .woman => .womanOnly
  | .man => .manOnly

theorem only_injective : Function.Injective Gender.only := by
  intro g g' h
  cases g <;> cases g' <;> first | rfl | cases h

theorem wantsToEnter_eq {g : Gender} : wantsToEnter g = attempt g.only := by
  cases g <;> rfl

theorem leaves_eq {g : Gender} : leaves g = leave := by
  cases g <;> rfl

section Attempts

variable {g : Gender} {maxInRoom : ℤ} {room room' : Room}

theorem wantsToEnter_cases {entered : Bool} (h : wantsToEnter g maxInRoom room = (entered, room')) :
    (entered = true ∧ (room.curState = .empty ∨ room.curState = g.only) ∧
      room.currentNumber < maxInRoom ∧ room' = ⟨g.only, room.currentNumber + 1⟩) ∨
    (entered = false ∧ (room.curState = .empty ∨ room.curState = g.only) ∧
      maxInRoom ≤ room.currentNumber ∧ room' = ⟨g.only, room.currentNumber⟩) ∨
    (entered = false ∧ room.curState ≠ .empty ∧ room' = room) := by
  rw [wantsToEnter_eq] at h
  unfold attempt at h
  by_cases hs : room.curState = .empty ∨ room.curState = g.only
  · rw [if_pos hs] at h
    by_cases hlt : room.currentNumber < maxInRoom
    · simp only [hlt, if_true, Prod.mk.injEq] at h
      exact Or.inl ⟨h.1.symm, hs, hlt, h.2.symm⟩
    · simp only [hlt, if_false, Prod.mk.injEq] at h
      exact Or.inr (Or.inl ⟨h.1.symm, hs, not_lt.mp hlt, h.2.symm⟩)
  · rw [if_neg hs, Prod.mk.injEq] at h
    exact Or.inr (Or.inr ⟨h.1.symm, fun he => hs (Or.inl he), h.2.symm⟩)

theorem wantsToEnter_empty (hstate : room.curState = .empty) (h : room.currentNumber < maxInRoom) :
    (wantsToEnter g maxInRoom room).1 = true := by
  rw [wantsToEnter_eq]
  unfold attempt
  rw [if_pos (Or.inl hstate)]
  simp only [h, if_true]

end Attempts

section Safety

variable {ι : Type*} [DecidableEq ι] {maxInRoom : ℤ} {arg : ι → String} {c c' : Config ι}

def Config.inside (c : Config ι) : Set ι := {i | c.phase i = .inside}

/-- The counter counts those inside, the state is theirs, and with room for anyone an empty
room has the state EMPTY. -/
structure Safe (maxInRoom : ℤ) (arg : ι → String) (c : Config ι) : Prop where
  finite : c.inside.Finite
  number : c.room.currentNumber = c.inside.ncard
  bound : c.room.currentNumber ≤ max maxInRoom 0
  only : ∀ i ∈ c.inside, c.room.curState = (manageGender (arg i)).only
  reset : 1 ≤ maxInRoom → c.inside = ∅ → c.room.curState = .empty

omit [DecidableEq ι] in
theorem safe_initial : Safe maxInRoom arg (initial ι) := by
  have hempty : (initial ι).inside = ∅ := Set.eq_empty_of_forall_notMem fun i hi => nomatch hi
  refine ⟨hempty ▸ Set.finite_empty, ?_, le_max_right .., ?_, fun _ _ => rfl⟩
  · rw [hempty, Set.ncard_empty]
    rfl
  · intro i hi
    rw [hempty] at hi
    cases hi

theorem inside_enter {room : Room} {phase : ι → Phase} {i : ι} :
    (Config.mk room (Function.update phase i .inside)).inside = insert i {j | phase j = .inside} := by
  ext j
  by_cases hj : j = i
  · simp [Config.inside, hj]
  · simp [Config.inside, hj]

theorem inside_leave {room : Room} {phase : ι → Phase} {i : ι} :
    (Config.mk room (Function.update phase i .gone)).inside = {j | phase j = .inside} \ {i} := by
  ext j
  by_cases hj : j = i
  · simp [Config.inside, hj]
  · simp [Config.inside, hj]

omit [DecidableEq ι] in
/-- The state a thread finds EMPTY or its own is the state of everyone inside. -/
theorem Safe.only_of_open {g : Gender} (h : Safe maxInRoom arg c)
    (hs : c.room.curState = .empty ∨ c.room.curState = g.only) :
    ∀ i ∈ c.inside, g.only = (manageGender (arg i)).only := by
  intro i hi
  have hown := h.only i hi
  rcases hs with hs | hs
  · rw [hs] at hown
    cases hg : manageGender (arg i) <;> rw [hg] at hown <;> cases hown
  · exact hs ▸ hown

theorem Safe.enter {i : ι} {room' : Room} (h : Safe maxInRoom arg c) (hphase : c.phase i = .wanting)
    (he : wantsToEnter (manageGender (arg i)) maxInRoom c.room = (true, room')) :
    Safe maxInRoom arg ⟨room', Function.update c.phase i .inside⟩ := by
  obtain ⟨_, hs, hlt, rfl⟩ | ⟨hf, _⟩ | ⟨hf, _⟩ := wantsToEnter_cases he
  · have hout : i ∉ c.inside := fun hi => by cases hphase.symm.trans hi
    refine ⟨?_, ?_, ?_, ?_, ?_⟩
    · rw [inside_enter]
      exact h.finite.insert i
    · rw [inside_enter]
      have hcard : (insert i c.inside).ncard = c.inside.ncard + 1 :=
        Set.ncard_insert_of_notMem hout h.finite
      show c.room.currentNumber + 1 = ((insert i c.inside).ncard : ℤ)
      rw [hcard, h.number]
      rfl
    · exact le_max_of_le_left (Int.add_one_le_of_lt hlt)
    · intro j hj
      rw [inside_enter] at hj
      rcases hj with rfl | hj
      · rfl
      · exact h.only_of_open hs j hj
    · intro _ hempty
      rw [inside_enter] at hempty
      exact absurd hempty (Set.insert_nonempty ..).ne_empty
  · cases hf
  · cases hf

omit [DecidableEq ι] in
theorem Safe.fail {i : ι} {room' : Room} (h : Safe maxInRoom arg c)
    (he : wantsToEnter (manageGender (arg i)) maxInRoom c.room = (false, room')) :
    Safe maxInRoom arg ⟨room', c.phase⟩ := by
  obtain ⟨hf, _⟩ | ⟨_, hs, hfull, rfl⟩ | ⟨_, _, rfl⟩ := wantsToEnter_cases he
  · cases hf
  · refine ⟨h.finite, h.number, h.bound, h.only_of_open hs, ?_⟩
    -- the room is full, so somebody is inside
    intro hmax hempty
    have hzero : c.room.currentNumber = (∅ : Set ι).ncard := hempty ▸ h.number
    rw [Set.ncard_empty] at hzero
    omega
  · exact ⟨h.finite, h.number, h.bound, h.only, h.reset⟩

theorem Safe.leave {i : ι} (h : Safe maxInRoom arg c) (hphase : c.phase i = .inside) :
    Safe maxInRoom arg ⟨leaves (manageGender (arg i)) c.room, Function.update c.phase i .gone⟩ := by
  rw [leaves_eq]
  have hcard : (c.inside \ {i}).ncard + 1 = c.inside.ncard :=
    Set.ncard_sdiff_singleton_add_one hphase h.finite
  have hnumber := h.number
  have hfinite : (c.inside \ {i}).Finite := h.finite.subset Set.sdiff_subset
  have hbound := h.bound
  unfold SharedRoom.leave
  by_cases hlast : c.room.currentNumber - 1 = 0
  · have hempty : c.inside \ {i} = ∅ := (Set.ncard_eq_zero hfinite).mp (by omega)
    simp only [hlast, if_true]
    refine ⟨?_, ?_, le_max_right .., ?_, fun _ _ => rfl⟩
    · rw [inside_leave]
      exact hfinite
    · rw [inside_leave]
      show (0 : ℤ) = ((c.inside \ {i}).ncard : ℤ)
      rw [hempty, Set.ncard_empty]
      rfl
    · intro j hj
      rw [inside_leave] at hj
      rw [show {j | c.phase j = .inside} \ {i} = ∅ from hempty] at hj
      cases hj
  · simp only [hlast, if_false]
    refine ⟨?_, ?_, ?_, ?_, ?_⟩
    · rw [inside_leave]
      exact hfinite
    · rw [inside_leave]
      show c.room.currentNumber - 1 = ((c.inside \ {i}).ncard : ℤ)
      omega
    · show c.room.currentNumber - 1 ≤ max maxInRoom 0
      omega
    · intro j hj
      rw [inside_leave] at hj
      exact h.only j hj.1
    · intro _ hempty
      rw [inside_leave] at hempty
      rw [show c.inside \ {i} = ∅ from hempty, Set.ncard_empty] at hcard
      omega

theorem Safe.step (h : Safe maxInRoom arg c) (hs : Step maxInRoom arg c c') : Safe maxInRoom arg c' := by
  cases hs with
  | enter hphase he => exact h.enter hphase he
  | fail hphase he => exact h.fail he
  | leave hphase => exact h.leave hphase

theorem Reachable.safe (hc : Reachable maxInRoom arg c) : Safe maxInRoom arg c := by
  induction hc with
  | refl => exact safe_initial
  | tail _ hs ih => exact ih.step hs

/-- Never a man and a woman inside, never more than the room holds, and an empty room lets
anyone in. -/
theorem room_safe (hc : Reachable maxInRoom arg c) :
    (∀ i ∈ c.inside, ∀ j ∈ c.inside, manageGender (arg i) = manageGender (arg j)) ∧
      c.inside.Finite ∧ c.room.currentNumber = c.inside.ncard ∧
      c.room.currentNumber ≤ max maxInRoom 0 ∧
      (1 ≤ maxInRoom → c.inside = ∅ → c.room.curState = .empty ∧
        ∀ g, (wantsToEnter g maxInRoom c.room).1 = true) := by
  have h := hc.safe
  refine ⟨?_, h.finite, h.number, h.bound, ?_⟩
  · intro i hi j hj
    exact only_injective ((h.only i hi).symm.trans (h.only j hj))
  · intro hmax hempty
    refine ⟨h.reset hmax hempty, fun g => wantsToEnter_empty (h.reset hmax hempty) ?_⟩
    rw [h.number, hempty, Set.ncard_empty]
    exact hmax

/-- A room for one in which a thread "m" is. -/
def oneInside : Config Bool := ⟨⟨.womanOnly, 1⟩, Function.update (fun _ => .wanting) true .inside⟩

/-- The thread "w" finds the room taken. -/
theorem room_safe_one : oneInside.room.currentNumber = oneInside.inside.ncard ∧
    oneInside.room.currentNumber ≤ max 1 0 := by
  have henter : Step 1 (fun i => if i then "m" else "w") (initial Bool) oneInside := .enter rfl rfl
  have hfail : Step 1 (fun i => if i then "m" else "w") oneInside oneInside :=
    .fail (i := false) rfl rfl
  have hsafe := room_safe ((Relation.ReflTransGen.single henter).tail hfail)
  exact ⟨hsafe.2.2.1, hsafe.2.2.2.1⟩

end Safety

end MaiFaSp.SharedRoom
