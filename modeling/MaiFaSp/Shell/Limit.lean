import MaiFaSp.Lib.Outcomes
import MaiFaSp.Shell.Commands

/-!
# How many commands the sanctions of a user leave (`task1/main.c:98-186, 299-387`)

`interaction` takes one from the limit for each command that returns `OK`, but only the
commands of one word look at the limit first.
-/

namespace MaiFaSp.Shell

/-- A turn of the session: the time and the shell before it, and its status. -/
structure Turn where
  now : ℤ
  before : State
  status : KErrors

section Session

variable (mktime : Tm → ℤ)

/-- The turns of `interaction` since the login, none of which is the logout. -/
inductive Session (currentUser : ℕ) (start : State) : List Turn → State → Prop
  | start : Session currentUser start [] start
  | turn {turns s s' status} (now : ℤ) (hsession : Session currentUser start turns s)
      (hturn : turn mktime now currentUser s = .ok (status, s')) (hstatus : status ≠ .logout) :
      Session currentUser start (turns ++ [⟨now, s, status⟩]) s'

/-- A `Howmuch` or `Sanctions` command that passes its own checks; the limit is none of them. -/
def Untested (now : ℤ) (tokens : List (List Char)) (s : State) : Prop :=
  (∃ day time flag, tokens = ["Howmuch".toList, day, time, flag] ∧
      day.length + time.length ≤ 256 ∧ howMuch mktime now (day ++ ' ' :: time) flag = .ok .ok) ∨
    (∃ name count word rest, tokens = ["Sanctions".toList, name, count] ∧
      (sanctionsCount count).isSome ∧ (vectorSearch s.users name).isSome ∧
      scanWord 5 s.stdin = .ok (word, '\n' :: rest))

/-- The command of a turn is such a one. -/
def Turn.Untested (t : Turn) : Prop :=
  ∃ command s, readCommand t.before = .ok (command, s) ∧
    Shell.Untested mktime t.now (strtok command) s

end Session

/-- A `Sanctions` command aimed at a user, and confirmed. -/
def Confirms (user : ℕ) (tokens : List (List Char)) (s : State) : Prop :=
  ∃ name count rest, tokens = ["Sanctions".toList, name, count] ∧
    (sanctionsCount count).isSome ∧ vectorSearch s.users name = some user ∧
    scanWord 5 s.stdin = .ok (['1', '2', '3', '4', '5'], '\n' :: rest)

def Turn.Confirms (user : ℕ) (t : Turn) : Prop :=
  ∃ command s, readCommand t.before = .ok (command, s) ∧ Shell.Confirms user (strtok command) s

/-- The commands that were executed successfully. -/
def executed (turns : List Turn) : ℕ := turns.countP (fun t => t.status = .ok)

/-! ### One command -/

theorem current_update (s : State) (i j : ℕ) (f : User → User) :
    (s.update i f).current j =
      if i = j then (s.users[j]?.map f).map User.sanctionsCurrent else s.current j := by
  unfold State.current State.update
  dsimp only
  rw [List.getElem?_modify]
  split
  case isTrue h => rfl
  case isFalse h => cases s.users[j]? <;> rfl

section Command

variable {mktime : Tm → ℤ} {now : ℤ} {user : ℕ} {v : ℤ} {s s' : State} {status : KErrors}

theorem scanChar_eq_ok {stdin rest : List Char} {c : Char} (h : scanChar stdin = .ok (c, rest)) :
    stdin = c :: rest := by
  cases stdin with
  | nil => cases h
  | cons c' stdin =>
    cases h
    rfl

/-- How `Sanctions` ends. -/
theorem sanctions_cases {name count : List Char}
    (h : sanctions name count s = .ok (status, s')) :
    (¬ ((sanctionsCount count).isSome ∧ (vectorSearch s.users name).isSome ∧
        ∃ word rest, scanWord 5 s.stdin = .ok (word, '\n' :: rest)) ∧
      status ≠ .ok ∧ s'.users = s.users) ∨
    ∃ num man word rest, sanctionsCount count = some num ∧ vectorSearch s.users name = some man ∧
      scanWord 5 s.stdin = .ok (word, '\n' :: rest) ∧ status = .ok ∧
      ((word ≠ ['1', '2', '3', '4', '5'] ∧ s'.users = s.users) ∨
        (word = ['1', '2', '3', '4', '5'] ∧
          s' = ({ s with stdin := rest } : State).update man
            (fun u => { u with sanctions := num, sanctionsCurrent := num + 1 }))) := by
  unfold sanctions at h
  split at h
  case h_1 hnum =>
    obtain ⟨rfl, rfl⟩ := Prod.mk.inj (Except.ok.inj h)
    refine .inl ⟨?_, nofun, rfl⟩
    rintro ⟨hsome, -⟩
    rw [hnum] at hsome
    cases hsome
  case h_2 num hnum =>
    split at h
    case h_1 hman =>
      obtain ⟨rfl, rfl⟩ := Prod.mk.inj (Except.ok.inj h)
      refine .inl ⟨?_, nofun, rfl⟩
      rintro ⟨-, hsome, -⟩
      rw [hman] at hsome
      cases hsome
    case h_2 man hman =>
      obtain ⟨⟨word, stdin⟩, hword, hread⟩ := bind_eq_ok.mp h
      obtain ⟨⟨check, rest⟩, hcheck, hrun⟩ := bind_eq_ok.mp hread
      obtain rfl : stdin = check :: rest := scanChar_eq_ok hcheck
      dsimp only at hrun
      by_cases hline : check = '\n'
      · subst hline
        rw [if_neg (not_not.mpr rfl)] at hrun
        refine .inr ⟨num, man, word, rest, hnum, hman, hword, ?_⟩
        by_cases hconfirm : word = ['1', '2', '3', '4', '5']
        · rw [if_neg (not_not.mpr hconfirm)] at hrun
          obtain ⟨rfl, rfl⟩ := Prod.mk.inj (Except.ok.inj hrun)
          exact ⟨rfl, .inr ⟨hconfirm, rfl⟩⟩
        · rw [if_pos hconfirm] at hrun
          obtain ⟨rfl, rfl⟩ := Prod.mk.inj (Except.ok.inj hrun)
          exact ⟨rfl, .inl ⟨hconfirm, rfl⟩⟩
      · rw [if_pos hline] at hrun
        obtain ⟨stdin, -, hrun⟩ := bind_eq_ok.mp hrun
        obtain ⟨rfl, rfl⟩ := Prod.mk.inj (Except.ok.inj hrun)
        refine .inl ⟨?_, nofun, rfl⟩
        rintro ⟨-, -, word', rest', hread'⟩
        obtain ⟨-, hrest⟩ := Prod.mk.inj (Except.ok.inj (hword.symm.trans hread'))
        exact hline (List.cons.inj hrest).1

theorem current_of_users (h : s'.users = s.users) (user : ℕ) : s'.current user = s.current user := by
  unfold State.current
  rw [h]

theorem not_confirms {tokens : List (List Char)} (h : tokens.length ≠ 3) :
    ¬ Confirms user tokens s := by
  rintro ⟨name, count, rest, rfl, -⟩
  exact h rfl

theorem not_untested {tokens : List (List Char)}
    (h : ∀ name l2 l3 more, tokens = name :: l2 :: l3 :: more →
      name ≠ "Howmuch".toList ∧ name ≠ "Sanctions".toList) : ¬ Untested mktime now tokens s := by
  rintro (⟨day, time, flag, rfl, -⟩ | ⟨name, count, word, rest, rfl, -⟩)
  · exact (h _ _ _ _ rfl).1 rfl
  · exact (h _ _ _ _ rfl).2 rfl

/-- The three things to know of a command that leaves the users as they were. -/
theorem unchanged {tokens : List (List Char)} (hv : s.current user = some v)
    (hok : status = .ok → v ≠ 0) (hno : ¬ Untested mktime now tokens s) :
    (status = .ok → v ≠ 0 ∨ Untested mktime now tokens s) ∧
      (Untested mktime now tokens s → status = .ok) ∧
      (¬ Confirms user tokens s → s.current user = some v) :=
  ⟨fun h => .inl (hok h), fun h => absurd h hno, fun _ => hv⟩

theorem single_cases {l1 : List Char} (hv : s.current user = some v)
    (h : (if l1 = "Logout".toList then pure (KErrors.logout, s)
      else match s.current user with
        | none => (.error .nullPointer : Except Fault (KErrors × State))
        | some current =>
          if current = 0 then pure (KErrors.sanctionsApplied, s)
          else if l1 = "Time".toList then pure (KErrors.ok, s)
          else if l1 = "Date".toList then pure (KErrors.ok, s)
          else pure (KErrors.incInput, s)) = Except.ok (status, s')) :
    s' = s ∧ (status = .ok → v ≠ 0) := by
  rw [hv] at h
  dsimp only at h
  split at h
  · obtain ⟨rfl, rfl⟩ := Prod.mk.inj (Except.ok.inj h)
    exact ⟨rfl, nofun⟩
  · split at h
    · obtain ⟨rfl, rfl⟩ := Prod.mk.inj (Except.ok.inj h)
      exact ⟨rfl, nofun⟩
    case isFalse hne =>
      have hs : s' = s := by
        split at h
        · exact (Prod.mk.inj (Except.ok.inj h)).2.symm
        · split at h
          · exact (Prod.mk.inj (Except.ok.inj h)).2.symm
          · exact (Prod.mk.inj (Except.ok.inj h)).2.symm
      exact ⟨hs, fun _ => hne⟩

theorem howmuch_cases {l2 l3 : List Char} {more : List (List Char)} (hmore : more.length < 2)
    (hv : s.current user = some v)
    (h : (if 256 < l2.length + l3.length then pure (KErrors.incInput, s)
      else match more with
        | l4 :: _ => do
          let status ← howMuch mktime now (l2 ++ ' ' :: l3) l4
          pure (status, s)
        | [] => pure (KErrors.incInput, s)) = Except.ok (status, s')) :
    (status = .ok → v ≠ 0 ∨ Untested mktime now ("Howmuch".toList :: l2 :: l3 :: more) s) ∧
      (Untested mktime now ("Howmuch".toList :: l2 :: l3 :: more) s → status = .ok) ∧
      s'.current user = some v := by
  have hother : ∀ {name count : List Char}, "Howmuch".toList :: l2 :: l3 :: more ≠
      ["Sanctions".toList, name, count] := by
    intro name count he
    exact absurd (List.cons.inj he).1 (by decide)
  split at h
  case isTrue hlong =>
    obtain ⟨rfl, rfl⟩ := Prod.mk.inj (Except.ok.inj h)
    refine ⟨nofun, ?_, hv⟩
    rintro (⟨day, time, flag, he, hshort, -⟩ | ⟨name, count, word, rest, he, -⟩)
    · cases he
      omega
    · exact absurd he hother
  case isFalse hshort =>
    cases more with
    | nil =>
      obtain ⟨rfl, rfl⟩ := Prod.mk.inj (Except.ok.inj h)
      refine ⟨nofun, ?_, hv⟩
      rintro (⟨day, time, flag, he, -⟩ | ⟨name, count, word, rest, he, -⟩)
      · cases he
      · exact absurd he hother
    | cons l4 more =>
      obtain rfl : more = [] := by
        rw [List.length_cons] at hmore
        exact List.length_eq_zero_iff.mp (by omega)
      dsimp only at h
      cases hm : howMuch mktime now (l2 ++ ' ' :: l3) l4 with
      | error e =>
        rw [hm] at h
        cases h
      | ok result =>
        rw [hm] at h
        obtain ⟨rfl, rfl⟩ := Prod.mk.inj (Except.ok.inj h)
        refine ⟨?_, ?_, hv⟩
        · intro hok
          rw [hok] at hm
          exact .inr (.inl ⟨l2, l3, l4, rfl, Nat.not_lt.mp hshort, hm⟩)
        · rintro (⟨day, time, flag, he, -, hday⟩ | ⟨name, count, word, rest, he, -⟩)
          · cases he
            rw [hm] at hday
            exact Except.ok.inj hday
          · exact absurd he hother

theorem sanctions_spec {l2 l3 : List Char} (hv : s.current user = some v)
    (h : sanctions l2 l3 s = .ok (status, s')) :
    (status = .ok → v ≠ 0 ∨ Untested mktime now ["Sanctions".toList, l2, l3] s) ∧
      (Untested mktime now ["Sanctions".toList, l2, l3] s → status = .ok) ∧
      (¬ Confirms user ["Sanctions".toList, l2, l3] s → s'.current user = some v) := by
  have hread : Untested mktime now ["Sanctions".toList, l2, l3] s →
      (sanctionsCount l3).isSome ∧ (vectorSearch s.users l2).isSome ∧
        ∃ word rest, scanWord 5 s.stdin = .ok (word, '\n' :: rest) := by
    rintro (⟨day, time, flag, he, -⟩ | ⟨name, count, word, rest, he, hcount, hname, hword⟩)
    · cases he
    · cases he
      exact ⟨hcount, hname, word, rest, hword⟩
  rcases sanctions_cases h with ⟨hno, hstatus, husers⟩ |
    ⟨num, man, word, rest, hnum, hman, hword, hstatus, hconfirm⟩
  · refine ⟨fun hok => absurd hok hstatus, fun hu => absurd (hread hu) hno, fun _ => ?_⟩
    rw [current_of_users husers, hv]
  · refine ⟨fun _ => .inr (.inr ?_), fun _ => hstatus, fun hown => ?_⟩
    · exact ⟨l2, l3, word, rest, rfl, by rw [hnum]; rfl, by rw [hman]; rfl, hword⟩
    · rcases hconfirm with ⟨-, husers⟩ | ⟨rfl, rfl⟩
      · rw [current_of_users husers, hv]
      · have hne : man ≠ user := by
          rintro rfl
          exact hown ⟨l2, l3, rest, rfl, by rw [hnum]; rfl, hman, hword⟩
        rw [current_update, if_neg hne]
        exact hv

/-- What a command does about a user's limit, before one is taken from it. -/
theorem proccess_cases {command : List Char}
    (h : proccessCommands mktime now command user s = .ok (status, s'))
    (hv : s.current user = some v) :
    (status = .ok → v ≠ 0 ∨ Untested mktime now (strtok command) s) ∧
      (Untested mktime now (strtok command) s → status = .ok) ∧
      (¬ Confirms user (strtok command) s → s'.current user = some v) := by
  unfold proccessCommands at h
  generalize strtok command = tokens at h ⊢
  dsimp only at h
  by_cases hlen : 5 ≤ tokens.length
  · rw [if_pos hlen] at h
    obtain ⟨rfl, rfl⟩ := Prod.mk.inj (Except.ok.inj h)
    refine unchanged hv nofun ?_
    rintro (⟨day, time, flag, rfl, -⟩ | ⟨name, count, word, rest, rfl, -⟩)
    · exact absurd hlen (by simp)
    · exact absurd hlen (by simp)
  · rw [if_neg hlen] at h
    cases tokens with
    | nil => cases h
    | cons l1 tokens =>
      cases tokens with
      | nil =>
        obtain ⟨rfl, hok⟩ := single_cases hv h
        exact unchanged hv hok (not_untested nofun)
      | cons l2 tokens =>
        cases tokens with
        | nil =>
          obtain ⟨rfl, rfl⟩ := Prod.mk.inj (Except.ok.inj h)
          exact unchanged hv nofun (not_untested nofun)
        | cons l3 more =>
          dsimp only at h
          split at h
          case isTrue hname =>
            obtain ⟨hok, hback, hcurrent⟩ := howmuch_cases
              (by simp only [List.length_cons] at hlen; omega) hv h
            rw [hname]
            exact ⟨hok, hback, fun _ => hcurrent⟩
          case isFalse hname =>
            split at h
            case isTrue hname' =>
              split at h
              case isTrue hmore =>
                rw [hname', hmore]
                exact sanctions_spec hv h
              case isFalse hmore =>
                obtain ⟨rfl, rfl⟩ := Prod.mk.inj (Except.ok.inj h)
                refine unchanged hv nofun ?_
                rintro (⟨day, time, flag, he, -⟩ | ⟨name, count, word, rest, he, -⟩)
                · exact hname (List.cons.inj he).1
                · cases he
                  exact hmore rfl
            case isFalse hname' =>
              obtain ⟨rfl, rfl⟩ := Prod.mk.inj (Except.ok.inj h)
              refine unchanged hv nofun (not_untested ?_)
              intro name l2' l3' more' he
              rw [← (List.cons.inj he).1]
              exact ⟨hname, hname'⟩

theorem readCommand_users {command : List Char} (h : readCommand s = .ok (command, s')) :
    s'.users = s.users := by
  obtain ⟨line, -, h⟩ := bind_eq_ok.mp h
  obtain ⟨⟨check, rest⟩, -, h⟩ := bind_eq_ok.mp h
  dsimp only at h
  split at h
  · obtain ⟨stdin, -, h⟩ := bind_eq_ok.mp h
    obtain ⟨-, rfl⟩ := Prod.mk.inj (Except.ok.inj h)
    rfl
  · obtain ⟨-, rfl⟩ := Prod.mk.inj (Except.ok.inj h)
    rfl

/-- What a turn does: one is taken from the limit for a command that was executed. -/
theorem turn_cases (h : turn mktime now user s = .ok (status, s')) (hv : s.current user = some v) :
    (status = .ok → v ≠ 0 ∨ Turn.Untested mktime ⟨now, s, status⟩) ∧
      (Turn.Untested mktime ⟨now, s, status⟩ → status = .ok) ∧
      (¬ Turn.Confirms user ⟨now, s, status⟩ →
        s'.current user = some (if status = .ok then v - 1 else v)) := by
  obtain ⟨⟨command, s₁⟩, hread, h⟩ := bind_eq_ok.mp h
  obtain ⟨⟨status₁, s₂⟩, hcommand, h⟩ := bind_eq_ok.mp h
  have hv₁ : s₁.current user = some v := by
    rw [current_of_users (readCommand_users hread), hv]
  obtain ⟨hok, hback, hcurrent⟩ := proccess_cases hcommand hv₁
  have hstatus : status = status₁ ∧ s' = if status₁ = .ok then
      s₂.update user (fun u => { u with sanctionsCurrent := u.sanctionsCurrent - 1 }) else s₂ := by
    dsimp only at h
    split at h
    case isTrue hs =>
      obtain ⟨rfl, rfl⟩ := Prod.mk.inj (Except.ok.inj h)
      rw [if_pos hs]
      exact ⟨rfl, rfl⟩
    case isFalse hs =>
      obtain ⟨rfl, rfl⟩ := Prod.mk.inj (Except.ok.inj h)
      rw [if_neg hs]
      exact ⟨rfl, rfl⟩
  obtain ⟨rfl, rfl⟩ := hstatus
  refine ⟨fun hs => (hok hs).imp_right (fun hu => ⟨command, s₁, hread, hu⟩), ?_, ?_⟩
  · rintro ⟨command', s₁', hread', hu⟩
    obtain ⟨rfl, rfl⟩ := Prod.mk.inj (Except.ok.inj (hread.symm.trans hread'))
    exact hback hu
  · intro hown
    have h₂ := hcurrent (fun hc => hown ⟨command, s₁, hread, hc⟩)
    split
    case isTrue hs =>
      rw [current_update, if_pos rfl]
      unfold State.current at h₂
      cases huser : s₂.users[user]? with
      | none =>
        rw [huser] at h₂
        cases h₂
      | some u =>
        rw [huser] at h₂
        have hu : u.sanctionsCurrent = v := Option.some.inj h₂
        exact congrArg (fun c => some (c - 1)) hu
    case isFalse hs => exact h₂

end Command

/-! ### The whole session -/

theorem executed_append (turns : List Turn) (t : Turn) :
    executed (turns ++ [t]) = executed turns + if t.status = .ok then 1 else 0 := by
  unfold executed
  rw [List.countP_append]
  by_cases ht : t.status = .ok <;> simp [ht]

section Limit

variable {mktime : Tm → ℤ} {user : ℕ} {start s : State} {turns : List Turn} {n : ℤ}

/-- Without a confirmed command against the user the limit is what is left of it. -/
theorem Session.current (h : Session mktime user start turns s) (hn : start.current user = some n)
    (hown : ∀ t ∈ turns, ¬ t.Confirms user) : s.current user = some (n - executed turns) := by
  induction h with
  | start => simpa [executed] using hn
  | @turn turns s s' status now _ hturn _ ih =>
    have hs := ih (fun t ht => hown t (List.mem_append_left _ ht))
    obtain ⟨-, -, hcurrent⟩ := turn_cases hturn hs
    rw [hcurrent (hown _ (List.mem_append_right _ List.mem_cons_self)), executed_append]
    dsimp only
    split
    · congr 1
      push_cast
      ring
    · simp

/-- At most as many commands are executed as the limit allows just when no `Howmuch` or
`Sanctions` command that passes its own checks is given while the limit is used up. -/
theorem Session.executed_le_iff (h : Session mktime user start turns s)
    (hn : start.current user = some n) (h0 : 0 ≤ n) (hown : ∀ t ∈ turns, ¬ t.Confirms user) :
    (executed turns : ℤ) ≤ n ↔
      ∀ t ∈ turns, t.before.current user = some 0 → ¬ t.Untested mktime := by
  induction h with
  | start => simpa [executed] using h0
  | @turn turns s s' status now hsession hturn _ ih =>
    have hprev : ∀ t ∈ turns, ¬ t.Confirms user := fun t ht => hown t (List.mem_append_left _ ht)
    have hs := hsession.current hn hprev
    have ih := ih hprev
    obtain ⟨hok, hback, -⟩ := turn_cases hturn hs
    rw [executed_append]
    simp only [List.mem_append, List.mem_singleton]
    constructor
    · intro hle t ht hzero hu
      rcases ht with ht | rfl
      · refine ih.mp ?_ t ht hzero hu
        push_cast at hle
        split at hle <;> omega
      · have hstatus := hback hu
        rw [if_pos hstatus] at hle
        have hleft : n - executed turns = 0 := Option.some.inj (hs.symm.trans hzero)
        push_cast at hle
        omega
    · intro hall
      have hle := ih.mpr (fun t ht => hall t (.inl ht))
      split
      case isTrue hstatus =>
        have hne : n - executed turns ≠ 0 := by
          rcases hok hstatus with hne | hu
          · exact hne
          · intro hzero
            rw [hzero] at hs
            exact hall _ (.inr rfl) hs hu
        push_cast
        omega
      case isFalse hstatus =>
        push_cast
        omega

end Limit

theorem login_current {s s' : State} {user : ℕ}
    (h : login s = .ok (.loginSuccess, some user, s')) :
    s'.current user = s.users[user]?.map User.sanctions := by
  obtain ⟨⟨name, stdin⟩, -, h⟩ := bind_eq_ok.mp h
  obtain ⟨⟨check, stdin⟩, -, h⟩ := bind_eq_ok.mp h
  dsimp only at h
  split at h
  · cases h
  · split at h
    · cases h
    · obtain ⟨⟨pincode, stdin⟩, -, h⟩ := bind_eq_ok.mp h
      dsimp only at h
      split at h
      · cases h
      · split at h
        · cases h
        · obtain ⟨⟨check, stdin⟩, -, h⟩ := bind_eq_ok.mp h
          dsimp only at h
          split at h
          · cases h
          · split at h
            · obtain ⟨-, hrest⟩ := Prod.mk.inj (Except.ok.inj h)
              obtain ⟨huser, rfl⟩ := Prod.mk.inj hrest
              obtain rfl := Option.some.inj huser
              rw [current_update, if_pos rfl]
              dsimp only
              rw [Option.map_map]
              rfl
            · cases h

/-- Between a login and the logout, without a confirmed command against the user: the number of
commands executed stays within the limit just when no `Howmuch` or `Sanctions` command that
passes its own checks is given while the limit is used up. -/
theorem sanctions_limit_iff (mktime : Tm → ℤ) (before start s : State) (user : ℕ) (n : ℤ)
    (turns : List Turn) (hlogin : login before = .ok (.loginSuccess, some user, start))
    (hn : before.users[user]?.map User.sanctions = some n) (h0 : 0 ≤ n)
    (hsession : Session mktime user start turns s) (hown : ∀ t ∈ turns, ¬ t.Confirms user) :
    (executed turns : ℤ) ≤ n ↔
      ∀ t ∈ turns, t.before.current user = some 0 → ¬ t.Untested mktime :=
  hsession.executed_le_iff ((login_current hlogin).trans hn) h0 hown

/-! ### A session -/

/-- One user without any commands left, who logs in and asks for a time. -/
def sanctioned : State :=
  ⟨[⟨"bob".toList, 1, 0, -1⟩], "bob\n1\nHowmuch 01:01:2000 00:00:00 -s\n".toList⟩

def sanctionedIn : State :=
  ⟨[⟨"bob".toList, 1, 0, 0⟩], "Howmuch 01:01:2000 00:00:00 -s\n".toList⟩

/-- Midnight of 1 January 2000 in UTC. -/
def january2000 : Tm → ℤ := fun _ => 946684800

theorem sanctioned_login : login sanctioned = .ok (.loginSuccess, some 0, sanctionedIn) := by
  decide +kernel

theorem sanctioned_turn : turn january2000 1700000000 0 sanctionedIn =
    .ok (.ok, ⟨[⟨"bob".toList, 1, 0, -1⟩], []⟩) := by
  decide +kernel

/-- The turn of that session. -/
def howmuchTurn : Turn := ⟨1700000000, sanctionedIn, .ok⟩

theorem sanctioned_session :
    Session january2000 0 sanctionedIn [howmuchTurn] ⟨[⟨"bob".toList, 1, 0, -1⟩], []⟩ :=
  .turn 1700000000 .start sanctioned_turn nofun

theorem howmuchTurn_confirms : ∀ t ∈ [howmuchTurn], ¬ t.Confirms 0 := by
  intro t ht
  obtain rfl := List.mem_singleton.mp ht
  rintro ⟨command, s, hread, hc⟩
  have hline : readCommand sanctionedIn =
      .ok ("Howmuch 01:01:2000 00:00:00 -s".toList, ⟨[⟨"bob".toList, 1, 0, 0⟩], []⟩) := by
    decide +kernel
  obtain ⟨rfl, -⟩ := Prod.mk.inj (Except.ok.inj (hline.symm.trans hread))
  exact not_confirms (by decide +kernel) hc

theorem sanctions_limit_sanctioned : (executed [howmuchTurn] : ℤ) ≤ 0 ↔
    ∀ t ∈ [howmuchTurn], t.before.current 0 = some 0 → ¬ t.Untested january2000 :=
  sanctions_limit_iff january2000 sanctioned sanctionedIn _ 0 0 [howmuchTurn] sanctioned_login rfl
    le_rfl sanctioned_session howmuchTurn_confirms

/-- With no command left one is executed. -/
theorem sanctions_limit_exceeded :
    login sanctioned = .ok (.loginSuccess, some 0, sanctionedIn) ∧
      sanctioned.users[0]?.map User.sanctions = some 0 ∧
      Session january2000 0 sanctionedIn [howmuchTurn] ⟨[⟨"bob".toList, 1, 0, -1⟩], []⟩ ∧
      (∀ t ∈ [howmuchTurn], ¬ t.Confirms 0) ∧ ¬ (executed [howmuchTurn] : ℤ) ≤ 0 :=
  ⟨sanctioned_login, rfl, sanctioned_session, howmuchTurn_confirms, by decide⟩

end MaiFaSp.Shell
