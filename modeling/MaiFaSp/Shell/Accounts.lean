import MaiFaSp.Shell.Limit
import MaiFaSp.Shell.ValidateTime

/-!
# The accounts of the shell (`task1/main.c:73-111, 362-491`, `task1/vector.c`)

`main` loads the users from a file, goes through the login page and the commands of the users that log
in, and writes the users back. A run that ends otherwise leaves the file as it was.
-/

namespace MaiFaSp.Shell

open DecimalText Scanning

inductive Page where
  | logPage
  | interaction (currentUser : ℕ)
  /-- `GoToLogPage` has returned to `main`. -/
  | left
  deriving Repr, DecidableEq

structure Program where
  page : Page
  bufferSize : ℕ
  shell : State
  deriving Repr, DecidableEq

section Main

/- Whether `realloc` grants a buffer for that many users. -/
variable (grants : ℕ → Bool)

/-- `vector_push`: the size of the buffer and the users; `none` where the buffer does not grow. -/
def vectorPush (bufferSize : ℕ) (users : List User) (d : User) : Option (ℕ × List User) :=
  if users.length = bufferSize then
    if grants (bufferSize * 2) then some (bufferSize * 2, users ++ [d]) else none
  else some (bufferSize, users ++ [d])

def registrate (bufferSize : ℕ) (s : State) : Except Fault (KErrors × ℕ × State) := do
  let (name, stdin) ← scanWord 6 s.stdin
  let (check, stdin) ← scanChar stdin
  if check ≠ '\n' then pure (.incInput, bufferSize, { s with stdin := stdin })
  else if (vectorSearch s.users name).isSome then pure (.ok, bufferSize, { s with stdin := stdin })
  else
    let (pincode, stdin) ← scanInt stdin
    match pincode with
    | none => pure (.incInput, bufferSize, { s with stdin := stdin })
    | some pincode =>
      if pincode < 0 ∨ 100000 < pincode then pure (.incInput, bufferSize, { s with stdin := stdin })
      else
        let (check, stdin) ← scanChar stdin
        if check ≠ '\n' then pure (.incInput, bufferSize, { s with stdin := stdin })
        else match vectorPush grants bufferSize s.users ⟨name, pincode, -1, 0⟩ with
          | none => pure (.memAllocErr, bufferSize, { s with stdin := stdin })
          | some (bufferSize, users) => pure (.ok, bufferSize, ⟨users, stdin⟩)

/-- One turn of the loop of `GoToLogPage`. -/
def logTurn (bufferSize : ℕ) (s : State) : Except Fault Program :=
  match s.stdin with
  | op :: check :: stdin =>
    if check ≠ '\n' then do
      let stdin ← flush stdin
      pure ⟨.logPage, bufferSize, { s with stdin := stdin }⟩
    else if op = 'r' then do
      let (status, bufferSize, s) ← registrate grants bufferSize { s with stdin := stdin }
      if status = .incInput then do
        let stdin ← flush s.stdin
        pure ⟨.logPage, bufferSize, { s with stdin := stdin }⟩
      else pure ⟨if status = .ok then .logPage else .left, bufferSize, s⟩
    else if op = 'l' then do
      let (status, user, s) ← login { s with stdin := stdin }
      if status = .incInput then do
        let stdin ← flush s.stdin
        pure ⟨.logPage, bufferSize, { s with stdin := stdin }⟩
      else if status = .loginFailed then pure ⟨.logPage, bufferSize, s⟩
      else match user with
        | some user => pure ⟨.interaction user, bufferSize, s⟩
        | none => throw .uninitialised
    else pure ⟨if op = 'e' then .left else .logPage, bufferSize, { s with stdin := stdin }⟩
  | _ => throw .endOfInput

/-- A turn of the loop that the program is in. A logout calls `GoToLogPage` again, and where that
returns, all the calls before it do. -/
def step (mktime : Tm → ℤ) (now : ℤ) (p : Program) : Except Fault Program :=
  match p.page with
  | .logPage => logTurn grants p.bufferSize p.shell
  | .interaction user => do
    let (status, shell) ← turn mktime now user p.shell
    pure ⟨if status = .logout then .logPage else .interaction user, p.bufferSize, shell⟩
  | .left => pure p

/-! ### The file of users -/

/-- The loop of `load_users`, which reads a character at least in every turn; `none` where
`vector_push` fails. -/
def loadLoop : ℕ → ℕ → List User → List Char → Except Fault (Option (ℕ × List User))
  | 0, bufferSize, users, _ => pure (some (bufferSize, users))
  | n + 1, bufferSize, users, file =>
    let file := file.dropWhile isspace
    let login := file.takeWhile fun c => !isspace c
    if login = [] then pure (some (bufferSize, users))
    else if 6 < login.length then throw .bufferOverflow
    else do
      let (password, file) ← scanInt (file.dropWhile fun c => !isspace c)
      match password with
      | none => pure (some (bufferSize, users))
      | some password =>
        match vectorPush grants bufferSize users ⟨login, password, -1, 0⟩ with
        | none => pure none
        | some (bufferSize, users) => loadLoop n bufferSize users file

def loadUsers (file : List Char) : Except Fault (Option (ℕ × List User)) :=
  loadLoop grants file.length 20 [] file

end Main

/-- `printf("%d", …)`. -/
def printInt (n : ℤ) : List Char :=
  if n < 0 then '-' :: Nat.toDigits 10 n.natAbs else Nat.toDigits 10 n.natAbs

def saveUsers (users : List User) : List Char :=
  users.flatMap fun cur => cur.login ++ ' ' :: (printInt cur.pincode ++ ['\n'])

/-- What the program does from one of its states on, at any time. -/
def Steps (grants : ℕ → Bool) (mktime : Tm → ℤ) : Program → Program → Prop :=
  Relation.ReflTransGen fun p p' => ∃ now, step grants mktime now p = .ok p'

/-- What a run of `main` leaves in the file of users. -/
inductive MainRun (mktime : Tm → ℤ) (file : List Char) : List Char → Prop
  | saved {grants : ℕ → Bool} {bufferSize : ℕ} {users : List User} {stdin : List Char} {p : Program}
      (hload : loadUsers grants file = .ok (some (bufferSize, users)))
      (hrun : Steps grants mktime ⟨.logPage, bufferSize, ⟨users, stdin⟩⟩ p) (hleft : p.page = .left) :
      MainRun mktime file (saveUsers p.shell.users)
  /-- The users were not loaded, the file was not opened, or the run did not come to its end. -/
  | unsaved : MainRun mktime file file

/-! ### Accounts -/

/-- What the file keeps of a user. -/
def account (u : User) : List Char × ℤ := (u.login, u.pincode)

def accounts (users : List User) : List (List Char × ℤ) := users.map account

/-- A user as it is loaded: the sanctions are not kept. -/
def unsanctioned (a : List Char × ℤ) : User := ⟨a.1, a.2, -1, 0⟩

/-- An account that is read back from the file as it was written. -/
structure Storable (a : List Char × ℤ) : Prop where
  named : a.1 ≠ []
  short : a.1.length ≤ 6
  solid : ∀ c ∈ a.1, isspace c = false
  int : -INT_MAX - 1 ≤ a.2 ∧ a.2 ≤ INT_MAX

/-- An account that `Registrate` makes where there are `old` ones. -/
structure Registered (old : List (List Char × ℤ)) (a : List Char × ℤ) : Prop where
  storable : Storable a
  pincode : 0 ≤ a.2 ∧ a.2 ≤ 100000
  fresh : ∀ b ∈ old, b.1 ≠ a.1

/-- Accounts that were registered one after another. -/
inductive Grown (old : List (List Char × ℤ)) : List (List Char × ℤ) → Prop
  | refl : Grown old old
  | register {new : List (List Char × ℤ)} {a : List Char × ℤ} (h : Grown old new)
      (ha : Registered new a) : Grown old (new ++ [a])

theorem Grown.trans {as bs cs : List (List Char × ℤ)} (h : Grown as bs) (h' : Grown bs cs) :
    Grown as cs := by
  induction h' with
  | refl => exact h
  | register _ ha ih => exact .register ih ha

/-- No account is lost or changed, and no login is given twice. -/
theorem Grown.spec {old new : List (List Char × ℤ)} (h : Grown old new) :
    (∃ more, new = old ++ more ∧ ∀ a ∈ more, 0 ≤ a.2 ∧ a.2 ≤ 100000) ∧
      ((∀ a ∈ old, Storable a) → ∀ a ∈ new, Storable a) ∧
      ((old.map Prod.fst).Nodup → (new.map Prod.fst).Nodup) := by
  induction h with
  | refl => exact ⟨⟨[], by simp, by simp⟩, id, id⟩
  | @register new a h ha ih =>
    obtain ⟨⟨more, rfl, hmore⟩, hstorable, hnodup⟩ := ih
    refine ⟨⟨more ++ [a], by simp, fun b hb => ?_⟩, fun hold b hb => ?_, fun hold => ?_⟩
    · cases List.mem_append.mp hb with
      | inl hb => exact hmore b hb
      | inr hb =>
        rw [List.mem_singleton.mp hb]
        exact ha.pincode
    · cases List.mem_append.mp hb with
      | inl hb => exact hstorable hold b hb
      | inr hb =>
        rw [List.mem_singleton.mp hb]
        exact ha.storable
    · rw [List.map_append, List.nodup_append]
      refine ⟨hnodup hold, by simp, ?_⟩
      rintro x hx y hy rfl
      obtain ⟨b, hb, rfl⟩ := List.mem_map.mp hx
      exact ha.fresh b hb (by simpa using hy)

/-! ### What a step does to the accounts -/

section Steps

variable {grants : ℕ → Bool} {mktime : Tm → ℤ} {now : ℤ} {user bufferSize bufferSize' : ℕ}
  {s s' : State} {p p' : Program} {status : KErrors} {command word stdin rest : List Char}

theorem accounts_update (s : State) (i : ℕ) {f : User → User} (hf : ∀ u, account (f u) = account u) :
    accounts (s.update i f).users = accounts s.users := by
  unfold accounts State.update
  apply List.ext_getElem?
  intro j
  rw [List.getElem?_map, List.getElem?_map, List.getElem?_modify]
  cases s.users[j]? with
  | none => rfl
  | some u =>
    split
    · exact congrArg some (hf u)
    · rfl

theorem sanctions_accounts {name count : List Char} (h : sanctions name count s = .ok (status, s')) :
    accounts s'.users = accounts s.users := by
  rcases sanctions_cases h with ⟨-, -, hs⟩ | ⟨num, man, word, rest, -, -, -, -, ⟨-, hs⟩ | ⟨-, rfl⟩⟩
  · rw [hs]
  · rw [hs]
  · exact accounts_update _ _ fun _ => rfl

/-- Of the commands only `Sanctions` changes the users. -/
theorem proccess_accounts (h : proccessCommands mktime now command user s = .ok (status, s')) :
    accounts s'.users = accounts s.users := by
  have hpure {k : KErrors} (h : (pure (k, s) : Except Fault _) = .ok (status, s')) :
      accounts s'.users = accounts s.users := by
    cases h
    rfl
  unfold proccessCommands at h
  dsimp only at h
  split at h
  · exact hpure h
  · split at h
    case h_1 => exact hpure h
    case h_2 =>
      split at h
      · exact hpure h
      · split at h
        · cases h
        · split_ifs at h <;> exact hpure h
    case h_3 =>
      split at h
      · split at h
        · exact hpure h
        · split at h
          · obtain ⟨k, -, hk⟩ := bind_eq_ok.mp h
            exact hpure hk
          · exact hpure h
      · split at h
        · split at h
          · exact sanctions_accounts h
          · exact hpure h
        · exact hpure h
    case h_4 => cases h

theorem turn_accounts (h : turn mktime now user s = .ok (status, s')) :
    accounts s'.users = accounts s.users := by
  obtain ⟨⟨command, s₁⟩, hread, h⟩ := bind_eq_ok.mp h
  obtain ⟨⟨status₁, s₂⟩, hcommand, h⟩ := bind_eq_ok.mp h
  have hs := (proccess_accounts hcommand).trans (congrArg accounts (readCommand_users hread))
  dsimp only at h
  split at h
  · cases h
    refine Eq.trans (accounts_update _ _ fun _ => ?_) hs
    rfl
  · cases h
    exact hs

theorem login_accounts {u : Option ℕ} (h : login s = .ok (status, u, s')) :
    accounts s'.users = accounts s.users := by
  obtain ⟨⟨name, stdin⟩, -, h⟩ := bind_eq_ok.mp h
  obtain ⟨⟨check, stdin⟩, -, h⟩ := bind_eq_ok.mp h
  dsimp only at h
  split at h
  · cases h
    rfl
  · split at h
    · cases h
      rfl
    · obtain ⟨⟨pincode, stdin⟩, -, h⟩ := bind_eq_ok.mp h
      dsimp only at h
      split at h
      · cases h
        rfl
      · split at h
        · cases h
          rfl
        · obtain ⟨⟨check, stdin⟩, -, h⟩ := bind_eq_ok.mp h
          dsimp only at h
          split_ifs at h
          · cases h
            rfl
          · cases h
            exact accounts_update _ _ fun _ => rfl
          · cases h
            rfl

/-- A word as `scanf` reads it. -/
theorem scanWord_spec {width : ℕ} (h : scanWord (width + 1) stdin = .ok (word, rest)) :
    word ≠ [] ∧ word.length ≤ width + 1 ∧ ∀ c ∈ word, isspace c = false := by
  unfold scanWord at h
  split at h
  case h_1 => cases h
  case h_2 c cs hdrop =>
    cases h
    have hc : isspace c = false := by
      have hhead := List.head?_dropWhile_not isspace stdin
      rw [hdrop] at hhead
      simpa using hhead
    refine ⟨by simp [hc], ?_, fun d hd => ?_⟩
    · exact (List.takeWhile_prefix _).length_le.trans (List.length_take_le _ _)
    · simpa using List.mem_takeWhile_imp hd

theorem scanInt_range {n : ℤ} (h : scanInt stdin = .ok (some n, rest)) :
    -INT_MAX - 1 ≤ n ∧ n ≤ INT_MAX := by
  unfold scanInt at h
  split at h
  · cases h
  · split at h
    · cases h
    · cases h
      omega

theorem vectorSearch_fresh {users : List User} {name : List Char}
    (h : ¬ (vectorSearch users name).isSome) : ∀ b ∈ accounts users, b.1 ≠ name := by
  rintro b hb rfl
  obtain ⟨u, hu, rfl⟩ := List.mem_map.mp hb
  apply h
  rw [vectorSearch, List.findIdx?_isSome, List.any_eq_true]
  exact ⟨u, hu, by simp [account]⟩

theorem vectorPush_users {users users' : List User} {d : User}
    (h : vectorPush grants bufferSize users d = some (bufferSize', users')) : users' = users ++ [d] := by
  unfold vectorPush at h
  split_ifs at h <;> cases h <;> rfl

theorem registrate_grown (h : registrate grants bufferSize s = .ok (status, bufferSize', s')) :
    Grown (accounts s.users) (accounts s'.users) := by
  obtain ⟨⟨name, stdin⟩, hname, h⟩ := bind_eq_ok.mp h
  obtain ⟨⟨check, stdin⟩, -, h⟩ := bind_eq_ok.mp h
  dsimp only at h
  split at h
  · cases h
    exact .refl
  · split at h
    · cases h
      exact .refl
    case isFalse hsearch =>
      obtain ⟨⟨pincode, stdin⟩, hpincode, h⟩ := bind_eq_ok.mp h
      dsimp only at h
      split at h
      · cases h
        exact .refl
      · split at h
        · cases h
          exact .refl
        case isFalse hrange =>
          obtain ⟨⟨check, stdin⟩, -, h⟩ := bind_eq_ok.mp h
          dsimp only at h
          split at h
          · cases h
            exact .refl
          · split at h
            · cases h
              exact .refl
            case h_2 hpush =>
              cases h
              obtain ⟨hnamed, hshort, hsolid⟩ := scanWord_spec hname
              have hint := scanInt_range hpincode
              have hfresh := vectorSearch_fresh hsearch
              rw [vectorPush_users hpush]
              unfold accounts at hfresh ⊢
              rw [List.map_append]
              exact .register .refl ⟨⟨hnamed, hshort, hsolid, hint⟩, by dsimp [account]; omega, hfresh⟩

theorem logTurn_grown (h : logTurn grants bufferSize s = .ok p) :
    Grown (accounts s.users) (accounts p.shell.users) := by
  unfold logTurn at h
  split at h
  case h_2 => cases h
  case h_1 op check stdin hstdin =>
    split at h
    · obtain ⟨stdin, -, h⟩ := bind_eq_ok.mp h
      cases h
      exact .refl
    · split at h
      · obtain ⟨⟨status, bufferSize', s₁⟩, hreg, h⟩ := bind_eq_ok.mp h
        have hgrown := registrate_grown hreg
        dsimp only at h
        split at h
        · obtain ⟨stdin, -, h⟩ := bind_eq_ok.mp h
          cases h
          exact hgrown
        · cases h
          exact hgrown
      · split at h
        · obtain ⟨⟨status, u, s₁⟩, hlogin, h⟩ := bind_eq_ok.mp h
          have hsame := login_accounts hlogin
          have hgrown : Grown (accounts s.users) (accounts s₁.users) := by
            rw [hsame]
            exact .refl
          dsimp only at h
          split at h
          · obtain ⟨stdin, -, h⟩ := bind_eq_ok.mp h
            cases h
            exact hgrown
          · split at h
            · cases h
              exact hgrown
            · split at h
              · cases h
                exact hgrown
              · cases h
        · cases h
          exact .refl

theorem step_grown (h : step grants mktime now p = .ok p') :
    Grown (accounts p.shell.users) (accounts p'.shell.users) := by
  unfold step at h
  split at h
  · exact logTurn_grown h
  · obtain ⟨⟨status, shell⟩, hturn, h⟩ := bind_eq_ok.mp h
    cases h
    rw [turn_accounts hturn]
    exact .refl
  · cases h
    exact .refl

theorem Steps.grown (h : Steps grants mktime p p') :
    Grown (accounts p.shell.users) (accounts p'.shell.users) := by
  induction h with
  | refl => exact .refl
  | tail _ hs ih =>
    obtain ⟨now, hs⟩ := hs
    exact ih.trans (step_grown hs)

end Steps

/-! ### Numbers that are written and read -/

theorem strtol_printInt (n : ℤ) {rest : List Char} (hs : Stops Char.isDigit rest) :
    strtol (printInt n ++ rest) = some (n, rest) := by
  have hdigits := digits_toDigits n.natAbs
  have hne : Nat.toDigits 10 n.natAbs ≠ [] := Nat.toDigits_ne_nil
  have hvalue := valueOf_toDigits n.natAbs
  unfold printInt
  by_cases hn : n < 0
  · have hneg : -|n| = n := by rw [abs_of_neg hn, neg_neg]
    have htake := takeWhile_append hdigits hs
    have hdrop := dropWhile_append hdigits hs
    rw [if_pos hn]
    unfold strtol
    simp [isspace, htake, hdrop, hne, hvalue, hneg]
  · have habs : (n.natAbs : ℤ) = n := by omega
    rw [if_neg hn, strtol_digits ⟨hdigits, rfl⟩ (by simp) hs, hvalue, habs]

theorem strtol_blank (cs : List Char) : strtol (' ' :: cs) = strtol cs := by
  unfold strtol
  rw [List.dropWhile_cons_of_pos (by decide)]

theorem scanInt_printInt {n : ℤ} (h : -INT_MAX - 1 ≤ n ∧ n ≤ INT_MAX) {rest : List Char}
    (hs : Stops Char.isDigit rest) : scanInt (' ' :: (printInt n ++ rest)) = .ok (some n, rest) := by
  unfold scanInt
  rw [strtol_blank, strtol_printInt n hs]
  dsimp only
  rw [if_neg (by omega)]
  rfl

/-! ### Loading and saving -/

section File

variable {grants : ℕ → Bool} {n bufferSize bufferSize' : ℕ} {users users' : List User}
  {file : List Char}

theorem vectorPush_granted {d : User} (h : vectorPush grants bufferSize users d = some (bufferSize', users')) :
    vectorPush (fun _ => true) bufferSize users d = some (bufferSize', users') := by
  unfold vectorPush at h ⊢
  split
  case isTrue hfull =>
    rw [if_pos hfull] at h
    split at h
    · exact h
    · cases h
  case isFalse hfull => rwa [if_neg hfull] at h

theorem exists_vectorPush (bufferSize : ℕ) (users : List User) (d : User) :
    ∃ bufferSize', vectorPush (fun _ => true) bufferSize users d = some (bufferSize', users ++ [d]) := by
  unfold vectorPush
  split
  · exact ⟨_, rfl⟩
  · exact ⟨_, rfl⟩

/-- What is loaded can be stored, and is loaded wherever the buffer can grow. -/
theorem loadLoop_spec (h : loadLoop grants n bufferSize users file = .ok (some (bufferSize', users'))) :
    (∃ more : List (List Char × ℤ), users' = users ++ more.map unsanctioned ∧ ∀ a ∈ more, Storable a) ∧
      loadLoop (fun _ => true) n bufferSize users file = .ok (some (bufferSize', users')) := by
  induction n generalizing bufferSize users file with
  | zero =>
    cases h
    exact ⟨⟨[], by simp, by simp⟩, rfl⟩
  | succ n ih =>
    unfold loadLoop at h ⊢
    dsimp only at h ⊢
    split at h
    case isTrue hnil =>
      rw [if_pos hnil]
      cases h
      exact ⟨⟨[], by simp, by simp⟩, rfl⟩
    case isFalse hnil =>
      split at h
      · cases h
      case isFalse hshort =>
        rw [if_neg hnil, if_neg hshort]
        obtain ⟨⟨password, rest⟩, hpassword, h⟩ := bind_eq_ok.mp h
        rw [hpassword, ok_bind]
        dsimp only at h ⊢
        split at h
        · cases h
          exact ⟨⟨[], by simp, by simp⟩, rfl⟩
        · split at h
          · cases h
          case h_2 hpush =>
            rw [vectorPush_granted hpush]
            obtain ⟨⟨more, hmore, hstorable⟩, hload⟩ := ih h
            rw [vectorPush_users hpush] at hmore
            refine ⟨⟨(_, _) :: more, by rw [hmore, List.append_assoc]; rfl, ?_⟩, hload⟩
            rw [List.forall_mem_cons]
            refine ⟨⟨hnil, Nat.not_lt.mp hshort, fun c hc => ?_, scanInt_range hpassword⟩, hstorable⟩
            simpa using List.mem_takeWhile_imp hc

theorem loadUsers_spec (h : loadUsers grants file = .ok (some (bufferSize, users))) :
    users = (accounts users).map unsanctioned ∧ (∀ a ∈ accounts users, Storable a) ∧
      loadUsers (fun _ => true) file = .ok (some (bufferSize, users)) := by
  obtain ⟨⟨more, hmore, hstorable⟩, hload⟩ := loadLoop_spec h
  rw [List.nil_append] at hmore
  have haccounts : accounts users = more := by
    rw [hmore, accounts, List.map_map]
    exact List.map_id more
  rw [haccounts]
  exact ⟨hmore, hstorable, hload⟩

/-- One line of the file. -/
def line (a : List Char × ℤ) : List Char := a.1 ++ ' ' :: (printInt a.2 ++ ['\n'])

theorem saveUsers_eq (users : List User) : saveUsers users = (accounts users).flatMap line := by
  unfold saveUsers accounts
  rw [List.flatMap_map]
  rfl

/-- The newline of a line is left to the next turn. -/
theorem loadLoop_newline (n bufferSize : ℕ) (users : List User) (file : List Char) :
    loadLoop grants n bufferSize users ('\n' :: file) = loadLoop grants n bufferSize users file := by
  cases n with
  | zero => rfl
  | succ n =>
    unfold loadLoop
    rw [List.dropWhile_cons_of_pos (by decide)]

theorem loadLoop_line {a : List Char × ℤ} (ha : Storable a) :
    loadLoop grants (n + 1) bufferSize users (line a ++ file) =
      match vectorPush grants bufferSize users (unsanctioned a) with
      | none => .ok none
      | some (bufferSize, users) => loadLoop grants n bufferSize users ('\n' :: file) := by
  have hsolid : ∀ c ∈ a.1, (!isspace c) = true := fun c hc => by simp [ha.solid c hc]
  have htext : line a ++ file = a.1 ++ ' ' :: (printInt a.2 ++ '\n' :: file) := by
    unfold line
    simp only [List.append_assoc, List.cons_append, List.nil_append]
  have hstart : Stops isspace (a.1 ++ ' ' :: (printInt a.2 ++ '\n' :: file)) :=
    stops_append ha.solid ha.named _
  have hend : Stops (fun c => !isspace c) (' ' :: (printInt a.2 ++ '\n' :: file)) :=
    stops_cons (by decide) _
  have hint := scanInt_printInt ha.int (stops_cons (c := '\n') (by decide) file)
  rw [htext, loadLoop]
  simp only [dropWhile_of_stops hstart, takeWhile_append hsolid hend, dropWhile_append hsolid hend,
    if_neg ha.named, if_neg (Nat.not_lt.mpr ha.short), hint, ok_bind]
  rfl

theorem loadLoop_lines (as : List (List Char × ℤ)) (has : ∀ a ∈ as, Storable a) (hn : as.length ≤ n) :
    ∃ bufferSize', loadLoop (fun _ => true) n bufferSize users (as.flatMap line) =
      .ok (some (bufferSize', users ++ as.map unsanctioned)) := by
  induction as generalizing n bufferSize users with
  | nil =>
    refine ⟨bufferSize, ?_⟩
    rw [List.map_nil, List.append_nil]
    cases n with
    | zero => rfl
    | succ n => rfl
  | cons a as ih =>
    rw [List.length_cons] at hn
    obtain ⟨n, rfl⟩ : ∃ k, n = k + 1 := ⟨n - 1, by omega⟩
    obtain ⟨grown, hpush⟩ := exists_vectorPush bufferSize users (unsanctioned a)
    rw [List.flatMap_cons, loadLoop_line (has a List.mem_cons_self), hpush]
    dsimp only
    rw [loadLoop_newline]
    obtain ⟨bufferSize', hload⟩ := ih (fun b hb => has b (List.mem_cons_of_mem a hb))
      (by omega : as.length ≤ n)
    exact ⟨bufferSize', by rw [hload, List.append_assoc]; rfl⟩

theorem length_le_lines (as : List (List Char × ℤ)) : as.length ≤ (as.flatMap line).length := by
  induction as with
  | nil => exact le_rfl
  | cons a as ih =>
    rw [List.flatMap_cons, List.length_append, List.length_cons, line, List.length_append,
      List.length_cons]
    omega

/-- Users that are saved are loaded again, without their sanctions. -/
theorem load_save (h : ∀ a ∈ accounts users, Storable a) :
    ∃ bufferSize, loadUsers (fun _ => true) (saveUsers users) =
      .ok (some (bufferSize, (accounts users).map unsanctioned)) := by
  rw [loadUsers, saveUsers_eq]
  exact loadLoop_lines (accounts users) h (length_le_lines _)

end File

/-! ### Any number of runs -/

theorem MainRun.grown {mktime : Tm → ℤ} {file file' : List Char} {bufferSize : ℕ} {users : List User}
    (h : MainRun mktime file file')
    (hload : loadUsers (fun _ => true) file = .ok (some (bufferSize, users))) :
    ∃ bufferSize' users', loadUsers (fun _ => true) file' = .ok (some (bufferSize', users')) ∧
      Grown (accounts users) (accounts users') := by
  cases h with
  | unsaved => exact ⟨bufferSize, users, hload, .refl⟩
  | @saved grants b us stdin p hloaded hrun hleft =>
    obtain ⟨-, hstorable, hgranted⟩ := loadUsers_spec hloaded
    rw [hload] at hgranted
    cases hgranted
    have hgrown := hrun.grown
    obtain ⟨bufferSize', hend⟩ := load_save (hgrown.spec.2.1 hstorable)
    refine ⟨bufferSize', _, hend, ?_⟩
    have haccounts : accounts ((accounts p.shell.users).map unsanctioned) = accounts p.shell.users := by
      rw [accounts, List.map_map]
      exact List.map_id _
    rw [haccounts]
    exact hgrown

end MaiFaSp.Shell
