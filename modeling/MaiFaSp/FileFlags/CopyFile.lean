import MaiFaSp.Lib.DecimalText
import MaiFaSp.Lib.RandomDescent

/-!
# `copyN`: the copies of a file (`task2/main.c:56-116`, `task2/copy_file.c`)

For each copy a child runs `sp_task2_copy`, and the parent waits for the children in the order in which
it made them. The parent and the children go on in any order. A name stands for one file, and what is
written to a stream counts as written to its file.
-/

namespace MaiFaSp.CopyFile

abbrev Name := List Char

abbrev Files := Name → Option (List UInt8)

/-- What the system grants: files that can be opened for reading or writing, and the memory and the
process for the copy with a number. -/
structure Grants where
  readable : Name → Bool
  writable : Name → Bool
  forks : ℕ → Bool

inductive Fault where
  | heapOverflow
  deriving Repr, DecidableEq

/-- What a child does next; `position` counts the bytes that it has read. -/
inductive Child where
  | opensSource
  | opensCopy
  | copies (position : ℕ)
  | exited (success : Bool)
  deriving Repr, DecidableEq

inductive Parent where
  | forks
  | waits (i : ℕ) (success : Bool)
  | returned (success : Bool)
  deriving Repr, DecidableEq

structure System where
  files : Files
  children : List Child
  parent : Parent

/-- `dot - name_src`, with `dot` from `strrchr`. -/
def baseLen (name : Name) : ℕ :=
  if '.' ∈ name then name.length - 1 - name.reverse.idxOf '.' else name.length

/-- The name of copy `i + 1`, which `snprintf` cuts off where the buffer ends. -/
def newFilename (name : Name) (i : ℕ) : Name :=
  (name.take (baseLen name) ++ '_' :: (Nat.toDigits 10 (i + 1) ++ name.drop (baseLen name))).take
    (name.length + 9)

/-- `fwrite` at a position of the file. -/
def writeAt (file : List UInt8) (position : ℕ) (chunk : List UInt8) : List UInt8 :=
  file.take position ++ List.replicate (position - file.length) 0 ++ chunk ++
    file.drop (position + chunk.length)

/-- `copy_file` before the first fork. The end of `base_name` is written behind a name without a dot. -/
def start (files : Files) (name : Name) : Except Fault System :=
  if baseLen name < name.length then pure ⟨files, [], .forks⟩ else throw .heapOverflow

section Run

variable (g : Grants) (name : Name) (count : ℕ)

/-- The next system call of the parent; `none` while it waits, and after it. -/
def parentStep (s : System) : Option System :=
  match s.parent with
  | .forks =>
    if s.children.length < count then
      if g.forks s.children.length then some { s with children := s.children ++ [.opensSource] }
      else some { s with parent := .returned false }
    else some { s with parent := .waits 0 true }
  | .waits i success =>
    if i < count then
      match s.children[i]? with
      | some (.exited status) => some { s with parent := .waits (i + 1) (success && status) }
      | _ => none
    else some { s with parent := .returned success }
  | .returned _ => none

/-- The next system call of the child that makes copy `i + 1`. -/
def childStep (i : ℕ) (s : System) : Option System :=
  match s.children[i]? with
  | some .opensSource =>
    let next := if (s.files name).isSome && g.readable name then .opensCopy else .exited false
    some { s with children := s.children.set i next }
  | some .opensCopy =>
    if g.writable (newFilename name i) then
      some { s with
        files := Function.update s.files (newFilename name i) (some [])
        children := s.children.set i (.copies 0) }
    else some { s with children := s.children.set i (.exited false) }
  | some (.copies position) =>
    let chunk := (((s.files name).getD []).drop position).take 1024
    if chunk = [] then some { s with children := s.children.set i (.exited true) }
    else some { s with
      files := Function.update s.files (newFilename name i)
        ((s.files (newFilename name i)).map (writeAt · position chunk))
      children := s.children.set i (.copies (position + chunk.length)) }
  | _ => none

inductive Step (s s' : System) : Prop
  | parent (h : parentStep g count s = some s')
  | child (i : ℕ) (h : childStep g name i s = some s')

/-- Whether the child that makes copy `i + 1` can do so. -/
def canCopy (files : Files) (i : ℕ) : Bool :=
  (files name).isSome && g.readable name && g.writable (newFilename name i)

end Run

/-! ### The names of the copies -/

theorem baseLen_le (name : Name) : baseLen name ≤ name.length := by
  unfold baseLen
  split
  · omega
  · exact le_rfl

theorem length_toDigits_le {i : ℕ} (hi : i < 20) : (Nat.toDigits 10 (i + 1)).length ≤ 8 := by
  interval_cases i <;> decide

/-- No name of a copy is cut off. -/
theorem newFilename_eq (name : Name) {i : ℕ} (hi : i < 20) :
    newFilename name i =
      name.take (baseLen name) ++ '_' :: (Nat.toDigits 10 (i + 1) ++ name.drop (baseLen name)) := by
  have hbase := baseLen_le name
  have hdigits := length_toDigits_le hi
  unfold newFilename
  apply List.take_of_length_le
  simp only [List.length_append, List.length_cons, List.length_take, List.length_drop]
  omega

theorem newFilename_ne (name : Name) {i : ℕ} (hi : i < 20) : newFilename name i ≠ name := by
  intro h
  have hbase := baseLen_le name
  have hlen := congrArg List.length h
  rw [newFilename_eq name hi] at hlen
  simp only [List.length_append, List.length_cons, List.length_take, List.length_drop] at hlen
  omega

theorem newFilename_inj (name : Name) {i j : ℕ} (hi : i < 20) (hj : j < 20)
    (h : newFilename name i = newFilename name j) : i = j := by
  rw [newFilename_eq name hi, newFilename_eq name hj] at h
  have hdigits := List.append_cancel_right (List.cons.inj (List.append_cancel_left h)).2
  have hvalue := congrArg DecimalText.valueOf hdigits
  rw [DecimalText.valueOf_toDigits, DecimalText.valueOf_toDigits] at hvalue
  omega

/-! ### What holds in every state -/

section Invariant

variable (g : Grants) (name : Name) (count : ℕ) (files : Files)

/-- What the copy of a child is, with the files before the first fork. -/
def Made (i : ℕ) (copy : Option (List UInt8)) : Child → Prop
  | .opensSource => copy = files (newFilename name i)
  | .opensCopy => (files name).isSome = true ∧ g.readable name = true ∧ copy = files (newFilename name i)
  | .copies position =>
    canCopy g name files i = true ∧ ∃ data, files name = some data ∧ position ≤ data.length ∧
      copy = some (data.take position)
  | .exited success =>
    success = canCopy g name files i ∧ copy = if success then files name else files (newFilename name i)

/-- What the parent knows of the children. -/
def Awaited (children : List Child) : Parent → Prop
  | .forks => True
  | .waits i success =>
    children.length = count ∧ i ≤ count ∧ (∀ k < i, ∃ status, children[k]? = some (.exited status)) ∧
      (success = true ↔ ∀ k < i, canCopy g name files k = true)
  | .returned success =>
    (children.length = count ∧ (success = true ↔ ∀ k < count, canCopy g name files k = true)) ∨
      (success = false ∧ children.length < count ∧ g.forks children.length = false)

structure Inv (s : System) : Prop where
  made : ∀ i c, s.children[i]? = some c → Made g name files i (s.files (newFilename name i)) c
  others : ∀ n, (∀ i < s.children.length, n ≠ newFilename name i) → s.files n = files n
  length_le : s.children.length ≤ count
  forked : ∀ i < s.children.length, g.forks i = true
  awaited : Awaited g name count files s.children s.parent

/-- Bounds the steps of a child. -/
def childRank (size : ℕ) : Child → ℕ
  | .opensSource => size + 3
  | .opensCopy => size + 2
  | .copies position => size - position + 1
  | .exited _ => 0

def parentRank (size : ℕ) (s : System) : ℕ :=
  match s.parent with
  | .forks => (count - s.children.length) * (size + 4) + count + 2
  | .waits i _ => count - i + 1
  | .returned _ => 0

def rank (size : ℕ) (s : System) : ℕ :=
  parentRank count size s + (s.children.map (childRank size)).sum

end Invariant

variable {g : Grants} {name : Name} {count i : ℕ} {files : Files} {s s' : System}

theorem writeAt_length (file chunk : List UInt8) : writeAt file file.length chunk = file ++ chunk := by
  simp [writeAt]

theorem Inv.source (h : Inv g name count files s) (hcount : count ≤ 20) : s.files name = files name := by
  apply h.others
  intro i hi
  have hlt : i < 20 := by
    have hle := h.length_le
    omega
  exact (newFilename_ne name hlt).symm

theorem sum_map_set {f : Child → ℕ} {cs : List Child} {c : Child} (hc : cs[i]? = some c) (d : Child) :
    ((cs.set i d).map f).sum + f c = (cs.map f).sum + f d := by
  induction cs generalizing i with
  | nil => simp at hc
  | cons b cs ih =>
    cases i with
    | zero =>
      obtain rfl : b = c := by simpa using hc
      simp only [List.set_cons_zero, List.map_cons, List.sum_cons]
      omega
    | succ i =>
      have hrest := ih (by simpa using hc)
      simp only [List.set_cons_succ, List.map_cons, List.sum_cons]
      omega

/-- A child that has not exited goes on with its own copy. -/
theorem Inv.child {c next : Child} {copy : Option (List UInt8)} (h : Inv g name count files s)
    (hcount : count ≤ 20) (hc : s.children[i]? = some c) (hrun : ∀ status, c ≠ .exited status)
    (hmade : Made g name files i copy next) :
    Inv g name count files { s with
      files := Function.update s.files (newFilename name i) copy
      children := s.children.set i next } := by
  have hi : i < s.children.length := (List.getElem?_eq_some_iff.mp hc).1
  have hle := h.length_le
  have hlength : (s.children.set i next).length = s.children.length := List.length_set
  refine ⟨fun j d hd => ?_, fun n hn => ?_, hlength.trans_le hle, fun j hj => h.forked j (hj.trans_eq hlength), ?_⟩
  · dsimp only at hd ⊢
    have hj : j < s.children.length := hlength ▸ (List.getElem?_eq_some_iff.mp hd).1
    rw [List.getElem?_set] at hd
    by_cases hij : i = j
    · subst hij
      rw [if_pos rfl, if_pos hi] at hd
      cases hd
      rw [Function.update_self]
      exact hmade
    · rw [if_neg hij] at hd
      have hne : newFilename name j ≠ newFilename name i := fun he =>
        hij (newFilename_inj name (by omega) (by omega) he).symm
      rw [Function.update_of_ne hne]
      exact h.made j d hd
  · dsimp only at hn ⊢
    rw [hlength] at hn
    rw [Function.update_of_ne (hn i hi)]
    exact h.others n hn
  · have hawaited := h.awaited
    dsimp only
    unfold Awaited at hawaited ⊢
    rw [hlength]
    split at hawaited
    · trivial
    · obtain ⟨hall, hk, hexited, hsuccess⟩ := hawaited
      refine ⟨hall, hk, fun k hlt => ?_, hsuccess⟩
      obtain ⟨status, hstatus⟩ := hexited k hlt
      -- the child that goes on is none of those that have exited
      have hne : i ≠ k := by
        rintro rfl
        rw [hc] at hstatus
        exact hrun status (Option.some.inj hstatus)
      exact ⟨status, by rw [List.getElem?_set_ne hne, hstatus]⟩
    · exact hawaited

theorem take_chunk (data : List UInt8) (position n : ℕ) :
    data.take position ++ (data.drop position).take n =
      data.take (position + ((data.drop position).take n).length) := by
  rw [List.take_add, List.length_take, ← List.take_eq_take_min]

/-- The files stay as they are where a child makes no write. -/
theorem set_child (s : System) (i : ℕ) (next : Child) :
    { s with children := s.children.set i next } = { s with
      files := Function.update s.files (newFilename name i) (s.files (newFilename name i))
      children := s.children.set i next } := by
  rw [Function.update_eq_self]

/-- What a step of a child does. -/
theorem Inv.childStep_cases (h : Inv g name count files s) (hcount : count ≤ 20)
    (hs : childStep g name i s = some s') :
    ∃ c next copy, s.children[i]? = some c ∧ (∀ status, c ≠ .exited status) ∧
      Made g name files i copy next ∧
      childRank ((files name).getD []).length next < childRank ((files name).getD []).length c ∧
      s' = { s with
        files := Function.update s.files (newFilename name i) copy
        children := s.children.set i next } := by
  have hsource := h.source hcount
  cases hc : s.children[i]? with
  | none =>
    rw [childStep, hc] at hs
    cases hs
  | some c =>
    have hmade := h.made i c hc
    rw [childStep, hc] at hs
    cases c with
    | exited status => cases hs
    | opensSource =>
      dsimp only at hs
      cases hs
      refine ⟨_, _, _, rfl, nofun, ?_, ?_, set_child s i _⟩
      · rw [hsource]
        split
        case isTrue hopen =>
          obtain ⟨hsome, hreadable⟩ := Bool.and_eq_true_iff.mp hopen
          exact ⟨hsome, hreadable, hmade⟩
        case isFalse hopen => exact ⟨by simp [canCopy, hopen], hmade⟩
      · split <;> simp [childRank]
    | opensCopy =>
      obtain ⟨hsome, hreadable, hold⟩ := hmade
      dsimp only at hs
      split at hs
      case isTrue hwritable =>
        cases hs
        obtain ⟨data, hdata⟩ := Option.isSome_iff_exists.mp hsome
        refine ⟨_, .copies 0, some [], rfl, nofun, ⟨?_, data, hdata, Nat.zero_le _, rfl⟩,
          by simp [childRank], rfl⟩
        simp [canCopy, hsome, hreadable, hwritable]
      case isFalse hwritable =>
        cases hs
        refine ⟨_, .exited false, _, rfl, nofun, ⟨?_, hold⟩, by simp [childRank], set_child s i _⟩
        simp [canCopy, hwritable]
    | copies position =>
      obtain ⟨hcopies, data, hdata, hposition, hcopy⟩ := hmade
      have hfiles : (s.files name).getD [] = data := by rw [hsource, hdata]; rfl
      have hlength : (data.take position).length = position := List.length_take_of_le hposition
      rw [hdata]
      dsimp only at hs
      rw [hfiles] at hs
      split at hs
      case isTrue hend =>
        cases hs
        have hdrop : data.length - position = 0 := by
          have hzero := congrArg List.length hend
          simp only [List.length_take, List.length_drop, List.length_nil] at hzero
          omega
        refine ⟨_, .exited true, _, rfl, nofun, ⟨hcopies.symm, ?_⟩, by simp [childRank], set_child s i _⟩
        rw [hcopy, List.take_of_length_le (by omega), if_pos rfl, hdata]
      case isFalse hend =>
        cases hs
        have hwrite := writeAt_length (data.take position) ((data.drop position).take 1024)
        rw [hlength, take_chunk] at hwrite
        have hchunk : 0 < ((data.drop position).take 1024).length := List.length_pos_iff.mpr hend
        have hle : position + ((data.drop position).take 1024).length ≤ data.length := by
          simp only [List.length_take, List.length_drop]
          omega
        refine ⟨_, .copies (position + ((data.drop position).take 1024).length), _, rfl, nofun,
          ⟨hcopies, data, hdata, hle, ?_⟩, ?_, rfl⟩
        · rw [hcopy, Option.map_some, hwrite]
        · simp only [childRank, Option.getD_some]
          omega

/-- Every step of a child keeps the invariant and brings the end nearer. -/
theorem Inv.child_step (h : Inv g name count files s) (hcount : count ≤ 20)
    (hs : childStep g name i s = some s') :
    Inv g name count files s' ∧
      rank count ((files name).getD []).length s' < rank count ((files name).getD []).length s := by
  obtain ⟨c, next, copy, hc, hrun, hmade, hrank, rfl⟩ := h.childStep_cases hcount hs
  refine ⟨h.child hcount hc hrun hmade, ?_⟩
  have hsum := sum_map_set (f := childRank ((files name).getD []).length) hc next
  unfold rank parentRank
  dsimp only
  rw [List.length_set]
  omega

/-- A child is made. -/
theorem Inv.fork (h : Inv g name count files s) (hcount : count ≤ 20) (hparent : s.parent = .forks)
    (hlt : s.children.length < count) (hfork : g.forks s.children.length = true) :
    Inv g name count files { s with children := s.children ++ [.opensSource] } := by
  have hlength : (s.children ++ [Child.opensSource]).length = s.children.length + 1 := by simp
  refine ⟨fun i c hc => ?_, fun n hn => ?_, by rw [hlength]; omega, fun i hi => ?_, ?_⟩
  · dsimp only at hc ⊢
    rw [List.getElem?_append] at hc
    split at hc
    case isTrue => exact h.made i c hc
    case isFalse hge =>
      have hi := (List.getElem?_eq_some_iff.mp hc).1
      rw [List.length_singleton] at hi
      obtain rfl : i = s.children.length := by omega
      obtain rfl : Child.opensSource = c := by simpa using hc
      apply h.others
      intro j hj he
      exact hj.ne (newFilename_inj name (by omega) (by omega) he.symm)
  · dsimp only at hn ⊢
    rw [hlength] at hn
    exact h.others n fun i hi => hn i (by omega)
  · dsimp only at hi ⊢
    rw [hlength] at hi
    by_cases hlast : i = s.children.length
    · rw [hlast]
      exact hfork
    · exact h.forked i (by omega)
  · dsimp only
    rw [hparent]
    trivial

/-- The parent goes on to where it knows more. -/
theorem Inv.goOn (h : Inv g name count files s) {parent : Parent}
    (hp : Awaited g name count files s.children parent) :
    Inv g name count files { s with parent := parent } :=
  ⟨h.made, h.others, h.length_le, h.forked, hp⟩

theorem Inv.parent_step (h : Inv g name count files s) (hcount : count ≤ 20)
    (hs : parentStep g count s = some s') (size : ℕ) :
    Inv g name count files s' ∧ rank count size s' < rank count size s := by
  have hle := h.length_le
  have hawaited := h.awaited
  unfold parentStep at hs
  cases hparent : s.parent with
  | returned success =>
    rw [hparent] at hs
    cases hs
  | forks =>
    rw [hparent] at hs
    dsimp only at hs
    split at hs
    case isTrue hlt =>
      split at hs
      case isTrue hfork =>
        cases hs
        have hinv := h.fork hcount hparent hlt hfork
        rw [hparent] at hinv
        refine ⟨hinv, ?_⟩
        obtain ⟨left, hleft⟩ : ∃ k, count - s.children.length = k + 1 :=
          ⟨count - s.children.length - 1, by omega⟩
        have hleft' : count - (s.children.length + 1) = left := by omega
        have hmul : (left + 1) * (size + 4) = left * (size + 4) + size + 4 := by ring
        unfold rank parentRank
        simp only [hparent, List.length_append, List.length_singleton, List.map_append, List.sum_append,
          List.map_cons, List.map_nil, List.sum_cons, List.sum_nil, childRank, hleft, hleft', hmul]
        omega
      case isFalse hfork =>
        cases hs
        refine ⟨h.goOn (.inr ⟨rfl, hlt, by simpa using hfork⟩), ?_⟩
        unfold rank parentRank
        simp only [hparent]
        omega
    case isFalse hge =>
      cases hs
      have hall : s.children.length = count := by omega
      refine ⟨h.goOn ⟨hall, Nat.zero_le _, by simp, by simp⟩, ?_⟩
      unfold rank parentRank
      simp only [hparent]
      omega
  | waits i success =>
    rw [hparent] at hs hawaited
    obtain ⟨hall, hi, hexited, hsuccess⟩ := hawaited
    dsimp only at hs
    split at hs
    case isTrue hlt =>
      split at hs
      case h_1 status hstatus =>
        cases hs
        have hmade := (h.made i _ hstatus).1
        refine ⟨h.goOn ⟨hall, hlt, fun k hk => ?_, ?_⟩, ?_⟩
        · by_cases hki : k = i
          · rw [hki]
            exact ⟨status, hstatus⟩
          · exact hexited k (by omega)
        · rw [Bool.and_eq_true, hsuccess, hmade, Nat.forall_lt_succ_right]
        · unfold rank parentRank
          simp only [hparent]
          omega
      case h_2 => cases hs
    case isFalse hge =>
      cases hs
      obtain rfl : i = count := by omega
      refine ⟨h.goOn (.inl ⟨hall, hsuccess⟩), ?_⟩
      unfold rank parentRank
      simp only [hparent]
      omega

theorem Inv.step (h : Inv g name count files s) (hcount : count ≤ 20)
    (hs : Step g name count s s') : Inv g name count files s' ∧
      rank count ((files name).getD []).length s' < rank count ((files name).getD []).length s := by
  cases hs with
  | parent hs => exact h.parent_step hcount hs _
  | child i hs => exact h.child_step hcount hs

/-- Where nothing goes on, the parent has returned and the children have exited. -/
theorem Inv.stuck (h : Inv g name count files s) (hs : Stuck (Step g name count) s) :
    (∃ success, s.parent = .returned success) ∧
      ∀ i < s.children.length, ∃ status, s.children[i]? = some (.exited status) := by
  have hexited : ∀ i < s.children.length, ∃ status, s.children[i]? = some (.exited status) := by
    intro i hi
    have hc := List.getElem?_eq_getElem hi
    have hnone : childStep g name i s = none := by
      cases hchild : childStep g name i s with
      | none => rfl
      | some s' => exact absurd (.child i hchild) (hs s')
    unfold childStep at hnone
    rw [hc] at hnone ⊢
    cases hcase : s.children[i] with
    | exited status => exact ⟨status, rfl⟩
    | opensSource =>
      rw [hcase] at hnone
      cases hnone
    | opensCopy =>
      rw [hcase] at hnone
      dsimp only at hnone
      split at hnone <;> cases hnone
    | copies position =>
      rw [hcase] at hnone
      dsimp only at hnone
      split at hnone <;> cases hnone
  refine ⟨?_, hexited⟩
  have hnone : parentStep g count s = none := by
    cases hparent : parentStep g count s with
    | none => rfl
    | some s' => exact absurd (.parent hparent) (hs s')
  have hawaited := h.awaited
  unfold parentStep at hnone
  cases hparent : s.parent with
  | returned success => exact ⟨success, rfl⟩
  | forks =>
    rw [hparent] at hnone
    dsimp only at hnone
    split at hnone
    · split at hnone <;> cases hnone
    · cases hnone
  | waits i success =>
    rw [hparent] at hnone hawaited
    obtain ⟨hall, -⟩ := hawaited
    dsimp only at hnone
    split at hnone
    case isTrue hlt =>
      obtain ⟨status, hstatus⟩ := hexited i (by omega)
      rw [hstatus] at hnone
      cases hnone
    case isFalse => cases hnone

theorem start_inv (h : start files name = .ok s) :
    Inv g name count files s ∧ rank count ((files name).getD []).length s =
      count * (((files name).getD []).length + 4) + count + 2 := by
  unfold start at h
  split at h
  · cases h
    refine ⟨⟨by simp, by simp, Nat.zero_le _, by simp, trivial⟩, ?_⟩
    simp [rank, parentRank]
  · cases h

end MaiFaSp.CopyFile
