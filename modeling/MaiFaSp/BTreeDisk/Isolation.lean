import MaiFaSp.BTreeDisk.Objects
import MaiFaSp.BTreeDisk.TwinErase
import MaiFaSp.BTreeDisk.TwinInsert

/-!
# Trees that share the static members

Two runs side by side: all events of a process, and the events of one of its objects alone. The
calls on the object give the same results in both as long as the static members stay behind what
its tree uses, and no record is written over another one (`b_tree_disk.hpp:238-294`, `492-657`,
`763-806`, `939-958`).
-/

namespace MaiFaSp.BTreeDisk

open BoundedVector

variable {ι κ υ : Type} [LinearOrder κ] [DecidableEq ι] {t turns : ℕ} {codec : Codec κ υ} {i : ι}
  {w w' w₂ w₂' : Process ι} {e : Event ι κ υ} {es : List (Event ι κ υ)}

/-- At every call on the object that the run comes to, the states of both runs meet `P`. -/
def AtCalls (t turns : ℕ) (codec : Codec κ υ) (i : ι) (P : DiskTree → DiskTree → Call κ υ → Prop)
    (w w₂ : Process ι) (es : List (Event ι κ υ)) : Prop :=
  ∀ es₁ c es₂ w' w₂', es = es₁ ++ .call i c :: es₂ → w.run t turns codec es₁ = .ok w' →
    w₂.run t turns codec (eventsOf i es₁) = .ok w₂' → P (w'.tree i) (w₂'.tree i) c

/-- Every call on the object that the run comes to gives the result that it gives after the events
of the object alone. Runs with files of 2⁶³ bytes and more are left out. -/
def Isolated (t turns : ℕ) (codec : Codec κ υ) (i : ι) (w : Process ι) (es : List (Event ι κ υ)) :
    Prop :=
  ∀ es₁ c es₂ w', es = es₁ ++ .call i c :: es₂ → w.run t turns codec es₁ = .ok w' →
    Lockstep .streamFailed (fun a b => a = b) (c.answer t turns codec (w'.tree i))
      (w.run t turns codec (eventsOf i es₁) >>= fun w₂ => c.answer t turns codec (w₂.tree i))

/-- A call of `insert` writes over no record in use. -/
def Call.Harmless (t turns : ℕ) (codec : Codec κ υ) (st : DiskTree) : Call κ υ → Prop
  | .insert data => InsertsHarmlessly t turns codec st data
  | _ => True

/-- The static members are those that the events of the object alone leave. -/
def Undisturbed (st st₂ : DiskTree) (_ : Call κ υ) : Prop :=
  st.countOfNode = st₂.countOfNode ∧ st.lastPosition = st₂.lastPosition

/-- The static members are behind all that the tree uses, and the call damages no record. -/
def Unharmed (t turns : ℕ) (codec : Codec κ υ) (st st₂ : DiskTree) (c : Call κ υ) : Prop :=
  Covered t codec st ∧ c.Harmless t turns codec st ∧ c.Harmless t turns codec st₂

/-- The files that the object is opened with hold intact records, behind which the header puts the
static members. -/
def OpensIntact (t : ℕ) (codec : Codec κ υ) (i : ι) (es : List (Event ι κ υ)) : Prop :=
  ∀ files, Event.opening i files ∈ es → Covered t codec (openTree files) ∧ Intact t (openTree files)

/-! ### Two runs side by side -/

section Simulation

variable {Rel : Object → DiskTree → Prop} {Meets : DiskTree → DiskTree → Call κ υ → Prop}

theorem AtCalls.tail (h : AtCalls t turns codec i Meets w w₂ (e :: es))
    (hstep : w.step t turns codec e = .ok w')
    (hstep₂ : ∀ es₁, w₂.run t turns codec (eventsOf i (e :: es₁)) =
      w₂'.run t turns codec (eventsOf i es₁)) : AtCalls t turns codec i Meets w' w₂' es := by
  intro es₁ c es₂ v v₂ heq hrun hrun₂
  refine h (e :: es₁) c es₂ v v₂ (by rw [heq]; rfl) ?_ ((hstep₂ es₁).trans hrun₂)
  show (w.step t turns codec e >>= _) = _
  rw [hstep]
  exact hrun

theorem run_opening {files : Files} : w.run t turns codec (eventsOf i (.opening i files :: es)) =
    (w.put i (openTree files)).run t turns codec (eventsOf i es) := by
  rw [eventsOf_cons_self (show (Event.opening i files : Event ι κ υ).object = i from rfl)]
  rfl

theorem run_call {c : Call κ υ} : w.run t turns codec (eventsOf i (.call i c :: es)) =
    c.apply t turns codec (w.tree i) >>= fun r => (w.put i r.1).run t turns codec (eventsOf i es) := by
  rw [eventsOf_cons_self (show (Event.call i c : Event ι κ υ).object = i from rfl)]
  show (c.apply t turns codec (w.tree i) >>= _) >>= _ = _
  rw [bind_assoc]
  rfl

/-- The run of all events and that of the object's events, when every call keeps `Rel`. -/
theorem run_related
    (hcall : ∀ {st st₂ c}, Rel st.object st₂ → Meets st st₂ c →
      Lockstep .streamFailed (fun r r₂ => Rel r.1.object r₂.1 ∧ r.2 = r₂.2) (c.apply t turns codec st)
        (c.apply t turns codec st₂))
    (hopen : ∀ files, Event.opening i files ∈ es → Rel (openTree files).object (openTree files))
    (hstart : Rel (w.objects i) (w₂.tree i)) (hmeets : AtCalls t turns codec i Meets w w₂ es)
    (hrun : w.run t turns codec es = .ok w') :
    w₂.run t turns codec (eventsOf i es) = .error .streamFailed ∨
      ∃ w₂', w₂.run t turns codec (eventsOf i es) = .ok w₂' ∧ Rel (w'.objects i) (w₂'.tree i) := by
  induction es generalizing w w₂ with
  | nil =>
    cases hrun
    exact Or.inr ⟨w₂, rfl, hstart⟩
  | cons e es ih =>
    obtain ⟨v, hstep, hrest⟩ := bind_eq_ok.mp hrun
    have hlater : ∀ files, Event.opening i files ∈ es → Rel (openTree files).object (openTree files) :=
      fun files hmem => hopen files (List.mem_cons_of_mem _ hmem)
    by_cases he : e.object = i
    · cases e with
      | opening j files =>
        obtain rfl : j = i := he
        cases hstep
        rw [run_opening]
        refine ih hlater ?_ (hmeets.tail rfl fun _ => run_opening) hrest
        rw [objects_put, tree_put]
        exact hopen files List.mem_cons_self
      | call j c =>
        obtain rfl : j = i := he
        obtain ⟨r, happly, hput⟩ := bind_eq_ok.mp hstep
        cases hput
        have hboth := hcall (show Rel (w.tree j).object (w₂.tree j) from hstart)
          (hmeets [] c es w w₂ rfl rfl rfl)
        rw [happly] at hboth
        by_cases hfail : c.apply t turns codec (w₂.tree j) = .error .streamFailed
        · rw [run_call, hfail]
          exact Or.inl rfl
        · obtain ⟨r₂, happly₂, hrel, -⟩ := hboth.of_ok hfail
          have hnext (es₁ : List (Event ι κ υ)) : w₂.run t turns codec
              (eventsOf j (.call j c :: es₁)) = (w₂.put j r₂.1).run t turns codec (eventsOf j es₁) := by
            rw [run_call, happly₂]
            rfl
          rw [hnext]
          refine ih hlater ?_ (hmeets.tail hstep hnext) hrest
          rw [objects_put, tree_put]
          exact hrel
    · have hsame (es₁ : List (Event ι κ υ)) : w₂.run t turns codec (eventsOf i (e :: es₁)) =
          w₂.run t turns codec (eventsOf i es₁) := by rw [eventsOf_cons_other he]
      rw [hsame]
      refine ih hlater ?_ (hmeets.tail hstep hsame) hrest
      rw [step_other hstep he]
      exact hstart

variable (Rel) in
theorem isolated_of_simulation
    (hcall : ∀ {st st₂ c}, Rel st.object st₂ → Meets st st₂ c →
      Lockstep .streamFailed (fun r r₂ => Rel r.1.object r₂.1 ∧ r.2 = r₂.2) (c.apply t turns codec st)
        (c.apply t turns codec st₂))
    (hopen : ∀ files, Event.opening i files ∈ es → Rel (openTree files).object (openTree files))
    (hstart : Rel (w.objects i) (w.tree i)) (hmeets : AtCalls t turns codec i Meets w w es) :
    Isolated t turns codec i w es := by
  intro es₁ c es₂ w' heq hrun
  have hopen₁ : ∀ files, Event.opening i files ∈ es₁ → Rel (openTree files).object (openTree files) :=
    fun files hmem => hopen files (heq ▸ List.mem_append_left _ hmem)
  have hmeets₁ : AtCalls t turns codec i Meets w w es₁ := fun es₃ d es₄ v v₂ heq₁ =>
    hmeets es₃ d (es₄ ++ .call i c :: es₂) v v₂ (by rw [heq, heq₁, List.append_assoc]; rfl)
  rcases run_related hcall hopen₁ hstart hmeets₁ hrun with hfail | ⟨w₂, hrun₂, hrel⟩
  · rw [hfail]
    exact Or.inr (Or.inl rfl)
  · rw [hrun₂]
    have hboth := hcall (show Rel (w'.tree i).object (w₂.tree i) from hrel)
      (hmeets es₁ c es₂ w' w₂ heq hrun hrun₂)
    exact hboth.bind fun r r₂ hr => Lockstep.ok hr.2

end Simulation

/-! ### The calls -/

/-- A tree whose static members nobody else has written. -/
theorem apply_undisturbed {st st₂ : DiskTree} {c : Call κ υ} (hobject : st₂.object = st.object)
    (h : Undisturbed st st₂ c) :
    Lockstep .streamFailed (fun r r₂ => r₂.1.object = r.1.object ∧ r.2 = r₂.2)
      (c.apply t turns codec st) (c.apply t turns codec st₂) := by
  have hsame : st₂ = st := by
    obtain ⟨fileForTree, fileForKeyValue, countOfNode, lastPosition, positionRoot⟩ := st
    obtain ⟨hcount, hlast⟩ := h
    cases hobject
    cases hcount
    cases hlast
    rfl
  rw [hsame]
  refine (Lockstep.refl _).mono fun r r₂ hr => ?_
  rw [hr.1]
  exact ⟨rfl, rfl⟩

/-- One tree at other positions. -/
def OnTwins (t : ℕ) (codec : Codec κ υ) (o : Object) (st : DiskTree) : Prop :=
  ∃ s, Twins t codec s st ∧ s.object = o

omit [LinearOrder κ] in
theorem onTwins_self {st : DiskTree} (hcovered : Covered t codec st) (hintact : Intact t st) :
    OnTwins t codec st.object st := ⟨st, ⟨_, Twin.self hcovered hintact⟩, rfl⟩

theorem Twin.apply {R : ℕ → ℕ → Prop} {st st₂ : DiskTree} {c : Call κ υ} (h : Twin t codec R st st₂)
    (ht : 1 ≤ t) (hused : ∀ {a b}, R a b → InUse t st a) (hharmless : c.Harmless t turns codec st)
    (hharmless₂ : c.Harmless t turns codec st₂) :
    Lockstep .streamFailed (fun r r₂ => Twins t codec r.1 r₂.1 ∧ r.2 = r₂.2)
      (c.apply t turns codec st) (c.apply t turns codec st₂) := by
  have hchanged {x y : Except NodeFault (DiskTree × Bool)}
      (hxy : Lockstep .streamFailed (Results t codec) x y) :
      Lockstep .streamFailed (fun r r₂ => Twins t codec r.1 r₂.1 ∧ r.2 = r₂.2)
        (x >>= fun r => pure (r.1, Answer.changed r.2) : Except NodeFault (DiskTree × Answer υ))
        (y >>= fun r => pure (r.1, Answer.changed r.2)) :=
    hxy.bind fun r r₂ hr => Lockstep.ok ⟨hr.1, congrArg Answer.changed hr.2⟩
  cases c with
  | insert data => exact hchanged (h.insert ht hused hharmless hharmless₂)
  | update data => exact hchanged h.update
  | erase key => exact hchanged h.erase
  | «at» key => exact h.atKey.bind fun v v₂ hv => Lockstep.ok ⟨⟨R, h⟩, congrArg Answer.value hv⟩

theorem apply_unharmed (ht : 1 ≤ t) {st st₂ : DiskTree} {c : Call κ υ}
    (htwins : OnTwins t codec st.object st₂) (h : Unharmed t turns codec st st₂ c) :
    Lockstep .streamFailed (fun r r₂ => OnTwins t codec r.1.object r₂.1 ∧ r.2 = r₂.2)
      (c.apply t turns codec st) (c.apply t turns codec st₂) := by
  obtain ⟨s, ⟨R, hs⟩, hobject⟩ := htwins
  obtain ⟨hcovered, hharmless, hharmless₂⟩ := h
  have htwin := hs.resume (congrArg Object.fileForTree hobject).symm
    (congrArg Object.fileForKeyValue hobject).symm (congrArg Object.positionRoot hobject).symm hcovered
  exact (htwin.apply ht And.right hharmless hharmless₂).mono fun r r₂ hr => ⟨⟨r.1, hr.1, rfl⟩, hr.2⟩

omit [LinearOrder κ] in
/-- Nothing is in use in a tree without a root. -/
theorem empty_intact {st : DiskTree} (hroot : st.positionRoot = sizeMax)
    (hcount : st.countOfNode ≤ streamLimit + 1) : Covered t codec st ∧ Intact t st :=
  ⟨⟨hcount, fun hp => absurd hp (not_inUse hroot), fun hp => absurd hp (not_inUse hroot)⟩,
    ⟨fun hp => absurd hp (not_inUse hroot), fun hp => absurd hp (not_inUse hroot)⟩⟩

/-- The calls on one object give the results that they give without the events of the others, in every
run in which the static members that they find are those of the object's events alone, or are behind
all that the tree uses, and no record is written over one in use. -/
theorem calls_isolated (t turns : ℕ) (ht : 1 ≤ t) (codec : Codec κ υ) (i : ι) (es : List (Event ι κ υ))
    (h : AtCalls t turns codec i Undisturbed .start .start es ∨
      OpensIntact t codec i es ∧ AtCalls t turns codec i (Unharmed t turns codec) .start .start es) :
    Isolated t turns codec i .start es := by
  rcases h with hmeets | ⟨hopens, hmeets⟩
  · refine isolated_of_simulation (fun o st => st.object = o) apply_undisturbed ?_ ?_ hmeets
    · exact fun _ _ => rfl
    · rfl
  · refine isolated_of_simulation (OnTwins t codec) (apply_unharmed ht) (fun files hmem => ?_) ?_ hmeets
    · exact onTwins_self (hopens files hmem).1 (hopens files hmem).2
    · have hstart : Covered t codec ((Process.start : Process ι).tree i) ∧
          Intact t ((Process.start : Process ι).tree i) := empty_intact rfl (Nat.zero_le _)
      exact onTwins_self hstart.1 hstart.2

/-- Files that were just created. -/
def newFiles : Files := ⟨fun _ => 0, fun _ => 0, 0⟩

/-- Two trees that grow in turn. -/
def growingInTurn : List (Event Bool (Fin 256) (Fin 256)) :=
  [.opening true newFiles, .opening false newFiles, .call true (.insert (10, 110)),
    .call false (.insert (20, 120)), .call true (.at 10)]

omit [LinearOrder κ] in
theorem openTree_new : Covered t codec (openTree newFiles) ∧ Intact t (openTree newFiles) :=
  empty_intact rfl (Nat.zero_le _)

omit [LinearOrder κ] in
/-- A tree with a single node. -/
theorem Recorded.covered {st : DiskTree} {p : ℕ} {n : Node κ υ} (h : Recorded t codec st p n)
    (hroot : st.positionRoot = p) (hnull : ∀ q ∈ n.pointers, q = sizeMax)
    (hends : recordEnd t p n.size ≤ slot t st.countOfNode) (hcount : st.countOfNode ≤ streamLimit + 1) :
    Covered t codec st := by
  have honly {q : ℕ} (hq : InUse t st q) : q = p := by
    induction hq with
    | root => exact hroot
    | child _ hmem hne ih =>
      rw [ih, ← h.pointers] at hmem
      exact absurd (hnull _ hmem) hne
  refine ⟨hcount, fun hq => ?_, fun hq => ?_⟩
  · rw [honly hq, h.slotSize_eq]
    exact hends
  · rw [honly hq, h.slotSize_eq]
    exact h.written

/-- The first pair in a tree without a root. -/
theorem insert_empty {st : DiskTree} {data : κ × υ} {r : DiskTree × Answer υ}
    (hroot : st.positionRoot = sizeMax) (hcount : st.countOfNode ≤ sizeMax)
    (happly : (Call.insert data).apply t turns codec st = .ok r) :
    diskWrite t codec { st with countOfNode := st.countOfNode + 1, positionRoot := st.countOfNode }
      ⟨1, true, st.countOfNode, [data], [sizeMax]⟩ = .ok r.1 := by
  obtain ⟨result, hinsert, hr⟩ := bind_eq_ok.mp happly
  have hnull : (diskRead t codec st st.positionRoot).positionInDisk = sizeMax := by
    rw [hroot, diskRead_sizeMax hcount]
  unfold BTreeDisk.insert at hinsert
  rw [if_pos hnull] at hinsert
  obtain ⟨s₁, hw, hresult⟩ := bind_eq_ok.mp hinsert
  cases hresult
  cases hr
  exact hw

/-- The pair of the first tree is at position 0, and the second tree has moved the static members
behind it. -/
theorem covered_growingInTurn {w : Process Bool}
    (hrun : Process.start.run 2 9 byteCodec (growingInTurn.take 4) = .ok w) :
    Covered 2 byteCodec (w.tree true) := by
  obtain ⟨v, hfirst, hrun⟩ := bind_eq_ok.mp (show (((Process.start.put true (openTree newFiles)).put false
    (openTree newFiles)).step 2 9 byteCodec (.call true (.insert (10, 110))) >>= fun v =>
      v.step 2 9 byteCodec (.call false (.insert (20, 120))) >>= fun w => w.run 2 9 byteCodec []) =
        .ok w from hrun)
  obtain ⟨w', hsecond, hrun⟩ := bind_eq_ok.mp hrun
  obtain ⟨r, happly, hput⟩ := bind_eq_ok.mp hfirst
  obtain ⟨r₂, happly₂, hput₂⟩ := bind_eq_ok.mp hsecond
  cases hput
  cases hput₂
  cases hrun
  have hw : diskWrite 2 byteCodec { openTree newFiles with countOfNode := 1, positionRoot := 0 } oneKey =
      .ok r.1 := insert_empty rfl (Nat.zero_le _) happly
  obtain ⟨hcount, hroot⟩ := diskWrite_count hw
  have hcount : r.1.countOfNode = 1 := hcount
  have hown : Recorded 2 byteCodec r.1 0 { oneKey with
      keys := oneKey.keys.take oneKey.size
      pointers := paddedPointers 2 oneKey.pointers } :=
    Recorded.own oneKey_inRange (by decide) le_rfl hw
  have hsmall : ((((Process.start.put true (openTree newFiles)).put false (openTree newFiles)).put true
      r.1).tree false).countOfNode ≤ sizeMax := by
    show r.1.countOfNode ≤ sizeMax
    rw [hcount]
    decide
  have hw₂ := insert_empty rfl hsmall happly₂
  have hcount₂ : r₂.1.countOfNode = r.1.countOfNode + 1 := (diskWrite_count hw₂).1
  have hlast : r.1.lastPosition ≤ r₂.1.lastPosition := by
    obtain ⟨-, -, hr₂⟩ := diskWrite_eq_ok.mp hw₂
    rw [hr₂]
    exact Nat.le_add_right _ _
  have hbehind : 0 < r₂.1.countOfNode := by omega
  have hall : r₂.1.countOfNode = 2 := by rw [hcount₂, hcount]
  refine Recorded.covered (hown.shared hbehind hlast) hroot (by decide) ?_ ?_
  · show recordEnd 2 0 1 ≤ slot 2 r₂.1.countOfNode
    rw [hall]
    decide
  · show r₂.1.countOfNode ≤ streamLimit + 1
    rw [hall]
    decide

theorem calls_isolated_in_turn : Isolated 2 9 byteCodec true .start growingInTurn := by
  refine calls_isolated 2 9 (by decide) byteCodec true growingInTurn (Or.inr ⟨?_, ?_⟩)
  · intro files hmem
    have hnew : files = newFiles := by
      simpa [growingInTurn] using hmem
    rw [hnew]
    exact openTree_new
  · intro es₁ c es₂ w w₂ heq hrun hrun₂
    match es₁, heq with
    | [_, _], heq =>
      cases heq
      cases hrun
      cases hrun₂
      exact ⟨openTree_new.1, fun hne => absurd rfl hne, fun hne => absurd rfl hne⟩
    | [_, _, _, _], heq =>
      cases heq
      exact ⟨covered_growingInTurn hrun, trivial, trivial⟩
    | _ :: _ :: _ :: _ :: _ :: rest, heq =>
      have hlen := congrArg List.length heq
      simp [growingInTurn] at hlen

/-- A tree with one pair, and the opening of another tree. -/
def openingSecond : List (Event Bool (Fin 256) (Fin 256)) :=
  [.opening true newFiles, .call true (.insert (10, 110)), .opening false newFiles]

/-- The second constructor sets `_count_of_node` to 0, and the root of the first tree is no longer
read: the key 10 is inserted once more. -/
theorem second_opening_interferes : ¬ Isolated 2 9 byteCodec true .start
    (openingSecond ++ [.call true (.insert (10, 111))]) := by
  intro h
  have hall : (Process.start.run 2 9 byteCodec openingSecond >>= fun w =>
      Call.answer 2 9 byteCodec (w.tree true) (.insert (10, 111))).toOption = some (.changed true) := by
    decide +kernel
  have halone : (Process.start.run 2 9 byteCodec (eventsOf true openingSecond) >>= fun w =>
      Call.answer 2 9 byteCodec (w.tree true) (.insert (10, 111))).toOption = some (.changed false) := by
    decide +kernel
  cases hrun : Process.start.run 2 9 byteCodec openingSecond with
  | error e =>
    rw [hrun] at hall
    cases hall
  | ok w =>
    rw [hrun, ok_bind] at hall
    rcases h openingSecond _ [] w rfl hrun with hx | hy | ⟨a, b, hx, hy, rfl⟩ | ⟨e, hx, -⟩
    · rw [hx] at hall
      cases hall
    · rw [hy] at halone
      cases halone
    · rw [hx] at hall
      rw [hy] at halone
      cases hall
      cases halone
    · rw [hx] at hall
      cases hall

end MaiFaSp.BTreeDisk
