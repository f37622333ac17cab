import MaiFaSp.Logger.Configuration
import MaiFaSp.Logger.Streams

/-!
# Builders and client loggers

`client_logger_builder.cpp` and `client_logger.cpp:11-136`: builders and loggers come, are copied,
moved, assigned and destroyed in any order, and loggers log. The map of the streams stays right,
and a file that is held all the time receives every line once, in order.
-/

namespace MaiFaSp.Logger

abbrev OutputStreams := Severity → Option (List RefcountedStream × Bool)

namespace OutputStreams

/-- `_output_streams[severity]`. -/
def element (s : OutputStreams) (severity : Severity) : List RefcountedStream × Bool :=
  (s severity).getD ([], false)

def put (s : OutputStreams) (severity : Severity) (x : List RefcountedStream × Bool) : OutputStreams :=
  Function.update s severity (some x)

def handles (s : OutputStreams) : List RefcountedStream := severities.flatMap fun sev => (s.element sev).1

def empty : OutputStreams := fun _ => none

end OutputStreams

/-- A `client_logger` or, not built, a `client_logger_builder`. -/
structure Owner where
  built : Bool
  outputStreams : OutputStreams
  format : List Char

/-- `client_logger_builder()`. -/
def newBuilder : Owner := ⟨false, .empty, "%m".toList⟩

namespace Owner

def handles (o : Owner) : List RefcountedStream := o.outputStreams.handles

/-- The handle is pushed to the front by a move, and the temporary destroyed. -/
def addFileStream (w : World) (o : Owner) (path : Path) (severity : Severity) : World × Owner :=
  let made := w.construct path
  let (hs, console) := o.outputStreams.element severity
  (made.1.destroy ⟨[], none⟩,
    { o with outputStreams := o.outputStreams.put severity (made.2 :: hs, console) })

def addConsoleStream (o : Owner) (severity : Severity) : Owner :=
  { o with outputStreams := o.outputStreams.put severity ((o.outputStreams.element severity).1, true) }

def setFormat (o : Owner) (format : List Char) : Owner := { o with format := format }

def cleared (o : Owner) : Owner := { o with outputStreams := .empty }

end Owner

/-- `client_logger_builder` as what a configuration calls. -/
def clientBuilder : Builder (World × Owner) where
  addFileStream b path severity := b.2.addFileStream b.1 path severity
  addConsoleStream b severity := (b.1, b.2.addConsoleStream severity)
  setFormat b format := (b.1, b.2.setFormat format)

/-- The inner loop of the constructor; `false` where an `open` throws. -/
def openList (can : Path → Bool) : World → List RefcountedStream → World × List RefcountedStream × Bool
  | w, [] => (w, [], true)
  | w, h :: hs =>
    match w.openStream can h with
    | (w, none) => (w, h :: hs, false)
    | (w, some h) =>
      let (w, hs, ok) := openList can w hs
      (w, h :: hs, ok)

/-- The loop over the map, which may be in any order. -/
def openAll (can : Path → Bool) : World → OutputStreams → List Severity → World × OutputStreams × Bool
  | w, s, [] => (w, s, true)
  | w, s, severity :: order =>
    match s severity with
    | none => openAll can w s order
    | some (hs, console) =>
      let (w, hs, ok) := openList can w hs
      if ok then openAll can w (s.put severity (hs, console)) order
      else (w, s.put severity (hs, console), false)

/-- The logger has copies of the builder's handles, which are destroyed when its constructor throws. -/
def build (can : Path → Bool) (order : List Severity) (w : World) (o : Owner) : World × Option Owner :=
  let (w, s, ok) := openAll can (w.copyAll o.handles) o.outputStreams order
  if ok then (w, some ⟨true, s, o.format⟩) else (w.destroyAll s.handles, none)

/-- `log`; `none` through a dangling pointer. -/
def log (w : World) (o : Owner) (entry : Entry) : Option World :=
  match o.outputStreams entry.severity with
  | none => some w
  | some (streams, console) =>
    let text := makeFormat o.format entry
    let w := if console then { w with console := w.console ++ (text ++ ['\n']) } else w
    streams.foldlM (fun w h => w.write h text) w

structure System where
  world : World
  owners : Multiset Owner

/-- The handles of all owners. -/
def live (owners : Multiset Owner) : Multiset RefcountedStream := owners.bind fun o => (o.handles : Multiset _)

/-- There is memory for `n` more handles. -/
def Fits (owners : Multiset Owner) (n : ℕ) : Prop := (live owners).card + n < 2 ^ 64

/-- One call, and the line that it logs if it does. The order of the map and what can be opened are
not known; an assignment to itself does nothing. -/
inductive Step : System → Option (Owner × Entry) → System → Prop
  | newBuilder (w os) : Step ⟨w, os⟩ none ⟨w, newBuilder ::ₘ os⟩
  | addFileStream (w os) {o : Owner} (path severity) (hbuilder : o.built = false)
      (hfits : Fits (o ::ₘ os) 1) :
      Step ⟨w, o ::ₘ os⟩ none
        ⟨(o.addFileStream w path severity).1, (o.addFileStream w path severity).2 ::ₘ os⟩
  | addConsoleStream (w os) {o : Owner} (severity) (hbuilder : o.built = false) :
      Step ⟨w, o ::ₘ os⟩ none ⟨w, o.addConsoleStream severity ::ₘ os⟩
  | setFormat (w os) {o : Owner} (format) (hbuilder : o.built = false) :
      Step ⟨w, o ::ₘ os⟩ none ⟨w, o.setFormat format ::ₘ os⟩
  | clear (w os) {o : Owner} (hbuilder : o.built = false) :
      Step ⟨w, o ::ₘ os⟩ none ⟨w.destroyAll o.handles, o.cleared ::ₘ os⟩
  | build (w os) {o : Owner} {can : Path → Bool} {order : List Severity} (hbuilder : o.built = false)
      (hcan : can [] = false) (horder : order.Perm severities)
      (hfits : Fits (o ::ₘ os) o.handles.length) :
      Step ⟨w, o ::ₘ os⟩ none
        ⟨(build can order w o).1, (build can order w o).2.elim (o ::ₘ os) fun l => l ::ₘ o ::ₘ os⟩
  | copy (w os) {o : Owner} (hlogger : o.built = true) (hfits : Fits (o ::ₘ os) o.handles.length) :
      Step ⟨w, o ::ₘ os⟩ none ⟨w.copyAll o.handles, o ::ₘ o ::ₘ os⟩
  | assign (w os) {o other : Owner} (hlogger : o.built = true ∧ other.built = true)
      (hfits : Fits (o ::ₘ other ::ₘ os) other.handles.length) :
      Step ⟨w, o ::ₘ other ::ₘ os⟩ none
        ⟨(w.destroyAll o.handles).copyAll other.handles, other ::ₘ other ::ₘ os⟩
  | move (w os) {o : Owner} (format) :
      Step ⟨w, o ::ₘ os⟩ none ⟨w, o ::ₘ o.cleared.setFormat format ::ₘ os⟩
  | moveAssign (w os) {o other : Owner} (format) (hsame : o.built = other.built) :
      Step ⟨w, o ::ₘ other ::ₘ os⟩ none
        ⟨w.destroyAll o.handles, other ::ₘ other.cleared.setFormat format ::ₘ os⟩
  | destroy (w os) (o : Owner) : Step ⟨w, o ::ₘ os⟩ none ⟨w.destroyAll o.handles, os⟩
  | log {w w'} (os) {o : Owner} (entry) (hlogger : o.built = true) (hlog : log w o entry = some w') :
      Step ⟨w, o ::ₘ os⟩ (some (o, entry)) ⟨w', o ::ₘ os⟩

/-- The runs through states with `P`, and what they log. -/
inductive Steps (P : System → Prop) : System → List (Owner × Entry) → System → Prop
  | refl {s : System} (h : P s) : Steps P s [] s
  | tail {s s' s'' : System} {logged : List (Owner × Entry)} {line : Option (Owner × Entry)}
      (h : Steps P s logged s') (hstep : Step s' line s'') (hP : P s'') :
      Steps P s (logged ++ line.toList) s''

/-- Nothing has been built. -/
def System.initial (files : Path → List Char) (console : List Char) : System :=
  ⟨⟨fun _ => none, 0, files, console⟩, 0⟩

/-- Some calls lead here, whatever the files and the console held before. -/
def Reached (s : System) : Prop :=
  ∃ files console logged, Steps (fun _ => True) (.initial files console) logged s

/-- What a call of `log` puts into the file of the path: the line once for each handle. -/
def lines (path : Path) (logged : Owner × Entry) : List Char :=
  ((logged.1.outputStreams.element logged.2.severity).1.filter (·.path = path)).flatMap
    fun _ => makeFormat logged.1.format logged.2 ++ ['\n']

def consoleLines (logged : Owner × Entry) : List Char :=
  if (logged.1.outputStreams.element logged.2.severity).2 then
    makeFormat logged.1.format logged.2 ++ ['\n']
  else []

/-- Calls that log nothing: the map is right for the handles after them, and what these hold is
kept. -/
structure Passes (w w' : World) (live' : Multiset RefcountedStream) : Prop where
  sound : Sound w' live'
  keeps : ∀ p, held live' p ≠ 0 → w.Keeps w' p
  console : w'.console = w.console

/-- The map is right, a handle points to its stream iff it is in a logger, and all fit. -/
structure Good (s : System) : Prop where
  sound : Sound s.world (live s.owners)
  opened : ∀ o ∈ s.owners, ∀ h ∈ o.handles, h.stream.isSome = o.built
  fits : Fits s.owners 0

section Calls

variable {w w' w'' : World} {rest live' live'' : Multiset RefcountedStream} {o other : Owner}
  {os : Multiset Owner} {s : OutputStreams} {severity : Severity} {hs : List RefcountedStream}
  {can : Path → Bool} {console : Bool} {path : Path} {n : ℕ}

theorem Passes.trans (h₁ : Passes w w' live') (h₂ : Passes w' w'' live'')
    (hheld : ∀ p, held live'' p ≠ 0 → held live' p ≠ 0) : Passes w w'' live'' where
  sound := h₂.sound
  keeps p hp := (h₁.keeps p (hheld p hp)).trans (h₂.keeps p hp)
  console := h₂.console.trans h₁.console

theorem live_cons : live (o ::ₘ os) = (o.handles : Multiset RefcountedStream) + live os :=
  Multiset.cons_bind ..

/-! ### The handles of a map -/

def OutputStreams.others (s : OutputStreams) (severity : Severity) : List RefcountedStream :=
  (severities.erase severity).flatMap fun sev => (s.element sev).1

theorem handles_split (s : OutputStreams) (severity : Severity) :
    (s.handles : Multiset RefcountedStream) = (s.element severity).1 + s.others severity := by
  have hperm := (List.perm_cons_erase (mem_severities severity)).flatMap_right fun sev => (s.element sev).1
  rw [Multiset.coe_add, Multiset.coe_eq_coe]
  exact hperm

theorem element_put (x : List RefcountedStream × Bool) : (s.put severity x).element severity = x := by
  simp [OutputStreams.put, OutputStreams.element]

theorem others_put (x : List RefcountedStream × Bool) :
    (s.put severity x).others severity = s.others severity := by
  unfold OutputStreams.others
  refine List.flatMap_congr fun sev hsev => ?_
  have hne : sev ≠ severity := ((severities_nodup.mem_erase_iff).mp hsev).1
  simp [OutputStreams.put, OutputStreams.element, hne]

theorem handles_put (x : List RefcountedStream × Bool) :
    ((s.put severity x).handles : Multiset RefcountedStream) = x.1 + s.others severity := by
  rw [handles_split _ severity, element_put, others_put]

theorem handles_empty : OutputStreams.empty.handles = [] := by
  simp [OutputStreams.handles, OutputStreams.empty, OutputStreams.element]

theorem absent_element (h : s severity = none) : s.element severity = ([], false) := by
  simp [OutputStreams.element, h]

theorem mem_handles {h : RefcountedStream} : h ∈ s.handles ↔ ∃ sev, h ∈ (s.element sev).1 := by
  simp [OutputStreams.handles, mem_severities]

/-! ### The calls one by one -/

theorem destroyAll_passes (hw : Sound w (hs + rest)) (hfits : rest.card + hs.length < 2 ^ 64) :
    Passes w (w.destroyAll hs) rest := by
  rw [add_comm] at hw
  exact ⟨destroyAll_sound hw hfits, fun p hp => destroyAll_keeps hw hfits hp, destroyAll_console⟩

theorem copyAll_passes (hw : Sound w live') (hmem : ∀ h ∈ hs, h ∈ live')
    (hfits : live'.card + hs.length < 2 ^ 64) : Passes w (w.copyAll hs) ((hs : Multiset RefcountedStream) + live') where
  sound := by
    rw [add_comm]
    exact copyAll_sound hw hfits fun h hh node hnode => hw.pointing h (hmem h hh) node hnode
  keeps p hp := copyAll_keeps
  console := copyAll_console

theorem construct_snd : (w.construct path).2 = ⟨path, none⟩ := by
  cases hg : w.globalStreams path with
  | none => rw [construct_of_none hg]
  | some g => rw [construct_of_some hg]

theorem addFileStream_handles :
    ((o.addFileStream w path severity).2.handles : Multiset RefcountedStream) =
      ⟨path, none⟩ ::ₘ (o.handles : Multiset RefcountedStream) := by
  have hnew : (o.addFileStream w path severity).2.handles = (o.outputStreams.put severity
      (⟨path, none⟩ :: (o.outputStreams.element severity).1, (o.outputStreams.element severity).2)).handles := by
    rw [← construct_snd (w := w)]
    rfl
  rw [hnew, handles_put, Owner.handles, handles_split _ severity]
  rfl

theorem addFileStream_world : (o.addFileStream w path severity).1 =
    (w.construct path).1.destroy ⟨[], none⟩ := by
  simp only [Owner.addFileStream]

theorem addFileStream_passes (hw : Sound w live') (hfits : live'.card + 1 < 2 ^ 64) :
    Passes w (o.addFileStream w path severity).1 (⟨path, none⟩ ::ₘ live') where
  sound := by
    rw [addFileStream_world]
    exact destroy_moved_sound (construct_sound hw hfits)
  keeps p hp := by
    rw [addFileStream_world]
    have hmade : w.Keeps (w.construct path).1 p := construct_keeps
    refine hmade.trans ?_
    by_cases hempty : p = []
    · intro node hopen
      rw [hempty] at hopen
      exact absurd hopen ((construct_sound hw hfits).nameless node)
    · exact destroy_keeps (.inr hempty)
  console := by
    rw [addFileStream_world, destroy_console, construct_console]

theorem openList_nil : openList can w [] = (w, [], true) := rfl

theorem openList_throws {h : RefcountedStream} (hthrows : (w.openStream can h).2 = none) :
    openList can w (h :: hs) = ((w.openStream can h).1, h :: hs, false) := by
  have hresult : w.openStream can h = ((w.openStream can h).1, none) := Prod.ext rfl hthrows
  rw [openList, hresult]

theorem openList_opens {h h' : RefcountedStream} (hopens : (w.openStream can h).2 = some h') :
    openList can w (h :: hs) = ((openList can (w.openStream can h).1 hs).1,
      h' :: (openList can (w.openStream can h).1 hs).2.1,
      (openList can (w.openStream can h).1 hs).2.2) := by
  have hresult : w.openStream can h = ((w.openStream can h).1, some h') := Prod.ext rfl hopens
  rw [openList, hresult]

/-- What the opening of streams does to the world; no open stream is lost by it. -/
structure Opens (w w' : World) (live' : Multiset RefcountedStream) : Prop where
  sound : Sound w' live'
  keeps : ∀ p, w.Keeps w' p
  console : w'.console = w.console

theorem Opens.trans (h₁ : Opens w w' live') (h₂ : Opens w' w'' live'') : Opens w w'' live'' :=
  ⟨h₂.sound, fun p => (h₁.keeps p).trans (h₂.keeps p), h₂.console.trans h₁.console⟩

/-- The opening of a list: the handles that it leaves, all of which point to their streams if no
`open` throws. -/
theorem openList_opens_all (hcan : can [] = false)
    (hw : Sound w ((hs : Multiset RefcountedStream) + rest)) :
    Opens w (openList can w hs).1 (((openList can w hs).2.1 : Multiset RefcountedStream) + rest) ∧
      (openList can w hs).2.1.length = hs.length ∧
      ((openList can w hs).2.2 = true → ∀ h ∈ (openList can w hs).2.1, h.stream.isSome) := by
  induction hs generalizing w rest with
  | nil =>
    rw [openList_nil]
    exact ⟨⟨hw, fun p => .refl, rfl⟩, rfl, by simp⟩
  | cons h hs ih =>
    rw [← Multiset.cons_coe, Multiset.cons_add] at hw
    obtain ⟨hopen, hpoints⟩ := openStream_sound hcan hw
    have hfirst : Opens w (w.openStream can h).1
        ((w.openStream can h).2.getD h ::ₘ ((hs : Multiset RefcountedStream) + rest)) :=
      ⟨hopen, fun p => openStream_keeps, openStream_console⟩
    cases hresult : (w.openStream can h).2 with
    | none =>
      rw [hresult, Option.getD_none, ← Multiset.cons_add, Multiset.cons_coe] at hfirst
      rw [openList_throws hresult]
      exact ⟨hfirst, rfl, by simp⟩
    | some h' =>
      rw [hresult, Option.getD_some, ← Multiset.add_cons] at hfirst
      obtain ⟨hopens, hlength, hall⟩ := ih hfirst.sound
      rw [openList_opens hresult, ← Multiset.cons_coe, Multiset.cons_add, ← Multiset.add_cons]
      refine ⟨hfirst.trans hopens, by simp [hlength], fun hok h'' hmem => ?_⟩
      rw [List.mem_cons] at hmem
      obtain rfl | hmem := hmem
      · exact (hpoints h'' (by simp [hresult])).2
      · exact hall hok h'' hmem

theorem openAll_absent {order : List Severity} (habsent : s severity = none) :
    openAll can w s (severity :: order) = openAll can w s order := by
  rw [openAll, habsent]

theorem openAll_present {order : List Severity} (hpresent : s severity = some (hs, console)) :
    openAll can w s (severity :: order) =
      if (openList can w hs).2.2 = true then openAll can (openList can w hs).1
        (s.put severity ((openList can w hs).2.1, console)) order
      else ((openList can w hs).1, s.put severity ((openList can w hs).2.1, console), false) := by
  rw [openAll, hpresent]

/-- The severities that are not gone through are left alone. -/
theorem openAll_other {order : List Severity} {sev : Severity} (h : sev ∉ order) :
    (openAll can w s order).2.1 sev = s sev := by
  induction order generalizing w s with
  | nil => rfl
  | cons severity order ih =>
    rw [List.mem_cons, not_or] at h
    have hput : ∀ x, (s.put severity x) sev = s sev := fun x => Function.update_of_ne h.1 ..
    cases hsev : s severity with
    | none => rw [openAll_absent hsev, ih h.2]
    | some x =>
      rw [openAll_present hsev]
      split_ifs
      · rw [ih h.2, hput]
      · exact hput _

theorem openAll_opens_all (hcan : can [] = false) {order : List Severity} (hnodup : order.Nodup)
    (hw : Sound w ((s.handles : Multiset RefcountedStream) + rest)) :
    Opens w (openAll can w s order).1
        (((openAll can w s order).2.1.handles : Multiset RefcountedStream) + rest) ∧
      (openAll can w s order).2.1.handles.length = s.handles.length ∧
      ((openAll can w s order).2.2 = true → ∀ sev ∈ order,
        ∀ h ∈ ((openAll can w s order).2.1.element sev).1, h.stream.isSome) := by
  induction order generalizing w s with
  | nil => exact ⟨⟨hw, fun p => .refl, rfl⟩, rfl, by simp⟩
  | cons severity order ih =>
    rw [List.nodup_cons] at hnodup
    cases hsev : s severity with
    | none =>
      rw [openAll_absent hsev]
      obtain ⟨hopens, hlength, hall⟩ := ih hnodup.2 hw
      refine ⟨hopens, hlength, fun hok => List.forall_mem_cons.mpr ⟨?_, hall hok⟩⟩
      have habsent : (openAll can w s order).2.1 severity = none := (openAll_other hnodup.1).trans hsev
      simp [absent_element habsent]
    | some x =>
      obtain ⟨hs, console⟩ := x
      have helement : s.element severity = (hs, console) := by simp [OutputStreams.element, hsev]
      have hsplit : (s.handles : Multiset RefcountedStream) = hs + s.others severity := by
        rw [handles_split s severity, helement]
      rw [hsplit, add_assoc] at hw
      obtain ⟨hlist, hlistLength, hlistAll⟩ := openList_opens_all hcan hw
      have hopened : Opens w (openList can w hs).1 (((s.put severity
          ((openList can w hs).2.1, console)).handles : Multiset RefcountedStream) + rest) := by
        rw [handles_put, add_assoc]
        exact hlist
      have hlength : (s.put severity ((openList can w hs).2.1, console)).handles.length =
          s.handles.length := by
        rw [← Multiset.coe_card, handles_put, ← Multiset.coe_card s.handles, hsplit]
        simp [hlistLength]
      rw [openAll_present hsev]
      split_ifs with hok
      · obtain ⟨hopens, hrestLength, hall⟩ := ih hnodup.2 hopened.sound
        refine ⟨hopened.trans hopens, hrestLength.trans hlength, fun hdone =>
          List.forall_mem_cons.mpr ⟨?_, hall hdone⟩⟩
        rw [OutputStreams.element, openAll_other hnodup.1]
        change ∀ h ∈ ((s.put severity ((openList can w hs).2.1, console)).element severity).1, _
        rw [element_put]
        exact hlistAll hok
      · exact ⟨hopened, hlength, by simp⟩

/-- A build leaves the builder as it is; when it throws no handle is left of the logger. -/
theorem build_passes (hcan : can [] = false) {order : List Severity} (horder : order.Perm severities)
    (hw : Sound w live') (hmem : ∀ h ∈ o.handles, h ∈ live')
    (hfits : live'.card + o.handles.length < 2 ^ 64) :
    Passes w (build can order w o).1
        (((build can order w o).2.elim [] Owner.handles : List RefcountedStream) + live') ∧
      ∀ l ∈ (build can order w o).2, l.built = true ∧ l.handles.length = o.handles.length ∧
        ∀ h ∈ l.handles, h.stream.isSome := by
  have hcopy : Passes w (w.copyAll o.handles) ((o.handles : Multiset RefcountedStream) + live') :=
    copyAll_passes hw hmem hfits
  obtain ⟨hopens, hlength, hall⟩ := openAll_opens_all hcan (horder.nodup_iff.mpr severities_nodup)
    (s := o.outputStreams) hcopy.sound
  unfold build
  dsimp only
  split_ifs with hok
  · refine ⟨⟨hopens.sound, fun p hp => ?_, hopens.console.trans hcopy.console⟩, ?_⟩
    · exact copyAll_keeps.trans (hopens.keeps p)
    · intro l hl
      obtain rfl : _ = l := by simpa using hl
      refine ⟨rfl, hlength, fun h hh => ?_⟩
      obtain ⟨sev, hsev⟩ := mem_handles.mp hh
      exact hall hok sev (horder.mem_iff.mpr (mem_severities sev)) h hsev
  · have hgone := destroyAll_passes hopens.sound (by rw [hlength]; exact hfits)
    refine ⟨⟨by simpa using hgone.sound, fun p hp => ?_,
      hgone.console.trans (hopens.console.trans hcopy.console)⟩, by simp⟩
    refine copyAll_keeps.trans ((hopens.keeps p).trans (hgone.keeps p ?_))
    simpa using hp

/-- A logger whose pointers are good logs each line once for each handle. -/
theorem log_sound {entry : Entry} (hw : Sound w live') (hmem : ∀ h ∈ o.handles, h ∈ live')
    (hstream : ∀ h ∈ o.handles, h.stream.isSome) : log w o entry = some { w with
      files := fun p => w.files p ++ lines p (o, entry)
      console := w.console ++ consoleLines (o, entry) } := by
  unfold log lines consoleLines
  cases hsev : o.outputStreams entry.severity with
  | none => simp [absent_element hsev]
  | some x =>
    obtain ⟨hs, console⟩ := x
    have helement : o.outputStreams.element entry.severity = (hs, console) := by
      simp [OutputStreams.element, hsev]
    have hhandles : ∀ h ∈ hs, h ∈ o.handles := fun h hh =>
      mem_handles.mpr ⟨entry.severity, by rwa [helement]⟩
    have hwrite := fun console' => writeAll_sound (makeFormat o.format entry)
      (hw.rewrite w.files console') (fun h hh => hmem h (hhandles h hh))
      fun h hh => hstream h (hhandles h hh)
    cases console with
    | true => simpa [helement] using hwrite (w.console ++ (makeFormat o.format entry ++ ['\n']))
    | false => simpa [helement] using hwrite w.console

/-! ### The steps -/

/-- What a step is to do: a file that is held after it and was open gets the line and nothing else. -/
structure Follows (s : System) (line : Option (Owner × Entry)) (s' : System) : Prop where
  good : Good s'
  files : ∀ p, held (live s'.owners) p ≠ 0 → ∀ node, s.world.Open p node →
    s'.world.Open p node ∧ s'.world.files p = s.world.files p ++ line.toList.flatMap (lines p)
  console : s'.world.console = s.world.console ++ line.toList.flatMap consoleLines

theorem Passes.follows {owners owners' : Multiset Owner} (h : Passes w w' (live owners'))
    (hopened : ∀ o ∈ owners', ∀ h ∈ o.handles, h.stream.isSome = o.built) (hfits : Fits owners' 0) :
    Follows ⟨w, owners⟩ none ⟨w', owners'⟩ where
  good := ⟨h.sound, hopened, hfits⟩
  files p hp node hopen := by simpa using h.keeps p hp node hopen
  console := by simpa using h.console

theorem opened_cons : (∀ o' ∈ o ::ₘ os, ∀ h ∈ o'.handles, h.stream.isSome = o'.built) ↔
    (∀ h ∈ o.handles, h.stream.isSome = o.built) ∧ ∀ o' ∈ os, ∀ h ∈ o'.handles, h.stream.isSome = o'.built := by
  simp

theorem fits_cons : Fits (o ::ₘ os) n ↔ o.handles.length + (live os).card + n < 2 ^ 64 := by
  rw [Fits, live_cons, Multiset.card_add, Multiset.coe_card]

theorem mem_live_cons {h : RefcountedStream} (hmem : h ∈ o.handles) : h ∈ live (o ::ₘ os) := by
  rw [live_cons, Multiset.mem_add]
  exact .inl (Multiset.mem_coe.mpr hmem)

theorem cleared_handles : o.cleared.handles = [] := handles_empty

theorem addConsoleStream_handles : ((o.addConsoleStream severity).handles : Multiset RefcountedStream) =
    o.handles := by
  rw [Owner.handles, Owner.addConsoleStream, handles_put, Owner.handles, handles_split _ severity]

/-- A call that changes one owner, and the world. -/
theorem Good.replace {o' : Owner} (hs : Good ⟨w, o ::ₘ os⟩)
    (hpasses : Passes w w' ((o'.handles : Multiset RefcountedStream) + live os))
    (hopened : ∀ h ∈ o'.handles, h.stream.isSome = o'.built)
    (hfits : o'.handles.length + (live os).card < 2 ^ 64) :
    Follows ⟨w, o ::ₘ os⟩ none ⟨w', o' ::ₘ os⟩ := by
  refine Passes.follows ?_ (opened_cons.mpr ⟨hopened, (opened_cons.mp hs.opened).2⟩) (fits_cons.mpr hfits)
  rwa [live_cons]

/-- A call that adds one owner to those there are. -/
theorem Good.extend {owners : Multiset Owner} (hs : Good ⟨w, owners⟩)
    (hpasses : Passes w w' ((o.handles : Multiset RefcountedStream) + live owners))
    (hopened : ∀ h ∈ o.handles, h.stream.isSome = o.built)
    (hfits : o.handles.length + (live owners).card < 2 ^ 64) :
    Follows ⟨w, owners⟩ none ⟨w', o ::ₘ owners⟩ := by
  refine Passes.follows ?_ (opened_cons.mpr ⟨hopened, hs.opened⟩) (fits_cons.mpr hfits)
  rwa [live_cons]

theorem Good.remove (hs : Good ⟨w, o ::ₘ os⟩) : Follows ⟨w, o ::ₘ os⟩ none ⟨w.destroyAll o.handles, os⟩ := by
  have hfits := fits_cons.mp hs.fits
  have hw : Sound w ((o.handles : Multiset RefcountedStream) + live os) := live_cons (o := o) ▸ hs.sound
  refine Passes.follows (destroyAll_passes hw (by omega)) (opened_cons.mp hs.opened).2 ?_
  unfold Fits
  omega

theorem live_handedOver {format : List Char} :
    live (o ::ₘ o.cleared.setFormat format ::ₘ os) = live (o ::ₘ os) := by
  rw [live_cons, live_cons, live_cons]
  change _ + ((o.cleared.handles : Multiset RefcountedStream) + _) = _
  rw [cleared_handles, Multiset.coe_nil, zero_add]

/-- The handles go over to another owner, and none is left behind. -/
theorem Good.handOver {format : List Char} (hs : Good ⟨w, o ::ₘ os⟩) :
    Follows ⟨w, o ::ₘ os⟩ none ⟨w, o ::ₘ o.cleared.setFormat format ::ₘ os⟩ := by
  obtain ⟨hopened, hothers⟩ := opened_cons.mp hs.opened
  have hw : Sound w (live (o ::ₘ o.cleared.setFormat format ::ₘ os)) := by
    rw [live_handedOver]
    exact hs.sound
  refine Passes.follows ⟨hw, fun p hp => .refl, rfl⟩ ?_ ?_
  · refine opened_cons.mpr ⟨hopened, opened_cons.mpr ⟨?_, hothers⟩⟩
    change ∀ h ∈ o.cleared.handles, _
    simp [cleared_handles]
  · rw [Fits, live_handedOver]
    exact hs.fits

theorem Follows.trans {s s' s'' : System} (h₁ : Follows s none s') (h₂ : Follows s' none s'')
    (hheld : ∀ p, held (live s''.owners) p ≠ 0 → held (live s'.owners) p ≠ 0) :
    Follows s none s'' where
  good := h₂.good
  files p hp node hopen := by
    obtain ⟨hopen', hfiles'⟩ := h₁.files p (hheld p hp) node hopen
    obtain ⟨hopen'', hfiles''⟩ := h₂.files p hp node hopen'
    exact ⟨hopen'', by rw [hfiles'', hfiles']; simp⟩
  console := by
    rw [h₂.console, h₁.console]
    simp

theorem Good.step {s s' : System} {line : Option (Owner × Entry)} (hs : Good s) (h : Step s line s') :
    Follows s line s' := by
  cases h with
  | newBuilder w os =>
    have hnone : newBuilder.handles = [] := handles_empty
    refine hs.extend ⟨?_, fun p hp => .refl, rfl⟩ ?_ ?_
    · simpa [hnone] using hs.sound
    · simp [hnone]
    · simpa [hnone, Fits] using hs.fits
  | @addFileStream w os o path severity hbuilder hmore =>
    have hmore := fits_cons.mp hmore
    have hopened := (opened_cons.mp hs.opened).1
    have hnew : ((o.addFileStream w path severity).2.handles : Multiset RefcountedStream) + live os =
        ⟨path, none⟩ ::ₘ live (o ::ₘ os) := by
      rw [addFileStream_handles, Multiset.cons_add, live_cons]
    refine hs.replace ?_ ?_ ?_
    · rw [hnew]
      refine addFileStream_passes hs.sound ?_
      rw [live_cons, Multiset.card_add, Multiset.coe_card]
      exact hmore
    · intro h hmem
      rw [← Multiset.mem_coe, addFileStream_handles, Multiset.mem_cons, Multiset.mem_coe] at hmem
      obtain rfl | hmem := hmem
      · exact hbuilder.symm
      · exact hopened h hmem
    · have hcard := congrArg Multiset.card hnew
      rw [Multiset.card_cons, live_cons, Multiset.card_add, Multiset.card_add, Multiset.coe_card,
        Multiset.coe_card] at hcard
      omega
  | @addConsoleStream w os o severity hbuilder =>
    have hmem : ∀ h ∈ (o.addConsoleStream severity).handles, h ∈ o.handles := fun h hh => by
      rwa [← Multiset.mem_coe, ← addConsoleStream_handles, Multiset.mem_coe]
    have hfits := fits_cons.mp hs.fits
    refine hs.replace ⟨?_, fun p hp => .refl, rfl⟩ ?_ ?_
    · rw [addConsoleStream_handles, ← live_cons]
      exact hs.sound
    · exact fun h hh => (opened_cons.mp hs.opened).1 h (hmem h hh)
    · rw [← Multiset.coe_card, addConsoleStream_handles]
      exact hfits
  | @setFormat w os o format hbuilder =>
    have hw : Sound w ((o.handles : Multiset RefcountedStream) + live os) := live_cons (o := o) ▸ hs.sound
    exact hs.replace ⟨hw, fun p hp => .refl, rfl⟩ (opened_cons.mp hs.opened).1 (fits_cons.mp hs.fits)
  | @clear w os o hbuilder =>
    have hfits := fits_cons.mp hs.fits
    have hw : Sound w ((o.handles : Multiset RefcountedStream) + live os) := live_cons (o := o) ▸ hs.sound
    refine hs.replace ?_ ?_ ?_
    · rw [cleared_handles, Multiset.coe_nil, zero_add]
      exact destroyAll_passes hw (by omega)
    · simp [cleared_handles]
    · rw [cleared_handles, List.length_nil]
      omega
  | @build w os o can order hbuilder hcan horder hmore =>
    have hbuild := build_passes hcan horder hs.sound (fun h hh => mem_live_cons hh) hmore
    cases hresult : (build can order w o).2 with
    | none =>
      rw [hresult] at hbuild
      exact Passes.follows (by simpa using hbuild.1) hs.opened hs.fits
    | some l =>
      rw [hresult] at hbuild
      obtain ⟨hbuilt, hlength, hall⟩ := hbuild.2 l rfl
      refine hs.extend hbuild.1 ?_ ?_
      · rw [hbuilt]
        exact hall
      · rw [hlength, add_comm]
        exact hmore
  | @copy w os o hlogger hmore =>
    refine hs.extend (copyAll_passes hs.sound (fun h hh => mem_live_cons hh) hmore)
      (opened_cons.mp hs.opened).1 ?_
    rw [add_comm]
    exact hmore
  | @assign w os o other hlogger hmore =>
    have hremoved := hs.remove
    have hfits := hremoved.good.fits
    have hle : (live (other ::ₘ os)).card + other.handles.length < 2 ^ 64 := by
      have hmore := fits_cons.mp hmore
      omega
    have hcopied := hremoved.good.extend (copyAll_passes hremoved.good.sound
      (fun h hh => mem_live_cons hh) hle) (opened_cons.mp hremoved.good.opened).1 (by omega)
    refine hremoved.trans hcopied fun p hp => ?_
    rw [live_cons, live_cons, held_add] at hp
    change held (live (other ::ₘ os)) p ≠ 0
    rw [live_cons]
    rw [held_add] at hp ⊢
    omega
  | move w os format => exact hs.handOver
  | @moveAssign w os o other format hsame =>
    have hremoved := hs.remove
    refine hremoved.trans hremoved.good.handOver fun p hp => ?_
    rwa [live_handedOver] at hp
  | destroy w os o => exact hs.remove
  | @log w w' os o entry hlogger hlog =>
    have hopened := (opened_cons.mp hs.opened).1
    rw [hlogger] at hopened
    rw [log_sound hs.sound (fun h hh => mem_live_cons hh) hopened, Option.some.injEq] at hlog
    subst hlog
    refine ⟨⟨hs.sound.rewrite _ _, hs.opened, hs.fits⟩, fun p hp node hopen => ⟨hopen, ?_⟩, ?_⟩
    · simp
    · simp

theorem Steps.good {P : System → Prop} {s s' : System} {logged : List (Owner × Entry)}
    (h : Steps P s logged s') (hs : Good s) : Good s' := by
  induction h with
  | refl => exact hs
  | tail h hstep hP ih => exact (ih.step hstep).good

theorem good_initial (files : Path → List Char) (console : List Char) :
    Good (System.initial files console) where
  sound := by
    refine ⟨?_, ?_, ?_, ?_⟩
    · intro p hp g hg
      cases hg
    · intro p hp
      exact iff_of_true rfl rfl
    · rintro node ⟨refs, h⟩
      cases h
    · intro h hmem
      exact absurd hmem (Multiset.notMem_zero h)
  opened o ho := absurd ho (Multiset.notMem_zero o)
  fits := by
    change 0 + 0 < 2 ^ 64
    omega

theorem Reached.good {s : System} (h : Reached s) : Good s := by
  obtain ⟨files, console, logged, h⟩ := h
  exact h.good (good_initial files console)

theorem Reached.log_eq {s : System} (h : Reached s) (ho : o ∈ s.owners) (hbuilt : o.built = true)
    (entry : Entry) : log s.world o entry = some { s.world with
      files := fun p => s.world.files p ++ lines p (o, entry)
      console := s.world.console ++ consoleLines (o, entry) } := by
  obtain ⟨hw, hopened, hfits⟩ := h.good
  have hopened := hopened o ho
  rw [hbuilt] at hopened
  exact log_sound hw (fun h hh => Multiset.mem_bind.mpr ⟨o, ho, Multiset.mem_coe.mpr hh⟩) hopened

end Calls

/-- A builder with one file. -/
def traceBuilder : World × Owner :=
  newBuilder.addFileStream (System.initial (fun _ => []) []).world ['a'] .trace

def traceLogger : World × Option Owner :=
  build (fun path => path ≠ []) severities traceBuilder.1 traceBuilder.2

/-- The builder and the logger that it builds. -/
def traceSystem : System :=
  ⟨traceLogger.1, traceLogger.2.elim {traceBuilder.2} fun l => {l, traceBuilder.2}⟩

theorem reached_traceSystem : Reached traceSystem := by
  refine ⟨fun _ => [], [], [], ?_⟩
  have h₁ : Steps (fun _ => True) (.initial (fun _ => []) []) [] _ :=
    .tail (.refl trivial) (.newBuilder _ 0) trivial
  have h₂ : Steps (fun _ => True) (.initial (fun _ => []) []) [] _ :=
    h₁.tail (.addFileStream _ 0 ['a'] .trace rfl (by unfold Fits; decide)) trivial
  exact h₂.tail (.build _ 0 rfl rfl (.refl _) (by unfold Fits; decide)) trivial

section Configurations

variable {w : World} {o : Owner} {os : Multiset Owner}

theorem Steps.append {P : System → Prop} {s s' s'' : System} {logged logged' : List (Owner × Entry)}
    (h : Steps P s logged s') (h' : Steps P s' logged' s'') : Steps P s (logged ++ logged') s'' := by
  induction h' with
  | refl => rwa [List.append_nil]
  | tail h' hstep hP ih =>
    rw [← List.append_assoc]
    exact ih.tail hstep hP

/-- A call on a builder is a step, and makes one handle at most. -/
theorem call_step (w : World) (os : Multiset Owner) (c : Call) (hbuilder : o.built = false) (hfits : Fits (o ::ₘ os) 1) :
    Step ⟨w, o ::ₘ os⟩ none ⟨(clientBuilder.call (w, o) c).1, (clientBuilder.call (w, o) c).2 ::ₘ os⟩ ∧
      (clientBuilder.call (w, o) c).2.built = false ∧
      (live ((clientBuilder.call (w, o) c).2 ::ₘ os)).card ≤ (live (o ::ₘ os)).card + 1 := by
  cases c with
  | addFileStream path severity =>
    refine ⟨.addFileStream w os path severity hbuilder hfits, hbuilder, ?_⟩
    change (live ((o.addFileStream w path severity).2 ::ₘ os)).card ≤ _
    rw [live_cons, addFileStream_handles, Multiset.cons_add, Multiset.card_cons, live_cons]
  | addConsoleStream severity =>
    refine ⟨.addConsoleStream w os severity hbuilder, hbuilder, ?_⟩
    change (live (o.addConsoleStream severity ::ₘ os)).card ≤ _
    rw [live_cons, addConsoleStream_handles, ← live_cons]
    omega
  | setFormat format =>
    refine ⟨.setFormat w os format hbuilder, hbuilder, ?_⟩
    change (live (o.setFormat format ::ₘ os)).card ≤ _
    have hsame : (o.setFormat format).handles = o.handles := rfl
    rw [live_cons, hsame, ← live_cons]
    omega

theorem calls_steps (calls : List Call) (hbuilder : o.built = false)
    (hfits : Fits (o ::ₘ os) calls.length) :
    Steps (fun _ => True) ⟨w, o ::ₘ os⟩ []
      ⟨(calls.foldl clientBuilder.call (w, o)).1, (calls.foldl clientBuilder.call (w, o)).2 ::ₘ os⟩ := by
  induction calls generalizing w o with
  | nil => exact .refl trivial
  | cons c calls ih =>
    unfold Fits at hfits ih
    rw [List.length_cons] at hfits
    obtain ⟨hstep, hbuilder', hcard⟩ := call_step w os c hbuilder (by unfold Fits; omega)
    have hrest := ih (w := (clientBuilder.call (w, o) c).1) hbuilder' (by omega)
    exact (Steps.refl trivial |>.tail hstep trivial).append hrest


end Configurations

/-- The path `a`, and then a number in place of a path. -/
def halfConfiguration : Json := .object
  [("log".toList, .object [("TRACE".toList, .object [("paths".toList, .array [.string ['a'], .number 1])])])]

theorem Steps.keeps {P : System → Prop} {s s' : System} {logged : List (Owner × Entry)} {node : ℕ} {path : Path}
    (hP : ∀ s, P s → held (live s.owners) path ≠ 0) (h : Steps P s logged s') (hs : Good s)
    (hopen : s.world.Open path node) : s'.world.Open path node ∧
      s'.world.files path = s.world.files path ++ logged.flatMap (lines path) := by
  induction h with
  | refl => exact ⟨hopen, by simp⟩
  | tail h hstep hP' ih =>
    obtain ⟨hopen', hfiles⟩ := ih
    obtain ⟨hopen'', hfiles'⟩ := ((h.good hs).step hstep).files path (hP _ hP') node hopen'
    exact ⟨hopen'', by rw [hfiles', hfiles, List.flatMap_append, List.append_assoc]⟩

end MaiFaSp.Logger
