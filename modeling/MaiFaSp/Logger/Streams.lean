import MaiFaSp.Allocator.FitMode
import Mathlib.Data.Multiset.Count

/-!
# The counted streams of the client loggers

`client_logger::refcounted_stream` (`client_logger.cpp:138-212`): the handles of a path share one
`ofstream` in the static map `_global_streams`, which counts them and closes the stream with the
last of them.
-/

namespace MaiFaSp.Logger

abbrev Path := List Char

/-- An element of `_global_streams`. A pointer to its `ofstream` is good while its node stands. -/
structure GlobalStream where
  refs : ℕ
  node : ℕ
  isOpen : Bool
  deriving Repr, DecidableEq

/-- `nodes` is above the number of every node made so far. -/
structure World where
  globalStreams : Path → Option GlobalStream
  nodes : ℕ
  files : Path → List Char
  console : List Char

/-- `_stream`: the path, and the node that the pointer leads to. -/
structure RefcountedStream where
  path : Path
  stream : Option ℕ
  deriving Repr, DecidableEq

namespace World

/-- `_global_streams[path]`, which makes an element of zeros where there is none. -/
def element (w : World) (path : Path) : GlobalStream := (w.globalStreams path).getD ⟨0, w.nodes, false⟩

def put (w : World) (path : Path) (g : GlobalStream) : World :=
  { w with globalStreams := Function.update w.globalStreams path (some g), nodes := w.nodes + 1 }

def erase (w : World) (path : Path) : World :=
  { w with globalStreams := Function.update w.globalStreams path none }

/-- The constructor from a path. -/
def construct (w : World) (path : Path) : World × RefcountedStream :=
  match w.globalStreams path with
  | none => (w.put path ⟨1, w.nodes, false⟩, ⟨path, none⟩)
  | some g => (w.put path { g with refs := sizeAdd g.refs 1 }, ⟨path, none⟩)

/-- The copy constructor; the copy is the handle over again. -/
def copy (w : World) (h : RefcountedStream) : World :=
  let g := w.element h.path
  w.put h.path { g with refs := sizeAdd g.refs 1 }

/-- The destructor. -/
def destroy (w : World) (h : RefcountedStream) : World :=
  let g := w.element h.path
  let refs := sizeSub g.refs 1
  if refs = 0 then w.erase h.path else w.put h.path { g with refs := refs }

/-- `open`, where `can path` when the file can be opened; `none` where it throws. A file that is
opened is emptied. -/
def openStream (can : Path → Bool) (w : World) (h : RefcountedStream) :
    World × Option RefcountedStream :=
  match h.stream with
  | some _ => (w, some h)
  | none =>
    let g := w.element h.path
    if g.isOpen then (w.put h.path g, some { h with stream := some g.node })
    else if can h.path then
      ({ w.put h.path { g with isOpen := true } with files := Function.update w.files h.path [] },
        some { h with stream := some g.node })
    else (w.put h.path g, none)

/-- `*stream_ptr << text << std::endl` where the pointer is not null; `none` through a pointer to a
node that is gone. A closed stream takes nothing. -/
def write (w : World) (h : RefcountedStream) (text : List Char) : Option World :=
  match h.stream with
  | none => some w
  | some node =>
    match w.globalStreams h.path with
    | none => none
    | some g =>
      if g.node ≠ node then none
      else if g.isOpen then
        some { w with files := Function.update w.files h.path (w.files h.path ++ (text ++ ['\n'])) }
      else some w

def copyAll (w : World) (hs : List RefcountedStream) : World := hs.foldl copy w

def destroyAll (w : World) (hs : List RefcountedStream) : World := hs.foldl destroy w

/-- The stream of the path is open, in this node. -/
def Open (w : World) (path : Path) (node : ℕ) : Prop := ∃ refs, w.globalStreams path = some ⟨refs, node, true⟩

/-- An open stream of the path stays, and its file. -/
def Keeps (w w' : World) (path : Path) : Prop :=
  ∀ node, w.Open path node → w'.Open path node ∧ w'.files path = w.files path

end World

/-- How many of the handles are of the path. -/
def held (live : Multiset RefcountedStream) (path : Path) : ℕ := live.countP fun h => h.path = path

/-- The map counts the handles, and a pointer leads to an open stream. The empty path is left out:
a handle that has been moved from counts it down with no handle gone. No file has that name. -/
structure Sound (w : World) (live : Multiset RefcountedStream) : Prop where
  counted : ∀ path, path ≠ [] → ∀ g, w.globalStreams path = some g → g.refs = held live path
  listed : ∀ path, path ≠ [] → (w.globalStreams path = none ↔ held live path = 0)
  nameless : ∀ node, ¬ w.Open [] node
  pointing : ∀ h ∈ live, ∀ node, h.stream = some node → w.Open h.path node

section Handles

variable {w w' w'' : World} {live : Multiset RefcountedStream} {h : RefcountedStream}
  {hs : List RefcountedStream} {path p : Path} {g : GlobalStream} {node : ℕ} {can : Path → Bool}

@[simp] theorem put_same : (w.put path g).globalStreams path = some g := Function.update_self ..

@[simp] theorem put_other (hne : p ≠ path) : (w.put path g).globalStreams p = w.globalStreams p :=
  Function.update_of_ne hne ..

@[simp] theorem put_files : (w.put path g).files = w.files := rfl

@[simp] theorem put_console : (w.put path g).console = w.console := rfl

@[simp] theorem erase_same : (w.erase path).globalStreams path = none := Function.update_self ..

@[simp] theorem erase_other (hne : p ≠ path) : (w.erase path).globalStreams p = w.globalStreams p :=
  Function.update_of_ne hne ..

@[simp] theorem held_zero : held 0 path = 0 := rfl

theorem held_cons : held (h ::ₘ live) path = held live path + if h.path = path then 1 else 0 :=
  Multiset.countP_cons ..

@[simp] theorem held_add {live' : Multiset RefcountedStream} :
    held (live + live') path = held live path + held live' path := Multiset.countP_add ..

theorem held_le : held live path ≤ live.card := Multiset.countP_le_card ..

theorem held_pos (hmem : h ∈ live) : 0 < held live h.path := Multiset.countP_pos.mpr ⟨h, hmem, rfl⟩

theorem element_of_some (h : w.globalStreams path = some g) : w.element path = g := by
  simp [World.element, h]

theorem element_of_none (h : w.globalStreams path = none) : w.element path = ⟨0, w.nodes, false⟩ := by
  simp [World.element, h]

theorem element_of_open (h : w.Open path node) : (w.element path).node = node ∧ (w.element path).isOpen := by
  obtain ⟨refs, h⟩ := h
  simp [element_of_some h]

theorem element_isOpen (h : (w.element path).isOpen = true) : w.Open path (w.element path).node := by
  cases hg : w.globalStreams path with
  | none => simp [element_of_none hg] at h
  | some g =>
    rw [element_of_some hg] at h ⊢
    exact ⟨g.refs, by rw [hg, ← h]⟩

theorem put_open (h : g.isOpen = true) : (w.put path g).Open path g.node := ⟨g.refs, by rw [put_same, ← h]⟩

theorem open_put_other (hne : p ≠ path) : (w.put path g).Open p node ↔ w.Open p node := by
  unfold World.Open
  rw [put_other hne]

/-- The count is that of the handles, also where there is no element. -/
theorem Sound.element_refs (hw : Sound w live) (hpath : path ≠ []) :
    (w.element path).refs = held live path := by
  cases hg : w.globalStreams path with
  | none => rw [element_of_none hg, (hw.listed path hpath).mp hg]
  | some g => rw [element_of_some hg, hw.counted path hpath g hg]

/-! ### What is kept -/

theorem World.Keeps.refl : w.Keeps w path := fun _ h => ⟨h, rfl⟩

theorem World.Keeps.trans (h₁ : w.Keeps w' path) (h₂ : w'.Keeps w'' path) : w.Keeps w'' path :=
  fun node h => ⟨(h₂ node (h₁ node h).1).1, (h₂ node (h₁ node h).1).2.trans (h₁ node h).2⟩

theorem put_keeps (hnode : g.node = (w.element path).node) (hopen : (w.element path).isOpen → g.isOpen) :
    w.Keeps (w.put path g) p := by
  intro node h
  refine ⟨?_, rfl⟩
  by_cases hp : p = path
  · subst hp
    obtain ⟨hn, ho⟩ := element_of_open h
    rw [← hn, ← hnode]
    exact put_open (hopen ho)
  · exact (open_put_other hp).mpr h

theorem construct_of_none (hg : w.globalStreams path = none) :
    w.construct path = (w.put path ⟨1, w.nodes, false⟩, ⟨path, none⟩) := by
  unfold World.construct
  rw [hg]

theorem construct_of_some (hg : w.globalStreams path = some g) :
    w.construct path = (w.put path { g with refs := sizeAdd g.refs 1 }, ⟨path, none⟩) := by
  unfold World.construct
  rw [hg]

theorem construct_keeps : w.Keeps (w.construct path).1 p := by
  cases hg : w.globalStreams path with
  | none =>
    rw [construct_of_none hg]
    exact put_keeps (by simp [element_of_none hg]) (by simp [element_of_none hg])
  | some g =>
    rw [construct_of_some hg]
    exact put_keeps (by simp [element_of_some hg]) (by simp [element_of_some hg])

theorem copy_keeps : w.Keeps (w.copy h) p := put_keeps rfl id

theorem destroy_last (hrefs : sizeSub (w.element h.path).refs 1 = 0) :
    w.destroy h = w.erase h.path := by
  unfold World.destroy
  exact if_pos hrefs

theorem destroy_other (hrefs : sizeSub (w.element h.path).refs 1 ≠ 0) : w.destroy h =
    w.put h.path { w.element h.path with refs := sizeSub (w.element h.path).refs 1 } := by
  unfold World.destroy
  exact if_neg hrefs

theorem destroy_keeps (hkept : (w.destroy h).globalStreams h.path ≠ none ∨ p ≠ h.path) :
    w.Keeps (w.destroy h) p := by
  by_cases hrefs : sizeSub (w.element h.path).refs 1 = 0
  · rw [destroy_last hrefs] at hkept ⊢
    have hne : p ≠ h.path := hkept.resolve_left fun hkept => hkept erase_same
    rintro node ⟨refs, hopen⟩
    exact ⟨⟨refs, by rw [erase_other hne, hopen]⟩, rfl⟩
  · rw [destroy_other hrefs]
    exact put_keeps rfl id

theorem openStream_keeps : w.Keeps (w.openStream can h).1 p := by
  unfold World.openStream
  cases h.stream with
  | some node => exact .refl
  | none =>
    dsimp only
    split_ifs with hopen hcan
    · exact put_keeps rfl id
    · intro node hp
      by_cases hpath : p = h.path
      · subst hpath
        exact absurd (element_of_open hp).2 hopen
      · exact ⟨(open_put_other hpath).mpr hp, Function.update_of_ne hpath ..⟩
    · exact put_keeps rfl id

/-! ### The count -/

/-- A write to one element of the map. -/
theorem Sound.put {live' : Multiset RefcountedStream} (hw : Sound w live)
    (hrefs : path ≠ [] → g.refs = held live' path ∧ g.refs ≠ 0)
    (hothers : ∀ p, p ≠ path → held live' p = held live p) (hname : path = [] → g.isOpen = false)
    (hpointing : ∀ h ∈ live', ∀ node, h.stream = some node → (w.put path g).Open h.path node) :
    Sound (w.put path g) live' where
  counted p hp g' hg' := by
    by_cases hpath : p = path
    · subst hpath
      rw [put_same, Option.some.injEq] at hg'
      rw [← hg', (hrefs hp).1]
    · rw [put_other hpath] at hg'
      rw [hothers p hpath, hw.counted p hp g' hg']
  listed p hp := by
    by_cases hpath : p = path
    · subst hpath
      have hne : held live' p ≠ 0 := (hrefs hp).1 ▸ (hrefs hp).2
      simp [hne]
    · rw [put_other hpath, hothers p hpath, hw.listed p hp]
  nameless node hopen := by
    by_cases hpath : path = []
    · subst hpath
      obtain ⟨refs, hopen⟩ := hopen
      rw [put_same, Option.some.injEq] at hopen
      have := hname rfl
      simp [hopen] at this
    · exact hw.nameless node ((open_put_other (Ne.symm hpath)).mp hopen)
  pointing := hpointing

theorem Sound.element_closed (hw : Sound w live) : (w.element []).isOpen = false := by
  by_contra h
  exact hw.nameless _ (element_isOpen (by simpa using h))

theorem Sound.acquire (hw : Sound w live) (hfew : live.card + 1 < 2 ^ 64)
    (hpoint : ∀ node, h.stream = some node → w.Open h.path node) :
    Sound (w.copy h) (h ::ₘ live) := by
  refine hw.put ?_ ?_ ?_ ?_
  · intro hpath
    have hle : held live h.path ≤ live.card := held_le
    have hadd : sizeAdd (held live h.path) 1 = held live h.path + 1 := sizeAdd_of_lt (by omega)
    simp [hw.element_refs hpath, hadd, held_cons]
  · intro p hp
    simp [held_cons, Ne.symm hp]
  · intro hpath
    rw [hpath]
    exact hw.element_closed
  · intro h' hmem node hnode
    rw [Multiset.mem_cons] at hmem
    obtain rfl | hmem := hmem
    · exact (copy_keeps node (hpoint node hnode)).1
    · exact (copy_keeps node (hw.pointing h' hmem node hnode)).1

theorem Sound.copy (hw : Sound w live) (hmem : h ∈ live) (hfew : live.card + 1 < 2 ^ 64) :
    Sound (w.copy h) (h ::ₘ live) :=
  hw.acquire hfew (hw.pointing h hmem)

theorem construct_sound (hw : Sound w live) (hfew : live.card + 1 < 2 ^ 64) :
    Sound (w.construct path).1 (⟨path, none⟩ ::ₘ live) := by
  have hcopy : Sound (w.copy ⟨path, none⟩) (⟨path, none⟩ ::ₘ live) :=
    hw.acquire hfew fun node hnode => by simp at hnode
  cases hg : w.globalStreams path with
  | some g =>
    rw [construct_of_some hg]
    rwa [World.copy, element_of_some hg] at hcopy
  | none =>
    rw [construct_of_none hg]
    rwa [World.copy, element_of_none hg] at hcopy

theorem Sound.release {live' : Multiset RefcountedStream} (hw : Sound w live')
    (hsub : h.path ≠ [] → sizeSub (w.element h.path).refs 1 = held live h.path)
    (hothers : ∀ p, p ≠ h.path → held live p = held live' p) (hle : live ≤ live') :
    Sound (w.destroy h) live := by
  by_cases hrefs : sizeSub (w.element h.path).refs 1 = 0
  · rw [destroy_last hrefs]
    constructor
    · intro p hp g hg
      by_cases hpath : p = h.path
      · simp [hpath] at hg
      · rw [erase_other hpath] at hg
        rw [hothers p hpath, hw.counted p hp g hg]
    · intro p hp
      by_cases hpath : p = h.path
      · subst hpath
        simp [← hsub hp, hrefs]
      · rw [erase_other hpath, hothers p hpath, hw.listed p hp]
    · rintro node ⟨refs, hopen⟩
      by_cases hpath : h.path = []
      · simp [hpath] at hopen
      · rw [erase_other (Ne.symm hpath)] at hopen
        exact hw.nameless node ⟨refs, hopen⟩
    · intro h' hmem node hnode
      have hopen := hw.pointing h' (Multiset.mem_of_le hle hmem) node hnode
      have hpath : h'.path ≠ h.path := by
        intro hpath
        by_cases hempty : h.path = []
        · rw [hpath, hempty] at hopen
          exact hw.nameless node hopen
        · have hpos := held_pos hmem
          rw [hpath, ← hsub hempty, hrefs] at hpos
          omega
      obtain ⟨refs, hopen⟩ := hopen
      exact ⟨refs, by rw [erase_other hpath, hopen]⟩
  · have hkeeps : ∀ p, w.Keeps (w.destroy h) p := fun p =>
      destroy_keeps (.inl (by simp [destroy_other hrefs]))
    rw [destroy_other hrefs] at hkeeps ⊢
    refine hw.put ?_ hothers ?_ ?_
    · intro hpath
      exact ⟨hsub hpath, hrefs⟩
    · intro hpath
      rw [hpath]
      exact hw.element_closed
    · intro h' hmem node hnode
      exact (hkeeps _ node (hw.pointing h' (Multiset.mem_of_le hle hmem) node hnode)).1

/-- The handle goes, and with the last of its path the element. -/
theorem destroy_sound (hw : Sound w (h ::ₘ live)) (hfew : live.card + 1 < 2 ^ 64) :
    Sound (w.destroy h) live := by
  refine hw.release ?_ ?_ (Multiset.le_cons_self live h)
  · intro hpath
    have hle : held live h.path ≤ live.card := held_le
    rw [hw.element_refs hpath, held_cons, if_pos rfl, sizeSub_of_le (by omega) (by omega)]
    omega
  · intro p hp
    simp [held_cons, Ne.symm hp]

/-- A handle that has been moved from is destroyed. -/
theorem destroy_moved_sound (hw : Sound w live) : Sound (w.destroy ⟨[], none⟩) live :=
  hw.release (fun hpath => absurd rfl hpath) (fun _ _ => rfl) le_rfl

/-- A handle on a path stands in for another on the same path that leads to the open stream. -/
theorem Sound.repoint {h' : RefcountedStream} (hw : Sound w (h ::ₘ live)) (hpath : h'.path = h.path)
    (hpoint : ∀ node, h'.stream = some node → w.Open h'.path node) : Sound w (h' ::ₘ live) := by
  have hheld : ∀ p, held (h' ::ₘ live) p = held (h ::ₘ live) p := by
    intro p
    rw [held_cons, held_cons, hpath]
  refine ⟨?_, ?_, hw.nameless, ?_⟩
  · intro p hp g hg
    rw [hheld, hw.counted p hp g hg]
  · intro p hp
    rw [hheld, hw.listed p hp]
  · intro h'' hmem
    rw [Multiset.mem_cons] at hmem
    obtain rfl | hmem := hmem
    · exact hpoint
    · exact hw.pointing h'' (Multiset.mem_cons_of_mem hmem)

/-- A write that leaves the count of the element as it is. -/
theorem Sound.touch (hw : Sound w live) (hheld : path ≠ [] → held live path ≠ 0)
    (hrefs : g.refs = (w.element path).refs) (hnode : g.node = (w.element path).node)
    (hopen : (w.element path).isOpen → g.isOpen) (hname : path = [] → g.isOpen = false) :
    Sound (w.put path g) live := by
  refine hw.put ?_ (fun _ _ => rfl) hname ?_
  · intro hpath
    rw [hrefs, hw.element_refs hpath]
    exact ⟨rfl, hheld hpath⟩
  · intro h hmem node hp
    exact (put_keeps hnode hopen node (hw.pointing h hmem node hp)).1

theorem Sound.rewrite (hw : Sound w live) (files : Path → List Char) (console : List Char) :
    Sound { w with files := files, console := console } live :=
  ⟨hw.counted, hw.listed, hw.nameless, hw.pointing⟩

/-- `open` leads the handle to its open stream, or throws with the handle as it was. -/
theorem openStream_sound (hcan : can [] = false) (hw : Sound w (h ::ₘ live)) :
    Sound (w.openStream can h).1 ((w.openStream can h).2.getD h ::ₘ live) ∧
      ∀ h' ∈ (w.openStream can h).2, h'.path = h.path ∧ h'.stream.isSome := by
  unfold World.openStream
  cases hstream : h.stream with
  | some node => exact ⟨hw, by simp [hstream]⟩
  | none =>
    have hheld : h.path ≠ [] → held (h ::ₘ live) h.path ≠ 0 :=
      fun _ => (held_pos (Multiset.mem_cons_self h live)).ne'
    dsimp only
    split_ifs with hopen hcan'
    · have htouch : Sound (w.put h.path (w.element h.path)) (h ::ₘ live) := by
        refine hw.touch hheld rfl rfl id ?_
        intro hpath
        rw [hpath]
        exact hw.element_closed
      refine ⟨htouch.repoint rfl ?_, by simp⟩
      intro node hnode
      obtain rfl : (w.element h.path).node = node := by simpa using hnode
      exact put_open hopen
    · have hname : h.path ≠ [] := by
        intro hpath
        simp [hpath, hcan] at hcan'
      have htouch : Sound (w.put h.path { w.element h.path with isOpen := true }) (h ::ₘ live) :=
        hw.touch hheld rfl rfl (fun _ => rfl) fun hpath => absurd hpath hname
      have hpointed : Sound (w.put h.path { w.element h.path with isOpen := true })
          (⟨h.path, some (w.element h.path).node⟩ ::ₘ live) := by
        refine htouch.repoint rfl ?_
        intro node hnode
        obtain rfl : (w.element h.path).node = node := by simpa using hnode
        exact put_open rfl
      exact ⟨hpointed.rewrite _ _, by simp⟩
    · refine ⟨hw.touch hheld rfl rfl id ?_, by simp⟩
      intro hpath
      rw [hpath]
      exact hw.element_closed

/-- A write through a good pointer, at the end of the file. -/
theorem write_sound {text : List Char} (hw : Sound w live) (hmem : h ∈ live) (hstream : h.stream.isSome) :
    w.write h text = some { w with
      files := Function.update w.files h.path (w.files h.path ++ (text ++ ['\n'])) } := by
  obtain ⟨node, hnode⟩ := Option.isSome_iff_exists.mp hstream
  obtain ⟨refs, hopen⟩ := hw.pointing h hmem node hnode
  simp [World.write, hnode, hopen]

/-- A line through a list of good pointers, once for each. -/
theorem writeAll_sound (text : List Char) (hw : Sound w live) (hmem : ∀ h ∈ hs, h ∈ live)
    (hstream : ∀ h ∈ hs, h.stream.isSome) :
    hs.foldlM (fun w h => w.write h text) w = some { w with
      files := fun p => w.files p ++ (hs.filter (·.path = p)).flatMap fun _ => text ++ ['\n'] } := by
  induction hs generalizing w with
  | nil => simp
  | cons h hs ih =>
    rw [List.foldlM_cons, write_sound hw (hmem h List.mem_cons_self) (hstream h List.mem_cons_self)]
    refine (ih (hw.rewrite _ _) (fun h' hh => hmem h' (List.mem_cons_of_mem _ hh))
      fun h' hh => hstream h' (List.mem_cons_of_mem _ hh)).trans ?_
    refine congrArg some (congrArg (fun files => { w with files := files }) (funext fun p => ?_))
    by_cases hp : p = h.path
    · simp [hp]
    · simp [hp, Ne.symm hp]

/-! ### Lists of handles -/

theorem copyAll_cons : w.copyAll (h :: hs) = (w.copy h).copyAll hs := by
  unfold World.copyAll
  rw [List.foldl_cons]

theorem destroyAll_cons : w.destroyAll (h :: hs) = (w.destroy h).destroyAll hs := by
  unfold World.destroyAll
  rw [List.foldl_cons]

theorem copyAll_keeps : w.Keeps (w.copyAll hs) p := by
  induction hs generalizing w with
  | nil => exact .refl
  | cons h hs ih => exact copy_keeps.trans ih

theorem copyAll_sound (hw : Sound w live) (hfew : live.card + hs.length < 2 ^ 64)
    (hpoint : ∀ h ∈ hs, ∀ node, h.stream = some node → w.Open h.path node) :
    Sound (w.copyAll hs) (live + hs) := by
  induction hs generalizing w live with
  | nil => simpa [World.copyAll] using hw
  | cons h hs ih =>
    rw [List.length_cons] at hfew
    have hcopy : Sound (w.copy h) (h ::ₘ live) := hw.acquire (by omega) (hpoint h List.mem_cons_self)
    have hrest := ih hcopy (by rw [Multiset.card_cons]; omega) fun h' hmem node hnode =>
      (copy_keeps node (hpoint h' (List.mem_cons_of_mem h hmem) node hnode)).1
    rwa [← Multiset.cons_coe, Multiset.add_cons, ← Multiset.cons_add]

theorem destroyAll_sound (hw : Sound w (live + hs)) (hfew : live.card + hs.length < 2 ^ 64) :
    Sound (w.destroyAll hs) live := by
  induction hs generalizing w with
  | nil => simpa [World.destroyAll] using hw
  | cons h hs ih =>
    rw [List.length_cons] at hfew
    rw [← Multiset.cons_coe, Multiset.add_cons] at hw
    have hdestroy := destroy_sound hw (by rw [Multiset.card_add, Multiset.coe_card]; omega)
    rw [destroyAll_cons]
    exact ih hdestroy (by omega)

/-- What others hold is kept when handles are destroyed. -/
theorem destroyAll_keeps (hw : Sound w (live + hs)) (hfew : live.card + hs.length < 2 ^ 64)
    (hheld : held live p ≠ 0) : w.Keeps (w.destroyAll hs) p := by
  induction hs generalizing w with
  | nil => exact .refl
  | cons h hs ih =>
    rw [List.length_cons] at hfew
    rw [← Multiset.cons_coe, Multiset.add_cons] at hw
    have hdestroy := destroy_sound hw (by rw [Multiset.card_add, Multiset.coe_card]; omega)
    rw [destroyAll_cons]
    refine World.Keeps.trans ?_ (ih hdestroy (by omega))
    by_cases hp : p = h.path
    · subst hp
      by_cases hpath : h.path = []
      · intro node hopen
        rw [hpath] at hopen
        exact absurd hopen (hw.nameless node)
      · refine destroy_keeps (.inl fun hnone => ?_)
        rw [hdestroy.listed _ hpath, held_add] at hnone
        omega
    · exact destroy_keeps (.inr hp)

/-! ### The console is for the loggers -/

@[simp] theorem construct_console : (w.construct path).1.console = w.console := by
  cases hg : w.globalStreams path with
  | none => rw [construct_of_none hg, put_console]
  | some g => rw [construct_of_some hg, put_console]

@[simp] theorem destroy_console : (w.destroy h).console = w.console := by
  by_cases hrefs : sizeSub (w.element h.path).refs 1 = 0
  · rw [destroy_last hrefs]
    rfl
  · rw [destroy_other hrefs, put_console]

@[simp] theorem openStream_console : (w.openStream can h).1.console = w.console := by
  unfold World.openStream
  cases h.stream with
  | some node => rfl
  | none =>
    dsimp only
    split_ifs <;> rfl

@[simp] theorem copyAll_console : (w.copyAll hs).console = w.console := by
  induction hs generalizing w with
  | nil => rfl
  | cons h hs ih => rw [copyAll_cons, ih, World.copy, put_console]

@[simp] theorem destroyAll_console : (w.destroyAll hs).console = w.console := by
  induction hs generalizing w with
  | nil => rfl
  | cons h hs ih => rw [destroyAll_cons, ih, destroy_console]

end Handles

end MaiFaSp.Logger
