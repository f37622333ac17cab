import MaiFaSp.BTreeDisk.Operations

/-!
# The objects of one instantiation

`b_tree_disk.hpp:85-102` (the members) and `767-806` (the constructor). `_count_of_node` and
`_last_position_in_key_value_file` are static: all trees of one instantiation read and write the
same two variables, and a constructor sets them to what the header of its file says, or to 0.
-/

namespace MaiFaSp.BTreeDisk

open BoundedVector

variable {ι κ υ : Type}

/-- The two files that a constructor finds, and the size of the first. -/
structure Files where
  fileForTree : Memory
  fileForKeyValue : Memory
  size : ℕ

/-- What an object has of its own. -/
@[ext]
structure Object where
  fileForTree : Memory
  fileForKeyValue : Memory
  positionRoot : ℕ

/-- The objects by name, and the static members. -/
structure Process (ι : Type) where
  countOfNode : ℕ
  lastPosition : ℕ
  objects : ι → Object

def DiskTree.object (st : DiskTree) : Object := ⟨st.fileForTree, st.fileForKeyValue, st.positionRoot⟩

/-- The constructor. A file without a header gets one. -/
def openTree (files : Files) : DiskTree :=
  if headerSize < files.size then
    { fileForTree := files.fileForTree
      fileForKeyValue := files.fileForKeyValue
      countOfNode := files.fileForTree.load64 8
      lastPosition := files.fileForTree.load64 16
      positionRoot := files.fileForTree.load64 0 }
  else
    { DiskTree.fresh with
      fileForTree := ((files.fileForTree.store64 0 sizeMax).store64 8 0).store64 16 0
      fileForKeyValue := files.fileForKeyValue }

namespace Process

/-- The members of an object, its own and the static ones. -/
def tree (w : Process ι) (i : ι) : DiskTree where
  fileForTree := (w.objects i).fileForTree
  fileForKeyValue := (w.objects i).fileForKeyValue
  countOfNode := w.countOfNode
  lastPosition := w.lastPosition
  positionRoot := (w.objects i).positionRoot

def put [DecidableEq ι] (w : Process ι) (i : ι) (st : DiskTree) : Process ι where
  countOfNode := st.countOfNode
  lastPosition := st.lastPosition
  objects := Function.update w.objects i st.object

/-- No object was opened: the static members are 0. -/
def start : Process ι := ⟨0, 0, fun _ => DiskTree.fresh.object⟩

end Process

inductive Call (κ υ : Type) where
  | insert (data : κ × υ)
  | update (data : κ × υ)
  | erase (key : κ)
  | at (key : κ)

inductive Answer (υ : Type) where
  | changed (done : Bool)
  | value (found : Option υ)
  deriving DecidableEq

/-- What happens in a process: a constructor or a call, and the object it is for. -/
inductive Event (ι κ υ : Type) where
  | opening (i : ι) (files : Files)
  | call (i : ι) (c : Call κ υ)

def Event.object : Event ι κ υ → ι
  | .opening i _ => i
  | .call i _ => i

/-- The events of one object. -/
def eventsOf [DecidableEq ι] (i : ι) (es : List (Event ι κ υ)) : List (Event ι κ υ) :=
  es.filter fun e => e.object = i

section

variable [DecidableEq ι] {w : Process ι} {i j : ι} {st : DiskTree} {e : Event ι κ υ}
  {es : List (Event ι κ υ)}

@[simp] theorem tree_put : (w.put i st).tree i = st := by
  unfold Process.tree Process.put
  simp only [Function.update_self]
  rfl

@[simp] theorem objects_put : (w.put i st).objects i = st.object := Function.update_self ..

theorem objects_put_of_ne (h : j ≠ i) : (w.put i st).objects j = w.objects j := Function.update_of_ne h ..

theorem eventsOf_cons_self (h : e.object = i) : eventsOf i (e :: es) = e :: eventsOf i es :=
  List.filter_cons_of_pos (by simpa using h)

theorem eventsOf_cons_other (h : e.object ≠ i) : eventsOf i (e :: es) = eventsOf i es :=
  List.filter_cons_of_neg (by simpa using h)

end

variable [LinearOrder κ]

def Call.apply (t turns : ℕ) (codec : Codec κ υ) (st : DiskTree) :
    Call κ υ → Except NodeFault (DiskTree × Answer υ)
  | .insert data => do
    let result ← BTreeDisk.insert t turns codec st data
    pure (result.1, .changed result.2)
  | .update data => do
    let result ← BTreeDisk.update t turns codec st data
    pure (result.1, .changed result.2)
  | .erase key => do
    let result ← BTreeDisk.erase t turns codec st key
    pure (result.1, .changed result.2)
  | .at key => do
    let result ← atKey t turns codec st key
    pure (st, .value result)

/-- The result of a call. -/
def Call.answer (t turns : ℕ) (codec : Codec κ υ) (st : DiskTree) (c : Call κ υ) :
    Except NodeFault (Answer υ) := do
  let result ← c.apply t turns codec st
  pure result.2

variable [DecidableEq ι]

namespace Process

def step (t turns : ℕ) (codec : Codec κ υ) (w : Process ι) :
    Event ι κ υ → Except NodeFault (Process ι)
  | .opening i files => pure (w.put i (openTree files))
  | .call i c => do
    let result ← c.apply t turns codec (w.tree i)
    pure (w.put i result.1)

def run (t turns : ℕ) (codec : Codec κ υ) (w : Process ι) :
    List (Event ι κ υ) → Except NodeFault (Process ι)
  | [] => pure w
  | e :: es => do
    let w ← w.step t turns codec e
    w.run t turns codec es

end Process

/-- An event of another object leaves the object's own members alone. -/
theorem step_other {t turns : ℕ} {codec : Codec κ υ} {w w' : Process ι} {i : ι} {e : Event ι κ υ}
    (hstep : w.step t turns codec e = .ok w') (hne : e.object ≠ i) : w'.objects i = w.objects i := by
  cases e with
  | opening j files =>
    cases hstep
    exact objects_put_of_ne hne.symm
  | call j c =>
    obtain ⟨result, -, hput⟩ := bind_eq_ok.mp hstep
    cases hput
    exact objects_put_of_ne hne.symm

end MaiFaSp.BTreeDisk
