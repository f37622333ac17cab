import MaiFaSp.BTreeDisk.Storage

/-!
# `insert`, `update`, `at` and `erase` of `B_tree_disk`

`b_tree_disk.hpp:238-294` (`erase`), `296-306` (`check_if_leaf`), `308-448`
(`delete_key_from_leaf`), `450-479` (`merge`), `492-518` (`update`), `521-582` (`insert`),
`590-657` (`split_node`), `767-806` (the constructor) and `939-958` (`at`). Every node is a copy
that was read from the disk; a position of `SIZE_MAX` says that there is no node.
-/

namespace MaiFaSp.BTreeDisk

open BoundedVector

variable {κ υ : Type}

def Node.keyList (n : Node κ υ) : List κ := n.keys.map Prod.fst

/-- A tree over new files. -/
def DiskTree.fresh : DiskTree := ⟨fun _ => 0, fun _ => 0, 0, 0, sizeMax⟩

/-- `v.insert(v.begin() + i, x)` for a vector without a bound. -/
def vectorInsert {α : Type} (xs : List α) (i : ℕ) (x : α) : Except NodeFault (List α) :=
  if xs.length < i then throw .outOfRange else pure (xs.insertIdx i x)

/-- `v[i - 1]` with an unsigned `i`. -/
def getBefore {α : Type} (xs : List α) (i : ℕ) : Except NodeFault α :=
  if i = 0 then throw .outOfRange else get xs (i - 1)

/-- `n.size--` -/
def decrement (size : ℕ) : ℕ := if size = 0 then sizeMax else size - 1

section Erase

def checkIfLeaf (t : ℕ) (codec : Codec κ υ) (st : DiskTree) (curNode : Node κ υ)
    (keyIndex : ℕ) : Bool :=
  let isNull (p : ℕ) : Bool := (diskRead t codec st p).positionInDisk = sizeMax
  if keyIndex + 1 < curNode.pointers.length then isNull (curNode.pointers.getD (keyIndex + 1) 0)
  else if keyIndex < curNode.pointers.length then isNull (curNode.pointers.getD keyIndex 0)
  else true

/-- `merge`, with the new contents of `parent`. -/
def merge (t : ℕ) (codec : Codec κ υ) (st : DiskTree) (left right parent : Node κ υ)
    (splitKeyIndex : ℕ) : Except NodeFault (DiskTree × Node κ υ) := do
  let separator ← get parent.keys splitKeyIndex
  let newNode : Node κ υ :=
    { size := 0
      isLeaf := true
      positionInDisk := st.countOfNode
      keys := left.keys ++ [separator] ++ right.keys
      pointers := left.pointers ++ [sizeMax] ++ right.pointers }
  let st := { st with countOfNode := st.countOfNode + 1 }
  let keys ← eraseAt parent.keys splitKeyIndex
  let pointers ← eraseAt parent.pointers splitKeyIndex
  let pointers :=
    if splitKeyIndex < pointers.length then pointers.set splitKeyIndex newNode.positionInDisk
    else pointers ++ [newNode.positionInDisk]
  let pointers :=
    if splitKeyIndex + 1 < pointers.length then pointers.set (splitKeyIndex + 1) sizeMax
    else pointers ++ [sizeMax]
  let parent := { parent with keys := keys, pointers := pointers }
  let st ← diskWrite t codec st parent
  let st ← diskWrite t codec st newNode
  pure (st, parent)

/-- Removal of one key and one pointer from a copy. -/
def eraseKey (n : Node κ υ) (index : ℕ) : Except NodeFault (Node κ υ) := do
  let keys ← eraseAt n.keys index
  let pointers ← eraseAt n.pointers index
  pure { n with keys := keys, pointers := pointers }

def borrowLeft (t : ℕ) (codec : Codec κ υ) (st : DiskTree) (node parent leftSibling : Node κ υ)
    (i indexOfKey : ℕ) : Except NodeFault DiskTree := do
  let node ← eraseKey node indexOfKey
  let separator ← getBefore parent.keys i
  let node := { node with keys := separator :: node.keys, pointers := node.pointers ++ [sizeMax] }
  let last ← getBefore leftSibling.keys leftSibling.keys.length
  let parentKeys ← setAt parent.keys (i - 1) last
  let parent := { parent with keys := parentKeys }
  let leftSibling ← eraseKey leftSibling (leftSibling.keys.length - 1)
  let st ← diskWrite t codec st node
  let st ← diskWrite t codec st parent
  diskWrite t codec st leftSibling

def borrowRight (t : ℕ) (codec : Codec κ υ) (st : DiskTree) (node parent rightSibling : Node κ υ)
    (i indexOfKey : ℕ) : Except NodeFault DiskTree := do
  let node ← eraseKey node indexOfKey
  let separator ← get parent.keys i
  let node :=
    { node with keys := node.keys ++ [separator], pointers := node.pointers ++ [sizeMax] }
  let first ← get rightSibling.keys 0
  let parentKeys ← setAt parent.keys i first
  let parent := { parent with keys := parentKeys }
  let rightSibling ← eraseKey rightSibling 0
  let st ← diskWrite t codec st node
  let st ← diskWrite t codec st parent
  diskWrite t codec st rightSibling

/-- The choice of the sibling to merge with; `none` when both sizes are 0. -/
def mergeWithSibling (t : ℕ) (codec : Codec κ υ) (st : DiskTree)
    (curNode parent leftSibling rightSibling : Node κ υ) (i : ℕ) (sizes : ℕ × ℕ) :
    Except NodeFault (Option (DiskTree × Node κ υ)) := do
  if 0 < sizes.1 then do
    if i = 0 then throw .outOfRange
    let result ← merge t codec st leftSibling curNode parent (i - 1)
    pure (some result)
  else if 0 < sizes.2 then do
    let result ← merge t codec st curNode rightSibling parent i
    pure (some result)
  else pure none

/-- The loop that merges upwards. The sizes are those of the siblings read in the turn before. -/
def mergeLoop (t : ℕ) (codec : Codec κ υ) (st : DiskTree)
    (parent leftSibling rightSibling : Node κ υ) (sizes : ℕ × ℕ) :
    List (ℕ × ℕ) → Except NodeFault (DiskTree × Node κ υ)
  | [] => pure (st, parent)
  | top :: path =>
    if parent.keys.length < minimumKeysInNode t then do
      let curNode := parent
      let parent := diskRead t codec st top.1
      let i := top.2
      let sizeLeft ←
        if 0 < i then do
          let p ← get parent.pointers (i - 1)
          pure (if p ≠ sizeMax then leftSibling.keys.length else sizes.1)
        else pure sizes.1
      let sizeRight :=
        if parent.pointers.getD (i + 1) sizeMax ≠ sizeMax then rightSibling.keys.length else sizes.2
      let left ← getBefore parent.pointers i
      let right ← get parent.pointers (i + 1)
      let leftSibling := diskRead t codec st left
      let rightSibling := diskRead t codec st right
      match ← mergeWithSibling t codec st curNode parent leftSibling rightSibling i
        (sizeLeft, sizeRight) with
      | some result =>
        mergeLoop t codec result.1 result.2 leftSibling rightSibling (sizeLeft, sizeRight) path
      | none => throw .logicError
    else pure (st, parent)

/-- The new root when `parent` is left without keys. -/
def dropEmptyRoot (st : DiskTree) (parent : Node κ υ) : DiskTree :=
  if parent.keys.length = 0 then
    match parent.pointers with
    | [] => { st with positionRoot := sizeMax }
    | [a] => { st with positionRoot := a }
    | a :: b :: _ => { st with positionRoot := if a ≠ sizeMax then a else b }
  else st

/-- The root loses a key, or the root's place is taken by a child. -/
def deleteFromRoot (t : ℕ) (codec : Codec κ υ) (st : DiskTree) (curNode : Node κ υ)
    (indexOfKey : ℕ) : Except NodeFault DiskTree := do
  if 1 < curNode.keys.length then do
    let keys ← eraseAt curNode.keys indexOfKey
    diskWrite t codec st { curNode with keys := keys, size := decrement curNode.size }
  else
    let st :=
      match curNode.pointers with
      | [] => st
      | a :: rest =>
        if (diskRead t codec st a).positionInDisk ≠ sizeMax then { st with positionRoot := a }
        else { st with positionRoot := rest.headD sizeMax }
    diskWrite t codec st curNode

def deleteKeyFromLeaf (t : ℕ) (codec : Codec κ υ) (st : DiskTree) (indexOfKey : ℕ)
    (node : Node κ υ) (path : List (ℕ × ℕ)) : Except NodeFault DiskTree := do
  if minimumKeysInNode t < node.keys.length then do
    let keys ← eraseAt node.keys indexOfKey
    diskWrite t codec st { node with keys := keys, size := decrement node.size }
  else
    match path with
    | [] => throw .outOfRange
    | [top] => deleteFromRoot t codec st (diskRead t codec st top.1) indexOfKey
    | top :: above :: path => do
      let curNode := diskRead t codec st top.1
      let i := top.2
      let parent := diskRead t codec st above.1
      if parent.positionInDisk = sizeMax then deleteFromRoot t codec st curNode indexOfKey
      else do
        let left ← getBefore parent.pointers i
        let right ← get parent.pointers (i + 1)
        let leftSibling := diskRead t codec st left
        let rightSibling := diskRead t codec st right
        let sizeLeft :=
          if leftSibling.positionInDisk ≠ sizeMax then leftSibling.keys.length else 0
        let sizeRight :=
          if rightSibling.positionInDisk ≠ sizeMax then rightSibling.keys.length else 0
        if minimumKeysInNode t < sizeLeft then
          borrowLeft t codec st node parent leftSibling i indexOfKey
        else if minimumKeysInNode t < sizeRight then
          borrowRight t codec st node parent rightSibling i indexOfKey
        else do
          let node ← eraseKey node indexOfKey
          let node := { node with size := decrement node.size }
          let merged ← mergeWithSibling t codec st curNode parent leftSibling rightSibling i
            (sizeLeft, sizeRight)
          let merged := merged.getD (st, parent)
          let st ← diskWrite t codec merged.1 node
          let result ← mergeLoop t codec st merged.2 leftSibling rightSibling
            (sizeLeft, sizeRight) path
          pure (dropEmptyRoot result.1 result.2)

/-- The walk to the rightmost leaf of the left subtree. -/
def rightmost (t : ℕ) (codec : Codec κ υ) (st : DiskTree) :
    ℕ → Node κ υ → List (ℕ × ℕ) → Except NodeFault (Node κ υ × List (ℕ × ℕ))
  | 0, _, _ => throw .diverged
  | turns + 1, n, path =>
    let last := n.pointers.getLastD sizeMax
    if last ≠ sizeMax then
      let next := diskRead t codec st last
      rightmost t codec st turns next ((next.positionInDisk, n.pointers.length - 1) :: path)
    else pure (n, path)

end Erase

variable [LinearOrder κ]

/-- The loop of `at`. -/
def atWalk (t : ℕ) (codec : Codec κ υ) (st : DiskTree) (key : κ) :
    ℕ → Node κ υ → Except NodeFault (Option υ)
  | 0, _ => throw .diverged
  | turns + 1, curNode =>
    if curNode.positionInDisk = sizeMax then pure none
    else
      let i := lowerIndex curNode.keyList key
      match curNode.keys[i]?.filter fun e => e.1 = key with
      | some e => pure (some e.2)
      | none => do
        let next ← get curNode.pointers i
        atWalk t codec st key turns (diskRead t codec st next)

/-- `at` -/
def atKey (t turns : ℕ) (codec : Codec κ υ) (st : DiskTree) (key : κ) :
    Except NodeFault (Option υ) := do
  let curNode := diskRead t codec st st.positionRoot
  let _ ← get curNode.keys 0
  atWalk t codec st key turns curNode

/-- Where `insert` puts the pair: the copy of the node, the position in it and the path. -/
structure Place (κ υ : Type) where
  prev : Node κ υ
  i : ℕ
  path : List (ℕ × ℕ)

/-- The walk of `insert`; `none` is the early return for a key that is there. -/
def insertWalk (t : ℕ) (codec : Codec κ υ) (st : DiskTree) (key : κ) :
    ℕ → Node κ υ → Place κ υ → Except NodeFault (Option (Place κ υ))
  | 0, _, _ => throw .diverged
  | turns + 1, curNode, p =>
    if curNode.positionInDisk = sizeMax then pure (some p)
    else do
      let i := lowerIndex curNode.keyList key
      let prevI := i - 1
      let curKey ← get curNode.keys prevI
      if curKey.1 = key then pure none
      else
        let next :=
          match curNode.pointers[i]? with
          | some pointer => diskRead t codec st pointer
          | none => { curNode with positionInDisk := sizeMax }
        insertWalk t codec st key turns next ⟨curNode, i, (curNode.positionInDisk, prevI) :: p.path⟩

/-- The parent's copy after a split: the middle key, the two parts, and no pointer behind the
first `size + 1`. -/
def adoptParts (parent : Node κ υ) (middleIndex : ℕ) (middle : κ × υ) (left right : ℕ) :
    Except NodeFault (Node κ υ) := do
  let keys ← vectorInsert parent.keys middleIndex middle
  let pointers ← vectorInsert parent.pointers middleIndex left
  let pointers ← vectorInsert pointers (middleIndex + 1) right
  let size := parent.size + 1
  pure { parent with
    size := size
    keys := keys
    pointers := pointers.take (size + 1) ++ List.replicate (pointers.length - (size + 1)) sizeMax }

/-- The index of the key that goes up. -/
def middleInd (t : ℕ) : ℕ := (maximumKeysInNode t + 1) / 2

/-- The node above, with the place for the middle key, or a new root. -/
def splitTarget (st : DiskTree) (parentNode : Node κ υ) (middleKey : κ) :
    DiskTree × Node κ υ × ℕ :=
  if parentNode.positionInDisk = sizeMax then
    ({ st with countOfNode := st.countOfNode + 1, positionRoot := st.countOfNode },
      ⟨0, false, st.countOfNode, [], []⟩, 0)
  else (st, parentNode, lowerIndex parentNode.keyList middleKey)

/-- The two parts, and the writes of both and of the node above. -/
def writeParts (t : ℕ) (codec : Codec κ υ) (st : DiskTree) (nodeToSplit parentNode : Node κ υ)
    (middleIndex : ℕ) (middle : κ × υ) : Except NodeFault DiskTree := do
  let leftPart : Node κ υ :=
    { size := middleInd t
      isLeaf := true
      positionInDisk := st.countOfNode
      keys := nodeToSplit.keys.take (middleInd t)
      pointers := nodeToSplit.pointers.take (middleInd t) }
  let rightPart : Node κ υ :=
    { size := nodeToSplit.keys.length - middleInd t - 1
      isLeaf := true
      positionInDisk := st.countOfNode + 1
      keys := nodeToSplit.keys.drop (middleInd t + 1)
      pointers := nodeToSplit.pointers.drop (middleInd t + 1) }
  let parentNode ← adoptParts parentNode middleIndex middle leftPart.positionInDisk
    rightPart.positionInDisk
  let st ← diskWrite t codec { st with countOfNode := st.countOfNode + 2 } leftPart
  let st ← diskWrite t codec st rightPart
  diskWrite t codec st parentNode

def splitNode (t : ℕ) (codec : Codec κ υ) (st : DiskTree) (path : List (ℕ × ℕ)) :
    Except NodeFault DiskTree :=
  match path with
  | [] => pure st
  | top :: path => do
    let nodeToSplit := diskRead t codec st top.1
    let parentNode := diskRead t codec st ((path.head?.map Prod.fst).getD sizeMax)
    let middle ← get nodeToSplit.keys (middleInd t)
    let target := splitTarget st parentNode middle.1
    if nodeToSplit.pointers.length < middleInd t + 1 then throw .outOfRange
    else writeParts t codec target.1 nodeToSplit target.2.1 target.2.2 middle

/-- The copy of the leaf with the new pair. -/
def withPair (n : Node κ υ) (i : ℕ) (data : κ × υ) : Except NodeFault (Node κ υ) := do
  let keys ← vectorInsert n.keys i data
  let pointers ← vectorInsert n.pointers i sizeMax
  pure { n with keys := keys, pointers := pointers, size := n.size + 1 }

def insert (t turns : ℕ) (codec : Codec κ υ) (st : DiskTree) (data : κ × υ) :
    Except NodeFault (DiskTree × Bool) :=
  let root := diskRead t codec st st.positionRoot
  if root.positionInDisk = sizeMax then do
    let root : Node κ υ := ⟨1, true, st.countOfNode, [data], [sizeMax]⟩
    let st := { st with countOfNode := st.countOfNode + 1, positionRoot := st.countOfNode }
    let st ← diskWrite t codec st root
    pure (st, true)
  else do
    match ← insertWalk t codec st data.1 turns root ⟨root, 0, []⟩ with
    | none => pure (st, false)
    | some p =>
      let prev ← withPair p.prev p.i data
      let st ← diskWrite t codec st prev
      if p.prev.keys.length = maximumKeysInNode t then do
        let st ← splitNode t codec st p.path
        pure (st, true)
      else pure (st, true)

/-- A sequence of calls of `insert`. -/
def insertAll (t turns : ℕ) (codec : Codec κ υ) :
    List (κ × υ) → DiskTree → Except NodeFault DiskTree
  | [], st => pure st
  | data :: rest, st => do
    let result ← insert t turns codec st data
    insertAll t turns codec rest result.1

/-- The loop of `update`. -/
def updateWalk (t : ℕ) (codec : Codec κ υ) (st : DiskTree) (data : κ × υ) :
    ℕ → Node κ υ → Except NodeFault (DiskTree × Bool)
  | 0, _ => throw .diverged
  | turns + 1, curNode =>
    if curNode.positionInDisk = sizeMax then pure (st, false)
    else do
      let i := lowerIndex curNode.keyList data.1
      let prevI := i - 1
      let curKey ← get curNode.keys prevI
      if curKey.1 = data.1 then do
        let keys ← setAt curNode.keys prevI (curKey.1, data.2)
        let st ← diskWrite t codec st { curNode with keys := keys }
        pure (st, true)
      else
        let next :=
          match curNode.pointers[i]? with
          | some pointer => diskRead t codec st pointer
          | none => { curNode with positionInDisk := sizeMax }
        updateWalk t codec st data turns next

def update (t turns : ℕ) (codec : Codec κ υ) (st : DiskTree) (data : κ × υ) :
    Except NodeFault (DiskTree × Bool) := do
  let curNode := diskRead t codec st st.positionRoot
  let _ ← get curNode.keys 0
  updateWalk t codec st data turns curNode

/-- The walk of `erase` to the key: the node's copy, the index and the path. -/
def eraseWalk (t : ℕ) (codec : Codec κ υ) (st : DiskTree) (key : κ) :
    ℕ → Node κ υ → ℕ → List (ℕ × ℕ) → Except NodeFault (Option (Place κ υ))
  | 0, _, _, _ => throw .diverged
  | turns + 1, curNode, prevIndex, path =>
    if curNode.positionInDisk = sizeMax then pure none
    else
      let index := lowerIndex curNode.keyList key
      let path := (curNode.positionInDisk, prevIndex) :: path
      if curNode.keyList[index]? = some key then pure (some ⟨curNode, index, path⟩)
      else
        match curNode.pointers[index]? with
        | none => pure none
        | some next => eraseWalk t codec st key turns (diskRead t codec st next) index path

def erase (t turns : ℕ) (codec : Codec κ υ) (st : DiskTree) (key : κ) :
    Except NodeFault (DiskTree × Bool) := do
  match ← eraseWalk t codec st key turns (diskRead t codec st st.positionRoot) 0 [] with
  | none => pure (st, false)
  | some ⟨curNode, index, path⟩ =>
    if checkIfLeaf t codec st curNode index then do
      let st ← deleteKeyFromLeaf t codec st index curNode path
      pure (st, true)
    else do
      let pointer ← get curNode.pointers index
      let n := diskRead t codec st pointer
      let found ← rightmost t codec st turns n ((n.positionInDisk, index) :: path)
      let newData ← getBefore found.1.keys found.1.keys.length
      let keys ← setAt curNode.keys (found.1.keys.length - 1) newData
      let st ← diskWrite t codec st { curNode with keys := keys }
      let st ← deleteKeyFromLeaf t codec st (found.1.keys.length - 1) found.1 found.2
      pure (st, true)

end MaiFaSp.BTreeDisk
