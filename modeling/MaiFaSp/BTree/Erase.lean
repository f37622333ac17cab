import MaiFaSp.BTree.Nodes

/-!
# `erase`

`b_tree.h:1640-1694` (`erase`), `1696-1806` (`delete_key_from_leaf`), `1808-1829`
(`merge`) and `1833-1842` (`check_if_leaf`). No line of them writes `_size`.
-/

namespace MaiFaSp.BTree

open BoundedVector

variable {κ υ : Type}

def checkIfLeaf (curNode : Node κ υ) (keyIndex : ℕ) : Bool :=
  if keyIndex + 1 < curNode.pointers.length then curNode.pointers.getD (keyIndex + 1) 0 = 0
  else if keyIndex < curNode.pointers.length then curNode.pointers.getD keyIndex 0 = 0
  else true

/-- `node->_keys.erase(...); node->_pointers.erase(...);` -/
def eraseKey (tree : Tree κ υ) (node index : ℕ) : Except NodeFault (Tree κ υ) := do
  let n ← tree.deref node
  let keys ← eraseAt n.keys index
  let pointers ← eraseAt n.pointers index
  pure (tree.setNode node ⟨keys, pointers⟩)

/-- `merge` -/
def merge (t : ℕ) (tree : Tree κ υ) (left right parent splitKeyIndex : ℕ) :
    Except NodeFault (Tree κ υ) := do
  let l ← tree.deref left
  let r ← tree.deref right
  let p ← tree.deref parent
  let separator ← get p.keys splitKeyIndex
  let keys ← append (keysCapacity t) l.keys [separator]
  let pointers ← append (pointersCapacity t) l.pointers [0]
  let keys ← append (keysCapacity t) keys r.keys
  let pointers ← append (pointersCapacity t) pointers r.pointers
  let newNode := tree.fresh
  let tree := tree.newNode ⟨keys, pointers⟩
  let parentKeys ← eraseAt p.keys splitKeyIndex
  let parentPointers ← eraseAt p.pointers splitKeyIndex
  let parentPointers ← setAt parentPointers splitKeyIndex newNode
  pure (tree.setNode parent ⟨parentKeys, parentPointers⟩)

/-- The two assignments of `size_left_sibling` and `size_right_sibling`, which keep the earlier
values where there is no sibling. -/
def siblingSizes (tree : Tree κ υ) (parent : Node κ υ) (i : ℕ) (sizes : ℕ × ℕ) :
    Except NodeFault (ℕ × ℕ) := do
  let left ←
    if 0 < i then do
      let pointer ← get parent.pointers (i - 1)
      pure (if pointer ≠ 0 then (tree.node pointer).keys.length else sizes.1)
    else pure sizes.1
  let right := parent.pointers.getD (i + 1) 0
  pure (left, if right ≠ 0 then (tree.node right).keys.length else sizes.2)

def borrowLeft (t : ℕ) (tree : Tree κ υ) (node parent i indexOfKey sizeLeftSibling : ℕ) :
    Except NodeFault (Tree κ υ) := do
  let tree ← eraseKey tree node indexOfKey
  let p ← tree.deref parent
  let separator ← get p.keys (i - 1)
  let n := tree.node node
  let keys ← insertAt (keysCapacity t) n.keys 0 separator
  let pointers ← append (pointersCapacity t) n.pointers [0]
  let tree := tree.setNode node ⟨keys, pointers⟩
  let left ← get p.pointers (i - 1)
  let l ← tree.deref left
  let last ← get l.keys (sizeLeftSibling - 1)
  let parentKeys ← setAt p.keys (i - 1) last
  let tree := tree.setNode parent ⟨parentKeys, p.pointers⟩
  eraseKey tree left (sizeLeftSibling - 1)

def borrowRight (t : ℕ) (tree : Tree κ υ) (node parent i indexOfKey : ℕ) :
    Except NodeFault (Tree κ υ) := do
  let tree ← eraseKey tree node indexOfKey
  let p ← tree.deref parent
  let separator ← get p.keys i
  let n := tree.node node
  let keys ← append (keysCapacity t) n.keys [separator]
  let pointers ← append (pointersCapacity t) n.pointers [0]
  let tree := tree.setNode node ⟨keys, pointers⟩
  let right ← get p.pointers (i + 1)
  let r ← tree.deref right
  let first ← get r.keys 0
  let parentKeys ← setAt p.keys i first
  let tree := tree.setNode parent ⟨parentKeys, p.pointers⟩
  eraseKey tree right 0

/-- The choice of the sibling to merge with; `none` when both sizes are 0. -/
def mergeWithSibling (t : ℕ) (tree : Tree κ υ) (curNode parent i : ℕ) (sizes : ℕ × ℕ) :
    Except NodeFault (Option (Tree κ υ)) := do
  let p ← tree.deref parent
  if 0 < sizes.1 then do
    let left ← get p.pointers (i - 1)
    let tree ← merge t tree left curNode parent (i - 1)
    pure (some tree)
  else if 0 < sizes.2 then do
    let right ← get p.pointers (i + 1)
    let tree ← merge t tree curNode right parent i
    pure (some tree)
  else pure none

/-- The loop that merges upwards, with the last `parent`. The stack's top is already the entry
above `parent`, so `i` is the position of the new `parent` and not of `cur_node`. -/
def mergeLoop (t : ℕ) (tree : Tree κ υ) (parent : ℕ) (sizes : ℕ × ℕ) :
    List (ℕ × ℕ) → Except NodeFault (Tree κ υ × ℕ)
  | [] => pure (tree, parent)
  | top :: st =>
    if (tree.node parent).keys.length < minimumKeysInNode t then do
      let p ← tree.deref top.1
      let sizes ← siblingSizes tree p top.2 sizes
      match ← mergeWithSibling t tree parent top.1 top.2 sizes with
      | some tree => mergeLoop t tree top.1 sizes st
      | none => throw .logicError
    else pure (tree, parent)

/-- The replacement of an empty top node. -/
def dropEmptyRoot (tree : Tree κ υ) (parent : ℕ) : Tree κ υ :=
  let p := tree.node parent
  if p.keys.length = 0 then
    match p.pointers with
    | [] => { tree with root := 0 }
    | [a] => { tree with root := a }
    | a :: b :: _ => { tree with root := if a ≠ 0 then a else b }
  else tree

def deleteKeyFromLeaf (t : ℕ) (tree : Tree κ υ) (indexOfKey node : ℕ) (st : List (ℕ × ℕ)) :
    Except NodeFault (Tree κ υ) := do
  let n ← tree.deref node
  if minimumKeysInNode t < n.keys.length then eraseKey tree node indexOfKey
  else
    match st with
    | [] => throw .outOfRange
    | [(curNode, _)] =>
      if 1 < (tree.node curNode).keys.length then eraseKey tree curNode indexOfKey
      else pure { tree with root := 0 }
    | (curNode, i) :: (parent, _) :: st => do
      let p ← tree.deref parent
      let sizes ← siblingSizes tree p i (0, 0)
      if minimumKeysInNode t < sizes.1 then borrowLeft t tree node parent i indexOfKey sizes.1
      else if minimumKeysInNode t < sizes.2 then borrowRight t tree node parent i indexOfKey
      else do
        let tree ← eraseKey tree node indexOfKey
        let merged ← mergeWithSibling t tree curNode parent i sizes
        let result ← mergeLoop t (merged.getD tree) parent sizes st
        pure (dropEmptyRoot result.1 result.2)

/-- The walk to the rightmost leaf of the left subtree. -/
def rightmost (tree : Tree κ υ) :
    ℕ → ℕ → List (ℕ × ℕ) → Except NodeFault (ℕ × List (ℕ × ℕ))
  | 0, _, _ => throw .diverged
  | turns + 1, n, st => do
    let node ← tree.deref n
    let last := node.pointers.getLastD 0
    if last ≠ 0 then rightmost tree turns last ((last, node.pointers.length - 1) :: st)
    else pure (n, st)

variable [LinearOrder κ]

def erase (t turns : ℕ) (tree : Tree κ υ) (key : κ) :
    Except NodeFault (Tree κ υ × Iterator) := do
  match ← searchWalk tree key turns tree.root 0 [] with
  | none => pure (tree, tree.endIterator)
  | some it =>
    let curNode := (it.path.head?.map Prod.fst).getD 0
    let next ← tree.goToNext it
    let c ← tree.deref curNode
    if checkIfLeaf c it.index then do
      let tree ← deleteKeyFromLeaf t tree it.index curNode it.path
      pure (tree, next)
    else do
      let child ← get c.pointers it.index
      let found ← rightmost tree turns child ((child, it.index) :: it.path)
      let n := tree.node found.1
      let newData ← get n.keys (n.keys.length - 1)
      let keys ← setAt c.keys it.index newData
      let tree := tree.setNode curNode ⟨keys, c.pointers⟩
      let tree ← deleteKeyFromLeaf t tree (n.keys.length - 1) found.1 found.2
      pure (tree, next)

/-! ### No step of it changes `_size` -/

section Size

omit [LinearOrder κ]

variable {t indexOfKey node parent i : ℕ} {sizes : ℕ × ℕ} {st : List (ℕ × ℕ)}
  {tree tree' : Tree κ υ}

theorem eraseKey_size (h : eraseKey tree node i = .ok tree') : tree'.size = tree.size := by
  unfold eraseKey at h
  obtain ⟨n, -, h⟩ := bind_eq_ok.mp h
  obtain ⟨keys, -, h⟩ := bind_eq_ok.mp h
  obtain ⟨pointers, -, h⟩ := bind_eq_ok.mp h
  cases h
  rfl

theorem merge_size {left right : ℕ} (h : merge t tree left right parent i = .ok tree') :
    tree'.size = tree.size := by
  unfold merge at h
  obtain ⟨l, -, h⟩ := bind_eq_ok.mp h
  obtain ⟨r, -, h⟩ := bind_eq_ok.mp h
  obtain ⟨p, -, h⟩ := bind_eq_ok.mp h
  obtain ⟨separator, -, h⟩ := bind_eq_ok.mp h
  obtain ⟨keys, -, h⟩ := bind_eq_ok.mp h
  obtain ⟨pointers, -, h⟩ := bind_eq_ok.mp h
  obtain ⟨keys', -, h⟩ := bind_eq_ok.mp h
  obtain ⟨pointers', -, h⟩ := bind_eq_ok.mp h
  obtain ⟨parentKeys, -, h⟩ := bind_eq_ok.mp h
  obtain ⟨erased, -, h⟩ := bind_eq_ok.mp h
  obtain ⟨parentPointers, -, h⟩ := bind_eq_ok.mp h
  cases h
  rfl

theorem borrowLeft_size {size : ℕ} (h : borrowLeft t tree node parent i indexOfKey size = .ok tree') :
    tree'.size = tree.size := by
  unfold borrowLeft at h
  obtain ⟨erased, he, h⟩ := bind_eq_ok.mp h
  obtain ⟨p, -, h⟩ := bind_eq_ok.mp h
  obtain ⟨separator, -, h⟩ := bind_eq_ok.mp h
  obtain ⟨keys, -, h⟩ := bind_eq_ok.mp h
  obtain ⟨pointers, -, h⟩ := bind_eq_ok.mp h
  obtain ⟨left, -, h⟩ := bind_eq_ok.mp h
  obtain ⟨l, -, h⟩ := bind_eq_ok.mp h
  obtain ⟨last, -, h⟩ := bind_eq_ok.mp h
  obtain ⟨parentKeys, -, h⟩ := bind_eq_ok.mp h
  have herased := eraseKey_size he
  have hlast := eraseKey_size h
  exact hlast.trans herased

theorem borrowRight_size (h : borrowRight t tree node parent i indexOfKey = .ok tree') :
    tree'.size = tree.size := by
  unfold borrowRight at h
  obtain ⟨erased, he, h⟩ := bind_eq_ok.mp h
  obtain ⟨p, -, h⟩ := bind_eq_ok.mp h
  obtain ⟨separator, -, h⟩ := bind_eq_ok.mp h
  obtain ⟨keys, -, h⟩ := bind_eq_ok.mp h
  obtain ⟨pointers, -, h⟩ := bind_eq_ok.mp h
  obtain ⟨right, -, h⟩ := bind_eq_ok.mp h
  obtain ⟨r, -, h⟩ := bind_eq_ok.mp h
  obtain ⟨first, -, h⟩ := bind_eq_ok.mp h
  obtain ⟨parentKeys, -, h⟩ := bind_eq_ok.mp h
  have herased := eraseKey_size he
  have hlast := eraseKey_size h
  exact hlast.trans herased

theorem mergeWithSibling_size {merged : Option (Tree κ υ)}
    (h : mergeWithSibling t tree node parent i sizes = .ok merged) :
    ∀ tree' ∈ merged, tree'.size = tree.size := by
  intro tree' htree'
  unfold mergeWithSibling at h
  obtain ⟨p, -, h⟩ := bind_eq_ok.mp h
  split at h
  · obtain ⟨left, -, h⟩ := bind_eq_ok.mp h
    obtain ⟨result, hm, h⟩ := bind_eq_ok.mp h
    cases h
    cases htree'
    exact merge_size hm
  · split at h
    · obtain ⟨right, -, h⟩ := bind_eq_ok.mp h
      obtain ⟨result, hm, h⟩ := bind_eq_ok.mp h
      cases h
      cases htree'
      exact merge_size hm
    · cases h
      cases htree'

theorem mergeLoop_size {result : Tree κ υ × ℕ} (h : mergeLoop t tree parent sizes st = .ok result) :
    result.1.size = tree.size := by
  induction st generalizing tree parent sizes with
  | nil =>
    cases h
    rfl
  | cons top st ih =>
    rw [mergeLoop] at h
    split at h
    · obtain ⟨p, -, h⟩ := bind_eq_ok.mp h
      obtain ⟨sizes', -, h⟩ := bind_eq_ok.mp h
      obtain ⟨merged, hm, h⟩ := bind_eq_ok.mp h
      cases merged with
      | none => cases h
      | some tree' => exact (ih h).trans (mergeWithSibling_size hm tree' rfl)
    · cases h
      rfl

theorem dropEmptyRoot_size : (dropEmptyRoot tree parent).size = tree.size := by
  unfold dropEmptyRoot
  dsimp only
  split
  · split
    · rfl
    · rfl
    · rfl
  · rfl

theorem deleteKeyFromLeaf_size (h : deleteKeyFromLeaf t tree indexOfKey node st = .ok tree') :
    tree'.size = tree.size := by
  unfold deleteKeyFromLeaf at h
  obtain ⟨n, -, h⟩ := bind_eq_ok.mp h
  split at h
  · exact eraseKey_size h
  · split at h
    · cases h
    · split at h
      · exact eraseKey_size h
      · cases h
        rfl
    · obtain ⟨p, -, h⟩ := bind_eq_ok.mp h
      obtain ⟨sizes, -, h⟩ := bind_eq_ok.mp h
      split at h
      · exact borrowLeft_size h
      · split at h
        · exact borrowRight_size h
        · obtain ⟨erased, he, h⟩ := bind_eq_ok.mp h
          obtain ⟨merged, hm, h⟩ := bind_eq_ok.mp h
          obtain ⟨result, hl, h⟩ := bind_eq_ok.mp h
          cases h
          rw [dropEmptyRoot_size, mergeLoop_size hl]
          cases merged with
          | none => exact eraseKey_size he
          | some m => exact (mergeWithSibling_size hm m rfl).trans (eraseKey_size he)

end Size

variable {t turns height : ℕ} {tree tree' : Tree κ υ} {es : List (κ × υ)} {key : κ} {it : Iterator}

theorem erase_size (h : erase t turns tree key = .ok (tree', it)) : tree'.size = tree.size := by
  unfold erase at h
  obtain ⟨found, -, h⟩ := bind_eq_ok.mp h
  cases found with
  | none =>
    cases h
    rfl
  | some place =>
    obtain ⟨next, -, h⟩ := bind_eq_ok.mp h
    obtain ⟨c, -, h⟩ := bind_eq_ok.mp h
    split at h
    · obtain ⟨result, hd, h⟩ := bind_eq_ok.mp h
      cases h
      exact deleteKeyFromLeaf_size hd
    · obtain ⟨child, -, h⟩ := bind_eq_ok.mp h
      obtain ⟨last, -, h⟩ := bind_eq_ok.mp h
      obtain ⟨newData, -, h⟩ := bind_eq_ok.mp h
      obtain ⟨keys, -, h⟩ := bind_eq_ok.mp h
      obtain ⟨result, hd, h⟩ := bind_eq_ok.mp h
      cases h
      have hsize := deleteKeyFromLeaf_size hd
      exact hsize

/-- Erasing a key that is not there finds nothing and changes nothing. -/
theorem erase_absent (h : Shape t tree height es) (hkey : key ∉ es.map Prod.fst)
    (hturns : height + 2 ≤ turns) : erase t turns tree key = .ok (tree, tree.endIterator) := by
  have hwalk : searchWalk tree key turns tree.root 0 [] = .ok none := by
    rcases h.2 with ⟨hroot, -⟩ | hsub
    · rw [hroot]
      exact searchWalk_null (by omega)
    · exact searchWalk_absent hsub hkey hturns
  rw [erase, hwalk]
  rfl

/-- What a call of `erase` on a well-formed tree that holds `es` has to do. -/
def ErasesKey (t turns : ℕ) (tree : Tree κ υ) (es : List (κ × υ)) (key : κ) : Prop :=
  ∃ tree' it, erase t turns tree key = .ok (tree', it) ∧
    if key ∈ es.map Prod.fst then
      ∃ height', WellFormed t tree' height' (es.filter fun e => e.1 ≠ key)
    else tree' = tree

/-- A tree of minimum degree 2 with a root and two leaves. -/
def twoLeaves : Tree ℕ Char where
  root := 1
  size := 4
  node a :=
    match a with
    | 1 => ⟨[(20, 'b')], [2, 3]⟩
    | 2 => ⟨[(10, 'a')], [0, 0]⟩
    | 3 => ⟨[(30, 'c'), (40, 'd')], [0, 0, 0]⟩
    | _ => ⟨[], []⟩
  fresh := 4

theorem twoLeaves_wellFormed :
    WellFormed 2 twoLeaves 1 [(10, 'a'), (20, 'b'), (30, 'c'), (40, 'd')] := by
  refine ⟨⟨by unfold Sorted; decide, Or.inr ⟨by decide, rfl, by decide, by decide,
    [[(10, 'a')], [(30, 'c'), (40, 'd')]], ?_, rfl⟩⟩, rfl⟩
  refine List.Forall₂.cons ?_ (List.Forall₂.cons ?_ List.Forall₂.nil)
  · exact ⟨by decide, rfl, by decide, by decide⟩
  · exact ⟨by decide, rfl, by decide, by decide⟩

/-- `erase` does it exactly when there is nothing to erase: `_size` stays as it was. -/
theorem erase_meets_iff_absent (t height turns : ℕ) (tree : Tree κ υ) (es : List (κ × υ)) (key : κ)
    (hwf : WellFormed t tree height es) (hturns : height + 2 ≤ turns) :
    ErasesKey t turns tree es key ↔ key ∉ es.map Prod.fst := by
  constructor
  · rintro ⟨tree', it, herase, hmeets⟩ hkey
    rw [if_pos hkey] at hmeets
    obtain ⟨height', -, hsize⟩ := hmeets
    have hkept : tree'.size = es.length := (erase_size herase).trans hwf.2
    obtain ⟨e, he, rfl⟩ := List.mem_map.mp hkey
    have hlt : (es.filter fun e' => e'.1 ≠ e.1).length < es.length := by
      rw [List.length_filter_lt_length_iff_exists]
      exact ⟨e, he, by simp⟩
    omega
  · intro hkey
    refine ⟨tree, tree.endIterator, erase_absent hwf.1 hkey hturns, ?_⟩
    rw [if_neg hkey]

theorem erase_meets_iff_absent_twoLeaves :
    ErasesKey 2 3 twoLeaves [(10, 'a'), (20, 'b'), (30, 'c'), (40, 'd')] 25 ↔
      25 ∉ [(10, 'a'), (20, 'b'), (30, 'c'), (40, 'd')].map Prod.fst :=
  erase_meets_iff_absent 2 1 3 twoLeaves _ 25 twoLeaves_wellFormed (by decide)

/-- After `erase(40)` three entries are left and `_size` is 4. -/
theorem erase_forty_twoLeaves :
    WellFormed 2 twoLeaves 1 [(10, 'a'), (20, 'b'), (30, 'c'), (40, 'd')] ∧
      ∀ turns, ¬ ErasesKey 2 turns twoLeaves [(10, 'a'), (20, 'b'), (30, 'c'), (40, 'd')] 40 := by
  refine ⟨twoLeaves_wellFormed, ?_⟩
  rintro turns ⟨tree', it, herase, hmeets⟩
  rw [if_pos (by decide)] at hmeets
  obtain ⟨height', -, hsize⟩ := hmeets
  have hthree : tree'.size = 3 := hsize
  have hfour : tree'.size = 4 := erase_size herase
  omega

end MaiFaSp.BTree
