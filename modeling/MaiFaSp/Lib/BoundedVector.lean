import MaiFaSp.Lib.Outcomes
import Mathlib.Data.List.Basic
import Mathlib.Data.List.InsertIdx
import Mathlib.Order.Basic
import Mathlib.Tactic

/-!
# Vectors with a capacity, and sorted keys in them

The operations of a vector with a fixed capacity, where reading past the end and
growing past the capacity are faults, and the linear search for the first key that
is not below a given one.
-/

namespace MaiFaSp.BoundedVector

/-- How a call on linked nodes can fail. -/
inductive NodeFault where
  | nullDereference
  | outOfRange
  | badAlloc
  | logicError
  | diverged
  | streamFailed
  deriving Repr, DecidableEq

section

variable {α : Type}

def get (xs : List α) (i : ℕ) : Except NodeFault α :=
  match xs[i]? with
  | some x => pure x
  | none => throw .outOfRange

def setAt (xs : List α) (i : ℕ) (x : α) : Except NodeFault (List α) :=
  if i < xs.length then pure (xs.set i x) else throw .outOfRange

def insertAt (capacity : ℕ) (xs : List α) (i : ℕ) (x : α) : Except NodeFault (List α) :=
  if xs.length < i then throw .outOfRange
  else if capacity ≤ xs.length then throw .badAlloc
  else pure (xs.insertIdx i x)

def eraseAt (xs : List α) (i : ℕ) : Except NodeFault (List α) :=
  if i < xs.length then pure (xs.eraseIdx i) else throw .outOfRange

/-- `xs` with `ys` behind it. -/
def append (capacity : ℕ) (xs ys : List α) : Except NodeFault (List α) :=
  if capacity < xs.length + ys.length then throw .badAlloc else pure (xs ++ ys)

variable {xs ys : List α} {i n : ℕ} {x : α}

theorem get_eq_ok : get xs i = .ok x ↔ xs[i]? = some x := by
  unfold get
  cases xs[i]? with
  | none =>
    constructor
    · intro h
      cases h
    · intro h
      cases h
  | some y =>
    constructor
    · intro h
      cases h
      rfl
    · intro h
      cases h
      rfl

theorem insertAt_eq_ok : insertAt n xs i x = .ok ys ↔
    i ≤ xs.length ∧ xs.length < n ∧ ys = xs.insertIdx i x := by
  unfold insertAt
  split
  case isTrue h =>
    constructor
    · intro he
      cases he
    · intro he
      omega
  case isFalse h =>
    split
    case isTrue hc =>
      constructor
      · intro he
        cases he
      · intro he
        omega
    case isFalse hc =>
      constructor
      · intro he
        cases he
        exact ⟨by omega, by omega, rfl⟩
      · rintro ⟨-, -, rfl⟩
        rfl

theorem eraseAt_eq_ok (h : i < xs.length) : eraseAt xs i = .ok (xs.eraseIdx i) := if_pos h

theorem setAt_eq_ok (h : i < xs.length) : setAt xs i x = .ok (xs.set i x) := if_pos h

theorem length_eraseAt (h : eraseAt xs i = .ok ys) : ys.length + 1 = xs.length := by
  unfold eraseAt at h
  split at h
  case isTrue hi =>
    cases h
    have hlen := List.length_eraseIdx_of_lt hi
    omega
  case isFalse => cases h

theorem length_setAt (h : setAt xs i x = .ok ys) : ys.length = xs.length := by
  unfold setAt at h
  split at h
  · cases h
    exact List.length_set
  · cases h

theorem append_eq_ok (h : xs.length + ys.length ≤ n) : append n xs ys = .ok (xs ++ ys) :=
  if_neg (not_lt.mpr h)

theorem insertIdx_length_append : (xs ++ ys).insertIdx xs.length x = xs ++ x :: ys := by
  induction xs with
  | nil => rfl
  | cons z xs ih =>
    show z :: (xs ++ ys).insertIdx xs.length x = z :: (xs ++ x :: ys)
    rw [ih]

theorem replicate_insertIdx (h : i ≤ n) :
    (List.replicate n x).insertIdx i x = List.replicate (n + 1) x := by
  rw [List.eq_replicate_iff, List.length_insertIdx_of_le_length (by simpa using h)]
  refine ⟨by rw [List.length_replicate], fun y hy => ?_⟩
  rcases List.eq_or_mem_of_mem_insertIdx hy with rfl | hy
  · rfl
  · exact List.eq_of_mem_replicate hy

end

/-- The call ends with a result that has the property, or with the given fault. -/
def OkUnless {ε α : Type} (fault : ε) (x : Except ε α) (P : α → Prop) : Prop :=
  (∃ a, x = .ok a ∧ P a) ∨ x = .error fault

section

variable {ε α β : Type} {fault : ε} {x : Except ε α} {P P' : α → Prop}

theorem OkUnless.ok {a : α} (h : P a) : OkUnless fault (.ok a) P := Or.inl ⟨a, rfl, h⟩

theorem OkUnless.mono (h : OkUnless fault x P) (hP : ∀ a, P a → P' a) : OkUnless fault x P' := by
  rcases h with ⟨a, rfl, ha⟩ | rfl
  · exact Or.inl ⟨a, rfl, hP a ha⟩
  · exact Or.inr rfl

theorem OkUnless.bind {f : α → Except ε β} {Q : β → Prop} (h : OkUnless fault x P)
    (hf : ∀ a, P a → OkUnless fault (f a) Q) : OkUnless fault (x >>= f) Q := by
  rcases h with ⟨a, rfl, ha⟩ | rfl
  · exact hf a ha
  · exact Or.inr rfl

end

/-! ### The search for a key -/

section

variable {κ : Type} [LinearOrder κ]

/-- `for (i = 0; i < keys.size() && keys[i] < key; i++) {}` -/
def lowerIndex (keys : List κ) (key : κ) : ℕ := (keys.takeWhile (fun k => decide (k < key))).length

variable {keys : List κ} {key k : κ} {i : ℕ}

@[simp] theorem lowerIndex_nil : lowerIndex [] key = 0 := rfl

theorem lowerIndex_cons : lowerIndex (k :: keys) key =
    if k < key then lowerIndex keys key + 1 else 0 := by
  unfold lowerIndex
  rw [List.takeWhile_cons]
  by_cases h : k < key
  · simp [h]
  · simp [h]

theorem lowerIndex_le : lowerIndex keys key ≤ keys.length := by
  induction keys with
  | nil => exact le_rfl
  | cons k keys ih =>
    rw [lowerIndex_cons, List.length_cons]
    split
    · omega
    · omega

theorem lowerIndex_eq_length (h : ∀ k ∈ keys, k < key) : lowerIndex keys key = keys.length := by
  induction keys with
  | nil => rfl
  | cons k keys ih =>
    rw [lowerIndex_cons, if_pos (h k (by simp)), ih (fun k hk => h k (by simp [hk])),
      List.length_cons]

theorem lowerIndex_eq_zero (h : ∀ k ∈ keys.head?, ¬ k < key) : lowerIndex keys key = 0 := by
  cases keys with
  | nil => rfl
  | cons k keys => rw [lowerIndex_cons, if_neg (h k rfl)]

theorem lt_of_mem_take (h : k ∈ keys.take (lowerIndex keys key)) : k < key := by
  induction keys with
  | nil => cases h
  | cons k' keys ih =>
    rw [lowerIndex_cons] at h
    split at h
    case isTrue hlt =>
      rcases List.mem_cons.mp h with rfl | h
      · exact hlt
      · exact ih h
    case isFalse hlt => cases h

theorem not_lt_of_getElem? (h : keys[lowerIndex keys key]? = some k) : ¬ k < key := by
  induction keys with
  | nil => cases h
  | cons k' keys ih =>
    rw [lowerIndex_cons] at h
    split at h
    case isTrue hlt => exact ih h
    case isFalse hlt =>
      cases h
      exact hlt

/-- In a sorted list the search stops at the key, if it is there. -/
theorem getElem?_lowerIndex_of_le (hs : keys.Pairwise (· ≤ ·)) :
    keys[lowerIndex keys key]? = some key ↔ key ∈ keys := by
  refine ⟨List.mem_of_getElem?, fun h => ?_⟩
  induction keys with
  | nil => cases h
  | cons k keys ih =>
    obtain ⟨hk, hs⟩ := List.pairwise_cons.mp hs
    rw [lowerIndex_cons]
    split
    case isTrue hlt =>
      rcases List.mem_cons.mp h with rfl | h
      · exact absurd hlt (lt_irrefl _)
      · exact ih hs h
    case isFalse hlt =>
      rcases List.mem_cons.mp h with rfl | h
      · rfl
      · have heq : k = key := le_antisymm (hk key h) (not_lt.mp hlt)
        rw [heq]
        rfl

/-- The last key that is smaller is not the key that is looked for; without one the first key is taken. -/
theorem getElem?_pred_lowerIndex : keys[lowerIndex keys key - 1]? = some key ↔ keys.head? = some key := by
  cases keys with
  | nil => exact Iff.rfl
  | cons k keys =>
    by_cases hk : k < key
    · refine iff_of_false (fun he => ?_) fun he => hk.ne (Option.some.inj he)
      have hindex : lowerIndex (k :: keys) key = lowerIndex keys key + 1 := by
        rw [lowerIndex_cons, if_pos hk]
      have hmem : key ∈ (k :: keys).take (lowerIndex (k :: keys) key) := by
        refine List.mem_of_getElem? (i := lowerIndex keys key) ?_
        rw [hindex, List.getElem?_take_of_lt (Nat.lt_succ_self _)]
        rw [hindex, Nat.add_sub_cancel] at he
        exact he
      exact lt_irrefl key (lt_of_mem_take hmem)
    · rw [lowerIndex_cons, if_neg hk]
      exact Iff.rfl

theorem getElem?_lowerIndex (hs : keys.Pairwise (· < ·)) :
    keys[lowerIndex keys key]? = some key ↔ key ∈ keys :=
  getElem?_lowerIndex_of_le (hs.imp fun h => h.le)

theorem pairwise_le_insertIdx (hs : keys.Pairwise (· ≤ ·)) :
    (keys.insertIdx (lowerIndex keys key) key).Pairwise (· ≤ ·) := by
  induction keys with
  | nil => simp
  | cons k keys ih =>
    obtain ⟨hk, hs⟩ := List.pairwise_cons.mp hs
    rw [lowerIndex_cons]
    split
    case isTrue hlt =>
      rw [List.insertIdx_succ_cons, List.pairwise_cons]
      refine ⟨fun k' hk' => ?_, ih hs⟩
      rcases List.eq_or_mem_of_mem_insertIdx hk' with rfl | hk'
      · exact hlt.le
      · exact hk k' hk'
    case isFalse hlt =>
      rw [List.insertIdx_zero, List.pairwise_cons]
      refine ⟨fun k' hk' => ?_, List.pairwise_cons.mpr ⟨hk, hs⟩⟩
      rcases List.mem_cons.mp hk' with rfl | hk'
      · exact not_lt.mp hlt
      · exact (not_lt.mp hlt).trans (hk k' hk')

theorem pairwise_insertIdx (hs : keys.Pairwise (· < ·)) (h : key ∉ keys) :
    (keys.insertIdx (lowerIndex keys key) key).Pairwise (· < ·) := by
  have hle : (keys.insertIdx (lowerIndex keys key) key).Pairwise (· ≤ ·) :=
    pairwise_le_insertIdx (hs.imp fun hlt => hlt.le)
  have hnodup : (keys.insertIdx (lowerIndex keys key) key).Nodup := by
    rw [(List.perm_insertIdx key keys lowerIndex_le).nodup_iff, List.nodup_cons]
    exact ⟨h, hs.imp fun hlt => hlt.ne⟩
  exact (hle.and hnodup).imp fun hboth => lt_of_le_of_ne hboth.1 hboth.2

end

end MaiFaSp.BoundedVector
