import Mathlib.Data.UInt
import Mathlib.Logic.Function.Basic
import Mathlib.Tactic

/-!
# Byte memory

A flat memory of bytes with little-endian integers of any width. Addresses are
natural numbers and need not be aligned.
-/

namespace MaiFaSp

abbrev Memory := ℕ → UInt8

namespace Memory

/-- The integer in the `k` bytes from address `a`. -/
def loadBytes (m : Memory) : ℕ → ℕ → ℕ
  | _, 0 => 0
  | a, k + 1 => (m a).toNat + 256 * loadBytes m (a + 1) k

/-- The lowest `k` bytes of `v` written from address `a`. -/
def storeBytes (m : Memory) : ℕ → ℕ → ℕ → Memory
  | _, 0, _ => m
  | a, k + 1, v => storeBytes (Function.update m a (UInt8.ofNat v)) (a + 1) k (v / 256)

def load64 (m : Memory) (a : ℕ) : ℕ := loadBytes m a 8

def store64 (m : Memory) (a v : ℕ) : Memory := storeBytes m a 8 v

/-- The two memories are the same on the addresses from `lo` up to `hi`. -/
def AgreeOn (m m' : Memory) (lo hi : ℕ) : Prop := ∀ x, lo ≤ x → x < hi → m x = m' x

theorem AgreeOn.mono {m m' : Memory} {lo hi lo' hi' : ℕ} (h : AgreeOn m m' lo hi)
    (hl : lo ≤ lo') (hh : hi' ≤ hi) : AgreeOn m m' lo' hi' :=
  fun x h1 h2 => h x (hl.trans h1) (h2.trans_le hh)

theorem AgreeOn.trans {m m' m'' : Memory} {lo hi : ℕ} (h : AgreeOn m m' lo hi)
    (h' : AgreeOn m' m'' lo hi) : AgreeOn m m'' lo hi :=
  fun x h1 h2 => (h x h1 h2).trans (h' x h1 h2)

theorem AgreeOn.symm {m m' : Memory} {lo hi : ℕ} (h : AgreeOn m m' lo hi) :
    AgreeOn m' m lo hi :=
  fun x h1 h2 => (h x h1 h2).symm

theorem storeBytes_frame (m : Memory) (a k v x : ℕ) (h : x < a ∨ a + k ≤ x) :
    storeBytes m a k v x = m x := by
  induction k generalizing m a v with
  | zero => rfl
  | succ k ih =>
    rw [storeBytes, ih _ _ _ (by omega)]
    exact Function.update_of_ne (by omega) _ _

theorem loadBytes_congr {m m' : Memory} {a k : ℕ} (h : AgreeOn m m' a (a + k)) :
    loadBytes m a k = loadBytes m' a k := by
  induction k generalizing a with
  | zero => rfl
  | succ k ih =>
    rw [loadBytes, loadBytes, h a le_rfl (by omega), ih (h.mono (by omega) (by omega))]

theorem loadBytes_lt (m : Memory) (a k : ℕ) : loadBytes m a k < 256 ^ k := by
  induction k generalizing a with
  | zero => simp [loadBytes]
  | succ k ih =>
    have hb := (m a).toNat_lt
    have hr := ih (a + 1)
    rw [loadBytes, pow_succ']
    omega

theorem loadBytes_storeBytes (m : Memory) (a k v : ℕ) :
    loadBytes (storeBytes m a k v) a k = v % 256 ^ k := by
  induction k generalizing m a v with
  | zero => simp [loadBytes, Nat.mod_one]
  | succ k ih =>
    rw [loadBytes, storeBytes, ih, storeBytes_frame _ _ _ _ _ (Or.inl (Nat.lt_succ_self a)),
      Function.update_self, UInt8.toNat_ofNat', pow_succ' 256 k, Nat.mod_mul]

theorem agreeOn_storeBytes (m : Memory) (a k v lo hi : ℕ) (h : hi ≤ a ∨ a + k ≤ lo) :
    AgreeOn (storeBytes m a k v) m lo hi :=
  fun x h1 h2 => storeBytes_frame m a k v x (by omega)

theorem agreeOn_update (m : Memory) (a : ℕ) (v : UInt8) (lo hi : ℕ) (h : a < lo ∨ hi ≤ a) :
    AgreeOn (Function.update m a v) m lo hi :=
  fun x h1 h2 => Function.update_of_ne (by omega) _ _

theorem load64_congr {m m' : Memory} {a : ℕ} (h : AgreeOn m m' a (a + 8)) :
    load64 m a = load64 m' a := loadBytes_congr h

theorem load64_lt (m : Memory) (a : ℕ) : load64 m a < 2 ^ 64 := by
  have h := loadBytes_lt m a 8
  norm_num at h ⊢
  exact h

theorem load64_store64 (m : Memory) (a v : ℕ) (h : v < 2 ^ 64) :
    load64 (store64 m a v) a = v := by
  have hs := loadBytes_storeBytes m a 8 v
  rw [show (256 : ℕ) ^ 8 = 2 ^ 64 by norm_num, Nat.mod_eq_of_lt h] at hs
  exact hs

theorem agreeOn_store64 (m : Memory) (a v lo hi : ℕ) (h : hi ≤ a ∨ a + 8 ≤ lo) :
    AgreeOn (store64 m a v) m lo hi := agreeOn_storeBytes m a 8 v lo hi h

theorem load64_store64_of_disjoint (m : Memory) (a b v : ℕ) (h : b + 8 ≤ a ∨ a + 8 ≤ b) :
    load64 (store64 m a v) b = load64 m b :=
  load64_congr (agreeOn_store64 m a v b (b + 8) h)

end Memory

end MaiFaSp

/-!
## Runs of words and bytes

A list of 64-bit words, or of bytes, one behind the other in a byte memory.
-/

namespace MaiFaSp.Memory

/-- The words `vs` from address `a` on. -/
def writeWords (m : Memory) : ℕ → List ℕ → Memory
  | _, [] => m
  | a, v :: vs => writeWords (m.store64 a v) (a + 8) vs

/-- The `n` words from address `a` on. -/
def readWords (m : Memory) : ℕ → ℕ → List ℕ
  | _, 0 => []
  | a, n + 1 => m.load64 a :: readWords m (a + 8) n

/-- The bytes `bs` from address `a` on. -/
def storeList (m : Memory) : ℕ → List UInt8 → Memory
  | _, [] => m
  | a, b :: bs => storeList (Function.update m a b) (a + 1) bs

variable {m m' : Memory} {a n lo hi : ℕ} {vs : List ℕ} {bs : List UInt8}

theorem agreeOn_writeWords (m : Memory) (a : ℕ) (vs : List ℕ)
    (h : hi ≤ a ∨ a + 8 * vs.length ≤ lo) : AgreeOn (m.writeWords a vs) m lo hi := by
  induction vs generalizing m a with
  | nil => exact fun x _ _ => rfl
  | cons v vs ih =>
    rw [List.length_cons] at h
    exact (ih (m.store64 a v) (a + 8) (by omega)).trans (agreeOn_store64 m a v lo hi (by omega))

theorem agreeOn_storeList (m : Memory) (a : ℕ) (bs : List UInt8)
    (h : hi ≤ a ∨ a + bs.length ≤ lo) : AgreeOn (m.storeList a bs) m lo hi := by
  induction bs generalizing m a with
  | nil => exact fun x _ _ => rfl
  | cons b bs ih =>
    rw [List.length_cons] at h
    exact (ih (Function.update m a b) (a + 1) (by omega)).trans
      (agreeOn_update m a b lo hi (by omega))

theorem storeList_getElem (m : Memory) (a i : ℕ) (hi : i < bs.length) :
    m.storeList a bs (a + i) = bs[i] := by
  induction bs generalizing m a i with
  | nil => exact absurd hi (Nat.not_lt_zero i)
  | cons b bs ih =>
    cases i with
    | zero =>
      have hframe : AgreeOn (storeList (Function.update m a b) (a + 1) bs) (Function.update m a b) a (a + 1) :=
        agreeOn_storeList (Function.update m a b) (a + 1) bs (by omega)
      rw [storeList]
      refine (hframe a le_rfl (by omega)).trans ?_
      exact Function.update_self a b m
    | succ i =>
      have h := ih (Function.update m a b) (a + 1) i (by simpa using hi)
      rw [show a + (i + 1) = a + 1 + i by omega]
      exact h

@[simp] theorem length_readWords : (m.readWords a n).length = n := by
  induction n generalizing a with
  | zero => rfl
  | succ n ih =>
    show (readWords m (a + 8) n).length + 1 = n + 1
    rw [ih]

theorem readWords_lt : ∀ v ∈ m.readWords a n, v < 2 ^ 64 := by
  induction n generalizing a with
  | zero =>
    intro v hv
    cases hv
  | succ n ih =>
    intro v hv
    rcases List.mem_cons.mp hv with rfl | hv
    · exact load64_lt m a
    · exact ih v hv

theorem readWords_congr (h : AgreeOn m m' a (a + 8 * n)) : m.readWords a n = m'.readWords a n := by
  induction n generalizing a with
  | zero => rfl
  | succ n ih =>
    show m.load64 a :: m.readWords (a + 8) n = m'.load64 a :: m'.readWords (a + 8) n
    rw [load64_congr (h.mono le_rfl (by omega)), ih (h.mono (by omega) (by omega))]

theorem readWords_writeWords (m : Memory) (a : ℕ) (vs : List ℕ) (hvs : ∀ v ∈ vs, v < 2 ^ 64) :
    (m.writeWords a vs).readWords a vs.length = vs := by
  induction vs generalizing m a with
  | nil => rfl
  | cons v vs ih =>
    show (writeWords (m.store64 a v) (a + 8) vs).load64 a ::
      (writeWords (m.store64 a v) (a + 8) vs).readWords (a + 8) vs.length = v :: vs
    have hframe : AgreeOn (writeWords (m.store64 a v) (a + 8) vs) (m.store64 a v) a (a + 8) :=
      agreeOn_writeWords (m.store64 a v) (a + 8) vs (by omega)
    rw [load64_congr hframe, load64_store64 m a v (hvs v (by simp)),
      ih (m.store64 a v) (a + 8) (fun v hv => hvs v (by simp [hv]))]

theorem readWords_one (m : Memory) (a : ℕ) : m.readWords a 1 = [m.load64 a] := rfl

/-- The part of a run that is read through its own words and the words behind it. -/
theorem readWords_add (m : Memory) (a k n : ℕ) :
    m.readWords a (k + n) = m.readWords a k ++ m.readWords (a + 8 * k) n := by
  induction k generalizing a with
  | zero => simp [readWords]
  | succ k ih =>
    rw [show k + 1 + n = k + n + 1 by omega]
    show m.load64 a :: m.readWords (a + 8) (k + n) =
      m.load64 a :: m.readWords (a + 8) k ++ m.readWords (a + 8 * (k + 1)) n
    rw [ih (a + 8), show a + 8 + 8 * k = a + 8 * (k + 1) by omega]
    rfl

end MaiFaSp.Memory
