import Mathlib.Data.List.Basic
import Mathlib.Tactic

/-!
# Reading a file in pieces

A stream is what has not been read of a file, with the end-of-file flag, which only a read that
comes to the end sets. Reads of one length cut the file into chunks, of which the last may be short.
-/

namespace MaiFaSp.ByteStream

structure Stream where
  rest : List UInt8
  eof : Bool

/-- `fread(buffer, 1, n, stream)`: the bytes that were read, and the stream behind them. -/
def fread (s : Stream) (n : ℕ) : List UInt8 × Stream :=
  (s.rest.take n, ⟨s.rest.drop n, s.eof || decide (s.rest.length < n)⟩)

variable {α : Type*}

def chunksFrom (k : ℕ) : ℕ → List α → List (List α)
  | 0, _ => []
  | _ + 1, [] => []
  | n + 1, x :: xs => (x :: xs).take k :: chunksFrom k n ((x :: xs).drop k)

/-- The consecutive pieces of length `k`. -/
def chunks (k : ℕ) (xs : List α) : List (List α) := chunksFrom k xs.length xs

variable {k n m : ℕ} {xs : List α}

@[simp] theorem chunks_nil (k : ℕ) : chunks k ([] : List α) = [] := rfl

theorem chunksFrom_eq (hk : 0 < k) (hn : xs.length ≤ n) (hm : xs.length ≤ m) :
    chunksFrom k n xs = chunksFrom k m xs := by
  induction n generalizing m xs with
  | zero =>
    rw [List.length_eq_zero_iff.mp (Nat.le_zero.mp hn)]
    cases m <;> rfl
  | succ n ih =>
    cases xs with
    | nil => cases m <;> rfl
    | cons x xs =>
      rw [List.length_cons] at hn hm
      obtain ⟨j, rfl⟩ : ∃ j, m = j + 1 := ⟨m - 1, by omega⟩
      have hlen : ((x :: xs).drop k).length ≤ xs.length := by
        rw [List.length_drop, List.length_cons]
        omega
      rw [chunksFrom, chunksFrom, ih (by omega) (by omega : ((x :: xs).drop k).length ≤ j)]

theorem chunks_of_ne_nil (hk : 0 < k) (h : xs ≠ []) :
    chunks k xs = xs.take k :: chunks k (xs.drop k) := by
  cases xs with
  | nil => exact absurd rfl h
  | cons x xs =>
    have hlen : ((x :: xs).drop k).length ≤ xs.length := by
      rw [List.length_drop, List.length_cons]
      omega
    rw [chunks, List.length_cons, chunksFrom, chunks, chunksFrom_eq hk hlen le_rfl]

end MaiFaSp.ByteStream
