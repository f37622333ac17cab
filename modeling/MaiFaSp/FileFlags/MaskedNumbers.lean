import MaiFaSp.Lib.ByteStream

/-!
# `main.c`: counting the words that meet a mask (`main.c:47-59`)

The loop asks for the end-of-file flag before each read, and the read of the last word does not set
it. The read after that returns nothing and leaves the last word in the buffer.
-/

namespace MaiFaSp.FileFlags

open ByteStream

/-- The number that the bytes of a word stand for in the byte order of the platform. -/
def wordValue (bigEndian : Bool) (bytes : List UInt8) : ℕ :=
  Nat.ofDigits 256 ((if bigEndian then bytes.reverse else bytes).map UInt8.toNat)

/-- `number & mask` -/
def masked (bigEndian : Bool) (mask : ℕ) (number : List UInt8) : ℕ :=
  wordValue bigEndian number &&& mask

/-- The loop of `count_masked_numbers`. The left side of `count < count++` is read before or after
the increment, the right side is the count before it. -/
def countLoop (bigEndian leftFirst : Bool) (mask : ℕ) :
    ℕ → Stream → List UInt8 → ℤ → Option ℤ
  | 0, s, _, count => if s.eof then some count else none
  | n + 1, s, number, count =>
    if s.eof then some count
    else
      let (got, s) := fread s 8
      let number := got ++ number.drop got.length
      if masked bigEndian mask number ≠ 0 then
        if (if leftFirst then count else count + 1) < count then some (-1)
        else countLoop bigEndian leftFirst mask n s number (count + 1)
      else countLoop bigEndian leftFirst mask n s number count

/-- `count_masked_numbers`. Every turn but the last reads a byte. -/
def countMaskedNumbers (bigEndian leftFirst : Bool) (file : List UInt8) (mask : ℕ) : Option ℤ :=
  countLoop bigEndian leftFirst mask (file.length + 1) ⟨file, false⟩ (List.replicate 8 0) 0

/-- The 8-byte words of the file. -/
def words (file : List UInt8) : List (List UInt8) := chunks 8 file

/-- How many of them meet the mask. -/
def maskedCount (bigEndian : Bool) (mask : ℕ) (file : List UInt8) : ℕ :=
  (words file).countP fun w => masked bigEndian mask w ≠ 0

variable {bigEndian leftFirst : Bool} {mask n : ℕ} {number rest : List UInt8} {count : ℤ}

theorem countLoop_eof (n : ℕ) (rest number : List UInt8) (count : ℤ) :
    countLoop bigEndian leftFirst mask n ⟨rest, true⟩ number count = some count := by
  cases n <;> rfl

/-- One turn. The count never wraps, so the comparison is false. -/
theorem countLoop_succ (rest number : List UInt8) (count : ℤ) :
    countLoop bigEndian leftFirst mask (n + 1) ⟨rest, false⟩ number count =
      countLoop bigEndian leftFirst mask n ⟨rest.drop 8, decide (rest.length < 8)⟩
        (rest.take 8 ++ number.drop (rest.take 8).length)
        (count + if masked bigEndian mask (rest.take 8 ++ number.drop (rest.take 8).length) ≠ 0
          then 1 else 0) := by
  have hnever : ¬ (if leftFirst then count else count + 1) < count := by
    split <;> omega
  rw [countLoop]
  simp only [Bool.false_eq_true, if_false, fread, Bool.false_or]
  by_cases hm : masked bigEndian mask (rest.take 8 ++ number.drop (rest.take 8).length) ≠ 0
  · rw [if_pos hm, if_pos hm, if_neg hnever]
  · rw [if_neg hm, if_neg hm, Int.add_zero]

/-- From the place of a word on: the words, and the last of them, or what is in the buffer, again. -/
theorem countLoop_spec (bigEndian leftFirst : Bool) (mask : ℕ) (hrest : 8 ∣ rest.length)
    (hn : rest.length < n) (number : List UInt8) (hnumber : number.length = 8) (count : ℤ) :
    countLoop bigEndian leftFirst mask n ⟨rest, false⟩ number count =
      some (count + maskedCount bigEndian mask rest +
        if masked bigEndian mask ((words rest).getLastD number) ≠ 0 then 1 else 0) := by
  induction n generalizing rest number count with
  | zero => omega
  | succ n ih =>
    rw [countLoop_succ]
    cases rest with
    | nil =>
      rw [List.take_nil, List.length_nil, List.drop_zero, List.nil_append, decide_eq_true (by decide),
        countLoop_eof]
      simp [maskedCount, words]
    | cons b bs =>
      have hfull : 8 ≤ (b :: bs).length := Nat.le_of_dvd (by simp) hrest
      have hword : ((b :: bs).take 8).length = 8 := List.length_take_of_le hfull
      have hwords : words (b :: bs) = (b :: bs).take 8 :: words ((b :: bs).drop 8) :=
        chunks_of_ne_nil (by decide) (List.cons_ne_nil b bs)
      have hdrop : 8 ∣ ((b :: bs).drop 8).length := by
        rw [List.length_drop]
        exact Nat.dvd_sub hrest (dvd_refl 8)
      have hlen : ((b :: bs).drop 8).length < n := by
        rw [List.length_drop]
        omega
      have hnumber' : number.drop ((b :: bs).take 8).length = [] := by
        rw [hword]
        exact List.drop_of_length_le hnumber.le
      rw [hnumber', List.append_nil, decide_eq_false (by omega), ih hdrop hlen _ hword, maskedCount,
        maskedCount, hwords, List.countP_cons, List.getLastD_cons]
      congr 1
      push_cast
      simp only [decide_eq_true_eq]
      ring

/-- The buffer is zero before the first read. -/
theorem masked_zero (bigEndian : Bool) (mask : ℕ) :
    masked bigEndian mask (List.replicate 8 0) = 0 := by
  have hzero : wordValue bigEndian (List.replicate 8 0) = 0 := by cases bigEndian <;> rfl
  rw [masked, hzero, Nat.zero_and]

theorem getLastD_masked_iff {file : List UInt8} :
    masked bigEndian mask ((words file).getLastD (List.replicate 8 0)) = 0 ↔
      ∀ w, (words file).getLast? = some w → masked bigEndian mask w = 0 := by
  rw [List.getLastD_eq_getLast?]
  cases (words file).getLast? with
  | none => exact iff_of_true (masked_zero bigEndian mask) fun w h => by cases h
  | some w =>
    constructor
    · rintro h v hv
      cases hv
      exact h
    · exact fun h => h w rfl

/-- The count is right exactly if the last word does not meet the mask, or there is none. -/
theorem count_masked_numbers_exact_iff (bigEndian leftFirst : Bool) (file : List UInt8) (mask : ℕ)
    (hfile : 8 ∣ file.length) :
    countMaskedNumbers bigEndian leftFirst file mask = some (maskedCount bigEndian mask file : ℤ) ↔
      ∀ w, (words file).getLast? = some w → masked bigEndian mask w = 0 := by
  have hcount := countLoop_spec bigEndian leftFirst mask hfile (Nat.lt_succ_self _)
    (List.replicate 8 0) (List.length_replicate ..) 0
  rw [countMaskedNumbers, hcount, ← getLastD_masked_iff, Option.some_inj, Int.zero_add]
  by_cases hlast : masked bigEndian mask ((words file).getLastD (List.replicate 8 0)) = 0
  · rw [if_neg (not_not.mpr hlast)]
    exact iff_of_true (Int.add_zero _) hlast
  · rw [if_pos hlast]
    exact iff_of_false (by omega) hlast

theorem count_masked_numbers_exact_iff_two :
    countMaskedNumbers false true [1, 0, 0, 0, 0, 0, 0, 0, 2, 0, 0, 0, 0, 0, 0, 0] 1 = some 1 :=
  (count_masked_numbers_exact_iff false true [1, 0, 0, 0, 0, 0, 0, 0, 2, 0, 0, 0, 0, 0, 0, 0] 1
    (by decide)).mpr (by decide +kernel)

/-- A file of the one word 1 has two. -/
theorem count_masked_numbers_twice :
    countMaskedNumbers false true [1, 0, 0, 0, 0, 0, 0, 0] 1 = some 2 ∧
      maskedCount false 1 [1, 0, 0, 0, 0, 0, 0, 0] = 1 := by
  decide +kernel

end MaiFaSp.FileFlags
