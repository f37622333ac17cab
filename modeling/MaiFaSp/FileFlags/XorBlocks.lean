import MaiFaSp.Lib.ByteStream

/-!
# `main.c`: the xor of the blocks of a file (`main.c:22-45, 201-217`)

The blocks have `2^N` bits. For `N = 2` they are half a byte each: the bytes are combined as a whole,
and the two halves of the result at the end.
-/

namespace MaiFaSp.FileFlags

open ByteStream

/-- `for (int i = 0; i < read_bytes; ++i) result[i] ^= buffer[i];` -/
def xorInto : List UInt8 → List UInt8 → List UInt8
  | r :: result, b :: buffer => (r ^^^ b) :: xorInto result buffer
  | result, _ => result

/-- The loop of `xor_blocks`, in at most `n` turns. -/
def xorLoop (bytes : ℕ) : ℕ → Stream → List UInt8 → Option (List UInt8)
  | 0, _, _ => none
  | n + 1, s, result =>
    let (buffer, s) := fread s bytes
    if buffer.length = 0 then some result else xorLoop bytes n s (xorInto result buffer)

/-- `left_part ^ right_part` -/
def nibbleXor (b : UInt8) : UInt8 := (b >>> 4) ^^^ (b &&& 0x0F)

/-- `result[0] = left_part ^ right_part` -/
def foldFirst : List UInt8 → List UInt8
  | [] => []
  | b :: result => nibbleXor b :: result

/-- `xor_blocks`: what is in `result` at the end. The buffer has 8 bytes, so a block has 64 bits at
most. Every turn but the last reads a byte. -/
def xorBlocks (file : List UInt8) (blockSize : ℕ) : Option (List UInt8) := do
  let bytes := (blockSize + 7) / 8
  let result ← xorLoop bytes (file.length + 1) ⟨file, false⟩ (List.replicate bytes 0)
  some (if blockSize = 4 then foldFirst result else result)

/-- The block size that `main` takes from the flag. -/
def xorBlockSize (flag : List Char) : Option ℕ :=
  match flag with
  | ['x', 'o', 'r', c] =>
    let n : ℤ := c.toNat - 48
    if n > 6 ∨ n < 2 then none else some (1 <<< n.toNat)
  | _ => none

/-! ### The blocks of a file -/

/-- A block, padded with zero bytes. -/
def padded (bytes : ℕ) (block : List UInt8) : List UInt8 :=
  block ++ List.replicate (bytes - block.length) 0

/-- The consecutive blocks of `2^N` bits. Half a byte stands in a byte of its own. -/
def blocksOf (N : ℕ) (file : List UInt8) : List (List UInt8) :=
  if N = 2 then file.flatMap fun b : UInt8 => [[b >>> 4], [b &&& 0x0F]]
  else (chunks (2 ^ N / 8) file).map (padded (2 ^ N / 8))

/-- All of them combined, entry by entry. -/
def xorAll (bytes : ℕ) (blocks : List (List UInt8)) : List UInt8 :=
  blocks.foldl (List.zipWith (· ^^^ ·)) (List.replicate bytes 0)

/-! ### The loop -/

theorem zipWith_xor_zeros (xs : List UInt8) :
    List.zipWith (· ^^^ ·) xs (List.replicate xs.length (0 : UInt8)) = xs := by
  induction xs with
  | nil => rfl
  | cons x xs ih =>
    rw [List.length_cons, List.replicate_succ, List.zipWith_cons_cons, ih, UInt8.xor_zero]

theorem xorInto_eq {bytes : ℕ} {result buffer : List UInt8} (hresult : result.length = bytes)
    (hbuffer : buffer.length ≤ bytes) :
    xorInto result buffer = List.zipWith (· ^^^ ·) result (padded bytes buffer) := by
  induction result generalizing buffer bytes with
  | nil =>
    rw [List.zipWith_nil_left]
    rfl
  | cons r result ih =>
    rw [List.length_cons] at hresult
    subst hresult
    cases buffer with
    | nil =>
      rw [padded, List.nil_append, List.length_nil, Nat.sub_zero, List.replicate_succ,
        List.zipWith_cons_cons, zipWith_xor_zeros, UInt8.xor_zero]
      rfl
    | cons b buffer =>
      rw [List.length_cons] at hbuffer
      have hrest := ih rfl (Nat.le_of_succ_le_succ hbuffer)
      rw [xorInto, hrest, padded, padded, List.cons_append, List.zipWith_cons_cons, List.length_cons,
        Nat.succ_sub_succ]

theorem xorLoop_succ (bytes n : ℕ) (rest result : List UInt8) (eof : Bool) :
    xorLoop bytes (n + 1) ⟨rest, eof⟩ result =
      if (rest.take bytes).length = 0 then some result
      else xorLoop bytes n ⟨rest.drop bytes, eof || decide (rest.length < bytes)⟩
        (xorInto result (rest.take bytes)) := rfl

/-- The loop goes through the chunks of the file, of which a short one can only be the last. -/
theorem xorLoop_spec {bytes n : ℕ} {rest result : List UInt8} (hbytes : 0 < bytes) (eof : Bool)
    (hn : rest.length < n) (hresult : result.length = bytes) :
    xorLoop bytes n ⟨rest, eof⟩ result =
      some (((chunks bytes rest).map (padded bytes)).foldl (List.zipWith (· ^^^ ·)) result) := by
  induction n generalizing rest result eof with
  | zero => omega
  | succ n ih =>
    rw [xorLoop_succ]
    by_cases hnil : rest = []
    · subst hnil
      rw [if_pos (by rw [List.take_nil, List.length_nil])]
      rfl
    · have hpos := List.length_pos_iff.mpr hnil
      have hread : (rest.take bytes).length ≠ 0 := by
        rw [List.length_take]
        omega
      have hinto := xorInto_eq hresult (List.length_take_le bytes rest)
      have hlen : (xorInto result (rest.take bytes)).length = bytes := by
        rw [hinto, List.length_zipWith, padded, List.length_append, List.length_replicate, hresult]
        omega
      have hdrop : (rest.drop bytes).length < n := by
        rw [List.length_drop]
        omega
      rw [if_neg hread, ih _ hdrop hlen, chunks_of_ne_nil hbytes hnil, List.map_cons, List.foldl_cons,
        hinto]

/-! ### Halves of bytes -/

theorem xor_and (a b m : UInt8) : (a ^^^ b) &&& m = (a &&& m) ^^^ (b &&& m) := by
  apply UInt8.toBitVec_inj.mp
  apply BitVec.eq_of_getLsbD_eq
  intro i _
  rw [UInt8.toBitVec_and, UInt8.toBitVec_xor, UInt8.toBitVec_xor, UInt8.toBitVec_and,
    UInt8.toBitVec_and, BitVec.getLsbD_and, BitVec.getLsbD_xor, BitVec.getLsbD_xor,
    BitVec.getLsbD_and, BitVec.getLsbD_and, Bool.and_xor_distrib_right]

/-- Taking the halves of a byte apart commutes with xor. -/
theorem nibbleXor_xor (a b : UInt8) : nibbleXor (a ^^^ b) = nibbleXor a ^^^ nibbleXor b := by
  rw [nibbleXor, nibbleXor, nibbleXor, UInt8.shiftRight_xor, xor_and]
  ac_rfl

theorem nibbles_foldl (file : List UInt8) (b : UInt8) :
    (file.flatMap fun b : UInt8 => [[b >>> 4], [b &&& 0x0F]]).foldl (List.zipWith (· ^^^ ·))
      [nibbleXor b] = [nibbleXor (file.foldl (· ^^^ ·) b)] := by
  induction file generalizing b with
  | nil => rfl
  | cons c file ih =>
    have hstep : List.zipWith (· ^^^ ·) (List.zipWith (· ^^^ ·) [nibbleXor b] [c >>> 4]) [c &&& 0x0F] =
        [nibbleXor (b ^^^ c)] := by
      rw [nibbleXor_xor, show nibbleXor c = (c >>> 4) ^^^ (c &&& 0x0F) from rfl, ← UInt8.xor_assoc]
      rfl
    rw [List.flatMap_cons, List.cons_append, List.cons_append, List.nil_append, List.foldl_cons,
      List.foldl_cons, hstep, ih, List.foldl_cons]

theorem bytes_foldl (file : List UInt8) (b : UInt8) :
    ((chunks 1 file).map (padded 1)).foldl (List.zipWith (· ^^^ ·)) [b] = [file.foldl (· ^^^ ·) b] := by
  induction file generalizing b with
  | nil => rfl
  | cons c file ih =>
    rw [chunks_of_ne_nil Nat.one_pos (List.cons_ne_nil c file), List.map_cons, List.foldl_cons,
      List.foldl_cons, ← ih]
    rfl

/-! ### The result -/

theorem xorBlocks_eq (file : List UInt8) {blockSize : ℕ} (hsize : 0 < blockSize) :
    xorBlocks file blockSize =
      some (if blockSize = 4 then
        foldFirst (xorAll ((blockSize + 7) / 8) ((chunks ((blockSize + 7) / 8) file).map
          (padded ((blockSize + 7) / 8))))
      else xorAll ((blockSize + 7) / 8) ((chunks ((blockSize + 7) / 8) file).map
        (padded ((blockSize + 7) / 8)))) := by
  have hresult : (List.replicate ((blockSize + 7) / 8) (0 : UInt8)).length = (blockSize + 7) / 8 :=
    List.length_replicate
  have hloop := xorLoop_spec (by omega) false (Nat.lt_succ_self file.length) hresult
  rw [xorBlocks, hloop]
  rfl

theorem xorBlockSize_eq_some_iff {flag : List Char} {size : ℕ} : xorBlockSize flag = some size ↔
    ∃ N, 2 ≤ N ∧ N ≤ 6 ∧ flag = ['x', 'o', 'r', Nat.digitChar N] ∧ size = 2 ^ N := by
  constructor
  · intro h
    unfold xorBlockSize at h
    split at h
    case h_1 c =>
      dsimp only at h
      split at h
      case isTrue => cases h
      case isFalse hrange =>
        cases h
        refine ⟨((c.toNat : ℤ) - 48).toNat, by omega, by omega, ?_, Nat.one_shiftLeft _⟩
        have hc : c = Nat.digitChar ((c.toNat : ℤ) - 48).toNat := by
          apply Char.toNat_inj.mp
          rw [Nat.toNat_digitChar_of_lt_ten (by omega)]
          omega
        rw [← hc]
    case h_2 => cases h
  · rintro ⟨N, h2, h6, rfl, rfl⟩
    have hc : (Nat.digitChar N).toNat = 48 + N := Nat.toNat_digitChar_of_lt_ten (by omega)
    simp only [xorBlockSize, hc]
    rw [if_neg (by omega), ← Nat.one_shiftLeft]
    congr 2
    omega

/-- For the block sizes that `main` takes from a flag `xorN`, the xor of the blocks is stored. -/
theorem xor_blocks_exact :
    (∀ (file : List UInt8) (N : ℕ), 2 ≤ N → N ≤ 6 →
      xorBlocks file (2 ^ N) = some (xorAll ((2 ^ N + 7) / 8) (blocksOf N file))) ∧
    ∀ (flag : List Char) (size : ℕ), xorBlockSize flag = some size ↔
      ∃ N, 2 ≤ N ∧ N ≤ 6 ∧ flag = ['x', 'o', 'r', Nat.digitChar N] ∧ size = 2 ^ N := by
  refine ⟨fun file N h2 h6 => ?_, fun flag size => xorBlockSize_eq_some_iff⟩
  rw [xorBlocks_eq file (Nat.two_pow_pos N), blocksOf]
  rcases h2.eq_or_lt with rfl | h3
  · rw [if_pos rfl, if_pos rfl]
    have hbytes := bytes_foldl file 0
    have hnibbles := nibbles_foldl file 0
    show some (foldFirst (((chunks 1 file).map (padded 1)).foldl _ [0])) = some (List.foldl _ [nibbleXor 0] _)
    rw [hbytes, hnibbles]
    rfl
  · have hpow : 2 ^ N = 8 * 2 ^ (N - 3) := by
      rw [show 8 = 2 ^ 3 from rfl, ← Nat.pow_add, Nat.add_sub_cancel' h3]
    have hpos := Nat.two_pow_pos (N - 3)
    have hbytes : (2 ^ N + 7) / 8 = 2 ^ N / 8 := by omega
    rw [if_neg (by omega), if_neg (by omega), hbytes]

theorem xor_blocks_exact_three : xorBlocks [0x12, 0x34, 0x50] (2 ^ 4) = some [0x42, 0x34] :=
  (xor_blocks_exact.1 [0x12, 0x34, 0x50] 4 (by decide) (by decide)).trans (by decide +kernel)

end MaiFaSp.FileFlags
