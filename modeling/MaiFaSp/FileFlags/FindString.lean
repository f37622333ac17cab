import MaiFaSp.Lib.Borders

/-!
# `find_string.c`: a string in a file

`fgetc` returns a byte as a number below 256, while the bytes of the pattern are `char`s. A string
is the list of its bytes before the terminator. An access to an array outside it is the fault
`outOfBounds`, and a loop that would not end is the fault `diverged`.
-/

namespace MaiFaSp.FindString

open Borders

inductive Fault where
  | outOfBounds
  | diverged
  deriving Repr, DecidableEq

/-- The value of a `char`, which is signed on some platforms. -/
def charValue (signed : Bool) (b : UInt8) : ℤ :=
  if signed = true ∧ 128 ≤ b.toNat then b.toNat - 256 else b.toNat

/-- `a[i]` -/
def read {β : Type} (a : List β) (i : ℕ) : Except Fault β :=
  match a[i]? with
  | some v => .ok v
  | none => .error .outOfBounds

/-- `a[i] = v` -/
def write (a : List ℕ) (i v : ℕ) : Except Fault (List ℕ) :=
  if i < a.length then .ok (a.set i v) else .error .outOfBounds

/-- The loop of `compute_lps`. -/
def lpsLoop (pattern : List ℤ) (patternLen : ℕ) : ℕ → ℕ → ℕ → List ℕ → Except Fault (List ℕ)
  | 0, i, _, lps => if i < patternLen then throw .diverged else pure lps
  | n + 1, i, len, lps =>
    if i < patternLen then do
      let a ← read pattern i
      let b ← read pattern len
      if a = b then do
        let lps ← write lps i (len + 1)
        lpsLoop pattern patternLen n (i + 1) (len + 1) lps
      else if len ≠ 0 then do
        let len ← read lps (len - 1)
        lpsLoop pattern patternLen n i len lps
      else do
        let lps ← write lps i 0
        lpsLoop pattern patternLen n (i + 1) len lps
    else pure lps

/-- `compute_lps`. Each turn raises `2 * i - len`, which bounds their number. -/
def computeLps (pattern : List ℤ) (lps : List ℕ) (patternLen : ℕ) : Except Fault (List ℕ) := do
  let lps ← write lps 0 0
  lpsLoop pattern patternLen (2 * patternLen) 1 0 lps

/-- `while (j > 0 && ch != pattern[j])`, in at most `n` turns. -/
def fallBack (pattern : List ℤ) (lps : List ℕ) (ch : ℤ) : ℕ → ℕ → Except Fault ℕ
  | 0, j => if j > 0 then throw .diverged else pure j
  | n + 1, j =>
    if j > 0 then do
      let c ← read pattern j
      if ch ≠ c then do
        let j ← read lps (j - 1)
        fallBack pattern lps ch n j
      else pure j
    else pure j

/-- The loop of `kmp_search` over what `fgetc` returns before the end of the file. -/
def searchLoop (pattern : List ℤ) (lps : List ℕ) (patternLen : ℕ) : List ℤ → ℕ → Except Fault Bool
  | [], _ => pure false
  | ch :: file, j => do
    let j ← fallBack pattern lps ch j j
    let c ← read pattern j
    let j := if ch = c then j + 1 else j
    if j = patternLen then pure true else searchLoop pattern lps patternLen file j

/-- `int pattern_len = strlen(pattern)` -/
def patternLen (pattern : List UInt8) : ℤ := Int.bmod pattern.length (2 ^ 32)

/-- `malloc(pattern_len * sizeof(int))` fails for more bytes than a `ptrdiff_t` can count. -/
def mallocFails (patternLen : ℤ) : Bool := 2 ^ 63 ≤ patternLen * 4 % 2 ^ 64

/-- `kmp_search`. The new array is filled with what its memory held before. -/
def kmpSearch (signed : Bool) (memory : ℕ → ℕ) (file pattern : List UInt8) : Except Fault Bool := do
  let n := patternLen pattern
  if n = 0 then pure false
  else if mallocFails n then pure false
  else do
    let chars := pattern.map (charValue signed)
    let lps ← computeLps chars ((List.range n.toNat).map memory) n.toNat
    searchLoop chars lps n.toNat (file.map fun b => (b.toNat : ℤ)) 0

variable {pattern : List ℤ} {lps : List ℕ} {patLen n i len j : ℕ} {ch : ℤ}

theorem read_eq {β : Type} {a : List β} {v : β} (h : a[i]? = some v) : read a i = .ok v := by
  rw [read, h]

theorem write_eq {a : List ℕ} (h : i < a.length) (v : ℕ) : write a i v = .ok (a.set i v) := if_pos h

/-! ### The table -/

/-- The first `i` entries are the borders of the prefixes of the pattern. -/
def Table (pattern : List ℤ) (i : ℕ) (lps : List ℕ) : Prop :=
  ∀ k < i, lps[k]? = some (border (pattern.take (k + 1)))

theorem Table.write (h : Table pattern i lps) (hi : i < lps.length) {v : ℕ}
    (hv : v = border (pattern.take (i + 1))) : Table pattern (i + 1) (lps.set i v) := by
  intro k hk
  rw [List.getElem?_set]
  by_cases heq : i = k
  · subst heq
    rw [if_pos rfl, if_pos hi, hv]
  · rw [if_neg heq]
    exact h k (by omega)

/-- The border of a prefix that is one longer. -/
theorem border_take_succ (hi : 0 < i) {c : ℤ} (hc : pattern[i]? = some c) :
    border (pattern.take (i + 1)) = overlap pattern ((pattern.take i).tail ++ [c]) := by
  have hlen := (List.getElem?_eq_some_iff.mp hc).1
  have hne : pattern.take i ≠ [] := by
    apply List.length_pos_iff.mp
    rw [List.length_take]
    omega
  rw [border_take, List.take_add_one, hc, List.tail_append_of_ne_nil hne]
  rfl

/-- What holds at the head of the loop of `compute_lps`. -/
structure LpsInvariant (pattern : List ℤ) (patLen i len : ℕ) (lps : List ℕ) : Prop where
  size : lps.length = patLen
  pos : 0 < i
  lt : len < i
  table : Table pattern i lps
  reached : ∀ c, pattern[i]? = some c → Reached pattern (pattern.take i).tail c len

/-- The next entry is found, and the loop goes on behind it. -/
theorem LpsInvariant.found (h : LpsInvariant pattern patLen i len lps) (hi : i < patLen) {c : ℤ}
    (hc : pattern[i]? = some c) {v : ℕ} (hle : v ≤ i)
    (hv : overlap pattern ((pattern.take i).tail ++ [c]) = v) :
    LpsInvariant pattern patLen (i + 1) v (lps.set i v) where
  size := by rw [List.length_set, h.size]
  pos := Nat.succ_pos i
  lt := Nat.lt_succ_of_le hle
  table := h.table.write (by rw [h.size]; exact hi) (by rw [border_take_succ h.pos hc, hv])
  reached d _ := by
    have hstart := Reached.start pattern (pattern.take (i + 1)).tail d
    rwa [← border_take, border_take_succ h.pos hc, hv] at hstart

theorem LpsInvariant.fallsBack (h : LpsInvariant pattern patLen i len lps) (hi : i < pattern.length)
    (hlen : len ≠ 0) (hne : pattern[i]? ≠ pattern[len]?) :
    LpsInvariant pattern patLen i (border (pattern.take len)) lps := by
  have hlt := h.lt
  have htake : (pattern.take len).length = len := List.length_take_of_le (by omega)
  have hborder := border_lt (List.length_pos_iff.mp (by omega : 0 < (pattern.take len).length))
  refine ⟨h.size, h.pos, by omega, h.table, fun c hc => ?_⟩
  exact (h.reached c hc).fallsBack (Nat.pos_of_ne_zero hlen) (by omega) fun heq =>
    hne (hc.trans heq.symm)

theorem lpsLoop_spec (hpat : patLen ≤ pattern.length) (h : LpsInvariant pattern patLen i len lps)
    (hn : 2 * patLen + len ≤ 2 * i + n) :
    ∃ lps', lpsLoop pattern patLen n i len lps = .ok lps' ∧ lps'.length = patLen ∧
      Table pattern patLen lps' := by
  induction n generalizing i len lps with
  | zero =>
    have hlt := h.lt
    refine ⟨lps, if_neg (by omega), h.size, fun k hk => h.table k (by omega)⟩
  | succ n ih =>
    have hlt := h.lt
    rw [lpsLoop]
    by_cases hi : i < patLen
    · obtain ⟨a, ha⟩ : ∃ a, pattern[i]? = some a :=
        ⟨_, List.getElem?_eq_getElem (by omega : i < pattern.length)⟩
      obtain ⟨b, hb⟩ : ∃ b, pattern[len]? = some b :=
        ⟨_, List.getElem?_eq_getElem (by omega : len < pattern.length)⟩
      have hsize : i < lps.length := by rw [h.size]; exact hi
      rw [if_pos hi, read_eq ha, read_eq hb]
      simp only [bind, Except.bind]
      by_cases hab : a = b
      · rw [if_pos hab, write_eq hsize]
        have hover := (h.reached a ha).goesOn (hb.trans (by rw [hab]))
        exact ih (h.found hi ha hlt hover) (by omega)
      · rw [if_neg hab]
        by_cases hlen : len ≠ 0
        · have hentry := h.table (len - 1) (by omega)
          rw [Nat.sub_add_cancel (Nat.pos_of_ne_zero hlen)] at hentry
          have hback := h.fallsBack (by omega) hlen fun heq =>
            hab (Option.some.inj (ha.symm.trans (heq.trans hb)))
          have hborder : border (pattern.take len) < len := by
            have htake : (pattern.take len).length = len := List.length_take_of_le (by omega)
            have hlt' := border_lt (List.length_pos_iff.mp
              (by omega : 0 < (pattern.take len).length))
            omega
          rw [if_pos hlen, read_eq hentry]
          exact ih hback (by omega)
        · have hzero : len = 0 := not_not.mp hlen
          subst hzero
          have hover := (h.reached a ha).fails fun heq =>
            hab (Option.some.inj (heq.symm.trans hb))
          rw [if_neg hlen, write_eq hsize]
          exact ih (h.found hi ha (Nat.zero_le i) hover) (by omega)
    · rw [if_neg hi]
      exact ⟨lps, rfl, h.size, fun k hk => h.table k (by omega)⟩

/-- `compute_lps` ends without leaving its arrays. -/
theorem computeLps_spec (hpos : 0 < patLen) (hpat : patLen ≤ pattern.length)
    (hsize : lps.length = patLen) :
    ∃ lps', computeLps pattern lps patLen = .ok lps' ∧ lps'.length = patLen ∧
      Table pattern patLen lps' := by
  have hfirst : border (pattern.take 1) = 0 := by
    rw [border_take]
    have hle := overlap_le_text pattern (pattern.take 1).tail
    rw [List.length_tail, List.length_take] at hle
    omega
  have hinv : LpsInvariant pattern patLen 1 0 (lps.set 0 0) := {
    size := by rw [List.length_set, hsize]
    pos := Nat.one_pos
    lt := Nat.one_pos
    table := by
      have htable : Table pattern 0 lps := fun k hk => absurd hk (Nat.not_lt_zero k)
      exact htable.write (by omega) hfirst.symm
    reached := fun c _ => by
      have hstart := Reached.start pattern (pattern.take 1).tail c
      rwa [← border_take, hfirst] at hstart }
  rw [computeLps, write_eq (by omega)]
  exact lpsLoop_spec hpat hinv (by omega)

/-! ### The search -/

section

variable {text : List ℤ} (hpat : patLen ≤ pattern.length) (htable : Table pattern patLen lps)

include hpat htable

theorem fallBack_spec (h : Reached (pattern.take patLen) text ch j) (hj : j < patLen) (hn : j ≤ n) :
    ∃ j', fallBack pattern lps ch n j = .ok j' ∧ Reached (pattern.take patLen) text ch j' ∧
      j' < patLen ∧ (j' = 0 ∨ pattern[j']? = some ch) := by
  induction n generalizing j with
  | zero => exact ⟨j, if_neg (by omega), h, hj, Or.inl (by omega)⟩
  | succ n ih =>
    rw [fallBack]
    by_cases hpos : j > 0
    · obtain ⟨c, hc⟩ : ∃ c, pattern[j]? = some c :=
        ⟨_, List.getElem?_eq_getElem (by omega : j < pattern.length)⟩
      rw [if_pos hpos, read_eq hc]
      simp only [bind, Except.bind]
      by_cases hch : ch ≠ c
      · have hentry := htable (j - 1) (by omega)
        rw [Nat.sub_add_cancel hpos] at hentry
        have hsame : (pattern.take patLen).take j = pattern.take j := by
          rw [List.take_take, min_eq_left (by omega)]
        have hlen : (pattern.take j).length = j := List.length_take_of_le (by omega)
        have hlt := border_lt (List.length_pos_iff.mp (by omega : 0 < (pattern.take j).length))
        have hback := h.fallsBack hpos (by rw [List.length_take]; omega) (by
          rw [List.getElem?_take_of_lt hj, hc]
          exact fun heq => hch (Option.some.inj heq).symm)
        rw [hsame] at hback
        rw [if_pos hch, read_eq hentry]
        exact ih hback (by omega) (by omega)
      · rw [if_neg hch]
        rw [← not_not.mp hch] at hc
        exact ⟨j, rfl, h, hj, Or.inr hc⟩
    · rw [if_neg hpos]
      exact ⟨j, rfl, h, hj, Or.inl (by omega)⟩

/-- One byte of the file: `j` stays the length of the longest prefix of the pattern that ends here. -/
theorem searchLoop_cons {file : List ℤ} (hj : overlap (pattern.take patLen) text < patLen) :
    searchLoop pattern lps patLen (ch :: file) (overlap (pattern.take patLen) text) =
      if overlap (pattern.take patLen) (text ++ [ch]) = patLen then .ok true
      else searchLoop pattern lps patLen file (overlap (pattern.take patLen) (text ++ [ch])) := by
  obtain ⟨j', hok, hreached, hlt, hstop⟩ :=
    fallBack_spec hpat htable (Reached.start (pattern.take patLen) text ch) hj le_rfl
  obtain ⟨c, hc⟩ : ∃ c, pattern[j']? = some c :=
    ⟨_, List.getElem?_eq_getElem (by omega : j' < pattern.length)⟩
  have htake : (pattern.take patLen)[j']? = some c := by rw [List.getElem?_take_of_lt hlt, hc]
  have hnext : overlap (pattern.take patLen) (text ++ [ch]) = if ch = c then j' + 1 else j' := by
    by_cases hch : ch = c
    · rw [if_pos hch, hreached.goesOn (by rw [htake, hch])]
    · have hzero : j' = 0 := hstop.resolve_right fun heq =>
        hch (Option.some.inj (heq.symm.trans hc))
      subst hzero
      rw [if_neg hch]
      exact hreached.fails fun heq => hch (Option.some.inj (heq.symm.trans htake))
  rw [searchLoop, hok, hnext]
  simp only [bind, Except.bind, read_eq hc]
  rfl

theorem searchLoop_spec {file : List ℤ} (hj : overlap (pattern.take patLen) text < patLen) :
    ∃ found, searchLoop pattern lps patLen file (overlap (pattern.take patLen) text) = .ok found ∧
      (found = true ↔ ∃ read, read <+: file ∧ pattern.take patLen <:+ text ++ read) := by
  have hlen : (pattern.take patLen).length = patLen := List.length_take_of_le hpat
  have hnot : ¬ pattern.take patLen <:+ text := by
    rw [← overlap_eq_length_iff, hlen]
    exact hj.ne
  induction file generalizing text with
  | nil =>
    refine ⟨false, rfl, iff_of_false Bool.false_ne_true ?_⟩
    rintro ⟨read, hread, hs⟩
    rw [List.prefix_nil.mp hread, List.append_nil] at hs
    exact hnot hs
  | cons ch file ih =>
    rw [searchLoop_cons hpat htable hj]
    have hend := overlap_eq_length_iff (p := pattern.take patLen) (t := text ++ [ch])
    rw [hlen] at hend
    by_cases hfull : overlap (pattern.take patLen) (text ++ [ch]) = patLen
    · rw [if_pos hfull]
      exact ⟨true, rfl, iff_of_true rfl ⟨[ch], ⟨file, rfl⟩, hend.mp hfull⟩⟩
    · have hle := overlap_le (pattern.take patLen) (text ++ [ch])
      rw [if_neg hfull]
      obtain ⟨found, hok, hfound⟩ := ih (by omega) fun hs => hfull (hend.mpr hs)
      refine ⟨found, hok, hfound.trans ⟨?_, ?_⟩⟩
      · rintro ⟨read, hread, hs⟩
        refine ⟨ch :: read, List.cons_prefix_cons.mpr ⟨rfl, hread⟩, ?_⟩
        rwa [List.append_cons]
      · rintro ⟨read, hread, hs⟩
        cases read with
        | nil =>
          rw [List.append_nil] at hs
          exact absurd hs hnot
        | cons d read =>
          obtain ⟨rfl, hrest⟩ := List.cons_prefix_cons.mp hread
          refine ⟨read, hrest, ?_⟩
          rwa [← List.append_cons]

end

/-! ### Bytes and characters -/

/-- Every one of the bytes is the same number as a `char` and as the result of `fgetc`. -/
def Comparable (signed : Bool) (bytes : List UInt8) : Prop :=
  signed = false ∨ ∀ b ∈ bytes, b.toNat < 128

theorem charValue_eq_iff {signed : Bool} {b : UInt8} :
    charValue signed b = b.toNat ↔ signed = false ∨ b.toNat < 128 := by
  unfold charValue
  cases signed with
  | false => simp
  | true =>
    simp only [true_and, Bool.true_eq_false, false_or]
    split <;> omega

theorem charValue_neg {b : UInt8} (h : 128 ≤ b.toNat) : charValue true b < 0 := by
  have hb := b.toNat_lt
  rw [charValue, if_pos ⟨rfl, h⟩]
  omega

/-- Where the characters of the pattern are met in the file. -/
theorem chars_infix_iff {signed : Bool} {file bytes : List UInt8} :
    bytes.map (charValue signed) <:+: file.map (fun b => (b.toNat : ℤ)) ↔
      Comparable signed bytes ∧ bytes <:+: file := by
  constructor
  · rintro h
    obtain ⟨l, hl, hmap⟩ := List.infix_map_iff.mp h
    have hpoint : ∀ b ∈ bytes, signed = false ∨ b.toNat < 128 := by
      intro b hb
      by_contra hno
      rw [not_or, Bool.not_eq_false, not_lt] at hno
      obtain ⟨rfl, hbig⟩ := hno
      have hm := List.mem_map_of_mem (f := charValue true) hb
      rw [hmap] at hm
      obtain ⟨d, -, hd⟩ := List.mem_map.mp hm
      have hneg := charValue_neg hbig
      omega
    have hcomparable : Comparable signed bytes := by
      cases signed with
      | false => exact Or.inl rfl
      | true => exact Or.inr fun b hb => (hpoint b hb).resolve_left (by decide)
    refine ⟨hcomparable, ?_⟩
    have hbytes : bytes.map (charValue signed) = bytes.map fun b => (b.toNat : ℤ) :=
      List.map_congr_left fun b hb => charValue_eq_iff.mpr (hpoint b hb)
    rw [hbytes] at hmap
    have hinj : Function.Injective fun b : UInt8 => (b.toNat : ℤ) := fun b d hbd =>
      UInt8.toNat_inj.mp (Nat.cast_injective hbd)
    rwa [List.map_injective_iff.mpr hinj hmap]
  · rintro ⟨hcomparable, h⟩
    have hbytes : bytes.map (charValue signed) = bytes.map fun b => (b.toNat : ℤ) :=
      List.map_congr_left fun b hb => charValue_eq_iff.mpr (hcomparable.imp_right fun hall => hall b hb)
    rw [hbytes]
    exact List.infix_map_iff.mpr ⟨bytes, h, rfl⟩

theorem charValue_injective (signed : Bool) : Function.Injective (charValue signed) := by
  intro b d hbd
  have hb := b.toNat_lt
  have hd := d.toNat_lt
  unfold charValue at hbd
  apply UInt8.toNat_inj.mp
  split at hbd <;> split at hbd <;> omega

/-- `compute_lps` for a string, in an array as long as the string: it ends, an access to another
index would be a fault, and each entry is the length of the longest border of its prefix. -/
theorem compute_lps_exact (signed : Bool) {pattern : List UInt8} {lps : List ℕ} (hne : pattern ≠ [])
    (hsize : lps.length = pattern.length) :
    ∃ lps', computeLps (pattern.map (charValue signed)) lps pattern.length = .ok lps' ∧
      lps'.length = pattern.length ∧
      ∀ i < pattern.length, ∃ k, lps'[i]? = some k ∧ LongestBorder (pattern.take (i + 1)) k := by
  have hchars : pattern.length ≤ (pattern.map (charValue signed)).length := (List.length_map ..).ge
  obtain ⟨lps', hok, hlen, htable⟩ := computeLps_spec (List.length_pos_iff.mpr hne) hchars hsize
  refine ⟨lps', hok, hlen, fun i hi => ⟨_, htable i hi, ?_⟩⟩
  have hprefix : (pattern.map (charValue signed)).take (i + 1) ≠ [] := by
    apply List.length_pos_iff.mp
    rw [List.length_take, List.length_map]
    omega
  have hborder := longestBorder_border hprefix
  have hmap : (pattern.map (charValue signed)).take (i + 1) =
      (pattern.take (i + 1)).map (charValue signed) := List.map_take.symm
  rw [hmap] at hborder ⊢
  exact hborder.of_map (charValue_injective signed)

/-- The array of `abacab`. -/
theorem compute_lps_exact_letters :
    ∃ lps', computeLps ([97, 98, 97, 99, 97, 98].map (charValue true)) [7, 7, 7, 7, 7, 7] 6 = .ok lps' ∧
      lps'.length = 6 ∧
      ∀ i < 6, ∃ k, lps'[i]? = some k ∧
        LongestBorder (List.take (i + 1) ([97, 98, 97, 99, 97, 98] : List UInt8)) k := by
  have hne : ([97, 98, 97, 99, 97, 98] : List UInt8) ≠ [] := List.cons_ne_nil _ _
  exact compute_lps_exact true hne rfl

/-! ### The search for a string -/

/-- The bytes that `pattern_len` counts, the first of the pattern, if it counts any. -/
def searched (pattern : List UInt8) : List UInt8 := pattern.take (patternLen pattern).toNat

theorem patternLen_bounds (pattern : List UInt8) : -(2 ^ 31) ≤ patternLen pattern ∧
    patternLen pattern < 2 ^ 31 ∧ patternLen pattern ≤ pattern.length := by
  unfold patternLen
  rw [Int.bmod_def]
  omega

/-- `malloc` fails for a negative length, which is a huge `size_t`. -/
theorem mallocFails_iff {n : ℤ} (hlo : -(2 ^ 31) ≤ n) (hhi : n < 2 ^ 31) :
    mallocFails n = true ↔ n < 0 := by
  unfold mallocFails
  rw [decide_eq_true_iff]
  omega

/-- What becomes of the search, in terms of these bytes. -/
theorem kmpSearch_spec (signed : Bool) (memory : ℕ → ℕ) (file pattern : List UInt8) :
    ∃ found, kmpSearch signed memory file pattern = .ok found ∧
      (found = true ↔ 0 < patternLen pattern ∧ Comparable signed (searched pattern) ∧
        searched pattern <:+: file) := by
  obtain ⟨hlo, hhi, hfew⟩ := patternLen_bounds pattern
  have hfails := mallocFails_iff hlo hhi
  unfold kmpSearch
  dsimp only
  rcases lt_trichotomy (patternLen pattern) 0 with hneg | hzero | hpos
  · rw [if_neg hneg.ne, if_pos (hfails.mpr hneg)]
    exact ⟨false, rfl, iff_of_false Bool.false_ne_true fun h => by omega⟩
  · rw [if_pos hzero]
    exact ⟨false, rfl, iff_of_false Bool.false_ne_true fun h => by omega⟩
  · rw [if_neg hpos.ne', if_neg fun h => hpos.not_gt (hfails.mp h)]
    have hchars : (patternLen pattern).toNat ≤ (pattern.map (charValue signed)).length := by
      rw [List.length_map]
      omega
    have hmemory : ((List.range (patternLen pattern).toNat).map memory).length =
        (patternLen pattern).toNat := by
      rw [List.length_map, List.length_range]
    obtain ⟨lps, hlps, -, htable⟩ := computeLps_spec (by omega) hchars hmemory
    have hstart : overlap ((pattern.map (charValue signed)).take (patternLen pattern).toNat) [] = 0 :=
      overlap_nil _
    have hsearch : ∃ found, searchLoop (pattern.map (charValue signed)) lps
        (patternLen pattern).toNat (file.map fun b => (b.toNat : ℤ)) (overlap _ []) = .ok found ∧ _ :=
      searchLoop_spec hchars htable (by omega)
    obtain ⟨found, hok, hfound⟩ := hsearch
    rw [hstart] at hok
    refine ⟨found, ?_, ?_⟩
    · rw [hlps]
      exact hok
    · rw [hfound, searched, ← chars_infix_iff, List.infix_iff_suffix_prefix, List.map_take]
      simp only [List.nil_append]
      constructor
      · rintro ⟨read, hread, hs⟩
        exact ⟨hpos, read, hs, hread⟩
      · rintro ⟨-, read, hs, hread⟩
        exact ⟨read, hread, hs⟩

/-- The search returns, and returns true just for a non-empty pattern that occurs in the file. -/
def FindsString (signed : Bool) (memory : ℕ → ℕ) (file pattern : List UInt8) : Prop :=
  ∃ found, kmpSearch signed memory file pattern = .ok found ∧
    (found = true ↔ pattern ≠ [] ∧ pattern <:+: file)

/-- Where the pattern occurs, its length as an `int` is positive and the bytes that this length
counts are comparable. Where it does not, these bytes do not occur as a comparable string either. -/
def SearchExact (signed : Bool) (file pattern : List UInt8) : Prop :=
  if pattern <:+: file then
    pattern = [] ∨ 0 < patternLen pattern ∧ Comparable signed (searched pattern)
  else
    0 < patternLen pattern → Comparable signed (searched pattern) → ¬ searched pattern <:+: file

theorem findsString_iff (signed : Bool) (memory : ℕ → ℕ) (file pattern : List UInt8) :
    FindsString signed memory file pattern ↔ SearchExact signed file pattern := by
  obtain ⟨found, hok, hfound⟩ := kmpSearch_spec signed memory file pattern
  have hiff : FindsString signed memory file pattern ↔
      (found = true ↔ pattern ≠ [] ∧ pattern <:+: file) := by
    constructor
    · rintro ⟨found', hok', hfound'⟩
      rw [hok] at hok'
      cases hok'
      exact hfound'
    · exact fun h => ⟨found, hok, h⟩
  rw [hiff, hfound, SearchExact]
  have hprefix : searched pattern <+: pattern := List.take_prefix _ _
  split
  case isTrue hin =>
    have hsearched : searched pattern <:+: file := hprefix.isInfix.trans hin
    by_cases hnil : pattern = []
    · rw [hnil]
      exact iff_of_true (iff_of_false (fun h => lt_irrefl _ h.1) fun h => h.1 rfl) (Or.inl rfl)
    · exact ⟨fun h => Or.inr ((h.mpr ⟨hnil, hin⟩).imp_right And.left), fun h =>
        iff_of_true ((h.resolve_left hnil).imp_right fun hc => ⟨hc, hsearched⟩) ⟨hnil, hin⟩⟩
  case isFalse hout =>
    constructor
    · exact fun h hpos hc hs => hout (h.mp ⟨hpos, hc, hs⟩).2
    · exact fun h => iff_of_false (fun hs => h hs.1 hs.2.1 hs.2.2) fun hin => hout hin.2

/-- A pattern whose length is an `int`. -/
theorem searchExact_short {signed : Bool} {file pattern : List UInt8}
    (hshort : pattern.length < 2 ^ 31) :
    SearchExact signed file pattern ↔ (pattern <:+: file → Comparable signed pattern) := by
  have hlen : patternLen pattern = pattern.length := by
    unfold patternLen
    rw [Int.bmod_def]
    omega
  have hsearched : searched pattern = pattern := by
    rw [searched, hlen, Int.toNat_natCast, List.take_length]
  rw [SearchExact, hsearched, hlen]
  split
  case isTrue hin =>
    constructor
    · rintro (rfl | ⟨-, hc⟩) -
      · exact Or.inr fun b hb => absurd hb List.not_mem_nil
      · exact hc
    · intro h
      rcases List.eq_nil_or_concat' pattern with hnil | ⟨xs, x, rfl⟩
      · exact Or.inl hnil
      · exact Or.inr ⟨by simp, h hin⟩
  case isFalse hout => exact iff_of_true (fun _ _ => hout) fun hin => absurd hin hout

/-- In general, and for the patterns whose length is an `int`: these are found unless `char` is
signed and a byte of the pattern is at least 128. -/
theorem kmp_search_exact_iff (signed : Bool) (memory : ℕ → ℕ) (file pattern : List UInt8) :
    (FindsString signed memory file pattern ↔ SearchExact signed file pattern) ∧
      (pattern.length < 2 ^ 31 → (FindsString signed memory file pattern ↔
        (pattern <:+: file → signed = false ∨ ∀ b ∈ pattern, b.toNat < 128))) :=
  ⟨findsString_iff signed memory file pattern, fun hshort =>
    (findsString_iff signed memory file pattern).trans (searchExact_short hshort)⟩

theorem kmp_search_exact_iff_letter :
    FindsString true (fun _ => 0) [99, 97, 98, 97] [97, 98, 97] :=
  ((kmp_search_exact_iff true (fun _ => 0) [99, 97, 98, 97] [97, 98, 97]).2 (by decide)).mpr
    fun _ => Or.inr (by simp)

/-- With a signed `char` the byte 200 is not found in a file of that byte. -/
theorem kmp_search_signed_misses : ¬ FindsString true (fun _ => 0) [200] [200] := by
  have hmiss : kmpSearch true (fun _ => 0) [200] [200] = .ok false := by decide +kernel
  rintro ⟨found, hok, hfound⟩
  rw [hmiss] at hok
  cases hok
  exact Bool.false_ne_true (hfound.mpr ⟨by decide, List.infix_rfl⟩)

end MaiFaSp.FindString
