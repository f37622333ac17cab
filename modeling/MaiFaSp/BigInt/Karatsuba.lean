import MaiFaSp.BigInt.Multiply

/-!
# `big_int`: `multiply_karatsuba` (`big_int.cpp:589-638`)

The three partial products are put together with `z2 <<= max_size * 2` and
`z1 <<= max_size`, and `operator<<=` counts bits. So the recombination moves
the partial products by about `max_size / 32` digits instead of `max_size`,
and the result has fewer digits than the product: `multiplyKaratsuba_eq_ok`
bounds its length whatever the additions and subtractions in between yield.
-/

namespace MaiFaSp.BigInt

/-- `low1`, `low2`: the lowest `m` digits. -/
def lowPart (x : BigInt) (m : ℕ) : BigInt := optimise ⟨true, x.digits.take m⟩

/-- `high1`, `high2`: the digits from index `m`, or the zero they start as. -/
def highPart (x : BigInt) (m : ℕ) : BigInt :=
  optimise ⟨true, if x.digits.length > m then x.digits.drop m else [0]⟩

theorem settle_digits (x : BigInt) : (settle x).digits = x.optimise.digits := by
  dsimp only [settle]
  split <;> rfl

theorem minusSame_length_le (x y : BigInt) :
    (minusSame x y 0).digits.length ≤ max x.digits.length y.digits.length := by
  simp only [minusSame, shlAssign_zero, abs_digits, settle_digits]
  refine (optimise_length_le _).trans ?_
  rw [minusLoop_length]
  split <;> omega

theorem plusAssign_length_le (x y : BigInt) :
    (plusAssign x y 0).digits.length ≤ max x.digits.length y.digits.length + 1 := by
  unfold plusAssign
  split
  · omega
  · split
    · rw [settle_digits]
      refine (optimise_length_le _).trans ?_
      have h := pushCarry_length_le (plusLoop x.digits y.digits 0
        (max x.digits.length (y.digits.length + 0)) 0 0)
      rwa [plusLoop_length] at h
    · rw [settle_digits]
      refine (optimise_length_le _).trans ?_
      have h := minusSame_length_le x ⟨x.sign, y.digits⟩
      dsimp only at h
      omega

theorem minusAssign_length_le (x y : BigInt) :
    (minusAssign x y 0).digits.length ≤ max x.digits.length y.digits.length + 1 := by
  unfold minusAssign
  split
  · omega
  · split
    · exact plusAssign_length_le x ⟨x.sign, y.digits⟩
    · exact (minusSame_length_le x y).trans (by omega)

theorem minusAssign_length_le_of_sign_eq (x y : BigInt) (h : x.sign = y.sign) :
    (minusAssign x y 0).digits.length ≤ max x.digits.length y.digits.length := by
  unfold minusAssign
  split
  · omega
  · rw [if_neg (not_not.mpr h)]
    exact minusSame_length_le x y

theorem plusAssign_sign_true (x y : BigInt) (hx : x.sign = true) (hy : y.sign = true) :
    (plusAssign x y 0).sign = true := by
  have hsettle (z : BigInt) (hz : z.sign = true) : (settle z).sign = true := by
    dsimp only [settle]
    split
    · rfl
    · exact optimise_sign_true z hz
  unfold plusAssign
  split
  · exact hx
  · rw [if_pos (hx.trans hy.symm)]
    exact hsettle _ hx

theorem lowPart_length_le (x : BigInt) (m : ℕ) :
    (lowPart x m).digits.length ≤ min m x.digits.length := by
  refine (optimise_length_le _).trans ?_
  simp

theorem highPart_length_le (x : BigInt) (m : ℕ) :
    (highPart x m).digits.length ≤ max (x.digits.length - m) 1 := by
  refine (optimise_length_le _).trans ?_
  dsimp only
  split
  · rw [List.length_drop]
    omega
  · simp

theorem halves_length (x y : BigInt) (n : ℕ)
    (hn : n = (max x.digits.length y.digits.length + 1) / 2)
    (hx : 8 < x.digits.length) (z : BigInt)
    (hz : z.digits.length ≤ max x.digits.length y.digits.length) :
    (lowPart z n).digits.length < max x.digits.length y.digits.length ∧
      (highPart z n).digits.length < max x.digits.length y.digits.length ∧
      (plusAssign (lowPart z n) (highPart z n) 0).digits.length <
        max x.digits.length y.digits.length := by
  have hl := lowPart_length_le z n
  have hh := highPart_length_le z n
  have hs := plusAssign_length_le (lowPart z n) (highPart z n)
  omega

/-- `multiply_karatsuba`. -/
def multiplyKaratsuba (x y : BigInt) : Outcome BigInt :=
  if h : x.digits.length ≤ 8 ∨ y.digits.length ≤ 8 then multiplyTrivial x y
  else do
    let maxSize := (max x.digits.length y.digits.length + 1) / 2
    let z0 ← multiplyKaratsuba (lowPart x maxSize) (lowPart y maxSize)
    let z2 ← multiplyKaratsuba (highPart x maxSize) (highPart y maxSize)
    let z1 ← multiplyKaratsuba (plusAssign (lowPart x maxSize) (highPart x maxSize) 0)
      (plusAssign (lowPart y maxSize) (highPart y maxSize) 0)
    let z1 := minusAssign (minusAssign z1 z0 0) z2 0
    let z2 := shlAssign z2 (maxSize * 2)
    let z1 := shlAssign z1 maxSize
    let result := plusAssign (plusAssign z2 z1 0) z0 0
    pure (optimise { result with sign := x.sign = y.sign })
termination_by max x.digits.length y.digits.length
decreasing_by
  all_goals
    have hx := halves_length x y _ rfl (by omega) x (le_max_left ..)
    have hy := halves_length x y _ rfl (by omega) y (le_max_right ..)
    omega

/-- The lengths of the parts of a number of `a` digits when the longer operand
has `n` digits, `m` being half of `n` rounded up. -/
theorem part_lengths {a n m l h s : ℕ} (ha : a ≤ n) (h8 : 8 < a) (hm : (n + 1) / 2 = m)
    (hl : l ≤ min m a) (hh : h ≤ max (a - m) 1) (hs : s ≤ max l h + 1) :
    l ≤ min a m ∧ h ≤ min a m ∧ s ≤ min a m + 1 ∧ (h + m ≤ a ∨ h ≤ 1) := by
  omega

theorem recombination_length {a b m p q z0 z1 z2 d2 d3 d4 d5 d6 : ℕ}
    (hm : (max a b + 1) / 2 = m) (ha : 8 < a) (hb : 8 < b)
    (hp : p ≤ min a m ∧ (p + m ≤ a ∨ p ≤ 1)) (hq : q ≤ min b m ∧ (q + m ≤ b ∨ q ≤ 1))
    (h0 : z0 ≤ min a m + min b m) (h1 : z1 ≤ min a m + min b m + 2) (h2 : z2 ≤ p + q)
    (hd2 : d2 ≤ max (max z1 z0) z2 + 1) (hd3 : d3 ≤ z2 + m * 2 / 32 + 1)
    (hd4 : d4 ≤ d2 + m / 32 + 1) (hd5 : d5 ≤ max d3 d4 + 1) (hd6 : d6 ≤ max d5 z0 + 1) :
    d6 + 2 ≤ a + b := by
  have hd2' : d2 ≤ min a m + min b m + 3 := by omega
  have hfit : min a m + min b m + 3 + m / 32 + 3 + 2 ≤ a + b := by
    clear hd2 hd3 hd4 hd5 hd6 h0 h1 h2 hp hq hd2'
    omega
  have hhigh : p + q + m * 2 / 32 + 3 + 2 ≤ a + b := by
    clear hd2 hd3 hd4 hd5 hd6 h0 h1 h2 hfit hd2'
    omega
  omega

/-- The recombination shifts by bits, so above 8 digits on both sides at least
two digits of the product are missing from the result. -/
theorem multiplyKaratsuba_eq_ok (n : ℕ) (x y : BigInt)
    (hn : max x.digits.length y.digits.length ≤ n) :
    ∃ r, multiplyKaratsuba x y = .ok r ∧
      r.digits.length ≤ x.digits.length + y.digits.length ∧
      (x.sign = y.sign → r.sign = true) ∧
      (8 < x.digits.length → 8 < y.digits.length →
        r.digits.length + 2 ≤ x.digits.length + y.digits.length) := by
  induction n using Nat.strong_induction_on generalizing x y with
  | _ n ih =>
    rw [multiplyKaratsuba]
    split
    case isTrue h =>
      obtain ⟨r, hr, hlen, hs, -, -⟩ := multiplyTrivial_eq_ok x y
      exact ⟨r, hr, hlen, hs, fun h1 h2 => by omega⟩
    case isFalse h =>
      generalize hm : (max x.digits.length y.digits.length + 1) / 2 = m
      obtain ⟨hx1, hx2, hx3⟩ := halves_length x y m hm.symm (by omega) x
        (le_max_left ..)
      obtain ⟨hy1, hy2, hy3⟩ := halves_length x y m hm.symm (by omega) y
        (le_max_right ..)
      obtain ⟨pl, ph, ps, pc⟩ := part_lengths (le_max_left ..) (by omega) hm
        (lowPart_length_le x m) (highPart_length_le x m)
        (plusAssign_length_le (lowPart x m) (highPart x m))
      obtain ⟨ql, qh, qs, qc⟩ := part_lengths (le_max_right ..) (by omega) hm
        (lowPart_length_le y m) (highPart_length_le y m)
        (plusAssign_length_le (lowPart y m) (highPart y m))
      have hlow (z : BigInt) : (lowPart z m).sign = true := optimise_sign_true _ rfl
      have hhigh (z : BigInt) : (highPart z m).sign = true := optimise_sign_true _ rfl
      have hsum (z : BigInt) : (plusAssign (lowPart z m) (highPart z m) 0).sign = true :=
        plusAssign_sign_true _ _ (hlow z) (hhigh z)
      obtain ⟨z0, h0, hl0, hs0, -⟩ := ih (max (lowPart x m).digits.length
        (lowPart y m).digits.length) (by omega) (lowPart x m) (lowPart y m) le_rfl
      obtain ⟨z2, h2, hl2, -, -⟩ := ih (max (highPart x m).digits.length
        (highPart y m).digits.length) (by omega) (highPart x m) (highPart y m) le_rfl
      obtain ⟨z1, h1, hl1, hs1, -⟩ := ih (max
        (plusAssign (lowPart x m) (highPart x m) 0).digits.length
        (plusAssign (lowPart y m) (highPart y m) 0).digits.length) (by omega) _ _ le_rfl
      have hsign : z1.sign = z0.sign := by
        rw [hs1 ((hsum x).trans (hsum y).symm), hs0 ((hlow x).trans (hlow y).symm)]
      have hd1 := minusAssign_length_le_of_sign_eq z1 z0 hsign
      have hd2 := minusAssign_length_le (minusAssign z1 z0 0) z2
      have hd3 := shlAssign_length_le z2 (m * 2)
      have hd4 := shlAssign_length_le (minusAssign (minusAssign z1 z0 0) z2 0) m
      have hd5 := plusAssign_length_le (shlAssign z2 (m * 2))
        (shlAssign (minusAssign (minusAssign z1 z0 0) z2 0) m)
      have hd6 := plusAssign_length_le (plusAssign (shlAssign z2 (m * 2))
        (shlAssign (minusAssign (minusAssign z1 z0 0) z2 0) m) 0) z0
      have hlen := recombination_length hm (by omega) (by omega) ⟨ph, pc⟩ ⟨qh, qc⟩
        (hl0.trans (add_le_add pl ql)) (hl1.trans (by omega)) hl2
        (hd2.trans (by omega)) hd3 hd4 hd5 hd6
      have hd7 := optimise_length_le ({ plusAssign (plusAssign (shlAssign z2 (m * 2))
        (shlAssign (minusAssign (minusAssign z1 z0 0) z2 0) m) 0) z0 0 with
          sign := x.sign = y.sign })
      refine ⟨optimise { plusAssign (plusAssign (shlAssign z2 (m * 2))
        (shlAssign (minusAssign (minusAssign z1 z0 0) z2 0) m) 0) z0 0 with
          sign := x.sign = y.sign }, ?_, ?_, ?_, ?_⟩
      · simp only [h0, h1, h2]
        rfl
      · exact hd7.trans (by dsimp only; omega)
      · intro hs
        exact optimise_sign_true _ (by simpa using hs)
      · intro _ _
        exact (Nat.add_le_add_right hd7 2).trans hlen

end MaiFaSp.BigInt
