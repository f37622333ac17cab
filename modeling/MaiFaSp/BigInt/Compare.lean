import MaiFaSp.BigInt.Digits

/-!
# `big_int`: three-way comparison (`big_int.cpp:112-131`)

`operator<=>` compares signs, then digit counts, then digits from the top. The
digit loop runs on an `int` that starts at `static_cast<int>(size) - 1`, so it
visits all digits only when the size fits in an `int`.
-/

namespace MaiFaSp

/-- `static_cast<int>` of a `size_t`: the low 32 bits, read as two's complement. -/
def castInt (n : ℕ) : ℤ := Int.bmod n (2 ^ 32)

/-- Turns of `for (int i = static_cast<int>(size) - 1; i >= 0; --i)`. At a size
of `2^31` modulo `2^32` the subtraction overflows `int`; no turn is taken there. -/
def scanLen (n : ℕ) : ℕ := (castInt n).toNat

theorem castInt_of_lt (n : ℕ) (h : n < 2 ^ 31) : castInt n = n := by
  unfold castInt
  rw [Int.bmod_def]
  split <;> omega

theorem castInt_lt (n : ℕ) : castInt n < 2 ^ 31 := by
  unfold castInt
  rw [Int.bmod_def]
  split <;> omega

theorem scanLen_of_lt (n : ℕ) (h : n < 2 ^ 31) : scanLen n = n := by
  unfold scanLen
  rw [castInt_of_lt n h]
  exact Int.toNat_natCast n

theorem scanLen_lt (n : ℕ) : scanLen n < 2 ^ 31 := by
  have h := castInt_lt n
  unfold scanLen
  omega

theorem scanLen_le (n : ℕ) : scanLen n ≤ n := by
  by_cases h : n < 2 ^ 31
  · exact (scanLen_of_lt n h).le
  · have := scanLen_lt n
    omega

namespace BigInt

/-- The digit loop of `operator<=>`, `k` turns from index `k - 1` down to 0. -/
def scanDown (isPos : Bool) (xs ys : List UInt32) : ℕ → Ordering
  | 0 => .eq
  | k + 1 =>
    if xs.getD k 0 ≠ ys.getD k 0 then
      if isPos then compare (xs.getD k 0) (ys.getD k 0) else compare (ys.getD k 0) (xs.getD k 0)
    else scanDown isPos xs ys k

/-- `operator<=>`. -/
def spaceship (x y : BigInt) : Ordering :=
  if x.sign ≠ y.sign then if x.sign then .gt else .lt
  else if x.digits.length ≠ y.digits.length then
    if x.sign then compare x.digits.length y.digits.length
    else compare y.digits.length x.digits.length
  else scanDown x.sign x.digits y.digits (scanLen x.digits.length)

/-- The copies `abs_this` and `abs_other`: the same digits with the sign set. -/
def abs (x : BigInt) : BigInt := { x with sign := true }

@[simp] theorem abs_digits (x : BigInt) : x.abs.digits = x.digits := rfl

@[simp] theorem abs_sign (x : BigInt) : x.abs.sign = true := rfl

@[simp] theorem toInt_abs (x : BigInt) : x.abs.toInt = mag x.digits := rfl

theorem canonical_abs {x : BigInt} (h : Canonical x) : Canonical x.abs :=
  ⟨h.nonempty, h.noLeadingZero, fun _ => rfl⟩

theorem abs_eq_self {x : BigInt} (h : x.sign = true) : x.abs = x := by
  cases x
  simp_all [abs]

theorem compare_uint32 (u v : UInt32) : compare u v = compare u.toNat v.toNat := by
  show compareOfLessAndEq u v = compareOfLessAndEq u.toNat v.toNat
  simp only [compareOfLessAndEq, UInt32.lt_iff_toNat_lt, UInt32.toNat_inj]

theorem scanDown_eq (xs ys : List UInt32) (k : ℕ) (hx : k ≤ xs.length) (hy : k ≤ ys.length) :
    scanDown true xs ys k = compare (mag (xs.take k)) (mag (ys.take k)) := by
  induction k with
  | zero => simp [scanDown]
  | succ k ih =>
    have hi := ih (by omega) (by omega)
    rw [mag_take_succ xs k hx, mag_take_succ ys k hy,
      Limbs.compare_split (mag_take_lt xs k) (mag_take_lt ys k), scanDown, hi, compare_uint32]
    by_cases h : xs.getD k 0 = ys.getD k 0
    · rw [if_neg (not_not.mpr h), if_pos (congrArg _ h)]
    · have hn : ¬ (xs.getD k 0).toNat = (ys.getD k 0).toNat :=
        fun hc => h (UInt32.toNat_inj.mp hc)
      rw [if_pos h, if_neg hn, if_pos rfl]

/-- Comparing two numbers of positive sign and one length looks at the low
`scanLen` digits only. -/
theorem spaceship_abs_same_length (x y : BigInt) (h : x.digits.length = y.digits.length) :
    spaceship x.abs y.abs =
      compare (mag (x.digits.take (scanLen x.digits.length)))
        (mag (y.digits.take (scanLen x.digits.length))) := by
  have hl := scanLen_le x.digits.length
  simp only [spaceship, abs_sign, abs_digits, h, ne_eq, not_true_eq_false, if_false]
  rw [← h]
  exact scanDown_eq _ _ _ hl (h ▸ hl)

/-- The magnitude of the digits that a digit loop visits. -/
def visited (x : BigInt) : ℕ := mag (x.digits.take (scanLen x.digits.length))

theorem visited_le (x : BigInt) : visited x ≤ mag x.digits := by
  have h := mag_take_add x.digits (scanLen x.digits.length)
  unfold visited
  omega

theorem visited_of_lt {x : BigInt} (h : x.digits.length < 2 ^ 31) : visited x = mag x.digits := by
  rw [visited, scanLen_of_lt _ h, List.take_length]

/-- A number below what a digit loop visits is visited as a whole. -/
theorem length_lt_of_visited {y : BigInt} (hy : Canonical y) (n : ℕ)
    (h : mag y.digits < BASE ^ scanLen n) : y.digits.length < 2 ^ 31 := by
  have hk := scanLen_lt n
  by_cases h0 : scanLen n = 0
  · rw [h0, pow_zero] at h
    have hlen := hy.length_le 1 one_pos (h.trans (by decide))
    omega
  · have hlen := hy.length_le _ (Nat.pos_of_ne_zero h0) h
    omega

theorem spaceship_abs_of_length_ne {x y : BigInt} (hx : Canonical x) (hy : Canonical y)
    (h : x.digits.length ≠ y.digits.length) :
    spaceship x.abs y.abs = compare (mag x.digits) (mag y.digits) := by
  have hs : spaceship x.abs y.abs = compare x.digits.length y.digits.length := by
    simp [spaceship, h]
  rw [hs]
  rcases Nat.lt_or_gt_of_ne h with hlt | hgt
  · rw [compare_lt_iff_lt.mpr hlt, compare_lt_iff_lt.mpr (hx.mag_lt_of_length_lt hy hlt)]
  · rw [compare_gt_iff_gt.mpr hgt, compare_gt_iff_gt.mpr (hy.mag_lt_of_length_lt hx hgt)]

/-- The digits that the comparison of `|x|` and `|y|` skips do not change
whether `|x|` is the smaller one. -/
def OrderVisible (x y : BigInt) : Prop :=
  x.digits.length = y.digits.length →
    (mag (x.digits.take (scanLen x.digits.length)) <
        mag (y.digits.take (scanLen x.digits.length)) ↔
      mag x.digits < mag y.digits)

theorem orderVisible_of_lt (x y : BigInt)
    (h : x.digits.length = y.digits.length → x.digits.length < 2 ^ 31) : OrderVisible x y := by
  intro hl
  rw [scanLen_of_lt _ (h hl), List.take_length]
  conv in List.take x.digits.length y.digits => rw [hl, List.take_length]

theorem spaceship_abs_lt_iff {x y : BigInt} (hx : Canonical x) (hy : Canonical y)
    (h : OrderVisible x y) :
    spaceship x.abs y.abs = .lt ↔ mag x.digits < mag y.digits := by
  by_cases hl : x.digits.length = y.digits.length
  · rw [spaceship_abs_same_length x y hl, compare_lt_iff_lt]
    exact h hl
  · rw [spaceship_abs_of_length_ne hx hy hl, compare_lt_iff_lt]

end BigInt

end MaiFaSp
