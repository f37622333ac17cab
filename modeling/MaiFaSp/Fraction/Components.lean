import MaiFaSp.BigInt.Seen
import MaiFaSp.BigInt.Strings
import MaiFaSp.Fraction.Operators

/-!
# `fraction` over `big_int` (`fraction.cpp:6-38`)

`optimise` with the operations of `big_int` themselves, for numbers of any length. It brings
the fraction of the visited parts into canonical form: what `optimise` over the integers
(`Operators`) does with the fraction itself, as long as both numbers have fewer than `2^31`
digits.
-/

namespace MaiFaSp

structure BigFraction where
  numerator : BigInt
  denominator : BigInt
  deriving Repr, DecidableEq

inductive BigFractionFault where
  | number (fault : Fault)
  | parse (fault : ParseFault)
  | invalidArgument (what : String)
  | diverged
  deriving Repr, DecidableEq

namespace BigFraction

open BigInt

/-- A fault of `big_int` is not caught. -/
def raise {α : Type} : Outcome α → Except BigFractionFault α
  | .ok a => .ok a
  | .error fault => .error (.number fault)

@[simp]
theorem raise_ok {α : Type} (a : α) : raise (.ok a) = .ok a := rfl

def abs (numb : BigInt) : BigInt :=
  if spaceship numb (ofNum 0) = .lt then minusAssign (ofNum 0) numb 0 else numb

/-- `while (b != 0) { t = b; b = a % b; a = t; }`, at most `turns` tests. -/
def gcd : ℕ → BigInt → BigInt → Except BigFractionFault BigInt
  | 0, _, _ => throw .diverged
  | turns + 1, a, b =>
    if equals b (ofNum 0) then pure a
    else do
      let r ← raise (moduloAssign a b)
      gcd turns b r

/-- `optimise` -/
def optimise (turns : ℕ) (x : BigFraction) : Except BigFractionFault BigFraction :=
  if equals x.denominator (ofNum 0) then throw (.invalidArgument "Denominator cannot be zero")
  else if equals x.numerator (ofNum 0) then pure { x with denominator := ofNum 1 }
  else do
    let x := if spaceship x.numerator (ofNum 0) = .lt
      then ⟨abs x.numerator, minusAssign (ofNum 0) x.denominator 0⟩ else x
    let divisor ← gcd turns (abs x.numerator) (abs x.denominator)
    let numerator ← raise (divideAssign x.numerator divisor)
    let denominator ← raise (divideAssign x.denominator divisor)
    pure ⟨numerator, denominator⟩

/-- The constructor from a numerator and a denominator. -/
def construct (turns : ℕ) (numerator denominator : BigInt) :
    Except BigFractionFault BigFraction :=
  optimise turns ⟨numerator, denominator⟩

/-! ### What the fields stand for -/

/-- Both numbers are canonical. -/
structure WellFormed (x : BigFraction) : Prop where
  numerator : Canonical x.numerator
  denominator : Canonical x.denominator

/-- Both numbers have fewer than `2^31` digits. -/
structure Short (x : BigFraction) : Prop where
  numerator : x.numerator.digits.length < 2 ^ 31
  denominator : x.denominator.digits.length < 2 ^ 31

def toFraction (x : BigFraction) : Fraction := ⟨x.numerator.toInt, x.denominator.toInt⟩

/-- The fraction of the visited parts. -/
def seen (x : BigFraction) : Fraction :=
  ⟨signum x.numerator.sign * visited x.numerator, signum x.denominator.sign * visited x.denominator⟩

variable {x y : BigFraction} {a b : BigInt} {turns : ℕ}

theorem WellFormed.ext (hx : WellFormed x) (hy : WellFormed y)
    (h : x.toFraction = y.toFraction) : x = y := by
  have hn : x.numerator = y.numerator :=
    hx.numerator.ext hy.numerator (congrArg Fraction.numerator h)
  have hd : x.denominator = y.denominator :=
    hx.denominator.ext hy.denominator (congrArg Fraction.denominator h)
  cases x
  cases y
  simp_all

theorem Short.seen_eq (h : Short x) : x.seen = x.toFraction := by
  unfold seen toFraction
  rw [visited_of_lt h.numerator, visited_of_lt h.denominator, toInt_eq, toInt_eq]

/-! ### Signs -/

theorem zero_minus_eq (ha : Canonical a) : minusAssign (ofNum 0) a 0 = negated a := by
  obtain ⟨hcan, hval⟩ := zero_minus ha
  exact hcan.ext (canonical_negated ha) (hval.trans (toInt_negated a).symm)

theorem abs_eq (ha : Canonical a) : abs a = a.abs := by
  unfold abs
  by_cases h : spaceship a (ofNum 0) = .lt
  · have hneg := (less_zero_iff ha).mp h
    rw [if_pos h, zero_minus_eq ha]
    apply (canonical_negated ha).ext (canonical_abs ha)
    rw [toInt_negated, toInt_abs, ← natAbs_toInt]
    omega
  · have hpos := not_lt.mp (mt (less_zero_iff ha).mpr h)
    rw [if_neg h]
    exact (abs_eq_self (ha.sign_of_nonneg hpos)).symm

theorem visited_abs (a : BigInt) : visited a.abs = visited a := rfl

theorem not_isZero_of_visited (ha : Canonical a) (h : visited a ≠ 0) : ¬ a.isZero = true :=
  fun hz => h (visited_eq_zero_of_isZero ha hz)

/-! ### The Euclidean loop -/

theorem gcd_turn (hb : Canonical b) (hbz : ¬ b.isZero = true) {r : BigInt}
    (hr : moduloAssign a b = .ok r) : gcd (turns + 1) a b = gcd turns b r := by
  have hne : ¬ equals b (ofNum 0) = true := mt (equals_zero_iff hb).mp hbz
  rw [gcd, if_neg hne, hr]
  rfl

/-- By a number of fewer than `2^31` digits, the loop finds the divisor of the visited part. -/
theorem gcd_short (hb : Canonical b) (hbs : b.sign = true) (hbz : ¬ b.isZero = true)
    (hlen : b.digits.length < 2 ^ 31) (ha : Canonical a) (hturns : mag b.digits < turns) :
    ∃ g, gcd turns a b = .ok g ∧ Canonical g ∧ g.sign = true ∧
      mag g.digits = Nat.gcd (visited a) (mag b.digits) := by
  induction turns generalizing a b with
  | zero => omega
  | succ turns ih =>
    have hpos : 0 < mag b.digits := Nat.pos_of_ne_zero fun h => hbz (hb.isZero_iff.mpr h)
    obtain ⟨r, hr, hrc, hrs, hrm⟩ := moduloAssign_short ha hb hbz hlen
    have hlt : mag r.digits < mag b.digits := hrm ▸ Nat.mod_lt _ hpos
    rw [gcd_turn hb hbz hr, Nat.gcd_comm, Nat.gcd_rec, ← hrm, Nat.gcd_comm]
    by_cases hrz : r.isZero = true
    · have hzero : equals r (ofNum 0) = true := (equals_zero_iff hrc).mpr hrz
      obtain ⟨t, rfl⟩ : ∃ t, turns = t + 1 := ⟨turns - 1, by omega⟩
      refine ⟨b, ?_, hb, hbs, ?_⟩
      · rw [gcd, if_pos hzero]
        rfl
      · rw [hrc.isZero_iff.mp hrz, Nat.gcd_zero_right]
    · have hrlen := (length_le_of_mag_le hrc hb hlt.le).trans_lt hlen
      have h := ih hrc hrs hrz hrlen hb (by omega)
      rwa [visited_of_lt hlen] at h

theorem length_lt_of_le_visited (ha : Canonical a) (h : mag a.digits ≤ visited b) :
    a.digits.length < 2 ^ 31 :=
  length_lt_of_visited ha b.digits.length (h.trans_lt (mag_take_lt b.digits _))

/-- The loop finds the divisor of the visited parts, unless one of them is zero. -/
theorem gcd_seen (ha : Canonical a) (hb : Canonical b) (has : a.sign = true) (hbs : b.sign = true)
    (hav : visited a ≠ 0) (hbv : visited b ≠ 0)
    (hturns : mag a.digits + mag b.digits + 2 < turns) :
    ∃ g, gcd turns a b = .ok g ∧ Canonical g ∧ g.sign = true ∧
      mag g.digits = Nat.gcd (visited a) (visited b) := by
  have haz := not_isZero_of_visited ha hav
  have hbz := not_isZero_of_visited hb hbv
  have hav' := visited_le a
  have hbv' := visited_le b
  by_cases hblen : b.digits.length < 2 ^ 31
  · rw [visited_of_lt hblen]
    exact gcd_short hb hbs hbz hblen ha (by omega)
  · obtain ⟨t, rfl⟩ : ∃ t, turns = t + 2 := ⟨turns - 2, by omega⟩
    obtain ⟨r, hr, hrc, hrs, hrm⟩ := moduloAssign_seen ha hb hbz
    rw [gcd_turn hb hbz hr, Nat.gcd_comm]
    by_cases hl : spaceship a.abs b.abs = .lt
    · have hra : r = a := by
        rw [if_pos hl] at hrm
        apply hrc.ext ha
        rw [toInt_of_sign hrs, toInt_of_sign has, hrm]
      subst hra
      by_cases halen : r.digits.length < 2 ^ 31
      · rw [visited_of_lt halen]
        exact gcd_short ha has haz halen hb (by omega)
      · -- of two long numbers the second one is not seen to be smaller
        obtain ⟨q, hq, hqc, hqs, hqm⟩ := moduloAssign_seen hb ha haz
        rw [if_neg (spaceship_abs_asymm ha hb hl),
          Nat.mod_eq_of_lt (visited_lt_of_long b ha halen)] at hqm
        have hqz : ¬ q.isZero = true := by
          rw [hqc.isZero_iff, hqm]
          exact hbv
        rw [gcd_turn ha haz hq, Nat.gcd_comm, ← hqm]
        exact gcd_short hqc hqs hqz (length_lt_of_le_visited hqc hqm.le) ha (by omega)
    · rw [if_neg hl, Nat.mod_eq_of_lt (visited_lt_of_long a hb hblen)] at hrm
      have hrz : ¬ r.isZero = true := by
        rw [hrc.isZero_iff, hrm]
        exact hav
      rw [← hrm]
      exact gcd_short hrc hrs hrz (length_lt_of_le_visited hrc hrm.le) hb (by omega)

/-! ### `optimise` -/

/-- The quotients by the divisor that was found. -/
def divideBoth (x : BigFraction) (divisor : BigInt) : Except BigFractionFault BigFraction := do
  let numerator ← raise (divideAssign x.numerator.abs divisor)
  let denominator ← raise
    (divideAssign ⟨x.numerator.sign = x.denominator.sign, x.denominator.digits⟩ divisor)
  pure ⟨numerator, denominator⟩

theorem optimise_eq (hx : WellFormed x) (hn : ¬ x.numerator.isZero = true)
    (hd : ¬ x.denominator.isZero = true) :
    optimise turns x = (gcd turns x.numerator.abs x.denominator.abs >>= divideBoth x) := by
  unfold optimise divideBoth
  rw [if_neg (mt (equals_zero_iff hx.denominator).mp hd),
    if_neg (mt (equals_zero_iff hx.numerator).mp hn)]
  cases hs : x.numerator.sign with
  | true =>
    have hpos : ¬ spaceship x.numerator (ofNum 0) = .lt := by
      rw [less_zero_iff hx.numerator, toInt_of_sign hs]
      omega
    have hself : (⟨true = x.denominator.sign, x.denominator.digits⟩ : BigInt) = x.denominator := by
      simp
    rw [if_neg hpos]
    dsimp only
    rw [abs_eq hx.numerator, abs_eq hx.denominator, abs_eq_self hs, hself]
  | false =>
    have hne := mt (toInt_eq_zero_iff hx.numerator).mp hn
    have hneg : spaceship x.numerator (ofNum 0) = .lt := by
      rw [less_zero_iff hx.numerator]
      simp only [toInt, hs, Bool.false_eq_true, if_false] at hne ⊢
      omega
    have hflip : negated x.denominator =
        ⟨false = x.denominator.sign, x.denominator.digits⟩ := by
      rw [negated, if_neg hd]
      simp
    rw [if_pos hneg, abs_eq hx.numerator, zero_minus_eq hx.denominator]
    dsimp only
    rw [abs_eq (canonical_abs hx.numerator), abs_eq (canonical_negated hx.denominator), hflip]
    rfl

theorem signum_true : signum true = 1 := rfl

theorem natAbs_signum (s : Bool) : (signum s).natAbs = 1 := by
  cases s <;> rfl

theorem reduce_signed (s t : Bool) {m : ℕ} (hm : m ≠ 0) (n : ℕ) :
    Fraction.reduce ⟨signum s * m, signum t * n⟩ =
      ⟨((m / Nat.gcd m n : ℕ) : ℤ), signum (s = t) * ((n / Nat.gcd m n : ℕ) : ℤ)⟩ := by
  have hpos : 0 < m := Nat.pos_of_ne_zero hm
  have hsign : (if signum s * (m : ℤ) < 0
      then (⟨Fraction.bigAbs (signum s * m), 0 - signum t * n⟩ : Fraction)
      else ⟨signum s * m, signum t * n⟩) = ⟨m, signum (s = t) * n⟩ := by
    cases s <;> cases t <;> simp [signum, Fraction.bigAbs, hpos]
  have habs : (signum (s = t) * (n : ℤ)).natAbs = n := by
    rw [Int.natAbs_mul, natAbs_signum, one_mul, Int.natAbs_natCast]
  have hdiv := tdiv_signum (s = t) true n (Nat.gcd m n)
  unfold Fraction.reduce
  dsimp only
  rw [hsign]
  dsimp only
  rw [Fraction.gcd_abs, Int.natAbs_natCast, habs]
  simp only [signum, if_true, one_mul, decide_eq_true_eq] at hdiv ⊢
  rw [hdiv]
  simp

/-- `optimise` over `big_int` is `optimise` over the integers, for the visited parts. -/
theorem optimise_seen (hx : WellFormed x) (hn : visited x.numerator ≠ 0)
    (hd : visited x.denominator ≠ 0)
    (hturns : mag x.numerator.digits + mag x.denominator.digits + 2 < turns) :
    ∃ y, optimise turns x = .ok y ∧ WellFormed y ∧ Short y ∧
      Fraction.optimise x.seen = .ok y.toFraction := by
  obtain ⟨g, hg, hgc, hgs, hgm⟩ := gcd_seen (canonical_abs hx.numerator)
    (canonical_abs hx.denominator) rfl rfl hn hd hturns
  rw [visited_abs, visited_abs] at hgm
  have hnz := not_isZero_of_visited hx.numerator hn
  have hdz := not_isZero_of_visited hx.denominator hd
  have hgpos : 0 < mag g.digits := by
    rw [hgm]
    exact Nat.gcd_pos_of_pos_left _ (Nat.pos_of_ne_zero hn)
  have hgz : ¬ g.isZero = true := by
    rw [hgc.isZero_iff]
    exact hgpos.ne'
  have hglen : g.digits.length < 2 ^ 31 := by
    apply length_lt_of_le_visited hgc (b := x.numerator)
    rw [hgm]
    exact Nat.gcd_le_left _ (Nat.pos_of_ne_zero hn)
  obtain ⟨p, hp, hpc, hpv⟩ := divideAssign_short (canonical_abs hx.numerator) hgc hgz hglen
  obtain ⟨q, hq, hqc, hqv⟩ := divideAssign_short
    (canonical_withSign hx.denominator hdz (x.numerator.sign = x.denominator.sign)) hgc hgz hglen
  have hpval : p.toInt = ((visited x.numerator / mag g.digits : ℕ) : ℤ) := by
    rw [hpv, abs_sign, hgs, decide_eq_true rfl, signum_true, one_mul, visited_abs]
  have hqval : q.toInt = signum (x.numerator.sign = x.denominator.sign) *
      ((visited x.denominator / mag g.digits : ℕ) : ℤ) := by
    rw [hqv, hgs, Bool.decide_eq_true]
    rfl
  have hresult : optimise turns x = .ok ⟨p, q⟩ := by
    rw [optimise_eq hx hnz hdz, hg, ok_bind, divideBoth, hp, raise_ok, ok_bind, hq, raise_ok,
      ok_bind]
    rfl
  refine ⟨⟨p, q⟩, hresult, ⟨hpc, hqc⟩, ⟨?_, ?_⟩, ?_⟩
  · apply length_lt_of_le_visited hpc (b := x.numerator)
    rw [← natAbs_toInt, hpval, Int.natAbs_natCast]
    exact Nat.div_le_self _ _
  · apply length_lt_of_le_visited hqc (b := x.denominator)
    rw [← natAbs_toInt, hqval, Int.natAbs_mul, natAbs_signum, one_mul, Int.natAbs_natCast]
    exact Nat.div_le_self _ _
  · have hnum : x.seen.numerator ≠ 0 :=
      mul_ne_zero (signum_ne_zero _) (Int.natCast_ne_zero.mpr hn)
    have hden : x.seen.denominator ≠ 0 :=
      mul_ne_zero (signum_ne_zero _) (Int.natCast_ne_zero.mpr hd)
    rw [Fraction.optimise, if_neg hden, if_neg hnum, seen, reduce_signed _ _ hn, ← hgm, toFraction,
      hpval, hqval]
    rfl

/-- A canonical fraction of numbers that are visited as a whole is left as it is. -/
theorem optimise_canonical (hx : WellFormed x) (hs : Short x)
    (hc : Fraction.Canonical x.toFraction)
    (hturns : mag x.numerator.digits + mag x.denominator.digits + 2 < turns) :
    optimise turns x = .ok x := by
  have hdz : ¬ x.denominator.isZero = true :=
    mt (toInt_eq_zero_iff hx.denominator).mpr hc.denominator_ne
  by_cases hnz : x.numerator.isZero = true
  · have hn : x.numerator.toInt = 0 := (toInt_eq_zero_iff hx.numerator).mpr hnz
    have hone : x.denominator = ofNum 1 := by
      apply hx.denominator.ext (canonical_ofNum 1)
      rw [toInt_ofNum_one]
      exact hc.zero hn
    rw [optimise, if_neg (mt (equals_zero_iff hx.denominator).mp hdz),
      if_pos ((equals_zero_iff hx.numerator).mpr hnz), ← hone]
    rfl
  · have hn : visited x.numerator ≠ 0 := by
      rw [visited_of_lt hs.numerator]
      exact mt hx.numerator.isZero_iff.mpr hnz
    have hd : visited x.denominator ≠ 0 := by
      rw [visited_of_lt hs.denominator]
      exact mt hx.denominator.isZero_iff.mpr hdz
    obtain ⟨y, hy, hyw, -, hopt⟩ := optimise_seen hx hn hd hturns
    obtain ⟨r, hr, hrc, hrv⟩ := Fraction.optimise_spec hc.denominator_ne
    rw [hs.seen_eq, hr] at hopt
    cases hopt
    rw [hy, hyw.ext hx (hrc.ext hc hrv)]

/-! ### Numbers that are not visited as a whole -/

theorem raise_eq_ok {α : Type} {r : Outcome α} {c : α} (h : raise r = .ok c) : r = .ok c := by
  cases r with
  | error fault => cases h
  | ok d =>
    cases h
    rfl

theorem canonical_gcd {g : BigInt} (ha : Canonical a) (hb : Canonical b)
    (h : gcd turns a b = .ok g) : Canonical g := by
  induction turns generalizing a b with
  | zero => cases h
  | succ turns ih =>
    by_cases hbz : b.isZero = true
    · rw [gcd, if_pos ((equals_zero_iff hb).mpr hbz)] at h
      cases h
      exact ha
    · obtain ⟨r, hr, hrc, -, -⟩ := moduloAssign_seen ha hb hbz
      rw [gcd_turn hb hbz hr] at h
      exact ih hb hrc h

theorem divide_unseen {q : BigInt} (ha : Canonical a) (haz : ¬ a.isZero = true) (hb : Canonical b)
    (h : divideAssign a b = .ok q) : Canonical q ∧ (visited a = 0 → q.isZero = true) := by
  have hbz : ¬ b.isZero = true := by
    intro hz
    rw [divideAssign, if_neg haz, if_pos hz] at h
    cases h
  obtain ⟨q', hq, hqc, hqv⟩ := divideAssign_seen ha hb hbz
  rw [hq] at h
  cases h
  refine ⟨hqc, fun hv => ?_⟩
  rw [hv, Nat.zero_div, ite_self, Nat.cast_zero, mul_zero] at hqv
  exact (toInt_eq_zero_iff hqc).mp hqv

/-- A number whose visited part is zero is divided as if it were zero. -/
theorem optimise_unseen (hx : WellFormed x) (hn : ¬ x.numerator.isZero = true)
    (hd : ¬ x.denominator.isZero = true) (h : optimise turns x = .ok y) :
    WellFormed y ∧ (visited x.numerator = 0 → y.numerator.isZero = true) ∧
      (visited x.denominator = 0 → y.denominator.isZero = true) := by
  rw [optimise_eq hx hn hd] at h
  obtain ⟨g, hg, h⟩ := bind_eq_ok.mp h
  obtain ⟨p, hp, h⟩ := bind_eq_ok.mp h
  obtain ⟨q, hq, h⟩ := bind_eq_ok.mp h
  cases h
  have hgc := canonical_gcd (canonical_abs hx.numerator) (canonical_abs hx.denominator) hg
  obtain ⟨hpc, hpz⟩ := divide_unseen (canonical_abs hx.numerator) hn hgc (raise_eq_ok hp)
  have hdc := canonical_withSign hx.denominator hd (x.numerator.sign = x.denominator.sign)
  obtain ⟨hqc, hqz⟩ := divide_unseen hdc hd hgc (raise_eq_ok hq)
  exact ⟨⟨hpc, hqc⟩, hpz, hqz⟩

/-! ### `optimise` twice, as in `operator>>` -/

/-- With enough turns the fraction becomes `y`. -/
def Becomes (x y : BigFraction) : Prop :=
  ∃ enough, ∀ turns ≥ enough, (optimise turns x >>= optimise turns) = .ok y

/-- The visited parts are in the proportion of the whole numbers. -/
def Proportional (x : BigFraction) : Prop :=
  mag x.numerator.digits = 0 ∨ visited x.numerator ≠ 0 ∧
    visited x.numerator * mag x.denominator.digits = visited x.denominator * mag x.numerator.digits

theorem becomes_seen (hx : WellFormed x) (hn : visited x.numerator ≠ 0)
    (hd : visited x.denominator ≠ 0) :
    ∃ y, Becomes x y ∧ WellFormed y ∧ Short y ∧ Fraction.Canonical y.toFraction ∧
      Fraction.value y.toFraction = Fraction.value x.seen := by
  have hden : x.seen.denominator ≠ 0 :=
    mul_ne_zero (signum_ne_zero _) (Int.natCast_ne_zero.mpr hd)
  obtain ⟨r, hr, hrc, hrv⟩ := Fraction.optimise_spec hden
  obtain ⟨y, -, hyw, hys, hyr⟩ := optimise_seen hx hn hd (lt_add_one _)
  rw [hr] at hyr
  cases hyr
  refine ⟨y, ⟨mag x.numerator.digits + mag x.denominator.digits + mag y.numerator.digits +
    mag y.denominator.digits + 3, ?_⟩, hyw, hys, hrc, hrv⟩
  intro turns hturns
  have hbound : mag x.numerator.digits + mag x.denominator.digits + 2 < turns := by omega
  obtain ⟨z, hz, hzw, -, hzr⟩ := optimise_seen hx hn hd hbound
  rw [hr, Except.ok.injEq] at hzr
  rw [hz, ← hyw.ext hzw hzr, ok_bind]
  exact optimise_canonical hyw hys hrc (by omega)

theorem becomes_zero (hx : WellFormed x) (hn : x.numerator.isZero = true)
    (hd : ¬ x.denominator.isZero = true) : Becomes x ⟨x.numerator, ofNum 1⟩ := by
  have hnum := (equals_zero_iff hx.numerator).mpr hn
  have hone : ¬ equals (ofNum 1) (ofNum 0) = true := by
    rw [equals_zero_iff (canonical_ofNum 1), ← toInt_eq_zero_iff (canonical_ofNum 1),
      toInt_ofNum_one]
    decide
  refine ⟨0, fun turns _ => ?_⟩
  have hfirst : optimise turns x = .ok ⟨x.numerator, ofNum 1⟩ := by
    rw [optimise, if_neg (mt (equals_zero_iff hx.denominator).mp hd), if_pos hnum]
    rfl
  rw [hfirst, ok_bind, optimise, if_neg hone, if_pos hnum]
  rfl

/-- Without a visited part of the denominator nothing is read, and without one of the numerator
zero. -/
theorem becomes_unseen (hx : WellFormed x) (hn : ¬ x.numerator.isZero = true)
    (hd : ¬ x.denominator.isZero = true) (h : Becomes x y) :
    visited x.denominator ≠ 0 ∧ (visited x.numerator = 0 → y.numerator.isZero = true) := by
  obtain ⟨enough, h⟩ := h
  obtain ⟨z, hz, hzy⟩ := bind_eq_ok.mp (h enough le_rfl)
  obtain ⟨hzw, hzn, hzd⟩ := optimise_unseen hx hn hd hz
  have hzden : ¬ z.denominator.isZero = true := by
    intro hzero
    rw [optimise, if_pos ((equals_zero_iff hzw.denominator).mpr hzero)] at hzy
    cases hzy
  refine ⟨fun hv => hzden (hzd hv), fun hv => ?_⟩
  rw [optimise, if_neg (mt (equals_zero_iff hzw.denominator).mp hzden),
    if_pos ((equals_zero_iff hzw.numerator).mpr (hzn hv))] at hzy
  cases hzy
  exact hzn hv

theorem Becomes.unique {z : BigFraction} (hy : Becomes x y) (hz : Becomes x z) : y = z := by
  obtain ⟨m, hm⟩ := hy
  obtain ⟨n, hn⟩ := hz
  have h := hm (max m n) (le_max_left m n)
  rw [hn (max m n) (le_max_right m n)] at h
  cases h
  rfl

/-- The fraction of the visited parts has the value of the fraction. -/
theorem value_seen_iff (hd : mag x.denominator.digits ≠ 0) (hv : visited x.denominator ≠ 0) :
    Fraction.value x.seen = Fraction.value x.toFraction ↔
      visited x.numerator * mag x.denominator.digits =
        visited x.denominator * mag x.numerator.digits := by
  have hs := signum_ne_zero x.numerator.sign
  have ht := signum_ne_zero x.denominator.sign
  have hseen : ((x.seen.denominator : ℤ) : ℚ) ≠ 0 :=
    Int.cast_ne_zero.mpr (mul_ne_zero ht (Int.natCast_ne_zero.mpr hv))
  have hwhole : ((x.toFraction.denominator : ℤ) : ℚ) ≠ 0 := by
    rw [toFraction, toInt_eq x.denominator]
    exact Int.cast_ne_zero.mpr (mul_ne_zero ht (Int.natCast_ne_zero.mpr hd))
  rw [Fraction.value, Fraction.value, div_eq_div_iff hseen hwhole]
  unfold seen toFraction
  rw [toInt_eq, toInt_eq]
  constructor
  · intro h
    have hint : signum x.numerator.sign * visited x.numerator *
        (signum x.denominator.sign * mag x.denominator.digits) =
        signum x.numerator.sign * mag x.numerator.digits *
          (signum x.denominator.sign * visited x.denominator) := by exact_mod_cast h
    have hcancel : (visited x.numerator * mag x.denominator.digits : ℤ) =
        visited x.denominator * mag x.numerator.digits := by
      apply mul_left_cancel₀ (mul_ne_zero hs ht)
      linear_combination hint
    exact_mod_cast hcancel
  · intro h
    have hcast : (visited x.numerator * mag x.denominator.digits : ℚ) =
        visited x.denominator * mag x.numerator.digits := by exact_mod_cast h
    push_cast
    linear_combination (signum x.numerator.sign * signum x.denominator.sign : ℚ) * hcast

theorem becomes_of_proportional (hx : WellFormed x) (hd : ¬ x.denominator.isZero = true)
    (hp : Proportional x) :
    ∃ y, Becomes x y ∧ WellFormed y ∧ Short y ∧ Fraction.Canonical y.toFraction ∧
      Fraction.value y.toFraction = Fraction.value x.toFraction := by
  have hdm : mag x.denominator.digits ≠ 0 := mt hx.denominator.isZero_iff.mpr hd
  by_cases hnz : x.numerator.isZero = true
  · have hn : x.numerator.toInt = 0 := (toInt_eq_zero_iff hx.numerator).mpr hnz
    have hone : (ofNum 1).digits.length < 2 ^ 31 :=
      (ofNum_spec 1 (by decide)).2.2.trans_lt (by decide)
    have hzero : x.numerator.digits.length < 2 ^ 31 :=
      length_lt_of_le_visited hx.numerator (b := x.numerator)
        ((hx.numerator.isZero_iff.mp hnz).trans_le (Nat.zero_le _))
    refine ⟨_, becomes_zero hx hnz hd, ⟨hx.numerator, canonical_ofNum 1⟩, ⟨hzero, hone⟩, ?_, ?_⟩
    · unfold toFraction
      rw [hn, toInt_ofNum_one]
      exact ⟨by decide, by decide, by decide, by decide⟩
    · simp [Fraction.value, toFraction, hn]
  · obtain h | ⟨hnv, hprop⟩ := hp
    · exact absurd (hx.numerator.isZero_iff.mpr h) hnz
    · have hdv : visited x.denominator ≠ 0 := by
        intro hdv
        rw [hdv, Nat.zero_mul] at hprop
        exact mul_ne_zero hnv hdm hprop
      obtain ⟨y, hy, hyw, hys, hyc, hyv⟩ := becomes_seen hx hnv hdv
      exact ⟨y, hy, hyw, hys, hyc, hyv.trans ((value_seen_iff hdm hdv).mpr hprop)⟩

/-- What comes out has the value of the fraction only when the visited parts are in the
proportion of the whole numbers. -/
theorem proportional_of_becomes (hx : WellFormed x) (hd : ¬ x.denominator.isZero = true)
    (hy : Becomes x y) (hyw : WellFormed y)
    (hv : Fraction.value y.toFraction = Fraction.value x.toFraction) : Proportional x := by
  have hdm : mag x.denominator.digits ≠ 0 := mt hx.denominator.isZero_iff.mpr hd
  by_cases hnz : x.numerator.isZero = true
  · exact Or.inl (hx.numerator.isZero_iff.mp hnz)
  · obtain ⟨hdv, hyz⟩ := becomes_unseen hx hnz hd hy
    have hnv : visited x.numerator ≠ 0 := by
      intro hnv
      have hzero := (toInt_eq_zero_iff hyw.numerator).mpr (hyz hnv)
      have hn : x.numerator.toInt ≠ 0 := mt (toInt_eq_zero_iff hx.numerator).mp hnz
      have hd' : x.denominator.toInt ≠ 0 := mt (toInt_eq_zero_iff hx.denominator).mp hd
      have hne : (x.numerator.toInt : ℚ) / x.denominator.toInt ≠ 0 :=
        div_ne_zero (Int.cast_ne_zero.mpr hn) (Int.cast_ne_zero.mpr hd')
      rw [Fraction.value, Fraction.value, toFraction, toFraction, hzero, Int.cast_zero,
        zero_div] at hv
      exact hne hv.symm
    obtain ⟨z, hz, -, -, -, hzv⟩ := becomes_seen hx hnv hdv
    rw [hy.unique hz, hzv] at hv
    exact Or.inr ⟨hnv, (value_seen_iff hdm hdv).mp hv⟩

theorem Short.proportional (h : Short x) : Proportional x := by
  unfold Proportional
  rw [visited_of_lt h.numerator, visited_of_lt h.denominator]
  by_cases h0 : mag x.numerator.digits = 0
  · exact Or.inl h0
  · exact Or.inr ⟨h0, Nat.mul_comm _ _⟩

end BigFraction

end MaiFaSp
