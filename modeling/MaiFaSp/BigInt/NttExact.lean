import MaiFaSp.BigInt.Ntt

/-!
# `big_int`: what the number-theoretic transform computes
-/

namespace MaiFaSp.Ntt

open Transform

/-! ### The tables -/

/-- The table holds at each power of two, `2 ^ j`, the root `W ^ (MAXN / 2 ^ j)`. -/
def Roots (M : ℕ) (W : ZMod M) (pws : Table) : Prop :=
  ∀ j ≤ 19, Residue M (pws (2 ^ j)) ∧ (pws (2 ^ j) : ZMod M) = W ^ 2 ^ (19 - j)

section Tables

variable {M : ℕ} {pws : Table} {e : ℕ}

theorem lookup_eq (pws : Table) (he : e ≤ 19) : lookup pws (2 ^ e) = .ok (pws (2 ^ e)) :=
  if_pos (Nat.pow_le_pow_right (by norm_num) he)

theorem initLoop_step (hM : 0 < M) (hM' : M ≤ 2 ^ 31) (he : e + 1 ≤ 19)
    (hres : Residue M (pws (2 ^ (e + 1)))) :
    ∃ square, initLoop M (2 ^ e) pws = initLoop M (2 ^ e / 2) (Function.update pws (2 ^ e) square) ∧
      Residue M square ∧ (square : ZMod M) = (pws (2 ^ (e + 1)) : ZMod M) ^ 2 := by
  obtain ⟨square, hsquare, hsres, hsval⟩ := mulMod_spec hM hM' hres hres
  rw [← pow_two] at hsval
  refine ⟨square, ?_, hsres, hsval⟩
  rw [initLoop, if_pos Nat.one_le_two_pow, ← pow_succ, lookup_eq pws he, ok_bind, hsquare, ok_bind]

theorem initLoop_spec (pws : Table) (hM : 0 < M) (hM' : M ≤ 2 ^ 31) (he : e + 1 ≤ 19)
    (hres : Residue M (pws (2 ^ (e + 1)))) :
    ∃ pws', initLoop M (2 ^ e) pws = .ok pws' ∧
      (∀ j ≤ e, Residue M (pws' (2 ^ j)) ∧
        (pws' (2 ^ j) : ZMod M) = (pws (2 ^ (e + 1)) : ZMod M) ^ 2 ^ (e + 1 - j)) ∧
      ∀ p, 2 ^ e < p → pws' p = pws p := by
  induction e generalizing pws with
  | zero =>
    obtain ⟨square, hstep, hsres, hsval⟩ := initLoop_step hM hM' he hres
    refine ⟨Function.update pws 1 square, ?_, ?_, ?_⟩
    · rw [hstep, initLoop, if_neg (by norm_num)]
      rfl
    · intro j hj
      rw [show j = 0 by omega, pow_zero, Function.update_self]
      exact ⟨hsres, hsval⟩
    · intro p hp
      rw [Function.update_of_ne (by omega)]
  | succ e ih =>
    obtain ⟨square, hstep, hsres, hsval⟩ := initLoop_step hM hM' he hres
    have hhalf : 2 ^ (e + 1) / 2 = 2 ^ e := by rw [pow_succ, Nat.mul_div_cancel _ (by norm_num)]
    have hpow : 2 ^ e < 2 ^ (e + 1) := Nat.pow_lt_pow_right (by norm_num) (by omega)
    have hself : Function.update pws (2 ^ (e + 1)) square (2 ^ (e + 1)) = square :=
      Function.update_self ..
    obtain ⟨pws', hrun, hroots, hframe⟩ := ih (Function.update pws (2 ^ (e + 1)) square) (by omega)
      (by rw [hself]; exact hsres)
    refine ⟨pws', ?_, ?_, ?_⟩
    · rw [hstep, hhalf, hrun]
    · intro j hj
      by_cases hje : j ≤ e
      · obtain ⟨hres', hval'⟩ := hroots j hje
        refine ⟨hres', ?_⟩
        rw [hval', hself, hsval, ← pow_mul, ← pow_succ', show e + 1 - j + 1 = e + 1 + 1 - j by omega]
      · rw [show j = e + 1 by omega, hframe _ hpow, hself, hsval]
        refine ⟨hsres, ?_⟩
        rw [show e + 1 + 1 - (e + 1) = 1 by omega, pow_one]
    · intro p hp
      rw [hframe p (by omega), Function.update_of_ne (by omega)]

theorem init_spec (hM : 0 < M) (hM' : M ≤ 2 ^ 31) {W : ℤ} (hW : Residue M W) :
    ∃ pws, init M W = .ok pws ∧ Roots M (W : ZMod M) pws := by
  let start : Table := Function.update (fun _ => 0) MAXN W
  have hself : start (2 ^ (18 + 1)) = W := Function.update_self ..
  obtain ⟨pws, hrun, hroots, hframe⟩ :=
    initLoop_spec (e := 18) start hM hM' (by norm_num) (by rw [hself]; exact hW)
  refine ⟨pws, hrun, ?_⟩
  intro j hj
  by_cases hj' : j ≤ 18
  · obtain ⟨hres, hval⟩ := hroots j hj'
    rw [hself] at hval
    exact ⟨hres, hval⟩
  · have hj'' : j = 18 + 1 := by omega
    rw [hj'', hframe _ (by norm_num), hself]
    exact ⟨hW, (pow_one _).symm⟩

end Tables

/-- What the loops use of a modulus. -/
structure Constants.Sound (c : Constants) : Prop where
  one_lt : 1 < c.MOD
  word : c.MOD ≤ 2 ^ 31
  inv2 : Residue c.MOD c.INV2

/-- What a level of the transform multiplies by. -/
def scale (c : Constants) (inv : Bool) : ZMod c.MOD := if inv then c.INV2 else 1

section Butterflies

variable {c : Constants} {inv : Bool} {half i turns : ℕ} {cw gw x : ℤ} {ans : List ℤ}

theorem Constants.Sound.pos (hc : c.Sound) : 0 < c.MOD := Nat.lt_of_succ_lt hc.one_lt

theorem Constants.Sound.residue_one (hc : c.Sound) : Residue c.MOD 1 := by
  have h := hc.one_lt
  constructor <;> omega

theorem halved_spec (inv : Bool) (hc : c.Sound) (hx : Residue c.MOD x) :
    ∃ y, halved c inv x = .ok y ∧ Residue c.MOD y ∧ (y : ZMod c.MOD) = scale c inv * x := by
  cases inv with
  | false => exact ⟨x, rfl, hx, (one_mul _).symm⟩
  | true =>
    obtain ⟨y, hy, hres, hval⟩ := mulMod_spec hc.pos hc.word hx hc.inv2
    exact ⟨y, hy, hres, hval.trans (mul_comm _ _)⟩

/-- A negative remainder of the difference is brought back by one modulus. -/
theorem raised_spec (hc : c.Sound) {d : ℤ} (hlo : -c.MOD < d) (hhi : d < c.MOD) :
    ∃ y, raised c.MOD (d.tmod c.MOD) = .ok y ∧ Residue c.MOD y ∧ (y : ZMod c.MOD) = d := by
  have hword : (c.MOD : ℤ) ≤ 2 ^ 31 := by exact_mod_cast hc.word
  have hkept : d.tmod c.MOD = d := by
    by_cases hd : 0 ≤ d
    · exact Int.tmod_eq_of_lt hd hhi
    · have hneg := Int.tmod_eq_of_lt (a := -d) (b := c.MOD) (by omega) (by omega)
      rw [Int.neg_tmod] at hneg
      omega
  rw [hkept, raised]
  by_cases hd : d < 0
  · refine ⟨d + c.MOD, ?_, ⟨by omega, by omega⟩, ?_⟩
    · rw [if_pos hd, ll_eq (by omega) (by omega)]
    · push_cast
      rw [ZMod.natCast_self, add_zero]
  · exact ⟨d, if_neg hd, ⟨by omega, hhi⟩, rfl⟩

theorem butterfly_spec (inv : Bool) (hc : c.Sound) (hi : i + half < ans.length)
    (hcw : Residue c.MOD cw) (hu : Residue c.MOD (val ans i))
    (hw : Residue c.MOD (val ans (i + half))) :
    ∃ lower upper, butterfly c inv half i cw ans = .ok ((ans.set i lower).set (i + half) upper) ∧
      Residue c.MOD lower ∧ Residue c.MOD upper ∧
      (lower : ZMod c.MOD) = scale c inv * (val ans i + cw * val ans (i + half)) ∧
      (upper : ZMod c.MOD) = scale c inv * (val ans i - cw * val ans (i + half)) := by
  have hword : (c.MOD : ℤ) ≤ 2 ^ 31 := by exact_mod_cast hc.word
  obtain ⟨v, hv, hvres, hvval⟩ := mulMod_spec hc.pos hc.word hcw hw
  have hu0 := hu.1
  have hu1 := hu.2
  have hv0 := hvres.1
  have hv1 := hvres.2
  have hsum : Residue c.MOD ((val ans i + v).tmod c.MOD) := residue_tmod hc.pos (by omega)
  obtain ⟨upper, hupper, hupres, hupval⟩ :=
    raised_spec hc (d := val ans i - v) (by omega) (by omega)
  obtain ⟨lower', hl, hlres, hlval⟩ := halved_spec inv hc hsum
  obtain ⟨upper', hh, hhres, hhval⟩ := halved_spec inv hc hupres
  refine ⟨lower', upper', ?_, hlres, hhres, ?_, ?_⟩
  · have hput : put (ans.set i lower') (i + half) upper' =
        .ok ((ans.set i lower').set (i + half) upper') := put_eq (by rw [List.length_set]; exact hi) _
    simp only [butterfly, get_eq (show i < ans.length by omega), get_eq hi, ok_bind, hv,
      ll_eq (show -2 ^ 63 ≤ val ans i + v by omega) (by omega),
      ll_eq (show -2 ^ 63 ≤ val ans i - v by omega) (by omega), hupper, hl, hh,
      put_eq (show i < ans.length by omega), hput]
  · rw [hlval, cast_tmod]
    push_cast
    rw [hvval]
  · rw [hhval, hupval]
    push_cast
    rw [hvval]

/-- Every pair of places `half` apart has become its sum and its difference, the second place
multiplied by a power of `gw` that grows with the place. -/
structure Combined (c : Constants) (inv : Bool) (half turns i : ℕ) (cw gw : ℤ)
    (ans ans' : List ℤ) : Prop where
  length : ans'.length = ans.length
  lower : ∀ j < turns, Residue c.MOD (val ans' (i + j)) ∧
    (val ans' (i + j) : ZMod c.MOD) =
      scale c inv * (val ans (i + j) + cw * gw ^ j * val ans (i + half + j))
  upper : ∀ j < turns, Residue c.MOD (val ans' (i + half + j)) ∧
    (val ans' (i + half + j) : ZMod c.MOD) =
      scale c inv * (val ans (i + j) - cw * gw ^ j * val ans (i + half + j))
  frame : ∀ p, p < i ∨ i + turns ≤ p ∧ p < i + half ∨ i + half + turns ≤ p →
    val ans' p = val ans p

theorem butterflies_spec (inv : Bool) (half turns i : ℕ) (ans : List ℤ) (hc : c.Sound)
    (hgw : Residue c.MOD gw) (hturns : turns ≤ half)
    (hi : i + half + turns ≤ ans.length) (hcw : Residue c.MOD cw)
    (hu : ∀ j < turns, Residue c.MOD (val ans (i + j)))
    (hw : ∀ j < turns, Residue c.MOD (val ans (i + half + j))) :
    ∃ ans', butterflies c inv gw half turns i cw ans = .ok ans' ∧
      Combined c inv half turns i cw gw ans ans' := by
  induction turns generalizing i cw ans with
  | zero =>
    refine ⟨ans, rfl, rfl, ?_, ?_, fun _ _ => rfl⟩
    · intro j hj
      omega
    · intro j hj
      omega
  | succ turns ih =>
    obtain ⟨lower, upper, hstep, hlres, hures, hlval, huval⟩ :=
      butterfly_spec inv hc (show i + half < ans.length by omega) hcw (hu 0 (by omega))
        (hw 0 (by omega))
    obtain ⟨cw', hcw', hcwres, hcwval⟩ := mulMod_spec hc.pos hc.word hcw hgw
    have hlen : ((ans.set i lower).set (i + half) upper).length = ans.length := by
      rw [List.length_set, List.length_set]
    have hvals : ∀ p, val ((ans.set i lower).set (i + half) upper) p =
        if i + half = p then upper else if i = p then lower else val ans p := by
      intro p
      rw [val_set (by rw [List.length_set]; omega), val_set (by omega)]
    have hkept : ∀ p, p ≠ i → p ≠ i + half →
        val ((ans.set i lower).set (i + half) upper) p = val ans p := by
      intro p hp hp'
      rw [hvals, if_neg (Ne.symm hp'), if_neg (Ne.symm hp)]
    obtain ⟨ans', hrun, hcomb⟩ := ih (i + 1) ((ans.set i lower).set (i + half) upper) (by omega) (by rw [hlen]; omega) hcwres
      (by
        intro j hj
        rw [hkept _ (by omega) (by omega), show i + 1 + j = i + (j + 1) by omega]
        exact hu _ (by omega))
      (by
        intro j hj
        rw [hkept _ (by omega) (by omega), show i + 1 + half + j = i + half + (j + 1) by omega]
        exact hw _ (by omega))
    refine ⟨ans', ?_, ?_, ?_, ?_, ?_⟩
    · simp only [butterflies, hstep, ok_bind, hcw', hrun]
    · rw [hcomb.length, hlen]
    · intro j hj
      cases j with
      | zero =>
        rw [Nat.add_zero, Nat.add_zero, hcomb.frame _ (by omega), hvals, if_neg (by omega),
          if_pos rfl]
        refine ⟨hlres, ?_⟩
        rw [hlval, pow_zero, mul_one]
      | succ j =>
        obtain ⟨hres, hval⟩ := hcomb.lower j (by omega)
        rw [show i + 1 + j = i + (j + 1) by omega] at hres hval
        refine ⟨hres, ?_⟩
        rw [hval, hkept _ (by omega) (by omega), hkept _ (by omega) (by omega), hcwval,
          show i + 1 + half + j = i + half + (j + 1) by omega]
        ring
    · intro j hj
      cases j with
      | zero =>
        rw [Nat.add_zero, Nat.add_zero, hcomb.frame _ (by omega), hvals, if_pos rfl]
        refine ⟨hures, ?_⟩
        rw [huval, pow_zero, mul_one]
      | succ j =>
        obtain ⟨hres, hval⟩ := hcomb.upper j (by omega)
        rw [show i + 1 + half + j = i + half + (j + 1) by omega] at hres hval
        refine ⟨hres, ?_⟩
        rw [hval, hkept _ (by omega) (by omega), hkept _ (by omega) (by omega), hcwval,
          show i + 1 + j = i + (j + 1) by omega]
        ring
    · intro p hp
      rw [hcomb.frame _ (by omega), hkept _ (by omega) (by omega)]

end Butterflies

/-! ### The transform -/

/-- The places from `l` on hold the transform, every level of it scaled. -/
structure Transformed (c : Constants) (s r : ZMod c.MOD) (k l : ℕ) (f : ℕ → ZMod c.MOD)
    (ans ans' : List ℤ) : Prop where
  length : ans'.length = ans.length
  residue : ∀ i < 2 ^ k, Residue c.MOD (val ans' (l + i))
  value : ∀ i < 2 ^ k, (val ans' (l + i) : ZMod c.MOD) = s ^ k * dft r (2 ^ k) f i
  frame : ∀ p, p < l ∨ l + 2 ^ k ≤ p → val ans' p = val ans p

section Levels

variable {c : Constants} {k : ℕ} {W : ZMod c.MOD}

theorem level_square (W : ZMod c.MOD) {k : ℕ} (hk : k + 1 ≤ 19) :
    (W ^ 2 ^ (19 - (k + 1))) ^ 2 = W ^ 2 ^ (19 - k) := by
  rw [← pow_mul, ← pow_succ, show 19 - (k + 1) + 1 = 19 - k by omega]

theorem level_half (hW : W ^ 2 ^ 18 = -1) {k : ℕ} (hk : k + 1 ≤ 19) :
    (W ^ 2 ^ (19 - (k + 1))) ^ 2 ^ k = -1 := by
  rw [← pow_mul, ← pow_add, show 19 - (k + 1) + k = 18 by omega, hW]

theorem fft_spec (inv : Bool) (pws ipws : Table) (a : List ℤ) (l cl step : ℕ) (ans : List ℤ)
    (hc : c.Sound) (hW : W ^ 2 ^ 18 = -1)
    (htable : Roots c.MOD W (if inv then ipws else pws)) (hk : k ≤ 19)
    (hl : l + 2 ^ k ≤ ans.length) (hin : ∀ i < 2 ^ k, cl + i * step < a.length)
    (hres : ∀ i < 2 ^ k, Residue c.MOD (val a (cl + i * step))) :
    ∃ ans', fft c pws ipws inv a k l cl step ans = .ok ans' ∧
      Transformed c (scale c inv) (W ^ 2 ^ (19 - k)) k l (fun i => (val a (cl + i * step) : ZMod c.MOD))
        ans ans' := by
  induction k generalizing l cl step ans with
  | zero =>
    have h0 := hin 0 (by norm_num)
    have h0' := hres 0 (by norm_num)
    rw [Nat.zero_mul, Nat.add_zero] at h0 h0'
    have hlen : l < ans.length := by omega
    refine ⟨ans.set l (val a cl), ?_, List.length_set, ?_, ?_, ?_⟩
    · simp only [fft, get_eq h0, ok_bind, put_eq hlen]
    · intro i hi
      rw [show i = 0 by omega, Nat.add_zero, val_set hlen, if_pos rfl]
      exact h0'
    · intro i hi
      rw [show i = 0 by omega, Nat.add_zero, val_set hlen, if_pos rfl]
      simp [dft]
    · intro p hp
      rw [val_set hlen, if_neg (by omega)]
  | succ k ih =>
    have hpow : 2 ^ (k + 1) = 2 ^ k + 2 ^ k := by rw [pow_succ]; omega
    have hpos : 0 < 2 ^ k := Nat.two_pow_pos k
    have heven : ∀ i, cl + i * (step * 2) = cl + (2 * i) * step := by
      intro i
      ring
    have hodd : ∀ i, cl + step + i * (step * 2) = cl + (2 * i + 1) * step := by
      intro i
      ring
    -- the two halves
    obtain ⟨ans1, hrun1, h1⟩ := ih l cl (step * 2) ans (by omega) (by omega)
      (by
        intro i hi
        rw [heven]
        exact hin _ (by omega))
      (by
        intro i hi
        rw [heven]
        exact hres _ (by omega))
    have hlen1 := h1.length
    obtain ⟨ans2, hrun2, h2⟩ := ih (l + 2 ^ k) (cl + step) (step * 2) ans1 (by omega)
      (by omega)
      (by
        intro i hi
        rw [hodd]
        exact hin _ (by omega))
      (by
        intro i hi
        rw [hodd]
        exact hres _ (by omega))
    have hlen2 := h2.length
    -- the root of this level
    obtain ⟨hgwres, hgwval⟩ := htable (k + 1) hk
    have hlook := lookup_eq (if inv then ipws else pws) hk
    -- the loop
    have hlow : ∀ j < 2 ^ k, val ans2 (l + j) = val ans1 (l + j) := by
      intro j hj
      exact h2.frame _ (by omega)
    obtain ⟨ans', hrun, hcomb⟩ := butterflies_spec inv (2 ^ k) (2 ^ k) l ans2 hc hgwres (le_refl _) (by omega) hc.residue_one
      (by
        intro j hj
        rw [hlow j hj]
        exact h1.residue j hj)
      h2.residue
    refine ⟨ans', ?_, ?_, ?_, ?_, ?_⟩
    · simp only [fft, hrun1, ok_bind, hrun2, hlook, hrun]
    · rw [hcomb.length, hlen2, hlen1]
    · intro i hi
      by_cases hik : i < 2 ^ k
      · exact (hcomb.lower i hik).1
      · have h := (hcomb.upper (i - 2 ^ k) (by omega)).1
        rwa [show l + 2 ^ k + (i - 2 ^ k) = l + i by omega] at h
    · intro i hi
      have hval1 := h1.value
      have hval2 := h2.value
      simp only [heven] at hval1
      simp only [hodd] at hval2
      rw [← level_square W hk] at hval1 hval2
      have htwo : 2 ^ (k + 1) = 2 * 2 ^ k := by omega
      by_cases hik : i < 2 ^ k
      · rw [(hcomb.lower i hik).2, hlow i hik, hval1 i hik, hval2 i hik, hgwval, htwo,
          dft_even_odd]
        push_cast
        ring
      · have hj : i - 2 ^ k < 2 ^ k := by omega
        have h := (hcomb.upper (i - 2 ^ k) hj).2
        rw [show l + 2 ^ k + (i - 2 ^ k) = l + i by omega] at h
        rw [h, hlow _ hj, hval1 _ hj]
        have h2' := hval2 _ hj
        rw [show l + 2 ^ k + (i - 2 ^ k) = l + i by omega] at h2'
        rw [h2', hgwval, htwo]
        conv_rhs => rw [show i = i - 2 ^ k + 2 ^ k by omega]
        rw [dft_add_half (level_half hW hk)]
        push_cast
        ring
    · intro p hp
      rw [hcomb.frame p (by omega), h2.frame p (by omega), h1.frame p (by omega)]

theorem fft_whole (inv : Bool) (pws ipws : Table) {xs : List ℤ} (hc : c.Sound)
    (hW : W ^ 2 ^ 18 = -1) (htable : Roots c.MOD W (if inv then ipws else pws)) (hk : k ≤ 19)
    (hlen : xs.length = 2 ^ k) (hres : ∀ i < 2 ^ k, Residue c.MOD (val xs i)) :
    ∃ ys, fft c pws ipws inv xs k 0 0 1 (List.replicate (2 ^ k) 0) = .ok ys ∧
      ys.length = 2 ^ k ∧ ∀ i < 2 ^ k, Residue c.MOD (val ys i) ∧ (val ys i : ZMod c.MOD) =
        scale c inv ^ k * dft (W ^ 2 ^ (19 - k)) (2 ^ k) (fun i => (val xs i : ZMod c.MOD)) i := by
  have hzeros : (List.replicate (2 ^ k) (0 : ℤ)).length = 2 ^ k := List.length_replicate
  obtain ⟨ys, hrun, hys⟩ := fft_spec inv pws ipws xs 0 0 1 _ hc hW htable hk
    (by rw [hzeros, Nat.zero_add])
    (by
      intro i hi
      omega)
    (by
      intro i hi
      rw [Nat.zero_add, Nat.mul_one]
      exact hres i hi)
  refine ⟨ys, hrun, hys.length.trans hzeros, ?_⟩
  intro i hi
  have hresidue := hys.residue i hi
  have hvalue := hys.value i hi
  rw [Nat.zero_add] at hresidue hvalue
  refine ⟨hresidue, hvalue.trans ?_⟩
  simp only [Nat.zero_add, Nat.mul_one]

end Levels

/-! ### The product of two vectors -/

section Products

variable {c : Constants} {a b xs ys : List ℤ} {k j : ℕ}

theorem pointwise_spec {M : ℕ} (hM : 0 < M) (hM' : M ≤ 2 ^ 31) (hlen : xs.length = ys.length)
    (hx : ∀ i < xs.length, Residue M (val xs i)) (hy : ∀ i < ys.length, Residue M (val ys i)) :
    ∃ zs, pointwise M xs ys = .ok zs ∧ zs.length = xs.length ∧
      ∀ i < xs.length, Residue M (val zs i) ∧ (val zs i : ZMod M) = val xs i * val ys i := by
  induction xs generalizing ys with
  | nil =>
    refine ⟨[], ?_, rfl, ?_⟩
    · cases ys <;> rfl
    · intro i hi
      cases hi
  | cons x xs ih =>
    cases ys with
    | nil => cases hlen
    | cons y ys =>
      obtain ⟨p, hp, hpres, hpval⟩ :=
        mulMod_spec hM hM' (hx 0 (Nat.succ_pos _)) (hy 0 (Nat.succ_pos _))
      obtain ⟨zs, hrun, hzlen, hz⟩ := ih (Nat.succ.inj hlen)
        (fun i hi => hx (i + 1) (Nat.succ_lt_succ hi)) (fun i hi => hy (i + 1) (Nat.succ_lt_succ hi))
      refine ⟨p :: zs, ?_, ?_, ?_⟩
      · have hp' : mulMod M x y = .ok p := hp
        rw [pointwise, hp', ok_bind, hrun]
        rfl
      · rw [List.length_cons, List.length_cons, hzlen]
      · intro i hi
        cases i with
        | zero => exact ⟨hpres, hpval⟩
        | succ i => exact hz i (Nat.lt_of_succ_lt_succ hi)

/-- A modulus whose constants are what their comments say. -/
structure Constants.Checked (c : Constants) : Prop extends c.Sound where
  w : Residue c.MOD c.W
  iw : Residue c.MOD c.IW
  half : (c.W : ZMod c.MOD) ^ 2 ^ 18 = -1
  inverse : (c.W : ZMod c.MOD) * c.IW = 1
  two : (c.INV2 : ZMod c.MOD) * 2 = 1

theorem Constants.Checked.half_inverse (hc : c.Checked) : (c.IW : ZMod c.MOD) ^ 2 ^ 18 = -1 := by
  have h : ((c.W : ZMod c.MOD) * c.IW) ^ 2 ^ 18 = 1 := by rw [hc.inverse, one_pow]
  rw [mul_pow, hc.half, neg_one_mul] at h
  rw [← h, neg_neg]

theorem cyclic_cast (M n : ℕ) (f g : ℕ → ℤ) (j : ℕ) :
    ((cyclic n f g j : ℤ) : ZMod M) = cyclic n (fun i => (f i : ZMod M)) (fun i => (g i : ZMod M)) j := by
  simp [cyclic]

theorem product_value (hc : c.Checked) (hk : k ≤ 19) (f g : ℕ → ZMod c.MOD) (hj : j < 2 ^ k) :
    (c.INV2 : ZMod c.MOD) ^ k * dft ((c.IW : ZMod c.MOD) ^ 2 ^ (19 - k)) (2 ^ k)
      (fun i => dft ((c.W : ZMod c.MOD) ^ 2 ^ (19 - k)) (2 ^ k) f i *
        dft ((c.W : ZMod c.MOD) ^ 2 ^ (19 - k)) (2 ^ k) g i) j = cyclic (2 ^ k) f g j := by
  cases k with
  | zero =>
    rw [show j = 0 by omega]
    simp [dft, cyclic]
  | succ k =>
    rw [dft_product (level_half hc.half hk) (level_half hc.half_inverse hk) (by
      rw [← mul_pow, hc.inverse, one_pow]) f g hj, ← mul_assoc, ← mul_pow, hc.two, one_pow, one_mul]

/-- From the tables on, the product of two vectors of residues is their cyclic convolution. -/
theorem polyMultiply_spec (hc : c.Checked) {pws ipws : Table} (hpws : Roots c.MOD c.W pws)
    (hipws : Roots c.MOD c.IW ipws) (hk : k ≤ 19) (ha : a.length = 2 ^ k) (hb : b.length = 2 ^ k)
    (hares : ∀ i < 2 ^ k, Residue c.MOD (val a i)) (hbres : ∀ i < 2 ^ k, Residue c.MOD (val b i)) :
    ∃ product, polyMultiply c pws ipws a b k = .ok product ∧ product.length = 2 ^ k ∧
      ∀ j < 2 ^ k, Residue c.MOD (val product j) ∧
        val product j = cyclic (2 ^ k) (val a) (val b) j % c.MOD := by
  have hsound := hc.toSound
  obtain ⟨a_fft, hfa, hAlen, hA⟩ := fft_whole false pws ipws hsound hc.half hpws hk ha hares
  obtain ⟨b_fft, hfb, hBlen, hB⟩ := fft_whole false pws ipws hsound hc.half hpws hk hb hbres
  obtain ⟨product_fft, hfp, hPlen, hP⟩ := pointwise_spec hsound.pos hsound.word
    (hAlen.trans hBlen.symm) (fun i hi => (hA i (by omega)).1) (fun i hi => (hB i (by omega)).1)
  rw [hAlen] at hPlen hP
  obtain ⟨product, hf, hQlen, hQ⟩ := fft_whole true pws ipws hsound hc.half_inverse hipws hk hPlen
    (fun i hi => (hP i hi).1)
  refine ⟨product, ?_, hQlen, ?_⟩
  · simp only [polyMultiply, hfa, ok_bind, hfb, hfp, hf]
  · intro j hj
    obtain ⟨hres, hval⟩ := hQ j hj
    refine ⟨hres, ?_⟩
    have hcast : (val product j : ZMod c.MOD) = (cyclic (2 ^ k) (val a) (val b) j : ℤ) := by
      rw [hval, cyclic_cast, ← product_value hc hk _ _ hj]
      refine congrArg₂ (· * ·) rfl (dft_congr ?_)
      intro i hi
      have hAi := (hA i hi).2
      have hBi := (hB i hi).2
      simp only [scale, Bool.false_eq_true, if_false, one_pow, one_mul] at hAi hBi
      rw [(hP i hi).2, hAi, hBi]
    have hmod := (ZMod.intCast_eq_intCast_iff' _ _ _).mp hcast
    rwa [Int.emod_eq_of_lt hres.1 hres.2] at hmod

end Products

/-! ### The two moduli -/

/-- Squaring again and again. -/
def squares (M : ℕ) (x : ℕ) : ℕ → ℕ
  | 0 => x
  | e + 1 => squares M (x * x % M) e

theorem squares_cast (M x e : ℕ) : (squares M x e : ZMod M) = (x : ZMod M) ^ 2 ^ e := by
  induction e generalizing x with
  | zero => rw [squares, pow_zero, pow_one]
  | succ e ih =>
    rw [squares, ih, ZMod.natCast_mod, Nat.cast_mul, ← pow_two, ← pow_mul, ← pow_succ']

theorem eq_neg_one_of_squares {M x e : ℕ} (h : squares M x e + 1 = M) :
    (x : ZMod M) ^ 2 ^ e = -1 := by
  rw [← squares_cast, eq_neg_iff_add_eq_zero]
  have hcast := congrArg (Nat.cast (R := ZMod M)) h
  rwa [Nat.cast_add, Nat.cast_one, ZMod.natCast_self] at hcast

theorem Constants.half_of_squares {c : Constants} (x : ℕ) (hx : c.W = x)
    (h : squares c.MOD x 18 + 1 = c.MOD) : (c.W : ZMod c.MOD) ^ 2 ^ 18 = -1 := by
  rw [hx, Int.cast_natCast]
  exact eq_neg_one_of_squares h

theorem mul_eq_one_of_mod {M x y : ℕ} (h : x * y % M = 1) : (x : ZMod M) * y = 1 := by
  rw [← Nat.cast_mul, ← ZMod.natCast_mod, h, Nat.cast_one]

theorem constants1_checked : constants1.Checked where
  one_lt := by decide
  word := by decide
  inv2 := by decide
  w := by decide
  iw := by decide
  half := constants1.half_of_squares 805775211 rfl (by decide +kernel)
  inverse := by exact_mod_cast
    mul_eq_one_of_mod (M := 998244353) (x := 805775211) (y := 46809892) (by decide +kernel)
  two := by exact_mod_cast
    mul_eq_one_of_mod (M := 998244353) (x := 499122177) (y := 2) (by decide +kernel)

theorem constants2_checked : constants2.Checked where
  one_lt := by decide
  word := by decide
  inv2 := by decide
  w := by decide
  iw := by decide
  half := constants2.half_of_squares 1838344356 rfl (by decide +kernel)
  inverse := by exact_mod_cast
    mul_eq_one_of_mod (M := 2113929217) (x := 1838344356) (y := 130030948) (by decide +kernel)
  two := by exact_mod_cast
    mul_eq_one_of_mod (M := 2113929217) (x := 1056964609) (y := 2) (by decide +kernel)

theorem checked_of_mem {c : Constants} (h : c ∈ [constants1, constants2]) : c.Checked := by
  rw [List.mem_pair] at h
  obtain rfl | rfl := h
  · exact constants1_checked
  · exact constants2_checked

theorem val_residue {M : ℕ} {xs : List ℤ} (h : ∀ x ∈ xs, 0 ≤ x ∧ x < (M : ℤ)) {i : ℕ}
    (hi : i < xs.length) : Residue M (val xs i) := by
  rw [val, List.getD_eq_getElem _ _ hi]
  exact h _ (List.getElem_mem hi)

/-- With the tables that `init` builds, `poly_multiply` of two vectors of a length `2 ^ k` up to
`MAXN` is their cyclic convolution, no product, sum or difference leaves `long long` and no
index leaves its vector or table. -/
theorem poly_multiply_cyclic :
    ∀ c ∈ [constants1, constants2], ∃ pws ipws,
      init c.MOD c.W = .ok pws ∧ init c.MOD c.IW = .ok ipws ∧
      ∀ k ≤ 19, ∀ a b : List ℤ, a.length = 2 ^ k → b.length = 2 ^ k →
        (∀ x ∈ a, 0 ≤ x ∧ x < c.MOD) → (∀ x ∈ b, 0 ≤ x ∧ x < c.MOD) →
        ∃ product, polyMultiply c pws ipws a b k = .ok product ∧ product.length = 2 ^ k ∧
          ∀ j < 2 ^ k, 0 ≤ val product j ∧ val product j < c.MOD ∧
            val product j = cyclic (2 ^ k) (val a) (val b) j % c.MOD := by
  intro c hmem
  have hc := checked_of_mem hmem
  obtain ⟨pws, hinit, hpws⟩ := init_spec hc.pos hc.word hc.w
  obtain ⟨ipws, hinit', hipws⟩ := init_spec hc.pos hc.word hc.iw
  refine ⟨pws, ipws, hinit, hinit', ?_⟩
  intro k hk a b ha hb hares hbres
  obtain ⟨product, hrun, hlen, hvals⟩ := polyMultiply_spec hc hpws hipws hk ha hb
    (fun i hi => val_residue hares (by omega)) (fun i hi => val_residue hbres (by omega))
  refine ⟨product, hrun, hlen, ?_⟩
  intro j hj
  obtain ⟨⟨h0, h1⟩, hval⟩ := hvals j hj
  exact ⟨h0, h1, hval⟩

theorem poly_multiply_small :
    ∃ pws ipws product, init constants2.MOD constants2.W = .ok pws ∧
      init constants2.MOD constants2.IW = .ok ipws ∧
      polyMultiply constants2 pws ipws [5, 2113929216] [7, 3] 1 = .ok product ∧
      val product 0 = 32 ∧ val product 1 = 8 := by
  obtain ⟨pws, ipws, hpws, hipws, hall⟩ :=
    poly_multiply_cyclic constants2 (List.mem_cons_of_mem _ (List.mem_singleton_self _))
  obtain ⟨product, hrun, -, hvals⟩ := hall 1 (by decide) [5, 2113929216] [7, 3] rfl rfl
    (by decide) (by decide)
  refine ⟨pws, ipws, product, hpws, hipws, hrun, ?_, ?_⟩
  · rw [(hvals 0 (by decide)).2.2]
    decide +kernel
  · rw [(hvals 1 (by decide)).2.2]
    decide +kernel

end MaiFaSp.Ntt
