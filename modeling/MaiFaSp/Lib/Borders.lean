import Mathlib.Data.List.Infix
import Mathlib.Data.Nat.Find
import Mathlib.Tactic

/-!
# Prefixes of a pattern at the end of a text

How long a prefix of a pattern a text ends with, and how that changes with one more entry: the
longest such prefix either goes on, or gives way to the next shorter one, which is a border of it.
-/

namespace MaiFaSp.Borders

variable {α : Type*} [DecidableEq α]

/-- The length of the longest prefix of `p` that `t` ends with. -/
def overlap (p t : List α) : ℕ := Nat.findGreatest (fun k => p.take k <:+ t) p.length

/-- The length of the longest prefix of `q`, other than `q`, that `q` ends with. -/
def border (q : List α) : ℕ := overlap q q.tail

variable {p q t u : List α} {c : α} {i j k : ℕ}

theorem overlap_suffix (p t : List α) : p.take (overlap p t) <:+ t :=
  Nat.findGreatest_spec (P := fun k => p.take k <:+ t) (Nat.zero_le _) (by
    rw [List.take_zero]
    exact List.nil_suffix)

theorem overlap_le (p t : List α) : overlap p t ≤ p.length := Nat.findGreatest_le _

theorem le_overlap (hk : k ≤ p.length) (h : p.take k <:+ t) : k ≤ overlap p t :=
  Nat.le_findGreatest hk h

theorem length_take_overlap (p t : List α) : (p.take (overlap p t)).length = overlap p t :=
  List.length_take_of_le (overlap_le p t)

theorem overlap_le_text (p t : List α) : overlap p t ≤ t.length := by
  have hle := (overlap_suffix p t).length_le
  rwa [length_take_overlap] at hle

theorem overlap_nil (p : List α) : overlap p [] = 0 := Nat.le_zero.mp (overlap_le_text p [])

/-- The text ends with the pattern. -/
theorem overlap_eq_length_iff : overlap p t = p.length ↔ p <:+ t := by
  constructor
  · intro h
    have hs := overlap_suffix p t
    rwa [h, List.take_length] at hs
  · intro h
    refine (overlap_le p t).antisymm (le_overlap le_rfl ?_)
    rwa [List.take_length]

/-- A text is no longer than the prefixes of the pattern that matter to it. -/
theorem overlap_take (h : t.length ≤ i) : overlap (p.take i) t = overlap p t := by
  have hmin := List.length_take (i := i) (l := p)
  apply le_antisymm
  · have hle := overlap_le (p.take i) t
    refine le_overlap (by omega) ?_
    have hs := overlap_suffix (p.take i) t
    rwa [List.take_take, min_eq_left (by omega)] at hs
  · have hle := overlap_le p t
    have htext := overlap_le_text p t
    refine le_overlap (by omega) ?_
    rw [List.take_take, min_eq_left (by omega)]
    exact overlap_suffix p t

/-! ### Borders -/

theorem border_lt (h : q ≠ []) : border q < q.length := by
  have hle := overlap_le_text q q.tail
  have hpos := List.length_pos_iff.mpr h
  rw [List.length_tail] at hle
  unfold border
  omega

theorem border_suffix (q : List α) : q.take (border q) <:+ q :=
  (overlap_suffix q q.tail).trans q.tail_suffix

theorem le_border (hk : k < q.length) (h : q.take k <:+ q) : k ≤ border q := by
  have hlen : (q.take k).length ≤ q.tail.length := by
    rw [List.length_take, List.length_tail]
    omega
  exact le_overlap hk.le (List.suffix_of_suffix_length_le h q.tail_suffix hlen)

theorem border_take (p : List α) (i : ℕ) : border (p.take i) = overlap p (p.take i).tail := by
  apply overlap_take
  rw [List.length_tail, List.length_take]
  omega

omit [DecidableEq α] in
/-- The longest prefix of `q`, other than `q`, that `q` ends with is `k` long. -/
structure LongestBorder (q : List α) (k : ℕ) : Prop where
  lt : k < q.length
  suffix : q.take k <:+ q
  longest : ∀ j < q.length, q.take j <:+ q → j ≤ k

theorem longestBorder_border (h : q ≠ []) : LongestBorder q (border q) :=
  ⟨border_lt h, border_suffix q, fun _ => le_border⟩

omit [DecidableEq α] in
/-- Entries that stand for those of another list. -/
theorem LongestBorder.of_map {β : Type*} {f : α → β} (hf : Function.Injective f)
    (h : LongestBorder (q.map f) k) : LongestBorder q k := by
  obtain ⟨hlt, hsuffix, hlongest⟩ := h
  rw [List.length_map] at hlt hlongest
  simp only [← List.map_take, List.suffix_map_iff_of_injective hf] at hsuffix hlongest
  exact ⟨hlt, hsuffix, hlongest⟩

/-! ### One more entry -/

omit [DecidableEq α] in
theorem take_succ_suffix_iff (hk : k < p.length) :
    p.take (k + 1) <:+ t ++ [c] ↔ p.take k <:+ t ∧ p[k]? = some c := by
  rw [List.take_add_one, List.getElem?_eq_getElem hk, Option.toList_some, Option.some_inj]
  constructor
  · rintro ⟨s, hs⟩
    rw [← List.append_assoc] at hs
    obtain ⟨hs, hc⟩ := List.append_inj' hs rfl
    exact ⟨⟨s, hs⟩, List.singleton_inj.mp hc⟩
  · rintro ⟨⟨s, rfl⟩, rfl⟩
    exact ⟨s, (List.append_assoc ..).symm⟩

/-- On the way down from the longest prefix that `t` ends with, `j` is reached before every prefix
that `c` goes on with. -/
structure Reached (p t : List α) (c : α) (j : ℕ) : Prop where
  suffix : p.take j <:+ t
  bound : ∀ k, p.take k <:+ t → p[k]? = some c → k ≤ j

namespace Reached

theorem start (p t : List α) (c : α) : Reached p t c (overlap p t) where
  suffix := overlap_suffix p t
  bound _ hs hc := le_overlap (List.getElem?_eq_some_iff.mp hc).1.le hs

theorem goesOn (h : Reached p t c j) (hc : p[j]? = some c) : overlap p (t ++ [c]) = j + 1 := by
  have hj := (List.getElem?_eq_some_iff.mp hc).1
  refine le_antisymm ?_ (le_overlap hj ((take_succ_suffix_iff hj).mpr ⟨h.suffix, hc⟩))
  have hs := overlap_suffix p (t ++ [c])
  have hle := overlap_le p (t ++ [c])
  cases hk : overlap p (t ++ [c]) with
  | zero => exact Nat.zero_le _
  | succ k =>
    rw [hk] at hs hle
    obtain ⟨hsuffix, hnext⟩ := (take_succ_suffix_iff hle).mp hs
    exact Nat.succ_le_succ (h.bound k hsuffix hnext)

theorem fails (h : Reached p t c 0) (hc : p[0]? ≠ some c) : overlap p (t ++ [c]) = 0 := by
  have hs := overlap_suffix p (t ++ [c])
  have hle := overlap_le p (t ++ [c])
  cases hk : overlap p (t ++ [c]) with
  | zero => rfl
  | succ k =>
    rw [hk] at hs hle
    obtain ⟨hsuffix, hnext⟩ := (take_succ_suffix_iff hle).mp hs
    rw [Nat.le_zero.mp (h.bound k hsuffix hnext)] at hnext
    exact absurd hnext hc

/-- The next shorter prefix is a border of the one at hand. -/
theorem fallsBack (h : Reached p t c j) (hj : 0 < j) (hle : j ≤ p.length) (hc : p[j]? ≠ some c) :
    Reached p t c (border (p.take j)) := by
  have hlen : (p.take j).length = j := List.length_take_of_le hle
  have hne : p.take j ≠ [] := List.length_pos_iff.mp (hj.trans_eq hlen.symm)
  have hlt := border_lt hne
  refine ⟨?_, fun k hs hk => ?_⟩
  · have hb := border_suffix (p.take j)
    rw [List.take_take, min_eq_left (by omega)] at hb
    exact hb.trans h.suffix
  · have hkj := h.bound k hs hk
    have hkne : k ≠ j := fun he => hc (he ▸ hk)
    refine le_border (by omega) ?_
    rw [List.take_take, min_eq_left hkj]
    refine List.suffix_of_suffix_length_le hs h.suffix ?_
    rw [List.length_take, hlen]
    omega

end Reached

end MaiFaSp.Borders
