import MaiFaSp.Lib.Tiling
import Mathlib.Data.Nat.Bitwise

/-!
# Buddy trees

The blocks of a pool of size `2 ^ (k + u)` that is halved again and again. A
tree of level `j` stands for `2 ^ (j + u)` bytes, so that sizes, alignment and
who is whose buddy are in its shape. A context is a tree with a hole.
-/

namespace MaiFaSp

inductive BuddyTree : ℕ → Type
  | leaf {j : ℕ} (request : Option ℕ) : BuddyTree j
  | split {j : ℕ} (l r : BuddyTree j) : BuddyTree (j + 1)

namespace BuddyTree

open Tiling

/-- A block: its level and what the client asked for, if it is occupied. -/
structure Block where
  level : ℕ
  request : Option ℕ

namespace Block

def free (b : Block) : Bool := b.request.isNone

def len (u : ℕ) (b : Block) : ℕ := 2 ^ (b.level + u)

end Block

variable {j k : ℕ}

def blocks : {j : ℕ} → BuddyTree j → List Block
  | j, leaf request => [⟨j, request⟩]
  | _, split l r => blocks l ++ blocks r

/-- The tree is one free block. -/
def free : {j : ℕ} → BuddyTree j → Bool
  | _, leaf request => request.isNone
  | _, split _ _ => false

/-- No two buddies are both free. -/
def Clean : {j : ℕ} → BuddyTree j → Prop
  | _, leaf _ => True
  | _, split l r => ¬ (l.free = true ∧ r.free = true) ∧ l.Clean ∧ r.Clean

theorem span_blocks (u : ℕ) (t : BuddyTree j) : span (Block.len u) t.blocks = 2 ^ (j + u) := by
  induction t with
  | leaf request => simp [blocks, Block.len]
  | @split j l r ihl ihr =>
    rw [blocks, span_append, ihl, ihr, show j + 1 + u = j + u + 1 by omega, pow_succ]
    omega

/-- The first block of a tree. It has the tree's level just when it is the tree. -/
theorem blocks_head (t : BuddyTree j) :
    ∃ b bs, t.blocks = b :: bs ∧ b.level ≤ j ∧
      (b.level = j → b.free = t.free ∧ ∃ request, t = leaf request) := by
  induction t with
  | leaf request => exact ⟨_, [], rfl, le_rfl, fun _ => ⟨rfl, request, rfl⟩⟩
  | split l r ihl ihr =>
    obtain ⟨b, bs, hb, hle, -⟩ := ihl
    exact ⟨b, bs ++ r.blocks, by rw [blocks, hb]; rfl, by omega, fun h => by omega⟩

theorem eq_leaf_of_free {t : BuddyTree j} (h : t.free = true) : t = leaf none := by
  cases t with
  | leaf request => rw [Option.isNone_iff_eq_none.mp h]
  | split l r => cases h

theorem Clean.leaf_of_free {t : BuddyTree j} (hc : t.Clean)
    (hf : ∀ b ∈ t.blocks, b.request = none) : t = leaf none := by
  induction t with
  | leaf request =>
    have hr : request = none := hf _ (List.mem_cons_self ..)
    rw [hr]
  | split l r ihl ihr =>
    have hl := ihl hc.2.1 (fun b hb => hf b (List.mem_append_left _ hb))
    have hr := ihr hc.2.2 (fun b hb => hf b (List.mem_append_right _ hb))
    exact absurd ⟨by rw [hl]; rfl, by rw [hr]; rfl⟩ hc.1

/-! ### Trees with a hole -/

/-- A tree of level `k` around a hole of level `j`. -/
inductive Ctx (k : ℕ) : ℕ → Type
  | top : Ctx k k
  | left {j : ℕ} (r : BuddyTree j) (c : Ctx k (j + 1)) : Ctx k j
  | right {j : ℕ} (l : BuddyTree j) (c : Ctx k (j + 1)) : Ctx k j

namespace Ctx

def fill : {j : ℕ} → Ctx k j → BuddyTree j → BuddyTree k
  | _, top, t => t
  | _, left r c, t => c.fill (split t r)
  | _, right l c, t => c.fill (split l t)

def before : {j : ℕ} → Ctx k j → List Block
  | _, top => []
  | _, left _ c => c.before
  | _, right l c => c.before ++ l.blocks

def after : {j : ℕ} → Ctx k j → List Block
  | _, top => []
  | _, left r c => r.blocks ++ c.after
  | _, right _ c => c.after

/-- The buddy of the hole is one free block. -/
def buddyFree : {j : ℕ} → Ctx k j → Bool
  | _, top => false
  | _, left r _ => r.free
  | _, right l _ => l.free

def Clean : {j : ℕ} → Ctx k j → Prop
  | _, top => True
  | _, left r c => r.Clean ∧ c.Clean
  | _, right l c => l.Clean ∧ c.Clean

theorem level_le (c : Ctx k j) : j ≤ k := by
  induction c with
  | top => exact le_rfl
  | left r c ih => omega
  | right l c ih => omega

theorem blocks_fill (c : Ctx k j) (t : BuddyTree j) :
    (c.fill t).blocks = c.before ++ (t.blocks ++ c.after) := by
  induction c with
  | top => simp [fill, before, after]
  | left r c ih => simp [fill, before, after, ih, blocks]
  | right l c ih => simp [fill, before, after, ih, blocks]

theorem clean_fill (c : Ctx k j) (t : BuddyTree j) :
    (c.fill t).Clean ↔ t.Clean ∧ c.Clean ∧ ¬ (t.free = true ∧ c.buddyFree = true) := by
  induction c with
  | top => simp [fill, Clean, buddyFree]
  | left r c ih =>
    rw [fill, ih]
    show (¬ (t.free = true ∧ r.free = true) ∧ t.Clean ∧ r.Clean) ∧ c.Clean ∧ ¬ (false = true ∧ _) ↔
      t.Clean ∧ (r.Clean ∧ c.Clean) ∧ ¬ (t.free = true ∧ r.free = true)
    simp only [Bool.false_eq_true, false_and, not_false_iff, and_true]
    tauto
  | right l c ih =>
    rw [fill, ih]
    show (¬ (l.free = true ∧ t.free = true) ∧ l.Clean ∧ t.Clean) ∧ c.Clean ∧ ¬ (false = true ∧ _) ↔
      t.Clean ∧ (l.Clean ∧ c.Clean) ∧ ¬ (t.free = true ∧ l.free = true)
    simp only [Bool.false_eq_true, false_and, not_false_iff, and_true]
    tauto

/-- Every block of a tree is the leaf in some context. -/
theorem exists_hole {t : BuddyTree j} (c : Ctx k j) {pre post : List Block} {b : Block}
    (h : t.blocks = pre ++ b :: post) :
    ∃ c' : Ctx k b.level, c'.fill (leaf b.request) = c.fill t ∧
      c'.before = c.before ++ pre ∧ c'.after = post ++ c.after := by
  induction t generalizing pre post with
  | leaf request =>
    cases pre with
    | nil =>
      cases h
      exact ⟨c, rfl, (List.append_nil _).symm, rfl⟩
    | cons d pre => simp [blocks] at h
  | split l r ihl ihr =>
    rw [blocks] at h
    rcases List.append_eq_append_iff.mp h with ⟨as, hpre, hr⟩ | ⟨cs, hl, hpost⟩
    · obtain ⟨c', hf, hb, ha⟩ := ihr (right l c) hr
      exact ⟨c', hf, by rw [hb, hpre, before, List.append_assoc], ha⟩
    · cases cs with
      | nil =>
        have hr : r.blocks = [] ++ b :: post := hpost.symm
        obtain ⟨c', hf, hb, ha⟩ := ihr (right l c) hr
        refine ⟨c', hf, ?_, ha⟩
        rw [hb, before, hl]
        simp
      | cons d cs =>
        rw [List.cons_append, List.cons.injEq] at hpost
        obtain ⟨rfl, rfl⟩ := hpost
        obtain ⟨c', hf, hb, ha⟩ := ihl (left r c) hl
        exact ⟨c', hf, hb, by rw [ha, after, List.append_assoc]⟩

/-- The hole starts at a multiple of its size. -/
theorem offset_dvd (u : ℕ) (c : Ctx k j) : 2 ^ (j + u) ∣ span (Block.len u) c.before := by
  induction c with
  | top => exact dvd_zero _
  | @left j r c ih => exact (pow_dvd_pow 2 (by omega)).trans ih
  | @right j l c ih =>
    rw [before, span_append, span_blocks]
    exact ((pow_dvd_pow 2 (by omega)).trans ih).add dvd_rfl

end Ctx

/-- A block starts at a multiple of its size. -/
theorem block_dvd (u : ℕ) {t : BuddyTree k} {x : ℕ} {b : Block}
    (h : (x, b) ∈ placed (Block.len u) 0 t.blocks) : b.len u ∣ x := by
  obtain ⟨pre, post, hbs, hx⟩ := (mem_placed_iff _).mp h
  obtain ⟨c, -, hb, -⟩ := Ctx.exists_hole Ctx.top hbs
  have hd := c.offset_dvd u
  rw [hb] at hd
  rw [hx, Nat.zero_add]
  exact hd

/-! ### Buddies by exclusive or -/

theorem xor_two_pow_of_dvd {x j : ℕ} (h : 2 ^ (j + 1) ∣ x) : x ^^^ 2 ^ j = x + 2 ^ j := by
  obtain ⟨q, rfl⟩ := h
  have hlt : 2 ^ j < 2 ^ (j + 1) := Nat.pow_lt_pow_right (by decide) (Nat.lt_succ_self j)
  have hx := Nat.testBit_two_pow_mul_add (i := j + 1) q hlt
  apply Nat.eq_of_testBit_eq
  intro i
  rw [hx i, Nat.testBit_xor, Nat.testBit_two_pow_mul]
  by_cases hi : i < j + 1
  · simp [hi, Nat.not_le.mpr hi]
  · have hne : ¬ j = i := by omega
    simp [hi, hne, Nat.not_lt.mp hi]

theorem add_xor_two_pow_of_dvd {x j : ℕ} (h : 2 ^ (j + 1) ∣ x) : (x + 2 ^ j) ^^^ 2 ^ j = x := by
  rw [← xor_two_pow_of_dvd h, Nat.xor_assoc, Nat.xor_self, Nat.xor_zero]

end BuddyTree

end MaiFaSp
