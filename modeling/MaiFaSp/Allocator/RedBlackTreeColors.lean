import MaiFaSp.Allocator.RedBlackTreeRuns

/-!
# `allocator_red_black_tree`: the colours

`rb_tree_insert` keeps a red-black tree. `rb_tree_remove` keeps one just where the node that
leaves its place is red or has a child, or is the only one: for a black leaf the loop of
the fix-up starts at null, which has no parent, and ends at once.
-/

namespace MaiFaSp.RedBlackAllocator

open Tiling LinkedTree BinTree RedBlack Tile

variable {σ : Type} [HeaderMemory σ] {g : ℕ} {Within : σ → σ → ℕ → ℕ → Prop}
  {s s' : RedBlackAllocator σ} {c c' : Client (RedBlackAllocator σ)} {trusted n : ℕ}

/-- `rb_tree_remove` takes `z` out of the tree and keeps the properties. -/
def RemovesNode (s : RedBlackAllocator σ) (t : BinTree Color) (z : ℕ) : Prop :=
  ∃ s' t', rbTreeRemove s z = .ok s' ∧ IsTree (heap s') t' ∧ t'.nodes = t.nodes.erase z ∧ RedBlack t'

/-- A call whose removals keep the properties and whose new blocks have room for the header of a
free block, or a step without a call. -/
inductive ColoredStep (g : ℕ) :
    Client (RedBlackAllocator σ) → Client (RedBlackAllocator σ) → Prop
  | allocate {s s' live size p}
      (hroom : g ≤ blockMetadataSize + size ∨
        ∀ b, getFreeBlock s size = .ok b → ¬ canSplit s b size)
      (hleaves : AllocateLeaves s size) (h : allocate s size = .ok (p, s')) :
      ColoredStep g ⟨s, live⟩ ⟨s', (p, size) :: live⟩
  | deallocate {s s' live size p} (hlive : (p, size) ∈ live) (hleaves : DeallocateLeaves s p)
      (h : deallocate s p = .ok s') : ColoredStep g ⟨s, live⟩ ⟨s', live.erase (p, size)⟩
  | setMode {s live} (mode : FitMode) : ColoredStep g ⟨s, live⟩ ⟨{ s with fitMode := mode }, live⟩
  | write {s live size p a} (v : UInt8) (hlive : (p, size) ∈ live) (hw : p ≤ a ∧ a < p + size) :
      ColoredStep g ⟨s, live⟩ ⟨{ s with memory := HeaderMemory.write s.memory a v }, live⟩

/-- The pool stands for its tiles, and the tree of its free blocks is red-black. -/
structure KeptColored (g trusted n : ℕ) (c : Client (RedBlackAllocator σ)) : Prop where
  kept : Kept g trusted n c.state c.live
  colored : Colored c.state

theorem removesNode_iff (hL : LawfulHeaders σ g Within) {t : BinTree Color} {z : ℕ}
    (ht : IsTree (heap s) t) (hrb : RedBlack t) (hs : Spaced g s t.nodes) (hz : z ∈ t.nodes) :
    RemovesNode s t z ↔ Removable t z := by
  obtain ⟨s₁, t₁, hok, ht₁, hnodes, hiff⟩ := rbTreeRemove_tree hL ht hrb hs hz
  rw [← hiff]
  constructor
  · rintro ⟨s', t', hok', ht', -, hrb'⟩
    obtain rfl : s₁ = s' := Except.ok.inj (hok.symm.trans hok')
    rwa [ht₁.unique ht']
  · intro hrb₁
    exact ⟨s₁, t₁, hok, ht₁, hnodes, hrb₁⟩

theorem coloredStep_kept (hL : LawfulHeaders σ g Within) (hstep : ColoredStep g c c')
    (h : KeptColored g trusted n c) : KeptColored g trusted n c' := by
  obtain ⟨hkept, hcolored⟩ := h
  cases hstep with
  | @allocate s s' live size p hroom hleaves hok =>
    have hroom' (b : ℕ) (hb : getFreeBlock s size = .ok b) (hcan : canSplit s b size) :
        g ≤ blockMetadataSize + size := hroom.resolve_right fun hnever => hnever b hb hcan
    refine ⟨hkept.allocate hL hroom' hok, ?_⟩
    obtain ⟨-, -, ts, hpool, -⟩ := hkept
    obtain ⟨-, -, -, -, -, -, -, -, -, -, -, hkeeps⟩ := allocate_spec hL hpool hroom' hok
    exact hkeeps hcolored hleaves
  | @deallocate s s' live size p hlive hleaves hok =>
    refine ⟨hkept.deallocate hL hlive hok, ?_⟩
    obtain ⟨-, -, ts, hpool, hperm⟩ := hkept
    obtain ⟨pre, t, post, rfl, hr, rfl⟩ :=
      mem_grants len request blockMetadataSize (hperm.mem_iff.mp hlive)
    obtain ⟨-, -, -, -, -, -, hkeeps⟩ :=
      deallocate_spec hL hpool (t.held_iff.mpr ⟨size, hr⟩) hok
    exact hkeeps hcolored hleaves
  | setMode mode => exact ⟨hkept.setMode mode, hcolored⟩
  | @write s live size p a v hlive hw =>
    refine ⟨hkept.write hL hlive v hw, ?_⟩
    obtain ⟨-, -, ts, hpool, hperm⟩ := hkept
    obtain ⟨pre, t, post, rfl, hr, rfl⟩ :=
      mem_grants len request blockMetadataSize (hperm.mem_iff.mp hlive)
    have hfit := t.fits _ hr
    obtain ⟨-, hkeeps⟩ :=
      hpool.write hL (t.held_iff.mpr ⟨_, hr⟩) v hw.1 (hw.2.trans_le (by omega))
    exact hkeeps hcolored

theorem Pool.only_leaves {ts : List Tile} {x : ℕ} (h : Pool g s ts)
    (hone : freeAddresses (base s) ts = [x]) (size : ℕ) : AllocateLeaves s size := by
  obtain ⟨xs, htree, hperm⟩ := h.tree
  rw [hone, List.perm_singleton] at hperm
  subst hperm
  intro b hb hb0
  obtain ⟨hm, -⟩ := (getFreeBlock_suits htree.inOrder hb).resolve_left hb0
  obtain ⟨t, ht, hnodes⟩ := htree.inOrder
  rw [List.mem_singleton.mp hm]
  exact ⟨t, ht, .inl hnodes⟩

theorem colored_run (hL : LawfulHeaders σ g Within)
    (hr : Relation.ReflTransGen (ColoredStep g) c c') (h : KeptColored g trusted n c) :
    KeptColored g trusted n c' := by
  induction hr with
  | refl => exact h
  | tail _ hs ih => exact coloredStep_kept hL hs ih

/-- `rb_tree_remove` does what it should just to the nodes that are removable. In every run whose
removals take out such nodes only, and whose blocks have room for their headers, the tree is
red-black. -/
theorem red_black_kept (hL : LawfulHeaders σ g Within) :
    (∀ (s : RedBlackAllocator σ) (t : BinTree Color) (z : ℕ), IsTree (heap s) t → RedBlack t →
      Spaced g s t.nodes → z ∈ t.nodes → (RemovesNode s t z ↔ Removable t z)) ∧
    ∀ (trusted n : ℕ) (mode : FitMode) (m : σ) (fresh : RedBlackAllocator σ)
      (c : Client (RedBlackAllocator σ)), 0 < trusted → trusted + n + 80 < 2 ^ 64 → g ≤ n →
      construct trusted n mode m = .ok fresh →
      Relation.ReflTransGen (ColoredStep g) ⟨fresh, []⟩ c → Colored c.state := by
  refine ⟨fun s t z ht hrb hs hz => removesNode_iff hL ht hrb hs hz, ?_⟩
  intro trusted n mode m fresh c ht hregion hn hc hr
  obtain ⟨hpool, htrusted, hsize, hcolored⟩ := construct_pool hL ht hregion hn hc
  have hfresh : KeptColored g trusted n (⟨fresh, []⟩ : Client (RedBlackAllocator σ)) :=
    ⟨⟨htrusted, hsize, _, hpool, by rw [grants_cons_none len request _ rfl, grants_nil]⟩, hcolored⟩
  exact (colored_run hL hr hfresh).colored

/-! ### A pool with four free blocks -/

/-- The headers after blocks of 100, 150 and 200 bytes were returned to a pool of 2000 bytes that
keeps a block of 16 bytes behind each of them. -/
def fourFree : RedBlackAllocator Records :=
  ⟨4096, .theBestFit, 2000, 4342, fun x =>
    if x = 4176 then ⟨false, 0, 4301, ⟨0, 0, 4342, .black⟩⟩
    else if x = 4301 then ⟨true, 4176, 4342, ⟨0, 0, 4096, .black⟩⟩
    else if x = 4342 then ⟨false, 4301, 4517, ⟨4176, 4824, 0, .black⟩⟩
    else if x = 4517 then ⟨true, 4342, 4558, ⟨0, 0, 4096, .black⟩⟩
    else if x = 4558 then ⟨false, 4517, 4783, ⟨0, 0, 4824, .red⟩⟩
    else if x = 4783 then ⟨true, 4558, 4824, ⟨0, 0, 4096, .black⟩⟩
    else ⟨false, 4783, 0, ⟨4558, 0, 4342, .black⟩⟩⟩

def fourTree : BinTree Color :=
  node (node nil 4176 .black nil) 4342 .black (node (node nil 4558 .red nil) 4824 .black nil)

theorem fourTree_isTree : IsTree (heap fourFree) fourTree where
  root := rfl
  holds := by
    refine ⟨by decide, rfl, ⟨by decide, rfl, trivial, trivial⟩, ⟨by decide, rfl, ?_, trivial⟩⟩
    exact ⟨by decide, rfl, trivial, trivial⟩
  nodup := by decide

theorem fourTree_redBlack : RedBlack fourTree :=
  ⟨2, .black (.black .nil .nil) (.black (.red .nil .nil) .nil)⟩

theorem fourTree_spaced : Spaced blockMetadataSize fourFree fourTree.nodes where
  apart := by
    unfold Apart
    decide
  lt := by decide
  few := by decide

/-- A red leaf is removed as it should be. So is the only free block when a client takes it. -/
theorem red_black_kept_four :
    RemovesNode fourFree fourTree 4558 ∧
      ∃ s p s', construct 4096 300 .firstFit emptyRecords = .ok s ∧ s.allocate 16 = .ok (p, s') ∧
        Colored s' := by
  obtain ⟨hremoves, hruns⟩ := red_black_kept Records.lawful
  refine ⟨?_, ?_⟩
  · exact (hremoves fourFree fourTree 4558 fourTree_isTree fourTree_redBlack fourTree_spaced
      (by decide)).mpr (by decide)
  · have hok : (do
        let s ← construct 4096 300 .firstFit emptyRecords
        allocate s 16).isOk = true := by decide +kernel
    cases h : (do
        let s ← construct 4096 300 .firstFit emptyRecords
        allocate s 16) with
    | error e =>
      rw [h] at hok
      cases hok
    | ok r =>
      obtain ⟨s, hc, ha⟩ := bind_eq_ok.mp h
      obtain ⟨hpool, -⟩ := construct_pool Records.lawful (by decide) (by decide) (by decide) hc
      have hleaves : AllocateLeaves s 16 := hpool.only_leaves rfl 16
      have hrun : Relation.ReflTransGen (ColoredStep blockMetadataSize) ⟨s, []⟩ ⟨r.2, [(r.1, 16)]⟩ :=
        .single (.allocate (Or.inl (by decide)) hleaves ha)
      exact ⟨s, r.1, r.2, hc, ha, hruns 4096 300 .firstFit emptyRecords s _ (by decide) (by decide)
        (by decide) hc hrun⟩

/-- A client asks for 100 bytes. The black leaf that fits is taken out, and the paths through its
place are one black node short. -/
theorem black_leaf_lost :
    IsTree (heap fourFree) fourTree ∧ RedBlack fourTree ∧ 4176 ∈ fourTree.nodes ∧
      getFreeBlock fourFree 100 = .ok 4176 ∧ ¬ RemovesNode fourFree fourTree 4176 := by
  have hmem : 4176 ∈ fourTree.nodes := by decide
  refine ⟨fourTree_isTree, fourTree_redBlack, hmem, by decide +kernel, ?_⟩
  rw [removesNode_iff Records.lawful fourTree_isTree fourTree_redBlack fourTree_spaced hmem]
  decide

end MaiFaSp.RedBlackAllocator
