import MaiFaSp.Allocator.RedBlackTree

/-!
# The two memories of `allocator_red_black_tree`

Headers as records, which nothing but their own setters changes, and headers in bytes,
where a store to one header changes what another says if they overlap. Both meet one
list of laws, in which `g` is the room that the header of a free block takes: a byte
memory needs 41, and for records the 25 of every block are enough.
-/

namespace MaiFaSp.RedBlackAllocator

open Memory LinkedTree

/-- The fields that every block has. -/
structure Listed (h h' : Header) : Prop where
  occupied : h'.occupied = h.occupied
  back : h'.back = h.back
  forward : h'.forward = h.forward
  parent : h'.node.parent = h.node.parent

/-- The pointers of a node are addresses. -/
structure Addresses (c : Cell Color) : Prop where
  left : c.left < 2 ^ 64
  right : c.right < 2 ^ 64
  parent : c.parent < 2 ^ 64

open HeaderMemory (get)

/-- What the proofs use of a memory. `Within m m' lo hi` says that `m'` differs from `m` from `lo` up
to `hi` at most. -/
structure LawfulHeaders (σ : Type) [HeaderMemory σ] (g : ℕ) (Within : σ → σ → ℕ → ℕ → Prop) :
    Prop where
  room : blockMetadataSize ≤ g
  roomy : g ≤ freeBlockMetadataSize
  get_eq : ∀ {m m' : σ} {lo hi y : ℕ}, Within m m' lo hi → hi ≤ y ∨ y + g ≤ lo → get m' y = get m y
  listed : ∀ {m m' : σ} {lo hi y : ℕ}, Within m m' lo hi → hi ≤ y ∨ y + blockMetadataSize ≤ lo →
    Listed (get m y) (get m' y)
  within_setOccupied : ∀ (m : σ) (x : ℕ) (v : Bool),
    Within m (HeaderMemory.setOccupied m x v) x (x + blockMetadataSize)
  within_setBack : ∀ (m : σ) (x v : ℕ), Within m (HeaderMemory.setBack m x v) x (x + blockMetadataSize)
  within_setForward : ∀ (m : σ) (x v : ℕ),
    Within m (HeaderMemory.setForward m x v) x (x + blockMetadataSize)
  within_setParent : ∀ (m : σ) (x v : ℕ),
    Within m (HeaderMemory.setParent m x v) x (x + blockMetadataSize)
  within_setNode : ∀ (m : σ) (x : ℕ) (c : Cell Color), Within m (HeaderMemory.setNode m x c) x (x + g)
  within_write : ∀ (m : σ) (a : ℕ) (v : UInt8), Within m (HeaderMemory.write m a v) a (a + 1)
  get_setOccupied : ∀ (m : σ) (x : ℕ) (v : Bool),
    get (HeaderMemory.setOccupied m x v) x = { get m x with occupied := v }
  get_setBack : ∀ (m : σ) (x : ℕ) {v : ℕ}, v < 2 ^ 64 →
    get (HeaderMemory.setBack m x v) x = { get m x with back := v }
  get_setForward : ∀ (m : σ) (x : ℕ) {v : ℕ}, v < 2 ^ 64 →
    get (HeaderMemory.setForward m x v) x = { get m x with forward := v }
  get_setParent : ∀ (m : σ) (x : ℕ) {v : ℕ}, v < 2 ^ 64 →
    get (HeaderMemory.setParent m x v) x = { get m x with node := (get m x).node.setParent v }
  get_setNode : ∀ (m : σ) (x : ℕ) {c : Cell Color}, Addresses c →
    get (HeaderMemory.setNode m x c) x = { get m x with node := c }
  parent_setNode : ∀ (m : σ) (x : ℕ) {c : Cell Color}, c.parent < 2 ^ 64 →
    (get (HeaderMemory.setNode m x c) x).node.parent = c.parent
  setNode_links : ∀ (m : σ) (x : ℕ) (c : Cell Color),
    (get (HeaderMemory.setNode m x c) x).occupied = (get m x).occupied ∧
    (get (HeaderMemory.setNode m x c) x).back = (get m x).back ∧
    (get (HeaderMemory.setNode m x c) x).forward = (get m x).forward

/-- Every write between the two memories lies in the room of a header at one of `xs`. -/
inductive Scattered {σ : Type} (g : ℕ) (Within : σ → σ → ℕ → ℕ → Prop) (xs : List ℕ) : σ → σ → Prop
  | refl (m : σ) : Scattered g Within xs m m
  | tail {m m' m'' : σ} {x hi : ℕ} (h : Scattered g Within xs m m') (hx : x ∈ xs)
      (hw : Within m' m'' x hi) (hhi : hi ≤ x + g) : Scattered g Within xs m m''

/-- The headers of two free blocks do not overlap. -/
def Apart (g x y : ℕ) : Prop := x + g ≤ y ∨ y + g ≤ x

theorem Apart.symm {g x y : ℕ} (h : Apart g x y) : Apart g y x := Or.symm h

namespace Scattered

variable {σ : Type} {g : ℕ} {Within : σ → σ → ℕ → ℕ → Prop} {xs ys : List ℕ} {m m' m'' : σ}

theorem one {x hi : ℕ} (hx : x ∈ xs) (hw : Within m m' x hi) (hhi : hi ≤ x + g) :
    Scattered g Within xs m m' := .tail (.refl m) hx hw hhi

theorem trans (h : Scattered g Within xs m m') (h' : Scattered g Within xs m' m'') :
    Scattered g Within xs m m'' := by
  induction h' with
  | refl => exact h
  | tail _ hx hw hhi ih => exact .tail ih hx hw hhi

theorem mono (h : Scattered g Within xs m m') (hsub : ∀ x ∈ xs, x ∈ ys) :
    Scattered g Within ys m m' := by
  induction h with
  | refl => exact .refl _
  | tail _ hx hw hhi ih => exact .tail ih (hsub _ hx) hw hhi

theorem get_eq [HeaderMemory σ] (hL : LawfulHeaders σ g Within) (h : Scattered g Within xs m m')
    {y : ℕ} (hy : ∀ x ∈ xs, Apart g x y) : get m' y = get m y := by
  induction h with
  | refl => rfl
  | tail _ hx hw hhi ih =>
    have hapart := hy _ hx
    unfold Apart at hapart
    exact (hL.get_eq hw (by omega)).trans ih

end Scattered

/-! ### Records -/

abbrev Records := ℕ → Header

namespace Records

/-- One record changes. -/
def update (m : Records) (x : ℕ) (f : Header → Header) : Records :=
  fun y => if y = x then f (m y) else m y

instance : HeaderMemory Records where
  get m x := m x
  setOccupied m x v := update m x fun h => { h with occupied := v }
  setBack m x v := update m x fun h => { h with back := v }
  setForward m x v := update m x fun h => { h with forward := v }
  setParent m x v := update m x fun h => { h with node := h.node.setParent v }
  setNode m x c := update m x fun h => { h with node := c }
  -- the records are apart from what the clients have
  write m _ _ := m

def Within (m m' : Records) (lo hi : ℕ) : Prop := ∀ y, y < lo ∨ hi ≤ y → m' y = m y

theorem within_update (m : Records) (x k : ℕ) (f : Header → Header) (hk : 0 < k) :
    Within m (update m x f) x (x + k) := by
  intro y hy
  exact if_neg (by omega)

theorem update_self (m : Records) (x : ℕ) (f : Header → Header) : update m x f x = f (m x) :=
  if_pos rfl

theorem lawful : LawfulHeaders Records blockMetadataSize Within where
  room := le_refl _
  roomy := by decide
  get_eq hw hy := hw _ (by unfold blockMetadataSize at hy; omega)
  listed := by
    intro m m' lo hi y hw hy
    have he := hw y (by unfold blockMetadataSize at hy; omega)
    show Listed (m y) (m' y)
    rw [he]
    exact ⟨rfl, rfl, rfl, rfl⟩
  within_setOccupied m x v := within_update m x _ _ (by decide)
  within_setBack m x v := within_update m x _ _ (by decide)
  within_setForward m x v := within_update m x _ _ (by decide)
  within_setParent m x v := within_update m x _ _ (by decide)
  within_setNode m x c := within_update m x _ _ (by decide)
  within_write m a v := fun _ _ => rfl
  get_setOccupied m x v := update_self m x _
  get_setBack m x _ _ := update_self m x _
  get_setForward m x _ _ := update_self m x _
  get_setParent m x _ _ := update_self m x _
  get_setNode m x _ _ := update_self m x _
  parent_setNode m x c _ := congrArg (fun h => h.node.parent) (update_self m x fun h => { h with node := c })
  setNode_links m x c := by
    have he : get (HeaderMemory.setNode m x c) x = { get m x with node := c } := update_self m x _
    rw [he]
    exact ⟨rfl, rfl, rfl⟩

end Records

/-! ### Bytes -/

namespace Bytes

/-- The flag is in the lower half of the first byte, the colour in the upper one. -/
def setFlag (m : Memory) (x : ℕ) (v : Bool) : Memory :=
  Function.update m x (UInt8.ofNat ((m x).toNat / 16 * 16 + if v then 1 else 0))

def setColor (m : Memory) (x : ℕ) (v : Color) : Memory :=
  Function.update m x (UInt8.ofNat ((m x).toNat % 16 + if v = .red then 0 else 16))

instance : HeaderMemory Memory where
  get m x := {
    occupied := (m x).toNat % 16 ≠ 0
    back := load64 m (x + 1)
    forward := load64 m (x + 9)
    node := ⟨load64 m (x + 25), load64 m (x + 33), load64 m (x + 17),
      if (m x).toNat / 16 = 0 then .red else .black⟩ }
  setOccupied := setFlag
  setBack m x v := store64 m (x + 1) v
  setForward m x v := store64 m (x + 9) v
  setParent m x v := store64 m (x + 17) v
  setNode m x c :=
    store64 (store64 (store64 (setColor m x c.data) (x + 17) c.parent) (x + 25) c.left) (x + 33) c.right
  write m a v := Function.update m a v

def Within (m m' : Memory) (lo hi : ℕ) : Prop := ∀ y, y < lo ∨ hi ≤ y → m' y = m y

theorem Within.agreeOn {m m' : Memory} {lo hi a k : ℕ} (hw : Within m m' lo hi)
    (ha : hi ≤ a ∨ a + k ≤ lo) : AgreeOn m' m a (a + k) := fun y _ _ => hw y (by omega)

theorem Within.trans {m m' m'' : Memory} {lo hi : ℕ} (hw : Within m m' lo hi)
    (hw' : Within m' m'' lo hi) : Within m m'' lo hi := fun y hy => (hw' y hy).trans (hw y hy)

theorem within_store64 (m : Memory) (a v lo hi : ℕ) (h : lo ≤ a ∧ a + 8 ≤ hi) :
    Within m (store64 m a v) lo hi := fun y hy => storeBytes_frame m a 8 v y (by omega)

theorem within_update (m : Memory) (a : ℕ) (v : UInt8) (lo hi : ℕ) (h : lo ≤ a ∧ a < hi) :
    Within m (Function.update m a v) lo hi := fun y hy => Function.update_of_ne (by omega) _ _

theorem listed_of_agreeOn {m m' : Memory} {y : ℕ} (h : AgreeOn m' m y (y + 25)) :
    Listed (get m y) (get m' y) where
  occupied := by
    show decide ((m' y).toNat % 16 ≠ 0) = decide ((m y).toNat % 16 ≠ 0)
    rw [h y (by omega) (by omega)]
  back := load64_congr (h.mono (by omega) (by omega))
  forward := load64_congr (h.mono (by omega) (by omega))
  parent := load64_congr (h.mono (by omega) (by omega))

theorem get_of_agreeOn {m m' : Memory} {y : ℕ} (h : AgreeOn m' m y (y + 41)) :
    get m' y = get m y := by
  have hl := listed_of_agreeOn (h.mono (Nat.le_refl y) (by omega))
  have hleft : load64 m' (y + 25) = load64 m (y + 25) := load64_congr (h.mono (by omega) (by omega))
  have hright : load64 m' (y + 33) = load64 m (y + 33) := load64_congr (h.mono (by omega) (by omega))
  have hbyte : m' y = m y := h y (by omega) (by omega)
  have hparent : load64 m' (y + 17) = load64 m (y + 17) := hl.parent
  have hnode : (get m' y).node = (get m y).node := by
    show Cell.mk _ _ _ _ = Cell.mk _ _ _ _
    rw [hleft, hright, hparent, hbyte]
  calc get m' y = ⟨(get m' y).occupied, (get m' y).back, (get m' y).forward, (get m' y).node⟩ := rfl
    _ = ⟨(get m y).occupied, (get m y).back, (get m y).forward, (get m y).node⟩ := by
      rw [hl.occupied, hl.back, hl.forward, hnode]
    _ = get m y := rfl

theorem get_mk {m : Memory} {x b f l r p : ℕ} {o : Bool} {d : Color}
    (ho : decide ((m x).toNat % 16 ≠ 0) = o) (hd : (if (m x).toNat / 16 = 0 then .red else .black) = d)
    (hb : load64 m (x + 1) = b) (hf : load64 m (x + 9) = f) (hp : load64 m (x + 17) = p)
    (hl : load64 m (x + 25) = l) (hr : load64 m (x + 33) = r) :
    get m x = ⟨o, b, f, ⟨l, r, p, d⟩⟩ := by
  rw [← ho, ← hd, ← hb, ← hf, ← hp, ← hl, ← hr]
  rfl

theorem store64_first (m : Memory) (x k v : ℕ) (hk : 0 < k) : store64 m (x + k) v x = m x :=
  storeBytes_frame m (x + k) 8 v x (by omega)

theorem load64_update (m : Memory) (x k : ℕ) (v : UInt8) (hk : 0 < k) :
    load64 (Function.update m x v) (x + k) = load64 m (x + k) :=
  load64_congr (agreeOn_update m x v _ _ (by omega))

theorem lower_nibble (b : UInt8) (v : Bool) :
    (UInt8.ofNat (b.toNat / 16 * 16 + if v then 1 else 0)).toNat =
      b.toNat / 16 * 16 + if v then 1 else 0 := by
  have hb := b.toNat_lt
  rw [UInt8.toNat_ofNat']
  apply Nat.mod_eq_of_lt
  split <;> omega

theorem upper_nibble (b : UInt8) (v : Color) :
    (UInt8.ofNat (b.toNat % 16 + if v = .red then 0 else 16)).toNat =
      b.toNat % 16 + if v = .red then 0 else 16 := by
  rw [UInt8.toNat_ofNat']
  apply Nat.mod_eq_of_lt
  split <;> omega

theorem get_setFlag (m : Memory) (x : ℕ) (v : Bool) :
    get (setFlag m x v) x = { get m x with occupied := v } := by
  have hbyte : (setFlag m x v x).toNat = (m x).toNat / 16 * 16 + if v then 1 else 0 := by
    rw [setFlag, Function.update_self, lower_nibble]
  apply get_mk
  · rw [hbyte]
    cases v <;> simp
  · rw [hbyte]
    have hdiv : ((m x).toNat / 16 * 16 + if v then 1 else 0) / 16 = (m x).toNat / 16 := by
      split <;> omega
    rw [hdiv]
  · exact load64_update m x 1 _ (by decide)
  · exact load64_update m x 9 _ (by decide)
  · exact load64_update m x 17 _ (by decide)
  · exact load64_update m x 25 _ (by decide)
  · exact load64_update m x 33 _ (by decide)

/-- The words of a header below the parent, and its first byte, after a node was written. -/
theorem setNode_parts (m : Memory) (x : ℕ) (c : Cell Color) :
    (HeaderMemory.setNode m x c x).toNat = (m x).toNat % 16 + (if c.data = .red then 0 else 16) ∧
      load64 (HeaderMemory.setNode m x c) (x + 1) = load64 m (x + 1) ∧
      load64 (HeaderMemory.setNode m x c) (x + 9) = load64 m (x + 9) := by
  have hbyte : (setColor m x c.data x).toNat = (m x).toNat % 16 + if c.data = .red then 0 else 16 := by
    rw [setColor, Function.update_self, upper_nibble]
  have hkeep (k : ℕ) (hk : 0 < k) (hk' : k + 8 ≤ 17) :
      load64 (HeaderMemory.setNode m x c) (x + k) = load64 m (x + k) := by
    show load64 (store64 (store64 (store64 _ _ _) _ _) _ _) _ = _
    rw [load64_store64_of_disjoint _ _ _ _ (by omega), load64_store64_of_disjoint _ _ _ _ (by omega),
      load64_store64_of_disjoint _ _ _ _ (by omega)]
    exact load64_update m x k _ hk
  have hfirst : HeaderMemory.setNode m x c x = setColor m x c.data x := by
    show store64 (store64 (store64 _ _ _) _ _) _ _ x = _
    rw [store64_first _ _ _ _ (by decide), store64_first _ _ _ _ (by decide),
      store64_first _ _ _ _ (by decide)]
  rw [hfirst]
  exact ⟨hbyte, hkeep 1 (by decide) (by decide), hkeep 9 (by decide) (by decide)⟩

theorem setNode_links (m : Memory) (x : ℕ) (c : Cell Color) :
    (get (HeaderMemory.setNode m x c) x).occupied = (get m x).occupied ∧
      (get (HeaderMemory.setNode m x c) x).back = (get m x).back ∧
      (get (HeaderMemory.setNode m x c) x).forward = (get m x).forward := by
  obtain ⟨hbyte, hback, hforward⟩ := setNode_parts m x c
  refine ⟨?_, hback, hforward⟩
  show decide ((HeaderMemory.setNode m x c x).toNat % 16 ≠ 0) = decide ((m x).toNat % 16 ≠ 0)
  have hmod : ((m x).toNat % 16 + if c.data = .red then 0 else 16) % 16 = (m x).toNat % 16 := by
    split <;> omega
  rw [hbyte, hmod]

theorem parent_setNode (m : Memory) (x : ℕ) {c : Cell Color} (hc : c.parent < 2 ^ 64) :
    (get (HeaderMemory.setNode m x c) x).node.parent = c.parent := by
  show load64 (store64 (store64 (store64 _ _ _) _ _) _ _) _ = _
  rw [load64_store64_of_disjoint _ _ _ _ (by omega), load64_store64_of_disjoint _ _ _ _ (by omega)]
  exact load64_store64 _ _ _ hc

theorem get_setNode (m : Memory) (x : ℕ) {c : Cell Color} (hc : Addresses c) :
    get (HeaderMemory.setNode m x c) x = { get m x with node := c } := by
  obtain ⟨hbyte, hback, hforward⟩ := setNode_parts m x c
  apply get_mk
  · exact (setNode_links m x c).1
  · rw [hbyte]
    cases hd : c.data with
    | red => exact if_pos (by rw [if_pos rfl]; omega)
    | black => exact if_neg (by rw [if_neg (show ¬ Color.black = Color.red by decide)]; omega)
  · exact hback
  · exact hforward
  · exact parent_setNode m x hc.parent
  · show load64 (store64 (store64 _ _ _) _ _) _ = _
    rw [load64_store64_of_disjoint _ _ _ _ (by omega)]
    exact load64_store64 _ _ _ hc.left
  · exact load64_store64 _ _ _ hc.right

theorem get_store64 (m : Memory) (x k v : ℕ) (hk : 0 < k) (hv : v < 2 ^ 64)
    (hwords : ∀ j, j = 1 ∨ j = 9 ∨ j = 17 ∨ j = 25 ∨ j = 33 → j = k ∨ j + 8 ≤ k ∨ k + 8 ≤ j) :
    get (store64 m (x + k) v) x = ⟨(get m x).occupied, if 1 = k then v else (get m x).back,
      if 9 = k then v else (get m x).forward, if 25 = k then v else (get m x).node.left,
      if 33 = k then v else (get m x).node.right, if 17 = k then v else (get m x).node.parent,
      (get m x).node.data⟩ := by
  have hword (j : ℕ) (hj : j = 1 ∨ j = 9 ∨ j = 17 ∨ j = 25 ∨ j = 33) :
      load64 (store64 m (x + k) v) (x + j) = if j = k then v else load64 m (x + j) := by
    by_cases hjk : j = k
    · rw [if_pos hjk, hjk]
      exact load64_store64 m _ v hv
    · rw [if_neg hjk]
      exact load64_store64_of_disjoint m _ _ v (by have := hwords j hj; omega)
  have hfirst := store64_first m x k v hk
  apply get_mk
  · rw [hfirst]
    rfl
  · rw [hfirst]
    rfl
  · exact hword 1 (by omega)
  · exact hword 9 (by omega)
  · exact hword 17 (by omega)
  · exact hword 25 (by omega)
  · exact hword 33 (by omega)

theorem lawful : LawfulHeaders Memory freeBlockMetadataSize Within where
  room := by decide
  roomy := le_refl _
  get_eq hw hy := get_of_agreeOn (hw.agreeOn hy)
  listed hw hy := listed_of_agreeOn (hw.agreeOn hy)
  within_setOccupied m x v := within_update m x _ _ _ (by unfold blockMetadataSize; omega)
  within_setBack m x v := within_store64 m _ v _ _ (by unfold blockMetadataSize; omega)
  within_setForward m x v := within_store64 m _ v _ _ (by unfold blockMetadataSize; omega)
  within_setParent m x v := within_store64 m _ v _ _ (by unfold blockMetadataSize; omega)
  within_setNode m x c := by
    unfold freeBlockMetadataSize
    have h₁ := within_update m x (UInt8.ofNat ((m x).toNat % 16 + if c.data = .red then 0 else 16)) x
      (x + 41) (by omega)
    have h₂ := h₁.trans (within_store64 _ (x + 17) c.parent _ _ (by omega))
    have h₃ := h₂.trans (within_store64 _ (x + 25) c.left _ _ (by omega))
    exact h₃.trans (within_store64 _ (x + 33) c.right _ _ (by omega))
  within_write m a v := within_update m a v _ _ (by omega)
  get_setOccupied := get_setFlag
  get_setBack m x _ hv := get_store64 m x 1 _ (by decide) hv (by omega)
  get_setForward m x _ hv := get_store64 m x 9 _ (by decide) hv (by omega)
  get_setParent m x _ hv := get_store64 m x 17 _ (by decide) hv (by omega)
  get_setNode m x _ hc := get_setNode m x hc
  parent_setNode m x _ hc := parent_setNode m x hc
  setNode_links := setNode_links

end Bytes

end MaiFaSp.RedBlackAllocator
