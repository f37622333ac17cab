import Mathlib.Data.List.Perm.Basic
import Mathlib.Logic.Relation
import Mathlib.Tactic

/-!
# Runs of an allocator against its clients

An allocator is given by its operations. A client holds the grants it has not
returned; it allocates, returns grants in any order, changes the mode and
writes inside its grants. What every operation keeps holds in every reachable
state, and what the operations keep without failing lets all grants be returned.
-/

namespace MaiFaSp

/-- How an allocator's call can end other than by returning. -/
inductive AllocFault where
  | badAlloc
  | logicError
  | nullDereference
  | diverged
  deriving Repr, DecidableEq

/-- The operations. `writable p size a` says that a client may store at `a` while it
holds the grant of `size` bytes at `p`. -/
structure AllocatorOps (σ μ : Type*) where
  allocate : σ → ℕ → Except AllocFault (ℕ × σ)
  deallocate : σ → ℕ → Except AllocFault σ
  setMode : σ → μ → σ
  write : σ → ℕ → UInt8 → σ
  writable : ℕ → ℕ → ℕ → Prop

/-- An allocator with the grants (address and size asked for) not yet returned. -/
structure Client (σ : Type*) where
  state : σ
  live : List (ℕ × ℕ)

namespace AllocatorOps

variable {σ μ : Type*} (ops : AllocatorOps σ μ) (admissible : ℕ → Prop)

inductive Step : Client σ → Client σ → Prop
  | allocate {s s' live size p} (hsize : admissible size)
      (h : ops.allocate s size = .ok (p, s')) : Step ⟨s, live⟩ ⟨s', (p, size) :: live⟩
  | deallocate {s s' live size p} (hlive : (p, size) ∈ live)
      (h : ops.deallocate s p = .ok s') : Step ⟨s, live⟩ ⟨s', live.erase (p, size)⟩
  | setMode {s live} (mode : μ) : Step ⟨s, live⟩ ⟨ops.setMode s mode, live⟩
  | write {s live size p a} (v : UInt8) (hlive : (p, size) ∈ live)
      (hw : ops.writable p size a) : Step ⟨s, live⟩ ⟨ops.write s a v, live⟩

/-- Reachable from a fresh allocator, of which nothing is granted. -/
def Reachable (fresh : σ) (c : Client σ) : Prop :=
  Relation.ReflTransGen (Step ops admissible) ⟨fresh, []⟩ c

/-- Every operation that returns keeps `Inv`. -/
structure Keeps (Inv : σ → List (ℕ × ℕ) → Prop) : Prop where
  allocate : ∀ {s s' live size p}, Inv s live → admissible size →
    ops.allocate s size = .ok (p, s') → Inv s' ((p, size) :: live)
  deallocate : ∀ {s s' live size p}, Inv s live → (p, size) ∈ live →
    ops.deallocate s p = .ok s' → Inv s' (live.erase (p, size))
  setMode : ∀ {s live} (mode : μ), Inv s live → Inv (ops.setMode s mode) live
  write : ∀ {s live size p a} (v : UInt8), Inv s live → (p, size) ∈ live →
    ops.writable p size a → Inv (ops.write s a v) live

/-- In a state with `Inv` allocating returns or refuses, and returning a grant works. -/
structure Total (Inv : σ → List (ℕ × ℕ) → Prop) : Prop where
  allocate : ∀ {s live size}, Inv s live → admissible size →
    (∃ p s', ops.allocate s size = .ok (p, s')) ∨ ops.allocate s size = .error .badAlloc
  deallocate : ∀ {s live size p}, Inv s live → (p, size) ∈ live →
    ∃ s', ops.deallocate s p = .ok s'

variable {ops admissible} {Inv : σ → List (ℕ × ℕ) → Prop}

theorem Keeps.step (h : ops.Keeps admissible Inv) {c c' : Client σ} (hi : Inv c.state c.live)
    (hs : ops.Step admissible c c') : Inv c'.state c'.live := by
  cases hs with
  | allocate hsize ha => exact h.allocate hi hsize ha
  | deallocate hlive hd => exact h.deallocate hi hlive hd
  | setMode mode => exact h.setMode mode hi
  | write v hlive hw => exact h.write v hi hlive hw

/-- What holds of the fresh allocator and is kept holds in every reachable state. -/
theorem Keeps.reachable (h : ops.Keeps admissible Inv) {fresh : σ} (hf : Inv fresh [])
    {c : Client σ} (hr : ops.Reachable admissible fresh c) : Inv c.state c.live := by
  induction hr with
  | refl => exact hf
  | tail _ hs ih => exact h.step ih hs

/-- Returning grants one after the other. -/
def returnAll (ops : AllocatorOps σ μ) : List (ℕ × ℕ) → σ → Except AllocFault σ
  | [], s => .ok s
  | g :: gs, s =>
    match ops.deallocate s g.1 with
    | .error e => .error e
    | .ok s' => returnAll ops gs s'

/-- All grants can be returned, in any order. -/
theorem Keeps.returnAll (h : ops.Keeps admissible Inv) (ht : ops.Total admissible Inv)
    {s : σ} {live order : List (ℕ × ℕ)} (hi : Inv s live) (hp : order.Perm live) :
    ∃ s', ops.returnAll order s = .ok s' ∧ Inv s' [] := by
  induction order generalizing s live with
  | nil =>
    rw [List.nil_perm.mp hp] at hi
    exact ⟨s, rfl, hi⟩
  | cons g gs ih =>
    have hg : g ∈ live := hp.mem_iff.mp (List.mem_cons_self ..)
    obtain ⟨s', hd⟩ := ht.deallocate hi hg
    have hi' := h.deallocate hi hg hd
    obtain ⟨s'', hr, hend⟩ := ih hi' (List.cons_perm_iff_perm_erase.mp hp).2
    refine ⟨s'', ?_, hend⟩
    rw [AllocatorOps.returnAll, hd]
    exact hr

/-! ### Given calls -/

/-- What a client can ask for: an allocation, or the return of the grant at a place in its list. -/
inductive Call where
  | allocate (size : ℕ)
  | deallocate (i : ℕ)
  deriving DecidableEq

/-- One call after the other, as long as none fails. -/
def runCalls (ops : AllocatorOps σ μ) : List Call → Client σ → Option (Client σ)
  | [], c => some c
  | .allocate size :: calls, c =>
    match ops.allocate c.state size with
    | .error _ => none
    | .ok (p, s) => runCalls ops calls ⟨s, (p, size) :: c.live⟩
  | .deallocate i :: calls, c =>
    match c.live[i]? with
    | none => none
    | some g =>
      match ops.deallocate c.state g.1 with
      | .error _ => none
      | .ok s => runCalls ops calls ⟨s, c.live.erase g⟩

theorem runCalls_reachable {calls : List Call} {c c' : Client σ}
    (hsize : ∀ size, Call.allocate size ∈ calls → admissible size)
    (h : ops.runCalls calls c = some c') : Relation.ReflTransGen (ops.Step admissible) c c' := by
  induction calls generalizing c with
  | nil =>
    cases h
    exact Relation.ReflTransGen.refl
  | cons call calls ih =>
    have hrest := fun size hm => hsize size (List.mem_cons_of_mem call hm)
    cases call with
    | allocate size =>
      rw [runCalls] at h
      cases ha : ops.allocate c.state size with
      | error e =>
        rw [ha] at h
        cases h
      | ok r =>
        rw [ha] at h
        exact (ih hrest h).head (Step.allocate (hsize size List.mem_cons_self) ha)
    | deallocate i =>
      rw [runCalls] at h
      cases hg : c.live[i]? with
      | none =>
        rw [hg] at h
        cases h
      | some g =>
        rw [hg] at h
        dsimp only at h
        cases hd : ops.deallocate c.state g.1 with
        | error e =>
          rw [hd] at h
          cases h
        | ok s =>
          rw [hd] at h
          exact (ih hrest h).head (Step.deallocate (List.mem_of_getElem? hg) hd)

/-- Calls whose outcome passes a test lead to a reachable state that passes it. -/
theorem exists_reachable {fresh : σ} (calls : List Call) (test : Client σ → Bool)
    (hsize : ∀ size, Call.allocate size ∈ calls → admissible size)
    (h : (ops.runCalls calls ⟨fresh, []⟩).any test = true) :
    ∃ c, ops.Reachable admissible fresh c ∧ test c = true := by
  cases hrun : ops.runCalls calls ⟨fresh, []⟩ with
  | none =>
    rw [hrun] at h
    cases h
  | some c =>
    rw [hrun] at h
    exact ⟨c, runCalls_reachable hsize hrun, h⟩

/-! ### What is stored in a grant -/

/-- What happens to an allocator. -/
inductive Event where
  | granted (g : ℕ × ℕ)
  | returned (g : ℕ × ℕ)
  | modeSet
  | stored (g : ℕ × ℕ) (a : ℕ) (v : UInt8)
  deriving DecidableEq

/-- A step, and what happens in it. -/
inductive Does (ops : AllocatorOps σ μ) (admissible : ℕ → Prop) : Event → Client σ → Client σ → Prop
  | allocate {s s' live size p} (hsize : admissible size)
      (h : ops.allocate s size = .ok (p, s')) : Does ops admissible (.granted (p, size)) ⟨s, live⟩ ⟨s', (p, size) :: live⟩
  | deallocate {s s' live g} (hlive : g ∈ live) (h : ops.deallocate s g.1 = .ok s') :
      Does ops admissible (.returned g) ⟨s, live⟩ ⟨s', live.erase g⟩
  | setMode {s live} (mode : μ) : Does ops admissible .modeSet ⟨s, live⟩ ⟨ops.setMode s mode, live⟩
  | write {s live g a} (v : UInt8) (hlive : g ∈ live) (hw : ops.writable g.1 g.2 a) :
      Does ops admissible (.stored g a v) ⟨s, live⟩ ⟨ops.write s a v, live⟩

/-- A run, and what happens in it. -/
inductive Run (ops : AllocatorOps σ μ) (admissible : ℕ → Prop) : List Event → Client σ → Client σ → Prop
  | nil {c} : Run ops admissible [] c c
  | cons {e es c c' c''} (h : ops.Does admissible e c c') (hrest : Run ops admissible es c' c'') :
      Run ops admissible (e :: es) c c''

/-- What the byte at `a` of the grant `g` holds after the events, if it held `v` before: each grant is
a store of its own. -/
def byteAfter (g : ℕ × ℕ) (a : ℕ) : List Event → UInt8 → UInt8
  | [], v => v
  | .stored g' a' w :: es, v => byteAfter g a es (if g' = g ∧ a' = a then w else v)
  | .granted _ :: es, v => byteAfter g a es v
  | .returned _ :: es, v => byteAfter g a es v
  | .modeSet :: es, v => byteAfter g a es v

/-- No operation changes a byte of a grant that it does not return, and grants do not overlap. -/
structure Separates (ops : AllocatorOps σ μ) (admissible : ℕ → Prop) (read : σ → ℕ → UInt8)
    (Inv : σ → List (ℕ × ℕ) → Prop) : Prop where
  allocate : ∀ {s s' live size p g a}, Inv s live → admissible size → ops.allocate s size = .ok (p, s') →
    g ∈ live → ops.writable g.1 g.2 a → read s' a = read s a
  deallocate : ∀ {s s' live h g a}, Inv s live → h ∈ live → ops.deallocate s h.1 = .ok s' →
    g ∈ live → g ≠ h → ops.writable g.1 g.2 a → read s' a = read s a
  setMode : ∀ {s} (mode : μ), read (ops.setMode s mode) = read s
  write : ∀ {s} a v, read (ops.write s a v) = Function.update (read s) a v
  apart : ∀ {s live h g a}, Inv s live → h ∈ live → g ∈ live → ops.writable h.1 h.2 a →
    ops.writable g.1 g.2 a → h = g

theorem Does.step {e : Event} {c c' : Client σ} (h : ops.Does admissible e c c') :
    ops.Step admissible c c' := by
  cases h with
  | allocate hsize h => exact .allocate hsize h
  | deallocate hlive h => exact .deallocate hlive h
  | setMode mode => exact .setMode mode
  | write v hlive hw => exact .write v hlive hw

section Stores

variable {read : σ → ℕ → UInt8} {e : Event} {es : List Event} {c c' : Client σ} {g : ℕ × ℕ} {a : ℕ}

/-- What one event does to a byte of a grant that it does not return. -/
theorem Separates.does (hs : ops.Separates admissible read Inv) (hi : Inv c.state c.live)
    (hdoes : ops.Does admissible e c c') (hg : g ∈ c.live) (hheld : e ≠ .returned g)
    (ha : ops.writable g.1 g.2 a) :
    g ∈ c'.live ∧ ∀ es, byteAfter g a (e :: es) (read c.state a) = byteAfter g a es (read c'.state a) := by
  cases hdoes with
  | allocate hsize h =>
    refine ⟨List.mem_cons_of_mem _ hg, fun es => ?_⟩
    rw [byteAfter, hs.allocate hi hsize h hg ha]
  | deallocate hlive h =>
    have hne := fun he => hheld (congrArg Event.returned he).symm
    refine ⟨(List.mem_erase_of_ne hne).mpr hg, fun es => ?_⟩
    rw [byteAfter, hs.deallocate hi hlive h hg hne ha]
  | setMode mode =>
    refine ⟨hg, fun es => ?_⟩
    rw [byteAfter, hs.setMode]
  | @write s live g' a' v hlive hw =>
    refine ⟨hg, fun es => ?_⟩
    rw [byteAfter, hs.write]
    by_cases haa : a' = a
    · subst haa
      rw [Function.update_self, if_pos ⟨hs.apart hi hlive hg hw ha, rfl⟩]
    · rw [Function.update_of_ne (Ne.symm haa), if_neg fun h => haa h.2]

/-- As long as a grant is held, each of its bytes holds what was last stored there through it. -/
theorem Separates.run (hs : ops.Separates admissible read Inv) (hk : ops.Keeps admissible Inv)
    (hi : Inv c.state c.live) (hrun : ops.Run admissible es c c') (hg : g ∈ c.live)
    (hheld : .returned g ∉ es) (ha : ops.writable g.1 g.2 a) :
    g ∈ c'.live ∧ read c'.state a = byteAfter g a es (read c.state a) := by
  induction hrun with
  | nil => exact ⟨hg, rfl⟩
  | cons h hrest ih =>
    obtain ⟨hne, hheld⟩ := not_or.mp (mt List.mem_cons.mpr hheld)
    obtain ⟨hg', hbyte⟩ := hs.does hi h hg (Ne.symm hne) ha
    obtain ⟨hend, hread⟩ := ih (hk.step hi h.step) hg' hheld
    exact ⟨hend, by rw [hread, hbyte]⟩

end Stores

end AllocatorOps

end MaiFaSp
