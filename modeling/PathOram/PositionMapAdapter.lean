import PathOram.Definitions

/-!
# The position map interface and the in-memory position map

`AbsPositionMapAdapter` of `position-map-adapter.cpp` is an interface with two virtual
methods. It is a record of two programs over the state `M` of the implementation, so
the ORAM built on it is generic in `M`. The ORAM-backed implementation is in
`PathOram.Oram`.

The in-memory implementation allocates its array without initialising it. A cell that
was never written is `none` and reads as an arbitrary `garbage` value. As a ghost, the
adapter notes the cells that were read.

`AbsPositionMapAdapter.Implements` says what the ORAM relies on: for IDs below `n`
the map is an array of leaves below `bound`. Whether an operation may throw at all is the parameter
`mayThrow`.
-/

namespace PathORAM

open Hoare

/-- The position map interface over a state `M`. -/
structure AbsPositionMapAdapter (M : Type) where
  /-- Get mapped leaf for block. -/
  get : ℕ → EStateM Exception M ℕ
  /-- Map a leaf to the block. -/
  set : ℕ → ℕ → EStateM Exception M Unit

/-- What the ORAM relies on: `R f m` says that the map `m` holds the leaves `f`. For
IDs below `n` and leaves below `bound`, `get` returns the leaf held, if any, and `set`
replaces it. An operation throws only if `mayThrow`. -/
structure AbsPositionMapAdapter.Implements {M : Type} (pm : AbsPositionMapAdapter M)
    (n bound : ℕ) (R : (ℕ → Option ℕ) → M → Prop) (mayThrow : Prop) : Prop where
  get_spec : ∀ f m block, R f m → block < n →
    wp (pm.get block) (fun l m' => (∀ leaf, f block = some leaf → l = leaf) ∧ R f m')
      (fun _ _ => mayThrow) m
  set_spec : ∀ f m block leaf, R f m → block < n → leaf < bound →
    wp (pm.set block leaf) (fun _ m' => R (Function.update f block (some leaf)) m')
      (fun _ _ => mayThrow) m

/-- The in-memory position map: an array of `capacity` numbers. -/
structure InMemoryPositionMapAdapter where
  capacity : ℕ
  /-- The cells that were written. -/
  map : ℕ → Option ℕ
  /-- What `new number[capacity]` happened to contain. -/
  garbage : ℕ → ℕ
  /-- Ghost: the cells read so far, with what had been written to them, oldest first. -/
  reads : List (ℕ × Option ℕ)
  capacity_lt : capacity < 2 ^ 64

namespace InMemoryPositionMapAdapter

/-- Throws if an out-of-bounds access occurs. -/
def checkCapacity (block : ℕ) : EStateM Exception InMemoryPositionMapAdapter Unit := do
  let m ← MonadState.get
  if m.capacity ≤ block then
    throw (.blockOutOfBound block m.capacity)

/-- `InMemoryPositionMapAdapter::get` and `set`. -/
def adapter : AbsPositionMapAdapter InMemoryPositionMapAdapter where
  get block := do
    checkCapacity block
    let m ← MonadState.get
    -- A read changes nothing but the ghost.
    modify (fun m => { m with reads := m.reads ++ [(block, m.map block)] })
    return (m.map block).getD (m.garbage block)
  set block leaf := do
    checkCapacity block
    modify (fun m => { m with map := Function.update m.map block (some leaf) })

/-- The array holds `f`, and IDs below `n` are inside it. -/
def Holds (n : ℕ) (f : ℕ → Option ℕ) (m : InMemoryPositionMapAdapter) : Prop :=
  m.map = f ∧ n ≤ m.capacity

theorem wp_checkCapacity {block : ℕ} {m : InMemoryPositionMapAdapter}
    {Q : Unit → InMemoryPositionMapAdapter → Prop}
    {E : Exception → InMemoryPositionMapAdapter → Prop}
    (hok : block < m.capacity → Q () m)
    (herr : m.capacity ≤ block → E (.blockOutOfBound block m.capacity) m) :
    wp (checkCapacity block) Q E m := by
  unfold checkCapacity
  refine wp_bind (wp_get ?_)
  by_cases h : m.capacity ≤ block
  · rw [if_pos h]
    exact wp_throw (herr h)
  · rw [if_neg h]
    exact wp_pure (hok (not_le.mp h))

/-- **The in-memory map is an array.** It never throws for an ID in range. -/
theorem implements (n bound : ℕ) : adapter.Implements n bound (Holds n) False where
  get_spec f m block hm hblock := by
    obtain ⟨rfl, hn⟩ := hm
    -- An ID below `n` is inside the capacity, so the check passes.
    refine wp_bind (wp_checkCapacity (fun _ => ?_) (fun h => by omega))
    refine wp_bind (wp_get (wp_bind (wp_modify (wp_pure ⟨fun leaf hleaf => ?_, rfl, hn⟩))))
    rw [hleaf]
    rfl
  set_spec f m block leaf hm hblock _ := by
    obtain ⟨rfl, hn⟩ := hm
    refine wp_bind (wp_checkCapacity (fun _ => ?_) (fun h => by omega))
    exact wp_modify ⟨rfl, hn⟩

end InMemoryPositionMapAdapter

end PathORAM
