import PathOram.Definitions

/-!
# The stash

`InMemoryStashAdapter` of `stash-adapter.cpp`: an `unordered_map` from block IDs to
payloads with a capacity. `add` keeps a payload that is already there, `update`
replaces it; both refuse to insert a new ID at capacity.
-/

namespace PathORAM

open Hoare

/-- The `stash` member. The const member `capacity` is a parameter of the operations. -/
abbrev InMemoryStashAdapter := UnorderedMap Bytes

namespace InMemoryStashAdapter

variable (capacity : ℕ)

/-- Throws if an insertion of this block grows the stash beyond its capacity. -/
def checkOverflow (block : ℕ) : EStateM Exception InMemoryStashAdapter Unit := do
  let stash ← MonadState.get
  -- A block that is there already does not need room.
  if stash.keys.length = capacity ∧ block ∉ stash then
    throw (.overCapacity capacity)

/-- Put a block in the stash; will not override a block with the same ID. -/
def add (block : ℕ) (data : Bytes) : EStateM Exception InMemoryStashAdapter Unit := do
  checkOverflow capacity block
  -- `insert` of an `unordered_map` keeps the entry of a key that is there.
  modify (fun stash => if block ∈ stash then stash else stash.insert block data)

/-- Change a block in the stash; will add it if none exists. -/
def update (block : ℕ) (data : Bytes) : EStateM Exception InMemoryStashAdapter Unit := do
  checkOverflow capacity block
  modify (fun stash => AList.insert block data stash)

/-- Retrieve a payload by ID: it is inserted at the beginning of `response`. -/
def get (stash : InMemoryStashAdapter) (block : ℕ) (response : Bytes) : Bytes :=
  match stash.lookup block with
  | some data => data ++ response
  | none => response

/-- Remove a block by ID. -/
def deleteBlock (block : ℕ) (stash : InMemoryStashAdapter) : InMemoryStashAdapter :=
  stash.erase block

/-- All blocks, shuffled, put before those of `response`. The loop bounds are 32-bit. -/
def getAll (stash : InMemoryStashAdapter) (response : List Block) (r : Random) :
    List Block × Random :=
  -- The entries come in the order of the map, and are then shuffled.
  let (visited, r) := r.iterate stash.toList
  let response := visited ++ response
  r.shuffle (response.length % 2 ^ 32) response

/-! ### Specifications -/

variable {capacity : ℕ} {block : ℕ} {data : Bytes} {stash : InMemoryStashAdapter}
  {Q : Unit → InMemoryStashAdapter → Prop} {E : Exception → InMemoryStashAdapter → Prop}

theorem wp_checkOverflow
    (hok : ¬(stash.keys.length = capacity ∧ block ∉ stash) → Q () stash)
    (herr : stash.keys.length = capacity → block ∉ stash → E (.overCapacity capacity) stash) :
    wp (checkOverflow capacity block) Q E stash := by
  unfold checkOverflow
  refine wp_bind (wp_get ?_)
  by_cases h : stash.keys.length = capacity ∧ block ∉ stash
  · rw [if_pos h]
    exact wp_throw (herr h.1 h.2)
  · rw [if_neg h]
    exact wp_pure (hok h)

/-- A failed `add` leaves the stash as it was: full, and without the block. -/
theorem wp_add (hok : Q () (if block ∈ stash then stash else stash.insert block data))
    (herr : stash.keys.length = capacity → block ∉ stash → E (.overCapacity capacity) stash) :
    wp (add capacity block data) Q E stash :=
  wp_bind (wp_checkOverflow (fun _ => wp_modify hok) herr)

/-- A failed `update` leaves the stash as it was: full, and without the block. -/
theorem wp_update (hok : Q () (stash.insert block data))
    (herr : stash.keys.length = capacity → block ∉ stash → E (.overCapacity capacity) stash) :
    wp (update capacity block data) Q E stash :=
  wp_bind (wp_checkOverflow (fun _ => wp_modify hok) herr)

/-- `getAll` returns every entry once. -/
theorem perm_getAll (stash : InMemoryStashAdapter) (r : Random) :
    (getAll stash [] r).1.Perm stash.toList := by
  unfold getAll
  -- Both the order of the visit and the shuffle are permutations.
  refine (Random.perm_shuffle _ _ _).trans ?_
  rw [List.append_nil]
  exact Random.perm_iterate _ _

/-- The number of entries after an insertion. -/
theorem length_keys_insert (stash : InMemoryStashAdapter) (block : ℕ) (data : Bytes) :
    (stash.insert block data).keys.length =
      stash.keys.length + if block ∈ stash then 0 else 1 := by
  rw [AList.keys_insert, List.length_cons]
  by_cases hmem : block ∈ stash
  · have hpos : 0 < stash.keys.length := List.length_pos_of_mem (AList.mem_keys.mp hmem)
    rw [if_pos hmem, List.length_erase_of_mem (AList.mem_keys.mp hmem)]
    omega
  · rw [if_neg hmem, List.erase_of_not_mem fun h => hmem (AList.mem_keys.mpr h)]

/-- Deleting blocks one by one. -/
theorem lookup_foldl_deleteBlock (ids : List ℕ) (stash : InMemoryStashAdapter) (id : ℕ) :
    (ids.foldl (fun stash id => deleteBlock id stash) stash).lookup id =
      if id ∈ ids then none else stash.lookup id := by
  induction ids generalizing stash with
  | nil => rfl
  | cons i ids ih =>
    -- The first ID is deleted, and the others are deleted from what is left.
    rw [List.foldl_cons, ih, deleteBlock]
    by_cases hi : id = i
    · subst hi
      simp
    · rw [AList.lookup_erase_ne hi]
      simp [hi]

/-! ### The order of a dump -/

/-- The dump for the numbers that `getRandomUInt` returns, with the map visited in the order
that `r` has for it. -/
def dump (stash : InMemoryStashAdapter) (r : Random)
    (d : FisherYates.DrawSequence stash.toList.length) : List Block :=
  (getAll stash [] { r with uints := d.stream }).1

theorem getAll_eq_shuffleBy (hlength : stash.toList.length < 2 ^ 32) (r : Random) :
    (getAll stash [] r).1 = FisherYates.shuffleBy (r.iterate stash.toList).1
      (FisherYates.reduced stash.toList.length r.uints) := by
  have hvisited : ((r.iterate stash.toList).1 ++ []).length % 2 ^ 32 = stash.toList.length := by
    rw [List.append_nil, (Random.perm_iterate stash.toList r).length_eq, Nat.mod_eq_of_lt hlength]
  unfold getAll
  show (FisherYates.shuffleN (((r.iterate stash.toList).1 ++ []).length % 2 ^ 32)
    ((r.iterate stash.toList).1 ++ []) r.uints).1 = _
  rw [hvisited, List.append_nil, FisherYates.shuffleN_eq_shuffleBy]

/-- **The dump is an unbiased shuffle.** It is a permutation of the entries that depends on the
numbers drawn, and each of the `n!` permutations comes from exactly one sequence of numbers. -/
theorem getAll_unbiased (stash : InMemoryStashAdapter) (hlength : stash.toList.length < 2 ^ 32)
    (r : Random) :
    (∀ r' : Random, r'.orders = r.orders → (getAll stash [] r').1 =
        dump stash r (FisherYates.reduced stash.toList.length r'.uints)) ∧
      Set.BijOn (dump stash r) Set.univ {l | l.Perm stash.toList} ∧
      {l : List Block | l.Perm stash.toList}.ncard = stash.toList.length.factorial := by
  have hnodup : stash.toList.Nodup := (UnorderedMap.nodup_keys_toList stash).of_map
  have hvisited := Random.perm_iterate stash.toList r
  have hdump : dump stash r = FisherYates.shuffleBy (r.iterate stash.toList).1 := by
    funext d
    refine (getAll_eq_shuffleBy hlength { r with uints := d.stream }).trans ?_
    rw [FisherYates.reduced_stream]
    rfl
  refine ⟨fun r' horders => ?_, ?_, (FisherYates.ncard_perm hnodup).2⟩
  · have hiterate : (r'.iterate stash.toList).1 = (r.iterate stash.toList).1 := by
      unfold Random.iterate
      rw [horders]
    rw [getAll_eq_shuffleBy hlength r', hiterate, hdump]
  · rw [hdump]
    have hperm : {l : List Block | l.Perm stash.toList} =
        {l | l.Perm (r.iterate stash.toList).1} :=
      Set.ext fun l => ⟨fun h => h.trans hvisited.symm, fun h => h.trans hvisited⟩
    rw [hperm]
    exact FisherYates.bijOn_shuffleBy hvisited.length_eq (hvisited.nodup_iff.mpr hnodup)

/-- Three blocks. -/
def three : InMemoryStashAdapter :=
  AList.insert 3 [30] (AList.insert 2 [20] (AList.insert 1 [10] ∅))

theorem getAll_unbiased_three :
    (∀ r' : Random, r'.orders = Stream'.const 0 → (getAll three [] r').1 =
        dump three ⟨Stream'.const 0, Stream'.const 0, Stream'.const 0, Stream'.const 0⟩
          (FisherYates.reduced three.toList.length r'.uints)) ∧
      Set.BijOn (dump three ⟨Stream'.const 0, Stream'.const 0, Stream'.const 0, Stream'.const 0⟩)
        Set.univ {l | l.Perm three.toList} ∧
      {l : List Block | l.Perm three.toList}.ncard = three.toList.length.factorial :=
  getAll_unbiased three (by decide)
    ⟨Stream'.const 0, Stream'.const 0, Stream'.const 0, Stream'.const 0⟩

end InMemoryStashAdapter

end PathORAM
