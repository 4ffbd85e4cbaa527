import PathOram.Lib.Hoare
import PathOram.Lib.LittleEndian
import PathOram.Lib.Shuffle
import Mathlib.Data.List.AList
import Mathlib.Tactic.IntervalCases

/-!
# Data types, exceptions and the random source

The types of `definitions.h` and the random helpers of `utility.cpp`.

* The 64-bit unsigned `number` is `ℕ`; the operations that can leave 64 bits reduce
  modulo `2 ^ 64` where it matters (`bucketForLevelLeaf`, the block count, the
  conversion of an id to `int`).
* `Block` is a pair of an id and a payload, `Bucket` a list of blocks.
* `Exception` has one constructor for each `throw` of the modelled code, with the
  values its message is formatted from; `Exception.what` is that message. The last
  two constructors are not exceptions of the code: `outOfRangeShift` marks a shift by
  a count for which C++ leaves the result undefined, `endlessLoop` a loop that was
  not seen to end.
* `Random` is everything a run leaves to chance, as streams that are consumed. Each
  object that draws has its own streams, so a statement for all `Random` values is a
  statement for all runs.
-/

namespace PathORAM

/-- A byte vector. -/
abbrev Bytes := List UInt8

/-- A block: its ID and its payload. -/
abbrev Block := ℕ × Bytes

/-- A bucket: the blocks of one storage location. -/
abbrev Bucket := List Block

/-- The id of an "empty" block. -/
def ULONG_MAX : ℕ := 2 ^ 64 - 1

/-- AES key size in bytes. -/
def KEYSIZE : ℕ := 32

/-- The size of one AES block in bytes. -/
def AES_BLOCK_SIZE : ℕ := 16

/-- What the modelled code throws. -/
inductive Exception where
  | tooManyRequests (given batchSize : ℕ)
  | bulkLoadTooMuch
  | overCapacity (capacity : ℕ)
  | blockOutOfBound (block capacity : ℕ)
  | idOutOfBound (location capacity : ℕ)
  | notZBlocks (Z given : ℕ)
  | dataTooLong (dataLength userBlockSize : ℕ)
  | blockSizeTooSmall (userBlockSize : ℕ)
  | blockSizeNotMultiple (userBlockSize : ℕ)
  | zeroZ (Z : ℕ)
  | wrongKeySize (given : ℕ)
  | wrongInputSize (given : ℕ)
  | wrongIVSize (given : ℕ)
  | macNotFound (bucketId : ℕ)
  | macMismatch
  | bucketCheckFailed (bucketId : ℕ)
  | outOfRangeShift (count : ℕ)
  | endlessLoop
  deriving DecidableEq, Repr

/-- The message of an exception. -/
def Exception.what : Exception → String
  | tooManyRequests given batchSize =>
    s!"Too many requests ({given}) for batch size {batchSize}"
  | bulkLoadTooMuch => "bulk load: too much data for ORAM"
  | overCapacity capacity => s!"trying to insert over capacity (capacity {capacity})"
  | blockOutOfBound block capacity => s!"block {block} out of bound (capacity {capacity})"
  | idOutOfBound location capacity => s!"id {location} out of bound (capacity {capacity})"
  | notZBlocks Z given =>
    s!"each set request must contain exactly Z={Z} blocks ({given} given)"
  | dataTooLong dataLength userBlockSize =>
    s!"data of size {dataLength} is too long for a block of {userBlockSize} bytes"
  | blockSizeTooSmall userBlockSize =>
    s!"block size {userBlockSize} is too small, need at least {2 * AES_BLOCK_SIZE}"
  | blockSizeNotMultiple userBlockSize =>
    s!"block size must be a multiple of {AES_BLOCK_SIZE} (provided {userBlockSize} bytes)"
  | zeroZ Z => s!"Z must be greater than zero (provided {Z})"
  | wrongKeySize given => s!"key of size {given} bytes provided, need {KEYSIZE} bytes"
  | wrongInputSize given =>
    s!"input must be a multiple of {AES_BLOCK_SIZE} (provided {given} bytes)"
  | wrongIVSize given => s!"IV of size {given} bytes provided, need {AES_BLOCK_SIZE} bytes"
  | macNotFound bucketId => s!"MAC not found for bucket ID: {bucketId}"
  | macMismatch => "Bucket integrity check failed: MAC mismatch"
  | bucketCheckFailed bucketId =>
    s!"Bucket integrity check failed during readPath for bucket ID: {bucketId}"
  | outOfRangeShift count => s!"shift of an int by {count}"
  | endlessLoop => "endless loop"

/-! ### The random source -/

/-- Everything a run leaves to chance. -/
structure Random where
  /-- The 64-bit words behind `getRandomULong`. -/
  ulongs : Stream' ℕ
  /-- The 32-bit words behind `getRandomUInt`. -/
  uints : Stream' ℕ
  /-- The bytes behind `getRandomBlock`. -/
  uchars : Stream' UInt8
  /-- The order in which an `unordered_set` or `unordered_map` is visited: the
  container's contents are shuffled by these draws. -/
  orders : Stream' ℕ

namespace Random

/-- A number below `max`. -/
def getRandomULong (max : ℕ) (r : Random) : ℕ × Random :=
  (r.ulongs.head % max, { r with ulongs := r.ulongs.tail })

/-- `blockSize` random bytes. -/
def getRandomBlock (blockSize : ℕ) (r : Random) : Bytes × Random :=
  (r.uchars.take blockSize, { r with uchars := r.uchars.drop blockSize })

/-- Visit the elements of an unordered container in an unspecified order. -/
def iterate {α : Type} (l : List α) (r : Random) : List α × Random :=
  ((FisherYates.shuffle l r.orders).1,
    { r with orders := (FisherYates.shuffle l r.orders).2 })

/-- The Fisher–Yates loop of `getAll` and `load`, on the first `n` elements. -/
def shuffle {α : Type} (n : ℕ) (l : List α) (r : Random) : List α × Random :=
  ((FisherYates.shuffleN n l r.uints).1,
    { r with uints := (FisherYates.shuffleN n l r.uints).2 })

theorem perm_iterate {α : Type} (l : List α) (r : Random) : (iterate l r).1.Perm l :=
  FisherYates.perm_shuffle l r.orders

theorem perm_shuffle {α : Type} (n : ℕ) (l : List α) (r : Random) :
    (shuffle n l r).1.Perm l :=
  FisherYates.perm_shuffleN n l r.uints

@[simp] theorem length_getRandomBlock (blockSize : ℕ) (r : Random) :
    (getRandomBlock blockSize r).1.length = blockSize :=
  Stream'.length_take _ _

end Random

/-! ### Related lists -/

section Forall₂

variable {α β γ : Type} {R : α → β → Prop} {l : List α} {l' : List β}

theorem exists_right_of_forall₂ (h : List.Forall₂ R l l') {a : α} (ha : a ∈ l) :
    ∃ b ∈ l', R a b := by
  induction h with
  | nil => exact absurd ha List.not_mem_nil
  | cons hR _ ih =>
    rcases List.mem_cons.mp ha with rfl | ha
    · exact ⟨_, List.mem_cons_self, hR⟩
    · obtain ⟨b, hb, hab⟩ := ih ha
      exact ⟨b, List.mem_cons_of_mem _ hb, hab⟩

theorem exists_left_of_forall₂ (h : List.Forall₂ R l l') {b : β} (hb : b ∈ l') :
    ∃ a ∈ l, R a b :=
  exists_right_of_forall₂ (List.Forall₂.flip h) hb

theorem map_eq_of_forall₂ {f : α → γ} {g : β → γ} (hfg : ∀ a b, R a b → g b = f a)
    (h : List.Forall₂ R l l') : l'.map g = l.map f := by
  induction h with
  | nil => rfl
  | cons hR _ ih => rw [List.map_cons, List.map_cons, hfg _ _ hR, ih]

end Forall₂

/-! ### Unordered maps -/

/-- `unordered_map<number, β>`. The order of its entries has no meaning: a visit goes
through `Random.iterate`. -/
abbrev UnorderedMap (β : Type) := AList (fun _ : ℕ => β)

namespace UnorderedMap

variable {β : Type} {k : ℕ} {v : β}

/-- The key-value pairs. -/
def toList (m : UnorderedMap β) : List (ℕ × β) := m.entries.map (fun e => (e.1, e.2))

theorem mem_toList {m : UnorderedMap β} : (k, v) ∈ m.toList ↔ m.lookup k = some v := by
  rw [toList, List.mem_map]
  constructor
  -- Entries are dependent pairs, and are taken apart to compare them.
  · rintro ⟨⟨k', v'⟩, hmem, heq⟩
    obtain ⟨rfl, rfl⟩ := Prod.mk.inj heq
    exact AList.mem_lookup_iff.mpr hmem
  · intro h
    exact ⟨⟨k, v⟩, AList.mem_lookup_iff.mp h, rfl⟩

theorem keys_toList (m : UnorderedMap β) : m.toList.map Prod.fst = m.keys := by
  rw [toList, List.map_map]
  rfl

theorem nodup_keys_toList (m : UnorderedMap β) : (m.toList.map Prod.fst).Nodup := by
  rw [keys_toList]
  exact m.keys_nodup

/-- Assign every entry of a list, in order. -/
def assignAll (entries : List (ℕ × β)) (m : UnorderedMap β) : UnorderedMap β :=
  entries.foldl (fun m e => AList.insert e.1 e.2 m) m

theorem assignAll_cons (e : ℕ × β) (entries : List (ℕ × β)) (m : UnorderedMap β) :
    assignAll (e :: entries) m = assignAll entries (AList.insert e.1 e.2 m) := rfl

theorem lookup_assignAll_of_notMem {entries : List (ℕ × β)}
    (h : k ∉ entries.map Prod.fst) (m : UnorderedMap β) :
    (assignAll entries m).lookup k = m.lookup k := by
  induction entries generalizing m with
  | nil => rfl
  | cons e entries ih =>
    rw [List.map_cons, List.mem_cons, not_or] at h
    -- The first assignment is to another key, and so are the others.
    rw [assignAll_cons, ih h.2, AList.lookup_insert_ne h.1]

theorem lookup_assignAll_of_mem {entries : List (ℕ × β)}
    (hnodup : (entries.map Prod.fst).Nodup) (h : (k, v) ∈ entries) (m : UnorderedMap β) :
    (assignAll entries m).lookup k = some v := by
  induction entries generalizing m with
  | nil => exact absurd h List.not_mem_nil
  | cons e entries ih =>
    rw [List.map_cons, List.nodup_cons] at hnodup
    rw [assignAll_cons]
    rcases List.mem_cons.mp h with rfl | h
    -- The key does not occur again, so the value stays.
    · rw [lookup_assignAll_of_notMem hnodup.1, AList.lookup_insert]
    · exact ih hnodup.2 h _

/-- Assigning all entries of a map, in any order. -/
theorem lookup_assignAll_perm {m : UnorderedMap β} {entries : List (ℕ × β)}
    (h : entries.Perm m.toList) (m' : UnorderedMap β) (k : ℕ) :
    (assignAll entries m').lookup k = (m.lookup k).or (m'.lookup k) := by
  cases hk : m.lookup k with
  | some v =>
    have hnodup : (entries.map Prod.fst).Nodup :=
      (h.map Prod.fst).nodup_iff.mpr (nodup_keys_toList m)
    exact lookup_assignAll_of_mem hnodup (h.mem_iff.mpr (mem_toList.mpr hk)) m'
  | none =>
    refine lookup_assignAll_of_notMem (fun hmem => ?_) m'
    obtain ⟨⟨k', v⟩, he, rfl⟩ := List.mem_map.mp hmem
    rw [mem_toList.mp (h.mem_iff.mp he)] at hk
    cases hk

/-- Assigning to each of a list of keys the value of a function. -/
theorem lookup_assignAll_map (f : ℕ → β) (keys : List ℕ) (m : UnorderedMap β) (k : ℕ) :
    (assignAll (keys.map (fun key => (key, f key))) m).lookup k =
      if k ∈ keys then some (f k) else m.lookup k := by
  induction keys generalizing m with
  | nil => rfl
  | cons key keys ih =>
    rw [List.map_cons, assignAll_cons, ih]
    -- The last assignment to a key counts, and all write the same value.
    by_cases hk : k = key
    · subst hk
      simp
    · rw [AList.lookup_insert_ne hk]
      simp [hk]

theorem mem_assignAll {entries : List (ℕ × β)} {m : UnorderedMap β} :
    k ∈ assignAll entries m ↔ k ∈ entries.map Prod.fst ∨ k ∈ m := by
  induction entries generalizing m with
  | nil => simp [assignAll]
  | cons e entries ih =>
    rw [assignAll_cons, ih, AList.mem_insert, List.map_cons, List.mem_cons]
    tauto

end UnorderedMap

/-! ### Arrays as functions -/

section UpdateAll

variable {β : Type} {k : ℕ} {v : β}

/-- Write every entry of a list to an array, in order. -/
def updateAll (entries : List (ℕ × β)) (f : ℕ → β) : ℕ → β :=
  entries.foldl (fun f e => Function.update f e.1 e.2) f

theorem updateAll_of_notMem {entries : List (ℕ × β)} (h : k ∉ entries.map Prod.fst)
    (f : ℕ → β) : updateAll entries f k = f k := by
  induction entries generalizing f with
  | nil => rfl
  | cons e entries ih =>
    rw [List.map_cons, List.mem_cons, not_or] at h
    change updateAll entries (Function.update f e.1 e.2) k = f k
    rw [ih h.2, Function.update_of_ne h.1]

theorem updateAll_of_mem {entries : List (ℕ × β)} (hnodup : (entries.map Prod.fst).Nodup)
    (h : (k, v) ∈ entries) (f : ℕ → β) : updateAll entries f k = v := by
  induction entries generalizing f with
  | nil => exact absurd h List.not_mem_nil
  | cons e entries ih =>
    rw [List.map_cons, List.nodup_cons] at hnodup
    change updateAll entries (Function.update f e.1 e.2) k = v
    rcases List.mem_cons.mp h with rfl | h
    · rw [updateAll_of_notMem hnodup.1, Function.update_self]
    · exact ih hnodup.2 h _

/-- What an array holds at an index depends on that index only. -/
theorem updateAll_congr {f f' : ℕ → β} (h : f k = f' k) (entries : List (ℕ × β)) :
    updateAll entries f k = updateAll entries f' k := by
  induction entries generalizing f f' with
  | nil => exact h
  | cons e entries ih =>
    refine ih ?_
    change Function.update f e.1 e.2 k = Function.update f' e.1 e.2 k
    by_cases hk : k = e.1
    · rw [hk, Function.update_self, Function.update_self]
    · rw [Function.update_of_ne hk, Function.update_of_ne hk, h]

/-- Two lists that write related entries to related arrays leave related arrays, also
where an entry is written more than once. -/
theorem map_updateAll {β' γ : Type} {f : β → γ} {g : β' → γ} {entries : List (ℕ × β)}
    {entries' : List (ℕ × β')}
    (h : List.Forall₂ (fun e e' => e'.1 = e.1 ∧ g e'.2 = f e.2) entries entries')
    (a' : ℕ → β') (k : ℕ) :
    g (updateAll entries' a' k) =
      updateAll (entries.map (fun e => (e.1, f e.2))) (fun k => g (a' k)) k := by
  induction h generalizing a' with
  | nil => rfl
  | @cons e e' entries entries' hstep _ ih =>
    change g (updateAll entries' (Function.update a' e'.1 e'.2) k) =
      updateAll (entries.map (fun e => (e.1, f e.2)))
        (Function.update (fun k => g (a' k)) e.1 (f e.2)) k
    rw [ih, ← hstep.1, ← hstep.2]
    -- One entry is written on both sides.
    congr 1
    funext k
    exact Function.apply_update (fun _ => g) a' e'.1 e'.2 k

end UpdateAll

/-! ### Machine integers -/

/-- The `int` expression `1 << count` converted to `number`. The literal is a 32-bit
`int`, so the sign bit is extended; a count of 32 or more is undefined and taken as
the hardware does, modulo 32. -/
def intShl (count : ℕ) : ℕ :=
  ((1#32 <<< (count % 32)).signExtend 64).toNat

/-- Up to a count of 30 the result is the power of two. -/
theorem intShl_eq {count : ℕ} (h : count < 31) : intShl count = 2 ^ count := by
  -- Each of the 31 shifts is evaluated.
  interval_cases count <;> decide

/-- A `number` converted to `int`. -/
def toInt (n : ℕ) : BitVec 32 := BitVec.ofNat 32 n

/-- An `int` converted to `number`. -/
def ofInt (i : BitVec 32) : ℕ := (i.signExtend 64).toNat

theorem ofInt_eq (i : BitVec 32) :
    ofInt i = i.toNat + if 2 ^ 31 ≤ i.toNat then 2 ^ 64 - 2 ^ 32 else 0 := by
  have hlt := i.isLt
  -- The sign bit is bit 31, and the extension repeats it.
  rw [ofInt, BitVec.toNat_signExtend, BitVec.toNat_setWidth, BitVec.msb_eq_decide,
    Nat.mod_eq_of_lt (by omega)]
  simp only [decide_eq_true_eq]

theorem toInt_ofInt (i : BitVec 32) : toInt (ofInt i) = i := by
  have hlt := i.isLt
  apply BitVec.eq_of_toNat_eq
  rw [toInt, BitVec.toNat_ofNat, ofInt_eq]
  split <;> omega

/-- A number that is an `int` is converted to itself. -/
theorem toInt_toInt {n : ℕ} (h : n < 2 ^ 31) : (toInt n).toInt = n := by
  have hmod : n % 2 ^ 32 = n := Nat.mod_eq_of_lt (by omega)
  rw [toInt, BitVec.toInt_eq_toNat_of_lt, BitVec.toNat_ofNat, hmod]
  rw [BitVec.toNat_ofNat, hmod]
  omega

/-- The numbers that survive the conversion to `int` and back. -/
theorem ofInt_toInt_iff {n : ℕ} (hn : n < 2 ^ 64) :
    ofInt (toInt n) = n ↔ n < 2 ^ 31 ∨ 2 ^ 64 - 2 ^ 31 ≤ n := by
  rw [ofInt_eq, toInt, BitVec.toNat_ofNat]
  split <;> omega

theorem ofInt_toInt {n : ℕ} (h : n < 2 ^ 31) : ofInt (toInt n) = n :=
  (ofInt_toInt_iff (by omega)).mpr (Or.inl h)

end PathORAM
