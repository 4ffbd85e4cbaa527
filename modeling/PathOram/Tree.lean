import PathOram.Oram
import PathOram.Lib.HeapTree

/-!
# The tree arithmetic of the ORAM

The shifts of `oram.cpp` compute in the heap-order tree of `HeapTree`, for every height
from 1 to 31 and every leaf of the tree. No intermediate value overflows there.

* `bucketForLevelLeaf_eq` — the bucket of a path on a level is the ancestor node.
* `canInclude_iff` — two paths share a bucket when it lies on the other path.
* `mem_pathLocations` — `readPath` collects the nodes of the path.
* `leavesForLocation_iff` — the leaf range of a location is the set of leaves below it.
-/

namespace PathORAM

open HeapTree

/-- A configuration whose parts fit together: a height the shifts are defined for, a
storage adapter of the same bucket and block size that has room for the tree, and a
cipher that decrypts what it encrypted. -/
structure Config.Matching (c : Config) : Prop where
  height_pos : 1 ≤ c.height
  height_le : c.height ≤ 31
  Z_eq : c.storage.Z = c.Z
  dataSize_eq : c.storage.userBlockSize = c.dataSize
  capacity_ge : 2 ^ c.height ≤ c.storage.capacity
  crypto_lawful : c.crypto.Lawful

/-- A configuration whose block count is a 64-bit number, as it is when a position map has
an entry for every block. -/
structure Config.Valid (c : Config) : Prop extends c.Matching where
  blocks_lt : 2 ^ c.height * c.Z < 2 ^ 64

namespace Config.Valid

variable {c : Config}

theorem Z_pos (hc : c.Valid) : 0 < c.Z := hc.Z_eq ▸ c.storage.Z_pos

theorem blocks_eq (hc : c.Valid) : c.blocks = 2 ^ c.height * c.Z :=
  Nat.mod_eq_of_lt hc.blocks_lt

/-- No ID in range is the ID of an "empty" block. -/
theorem ne_ULONG_MAX (hc : c.Valid) {id : ℕ} (hid : id < c.blocks) : id ≠ ULONG_MAX := by
  have hlt := hc.blocks_lt
  rw [hc.blocks_eq] at hid
  unfold ULONG_MAX
  omega

theorem intShl_height (hc : c.Valid) : intShl (c.height - 1) = 2 ^ (c.height - 1) :=
  intShl_eq (by have := hc.height_pos; have := hc.height_le; omega)

/-- A node of the tree is a location of the storage adapter. -/
theorem lt_capacity (hc : c.Valid) {b : ℕ} (hb : InTree c.height b) :
    b < c.storage.capacity :=
  hb.2.trans_le hc.capacity_ge

end Config.Valid

/-- A storage adapter that was constructed has the sizes it was given. -/
theorem StorageConfig.of_new {capacity userBlockSize Z batchLimit : ℕ} {key : Bytes} {r : Random}
    {storage : StorageConfig}
    (h : StorageConfig.new capacity userBlockSize key Z batchLimit r = .ok storage) :
    storage.capacity = capacity ∧ storage.userBlockSize = userBlockSize ∧ storage.Z = Z ∧
      storage.batchLimit = batchLimit := by
  unfold StorageConfig.new at h
  -- Whether the key is replaced does not matter.
  split_ifs at h <;> cases h <;> exact ⟨rfl, rfl, rfl, rfl⟩

/-- A key of the right size is not replaced. -/
theorem StorageConfig.key_of_new {capacity userBlockSize Z batchLimit : ℕ} {key : Bytes}
    {r : Random} {storage : StorageConfig} (hkey : key.length = KEYSIZE)
    (h : StorageConfig.new capacity userBlockSize key Z batchLimit r = .ok storage) :
    storage.key = key := by
  unfold StorageConfig.new at h
  split_ifs at h
  cases h
  rfl

/-- **The shorthand constructor** gives parts that fit together. For a height of 31 the
capacity of the storage is a negative `int`, which is a large `number`. -/
theorem Config.shorthand_valid {logCapacity blockSize Z : ℕ} {crypto : Crypto} {r : Random}
    {c : Config} (hc : Config.shorthand logCapacity blockSize Z crypto r = .ok c)
    (hpos : 1 ≤ logCapacity) (hle : logCapacity ≤ 31) (hcrypto : crypto.Lawful)
    (hblocks : 2 ^ logCapacity * Z < 2 ^ 64) :
    c.Valid ∧ c.height = logCapacity ∧ c.Z = Z ∧
      c.stashCapacity = 3 * logCapacity * Z % 2 ^ 64 := by
  unfold Config.shorthand at hc
  cases hnew : StorageConfig.new (intShl logCapacity) blockSize [] Z 0 r with
  | error e =>
    rw [hnew] at hc
    cases hc
  | ok storage =>
    rw [hnew] at hc
    cases hc
    obtain ⟨hcapacity, hsize, hZ, -⟩ := StorageConfig.of_new hnew
    have hroom : 2 ^ logCapacity ≤ intShl logCapacity := by
      rcases hle.lt_or_eq with hlt | rfl
      · exact (intShl_eq hlt).ge
      · decide
    exact ⟨⟨⟨hpos, hle, hZ, hsize, hcapacity ▸ hroom, hcrypto⟩, hblocks⟩, rfl, rfl, rfl⟩

namespace ORAM

variable {height level leaf leaf' : ℕ}

theorem two_pow_le_of_height (hheight : height ≤ 31) : 2 ^ height ≤ 2 ^ 31 :=
  Nat.pow_le_pow_right (by norm_num) hheight

/-- **The bucket of a path on a level is the ancestor of its leaf.** -/
theorem bucketForLevelLeaf_eq (hpos : 1 ≤ height) (hheight : height ≤ 31)
    (hleaf : leaf < 2 ^ (height - 1)) :
    bucketForLevelLeaf height level leaf = node height level leaf := by
  have hpow : 2 ^ (height - 1) ≤ 2 ^ 31 := two_pow_le_of_height (by omega)
  unfold bucketForLevelLeaf node
  -- The sum stays below `2 ^ 32`, so the reduction modulo `2 ^ 64` does nothing.
  rw [intShl_eq (by omega), Nat.shiftRight_eq_div_pow, Nat.mod_eq_of_lt (by omega)]

theorem canInclude_iff (hpos : 1 ≤ height) (hheight : height ≤ 31) (hlevel : level < height)
    (hleaf : leaf < 2 ^ (height - 1)) (hleaf' : leaf' < 2 ^ (height - 1)) :
    canInclude height leaf' leaf level = true ↔ OnPath height (node height level leaf) leaf' := by
  unfold canInclude
  rw [beq_iff_eq, bucketForLevelLeaf_eq hpos hheight hleaf,
    bucketForLevelLeaf_eq hpos hheight hleaf', onPath_node_iff hlevel hleaf]

section PathLocations

variable {c : Config}

/-- The set of `readPath` gains exactly the nodes of the path. -/
theorem mem_pathLocations (hc : c.Valid) (hleaf : leaf < 2 ^ (c.height - 1))
    (locations : List ℕ) (b : ℕ) :
    b ∈ pathLocations c leaf locations ↔ b ∈ locations ∨ b ∈ path c.height leaf := by
  -- The set grows along the list of levels, whatever it held before.
  have hfold : ∀ (levels : List ℕ) (locations : List ℕ),
      b ∈ levels.foldl (fun locations level =>
        locations.insert (bucketForLevelLeaf c.height level leaf)) locations ↔
      b ∈ locations ∨ ∃ level ∈ levels, node c.height level leaf = b := by
    intro levels
    induction levels with
    | nil => simp
    | cons level levels ih =>
      intro locations
      rw [List.foldl_cons, ih, bucketForLevelLeaf_eq hc.height_pos hc.height_le hleaf,
        List.mem_insert_iff, List.exists_mem_cons_iff, or_comm (a := b = _), or_assoc,
        eq_comm (a := b)]
  rw [pathLocations, hfold, mem_path]
  simp only [List.mem_range]

end PathLocations

/-- **The leaf range of a location holds exactly the leaves below it.** -/
theorem leavesForLocation_iff {location : ℕ} (hpos : 1 ≤ height) (hheight : height ≤ 31)
    (hlocation : InTree height location) :
    ∃ lo hi, leavesForLocation height location = .ok (lo, hi) ∧ lo ≤ hi ∧
      hi < 2 ^ (height - 1) ∧
      ∀ leaf, (lo ≤ leaf ∧ leaf ≤ hi) ↔ OnPath height location leaf := by
  have hlevel : Nat.log2 location < height :=
    (Nat.log2_lt (Nat.one_le_iff_ne_zero.mp hlocation.1)).mpr hlocation.2
  -- The numbers of the source as powers of two: `width` leaves are below the location.
  set level := Nat.log2 location with hleveldef
  have hpow : 2 ^ (height - 1) ≤ 2 ^ 31 := two_pow_le_of_height (by omega)
  have hsplit : 2 ^ (height - 1) = 2 ^ level * 2 ^ (height - 1 - level) :=
    two_pow_split hlevel
  have hbounds := (Nat.log2_eq_iff (k := level) (Nat.one_le_iff_ne_zero.mp hlocation.1)).mp rfl
  have htoLeaves : (height + 2 ^ 64 - level - 1) % 2 ^ 64 = height - 1 - level := by omega
  have hwidth : 0 < 2 ^ (height - 1 - level) := Nat.two_pow_pos _
  set width := 2 ^ (height - 1 - level) with hwidthdef
  -- The interval of the location lies inside that of the whole last level.
  have hlo : 2 ^ (height - 1) ≤ location * width := by
    rw [hsplit]
    exact Nat.mul_le_mul_right _ hbounds.1
  have hhi : (location + 1) * width ≤ 2 * 2 ^ (height - 1) := by
    rw [hsplit, ← mul_assoc, ← pow_succ']
    exact Nat.mul_le_mul_right _ hbounds.2
  have hsucc : (location + 1) * width = location * width + width := Nat.succ_mul _ _
  refine ⟨location * width - 2 ^ (height - 1), (location + 1) * width - 1 - 2 ^ (height - 1),
    ?_, by omega, by omega, ?_⟩
  · unfold leavesForLocation
    simp only [← hleveldef, htoLeaves]
    -- No subtraction wraps around, because the bounds above hold in `ℕ`.
    rw [if_neg (by omega), intShl_eq (by omega), intShl_eq (by omega), ← hwidthdef]
    congr 2 <;> omega
  -- The interval is that of `onPath_iff_range`, moved to the numbers of the leaves.
  · intro leaf
    rw [onPath_iff_range, ← hleveldef, ← hwidthdef]
    omega

theorem leavesForLocation_spec {location : ℕ} (hpos : 1 ≤ height) (hheight : height ≤ 30)
    (hlocation : InTree height location) :
    ∃ lo hi, leavesForLocation height location = .ok (lo, hi) ∧ lo ≤ hi ∧
      hi < 2 ^ (height - 1) ∧
      ∀ leaf, lo ≤ leaf → leaf ≤ hi → OnPath height location leaf := by
  obtain ⟨lo, hi, heq, hle, hlt, hleaf⟩ :=
    leavesForLocation_iff hpos (hheight.trans (by decide)) hlocation
  exact ⟨lo, hi, heq, hle, hlt, fun leaf hl hh => (hleaf leaf).mp ⟨hl, hh⟩⟩

end ORAM

end PathORAM
