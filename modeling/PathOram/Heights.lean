import PathOram.Tree

/-!
# The tree arithmetic over all heights

The constructor of `oram.cpp` takes any `logCapacity` and counts buckets and blocks in 64 bits,
`(number)1 << logCapacity`. The other functions shift the literal `1`, which is an `int` of 32
bits.

* `heapArithmetic` — up to a height of 31 the three functions compute in a heap-order tree: the
  buckets of a path halve from level to level, two leaves that share a bucket share those above
  it, and the leaf ranges of a level are a partition.
* `treeArithmetic_iff` — from a height of 32 on, the bound of the random leaves is not the number
  of leaves.
-/

namespace PathORAM

open HeapTree

/-! ### The heap-order tree -/

namespace ORAM

variable {height level level' leaf leaf' location : ℕ}

/-- The leaf is in the range of the location. -/
def InRange (height location leaf : ℕ) : Prop :=
  ∃ lo hi, leavesForLocation height location = .ok (lo, hi) ∧ lo ≤ leaf ∧ leaf ≤ hi

/-- What the protocol relies on, for the leaves `0..2 ^ (height - 1) - 1`, the levels
`0..height - 1` and the locations `1..2 ^ height - 1`. -/
structure HeapArithmetic (height : ℕ) : Prop where
  distinct : ∀ leaf < 2 ^ (height - 1), ∀ level < height, ∀ level' < height,
    bucketForLevelLeaf height level leaf = bucketForLevelLeaf height level' leaf → level = level'
  half : ∀ leaf < 2 ^ (height - 1), ∀ level, level + 1 < height →
    bucketForLevelLeaf height level leaf = bucketForLevelLeaf height (level + 1) leaf / 2
  equivalence : ∀ level < height, Equivalence fun x y : Fin (2 ^ (height - 1)) =>
    canInclude height x y level = true
  mono : ∀ x < 2 ^ (height - 1), ∀ y < 2 ^ (height - 1), ∀ level < height, ∀ level' ≤ level,
    canInclude height x y level = true → canInclude height x y level' = true
  range : ∀ location, 1 ≤ location → location ≤ 2 ^ height - 1 →
    ∀ leaf < 2 ^ (height - 1), InRange height location leaf ↔
      bucketForLevelLeaf height (Nat.log2 location) leaf = location
  /-- The range of a location is not empty, and holds leaves only. -/
  leaves : ∀ location, 1 ≤ location → location ≤ 2 ^ height - 1 →
    (∃ leaf, InRange height location leaf) ∧
      ∀ leaf, InRange height location leaf → leaf < 2 ^ (height - 1)
  /-- Every leaf is in the range of one location of each level. -/
  partition : ∀ level < height, ∀ leaf < 2 ^ (height - 1),
    ∃! location, (2 ^ level ≤ location ∧ location < 2 ^ (level + 1)) ∧
      InRange height location leaf

theorem inRange_iff (hpos : 1 ≤ height) (hheight : height ≤ 31)
    (hlocation : InTree height location) :
    InRange height location leaf ↔ OnPath height location leaf := by
  obtain ⟨lo, hi, heq, -, -, hleaf⟩ := leavesForLocation_iff hpos hheight hlocation
  rw [← hleaf leaf]
  -- the range of leaves of a location is unique
  constructor
  · rintro ⟨lo', hi', heq', hrange⟩
    rw [heq] at heq'
    cases heq'
    exact hrange
  · intro hrange
    exact ⟨lo, hi, heq, hrange⟩

theorem canInclude_iff_node (hpos : 1 ≤ height) (hheight : height ≤ 31)
    (hleaf : leaf < 2 ^ (height - 1)) (hleaf' : leaf' < 2 ^ (height - 1)) :
    canInclude height leaf leaf' level = true ↔
      node height level leaf = node height level leaf' := by
  rw [canInclude, beq_iff_eq, bucketForLevelLeaf_eq hpos hheight hleaf,
    bucketForLevelLeaf_eq hpos hheight hleaf']

/-- To share a bucket of a level is to have the same ancestor there. -/
theorem equivalence_canInclude (hpos : 1 ≤ height) (hheight : height ≤ 31) (level : ℕ) :
    Equivalence fun x y : Fin (2 ^ (height - 1)) => canInclude height x y level = true := by
  have hnode : ∀ x y : Fin (2 ^ (height - 1)), canInclude height x y level = true ↔
      node height level x = node height level y := fun x y =>
    canInclude_iff_node hpos hheight x.isLt y.isLt
  refine ⟨fun x => (hnode x x).mpr rfl, fun {x y} hxy => ?_, fun {x y z} hxy hyz => ?_⟩
  · exact (hnode y x).mpr ((hnode x y).mp hxy).symm
  · exact (hnode x z).mpr (((hnode x y).mp hxy).trans ((hnode y z).mp hyz))

/-- The locations of a level, by their number. -/
theorem log2_of_level (hlevel : level < height) (hlow : 2 ^ level ≤ location)
    (hhigh : location < 2 ^ (level + 1)) : Nat.log2 location = level ∧ InTree height location := by
  have hpos : 0 < location := (Nat.two_pow_pos level).trans_le hlow
  have hpow : 2 ^ (level + 1) ≤ 2 ^ height := Nat.pow_le_pow_right two_pos hlevel
  exact ⟨(Nat.log2_eq_iff hpos.ne').mpr ⟨hlow, hhigh⟩, hpos, hhigh.trans_le hpow⟩

/-- The ranges of one level are a partition. -/
theorem existsUnique_inRange (hpos : 1 ≤ height) (hheight : height ≤ 31) (hlevel : level < height)
    (hleaf : leaf < 2 ^ (height - 1)) :
    ∃! location, (2 ^ level ≤ location ∧ location < 2 ^ (level + 1)) ∧
      InRange height location leaf := by
  have hlow : 2 ^ level ≤ node height level leaf := two_pow_le_node hlevel
  have hhigh := node_lt hlevel hleaf
  -- The location is the ancestor of the leaf.
  refine ⟨node height level leaf, ⟨⟨hlow, hhigh⟩, ?_⟩, fun location ⟨⟨hlow', hhigh'⟩, hrange⟩ => ?_⟩
  · obtain ⟨-, htree⟩ := log2_of_level hlevel hlow hhigh
    exact (inRange_iff hpos hheight htree).mpr (onPath_node hlevel hleaf)
  · obtain ⟨hlog, htree⟩ := log2_of_level hlevel hlow' hhigh'
    have honPath := (inRange_iff hpos hheight htree).mp hrange
    rwa [OnPath, hlog] at honPath

/-- **The heap arithmetic of the tree.** For heights up to 31 the buckets are numbered as in a
binary heap: a path has one bucket on each level, two paths that meet on a level share all buckets
above it, and on each level the leaves are divided into the ranges of its locations. -/
theorem heapArithmetic (hpos : 1 ≤ height) (hheight : height ≤ 31) : HeapArithmetic height := by
  -- on leaves of the tree the code computes the node of the heap
  have hnode : ∀ level leaf, leaf < 2 ^ (height - 1) →
      bucketForLevelLeaf height level leaf = node height level leaf := fun level leaf hleaf =>
    bucketForLevelLeaf_eq hpos hheight hleaf
  have hinTree : ∀ location, 1 ≤ location → location ≤ 2 ^ height - 1 → InTree height location :=
    fun location h₁ h₂ => ⟨h₁, by omega⟩
  refine ⟨?distinct, ?half, ?equivalence, ?mono, ?range, ?leaves, ?partition⟩
  case distinct =>
    intro leaf hleaf level hlevel level' hlevel' heq
    rw [hnode level leaf hleaf, hnode level' leaf hleaf] at heq
    exact node_injective_level hlevel hlevel' hleaf hleaf heq
  case half =>
    intro leaf hleaf level hlevel
    rw [hnode level leaf hleaf, hnode (level + 1) leaf hleaf]
    exact node_half hlevel
  case equivalence =>
    intro level _
    exact equivalence_canInclude hpos hheight level
  case mono =>
    intro x hx y hy level hlevel level' hle h
    rw [canInclude_iff_node hpos hheight hx hy] at h ⊢
    exact node_eq_of_le hlevel hle h
  case range =>
    intro location h₁ h₂ leaf hleaf
    rw [inRange_iff hpos hheight (hinTree location h₁ h₂), hnode _ leaf hleaf]
    exact eq_comm
  case leaves =>
    intro location h₁ h₂
    obtain ⟨lo, hi, heq, hle, hlt, -⟩ :=
      leavesForLocation_iff hpos hheight (hinTree location h₁ h₂)
    refine ⟨⟨lo, lo, hi, heq, le_rfl, hle⟩, fun leaf ⟨lo', hi', heq', _, hhi'⟩ => ?_⟩
    rw [heq] at heq'
    cases heq'
    exact hhi'.trans_lt hlt
  case partition =>
    intro level hlevel leaf hleaf
    exact existsUnique_inRange hpos hheight hlevel hleaf

theorem heapArithmetic_five : HeapArithmetic 5 := heapArithmetic (by decide) (by decide)

/-! ### Heights beyond the range of an `int` -/

/-- The numbers that a tree of the height needs. `intShl (height - 1)` is what the constructor
and `access` pass to `getRandomULong`. -/
structure TreeArithmetic (height : ℕ) : Prop where
  bound : intShl (height - 1) = 2 ^ (height - 1)
  bucket : ∀ leaf < 2 ^ (height - 1), ∀ level < height,
    2 ^ level ≤ bucketForLevelLeaf height level leaf ∧
      bucketForLevelLeaf height level leaf < 2 ^ (level + 1)
  leaves : ∀ leaf < 2 ^ (height - 1), ∀ level < height,
    InRange height (bucketForLevelLeaf height level leaf) leaf

/-- An `int` that is converted to `number` is small, or was negative. -/
theorem intShl_lt_or (count : ℕ) : intShl count < 2 ^ 31 ∨ 2 ^ 64 - 2 ^ 31 ≤ intShl count := by
  have heq := ofInt_eq (1#32 <<< (count % 32))
  have hlt := (1#32 <<< (count % 32)).isLt
  rw [show intShl count = ofInt (1#32 <<< (count % 32)) from rfl, heq]
  split <;> omega

/-- **The tree arithmetic is that of the tree exactly up to a height of 31.** From 32 on the number
of leaves is none that the shift of an `int` gives, so the bound for the random leaves is wrong;
the sizes are counted in 64 bits and stay right. -/
theorem treeArithmetic_iff (hpos : 1 ≤ height) (hheight : height ≤ 62) :
    TreeArithmetic height ↔ height ≤ 31 := by
  constructor
  · rintro ⟨hbound, -, -⟩
    by_contra hlarge
    -- The number of leaves is none that a shift of an `int` gives.
    have hlow : 2 ^ 31 ≤ 2 ^ (height - 1) := Nat.pow_le_pow_right two_pos (by omega)
    have hhigh : 2 ^ (height - 1) ≤ 2 ^ 61 := Nat.pow_le_pow_right two_pos (by omega)
    rcases intShl_lt_or (height - 1) with h | h <;> omega
  · intro hle
    refine ⟨intShl_eq (by omega), fun leaf hleaf level hlevel => ?_,
      fun leaf hleaf level hlevel => ?_⟩
    · rw [bucketForLevelLeaf_eq hpos hle hleaf]
      exact ⟨two_pow_le_node hlevel, node_lt hlevel hleaf⟩
    · rw [bucketForLevelLeaf_eq hpos hle hleaf]
      refine (inRange_iff hpos hle ⟨node_pos hlevel, node_lt_two_pow hlevel hleaf⟩).mpr ?_
      exact onPath_node hlevel hleaf

theorem treeArithmetic_iff_thirty_two : TreeArithmetic 32 ↔ 32 ≤ 31 :=
  treeArithmetic_iff (by decide) (by decide)

/-- At a height of 32 the bound is the negative number `-2 ^ 31`, taken as unsigned. -/
theorem not_treeArithmetic : ¬ ∀ height, 1 ≤ height → height ≤ 62 → TreeArithmetic height := by
  intro hall
  have hbound := (hall 32 (by decide) (by decide)).bound
  revert hbound
  decide

end ORAM

end PathORAM
