import PathOram.Cloak.Oram
import PathOram.Tree

/-!
# The tree arithmetic of the variant

On the levels of the tree the shifts of the two variants agree. The variant also shifts on
the level below the leaves, and looks buckets up by two search loops.

* `bucketForLevelLeaf_eq` — the bucket of a path on a level is the ancestor node.
* `pathLocations_base` — `readPath` collects the same locations.
* `searchLevel_eq` — the search of `readPath` finds the bucket it looks for.
* `searchBucket_lt` — the search of `getCache` does not, but what it finds is the ID of some
  bucket.
-/

namespace CloakQueryPathORAM

open PathORAM HeapTree

namespace ORAM

variable {height level leaf leaf' bucketId : ℕ}

/-- The shift count on a level of the tree. -/
theorem shr_count (hlevel : level < height) (hheight : height ≤ 31) :
    (height + 2 ^ 64 - 1 - level) % 2 ^ 64 % 64 = height - 1 - level := by
  omega

theorem bucketForLevelLeaf_base (hlevel : level < height) (hheight : height ≤ 31) (leaf : ℕ) :
    bucketForLevelLeaf height level leaf =
      PathORAM.ORAM.bucketForLevelLeaf height level leaf := by
  unfold bucketForLevelLeaf PathORAM.ORAM.bucketForLevelLeaf shr
  rw [shr_count hlevel hheight]

/-- The shifts compute `node`, also for numbers that are not leaves. -/
theorem bucketForLevelLeaf_node (hlevel : level < height) (hheight : height ≤ 31)
    (hleaf : leaf < 2 ^ 62) :
    bucketForLevelLeaf height level leaf = node height level leaf := by
  have hpow : 2 ^ (height - 1) ≤ 2 ^ 31 := PathORAM.ORAM.two_pow_le_of_height (by omega)
  rw [bucketForLevelLeaf_base hlevel hheight]
  unfold PathORAM.ORAM.bucketForLevelLeaf node
  rw [intShl_eq (by omega), Nat.shiftRight_eq_div_pow, Nat.mod_eq_of_lt (by omega)]

/-- **The bucket of a path on a level is the ancestor of its leaf.** -/
theorem bucketForLevelLeaf_eq (hlevel : level < height) (hheight : height ≤ 31)
    (hleaf : leaf < 2 ^ (height - 1)) :
    bucketForLevelLeaf height level leaf = node height level leaf := by
  have hpow : 2 ^ (height - 1) ≤ 2 ^ 31 := PathORAM.ORAM.two_pow_le_of_height (by omega)
  exact bucketForLevelLeaf_node hlevel hheight (by omega)

theorem canInclude_base (hlevel : level < height) (hheight : height ≤ 31) (leaf leaf' : ℕ) :
    canInclude height leaf leaf' level = PathORAM.ORAM.canInclude height leaf leaf' level := by
  unfold canInclude PathORAM.ORAM.canInclude
  rw [bucketForLevelLeaf_base hlevel hheight, bucketForLevelLeaf_base hlevel hheight]

theorem pathLocations_base {c : Config} (hheight : c.height ≤ 31) (leaf : ℕ) (path : List ℕ) :
    pathLocations c leaf path = PathORAM.ORAM.pathLocations c.toConfig leaf path :=
  List.foldl_ext _ _ path fun path level hlevel => by
    rw [bucketForLevelLeaf_base (List.mem_range.mp hlevel) hheight]

/-- On the level below the leaves every shift is by 63. -/
theorem shr_count_last (height : ℕ) : (height + 2 ^ 64 - 1 - height) % 2 ^ 64 % 64 = 63 := by
  omega

/-- What is found on the level below the leaves is one of the first two locations. -/
theorem bucketForLevelLeaf_last_lt (height leaf : ℕ) :
    bucketForLevelLeaf height height leaf < 2 := by
  have hlt := Nat.mod_lt (leaf + intShl (height - 1)) (Nat.two_pow_pos 64)
  unfold bucketForLevelLeaf shr
  rw [shr_count_last, Nat.shiftRight_eq_div_pow]
  omega

/-! ### Searching a bucket -/

/-- **The search of `readPath` finds the level of a bucket of the path.** -/
theorem searchLevel_eq {fuel : ℕ} (hfuel : fuel + level = height)
    (hmem : ∃ l, level ≤ l ∧ l < height ∧ bucketForLevelLeaf height l leaf = bucketId) :
    bucketForLevelLeaf height (searchLevel height bucketId leaf fuel level) leaf = bucketId := by
  induction fuel generalizing level with
  | zero =>
    obtain ⟨l, hl, hlt, -⟩ := hmem
    omega
  | succ fuel ih =>
    rw [searchLevel]
    split
    · next hne =>
      -- The bucket is on a later level.
      obtain ⟨l, hl, hlt, heq⟩ := hmem
      have hne' : l ≠ level := fun h => hne.1 (h ▸ heq)
      exact ih (by omega) ⟨l, by omega, hlt, heq⟩
    · next heq =>
      obtain ⟨l, hl, hlt, -⟩ := hmem
      by_contra hne
      exact heq ⟨hne, by omega⟩

/-- **On a path every bucket is found.** -/
theorem searchLevel_of_mem_path {c : Config} (hc : c.Valid) (hleaf : leaf < 2 ^ (c.height - 1))
    (hmem : bucketId ∈ HeapTree.path c.height leaf) :
    bucketForLevelLeaf c.height (searchLevel c.height bucketId leaf c.height 0) leaf =
      bucketId := by
  obtain ⟨level, hlevel, hnode⟩ := HeapTree.mem_path.mp hmem
  exact searchLevel_eq (Nat.add_zero c.height) ⟨level, Nat.zero_le _, hlevel,
    (bucketForLevelLeaf_eq hlevel hc.height_le hleaf).trans hnode⟩

/-- Where the search of `getCache` may stand: at its start, or on a level below with the
leaf that belongs to it. -/
def SearchAt (height bucketId level leaf : ℕ) : Prop :=
  (level = 0 ∧ leaf = 0) ∨
    (1 ≤ level ∧ leaf = shl bucketId ((height + 2 ^ 64 - level - 1) % 2 ^ 64))

theorem searchBucket_spec {fuel : ℕ} (hfuel : fuel + level = height)
    (h : SearchAt height bucketId level leaf) :
    ∃ level' leaf', searchBucket height bucketId fuel level leaf = (level', leaf') ∧
      SearchAt height bucketId level' leaf' ∧
      (level' = height ∨
        level' < height ∧ bucketForLevelLeaf height level' bucketId = bucketId) := by
  induction fuel generalizing level leaf with
  | zero => exact ⟨level, leaf, rfl, h, Or.inl (by omega)⟩
  | succ fuel ih =>
    rw [searchBucket]
    split
    · exact ih (by omega) (Or.inr ⟨by omega, rfl⟩)
    · next hstop =>
      refine ⟨level, leaf, rfl, h, Or.inr ⟨by omega, ?_⟩⟩
      by_contra hne
      exact hstop ⟨hne, by omega⟩

/-- A location that takes the place of a leaf is verified against the MAC `2 ^ level` locations
further on. -/
theorem bucketForLevelLeaf_shl (hheight : height ≤ 31) (hlevel : level < height)
    (hbucket : bucketId < 2 ^ height) :
    bucketForLevelLeaf height level (shl bucketId ((height + 2 ^ 64 - level - 1) % 2 ^ 64)) =
      bucketId + 2 ^ level := by
  have hsplit : 2 ^ (height - 1) = 2 ^ level * 2 ^ (height - 1 - level) := two_pow_split hlevel
  have hpow : 2 ^ height ≤ 2 ^ 31 := PathORAM.ORAM.two_pow_le_of_height hheight
  have hcount : (height + 2 ^ 64 - level - 1) % 2 ^ 64 % 64 = height - 1 - level := by omega
  have hwidth : 2 ^ (height - 1 - level) ≤ 2 ^ 30 :=
    Nat.pow_le_pow_right (by norm_num) (by omega)
  have hle : bucketId * 2 ^ (height - 1 - level) ≤ 2 ^ 31 * 2 ^ 30 :=
    Nat.mul_le_mul (by omega) hwidth
  have hshl : shl bucketId ((height + 2 ^ 64 - level - 1) % 2 ^ 64) =
      bucketId * 2 ^ (height - 1 - level) := by
    unfold shl
    rw [hcount, Nat.shiftLeft_eq, Nat.mod_eq_of_lt (by omega)]
  rw [hshl, bucketForLevelLeaf_node hlevel hheight (by omega), node, hsplit, ← Nat.add_mul,
    Nat.mul_div_cancel _ (Nat.two_pow_pos _)]

/-- What the search finds on a level of the tree is verified against the MAC of a location of
the tree. -/
theorem bucketForLevelLeaf_found_lt (hheight : height ≤ 31) (hlevel : level < height)
    (hbucket : bucketId < 2 ^ height) (h : SearchAt height bucketId level leaf)
    (hfound : bucketForLevelLeaf height level bucketId = bucketId) :
    bucketForLevelLeaf height level leaf < 2 ^ height := by
  have hsplit : 2 ^ (height - 1) = 2 ^ level * 2 ^ (height - 1 - level) := two_pow_split hlevel
  have hpow : 2 ^ height ≤ 2 ^ 31 := PathORAM.ORAM.two_pow_le_of_height hheight
  have hhalf : 2 ^ height = 2 * 2 ^ (height - 1) := by
    rw [← pow_succ']
    congr 1
    omega
  rcases h with ⟨rfl, rfl⟩ | ⟨hone, rfl⟩
  -- At its start the search looks the root up.
  · rw [bucketForLevelLeaf_node hlevel hheight (by norm_num)]
    exact node_lt_two_pow hlevel (Nat.two_pow_pos _)
  -- On a later level the location is shifted back to the last level.
  · rw [bucketForLevelLeaf_node hlevel hheight (by omega)] at hfound
    rw [bucketForLevelLeaf_shl hheight hlevel hbucket]
    unfold node at hfound
    rw [hsplit, Nat.add_mul_div_right _ _ (Nat.two_pow_pos _)] at hfound
    rw [hhalf, hsplit]
    set width := 2 ^ (height - 1 - level) with hwidthdef
    have hlevelpos : 0 < 2 ^ level := Nat.two_pow_pos level
    -- The found location is above the last level, so the width is at least 2.
    have htwo : 2 ≤ width := by
      by_contra hlt
      have hone : width = 1 := by have := Nat.two_pow_pos (height - 1 - level); omega
      rw [hone, Nat.div_one] at hfound
      omega
    have hdiv : bucketId / width ≤ bucketId / 2 := Nat.div_le_div_left htwo (by norm_num)
    have hmul : 2 ^ level * 2 ≤ 2 ^ level * width := Nat.mul_le_mul_left _ htwo
    omega

/-- **`getCache` verifies a bucket against the MAC of some bucket**, though rarely its
own. -/
theorem searchBucket_lt (hpos : 1 ≤ height) (hheight : height ≤ 31)
    (hbucket : bucketId < 2 ^ height) :
    bucketForLevelLeaf height (searchBucket height bucketId height 0 0).1
      (searchBucket height bucketId height 0 0).2 < 2 ^ height := by
  obtain ⟨level, leaf, heq, hat, hstop⟩ :=
    searchBucket_spec (Nat.add_zero height) (Or.inl ⟨rfl, rfl⟩)
  rw [heq]
  rcases hstop with rfl | ⟨hlevel, hfound⟩
  · exact (bucketForLevelLeaf_last_lt _ leaf).trans_le
      (Nat.pow_le_pow_right (by norm_num) hpos : 2 ^ 1 ≤ 2 ^ _)
  · exact bucketForLevelLeaf_found_lt hheight hlevel hbucket hat hfound

end ORAM

end CloakQueryPathORAM
