import PathOram.Cloak.MacMap

/-!
# Levels, leaves and locations

Two loops of the variant turn the location of a bucket to a level and a leaf, or back, by
shifts.

* `getCache` searches the level and the leaf of a bucket that it downloaded. It passes the
  location where a leaf is expected, so it finds the bucket itself only if that is the root
  (`findsBucket_iff`).
* `computeAndStoreAllBucketMACs` visits all buckets level by level. It goes one level too far,
  where the count of a shift wraps around and location 0 is visited (`not_macsCover`). The
  levels before give every bucket its MAC, and no bucket changes
  (`computeAndStoreAllBucketMACs_content`).
-/

namespace CloakQueryPathORAM

open PathORAM Hoare HeapTree AbsStorageAdapter

namespace ORAM

/-- The count of the shift to a level, in `bucketForLevelLeaf`. -/
def levelCount (height level : ℕ) : ℕ := (height + 2 ^ 64 - 1 - level) % 2 ^ 64

/-- The count of the shift from a level to the leaves. -/
def leafCount (height level : ℕ) : ℕ := (height + 2 ^ 64 - level - 1) % 2 ^ 64

/-! ### The search of a downloaded bucket -/

section Search

variable {height b : ℕ}

/-- The counts of the shifts of the search of `getCache`, in their order. -/
def searchShifts (height bucketId : ℕ) : ℕ → ℕ → List ℕ
  -- The condition of the loop is evaluated once more than its body.
  | 0, level => [height - 1, levelCount height level]
  | fuel + 1, level =>
    [height - 1, levelCount height level] ++
      if bucketForLevelLeaf height level bucketId ≠ bucketId ∧ level < height then
        leafCount height (level + 1) :: searchShifts height bucketId fuel (level + 1)
      else []

/-- The search finds the level and a leaf of the bucket `b`, so that `verifyBucketMAC` looks up
its MAC. -/
structure FindsBucket (height b : ℕ) : Prop where
  shifts : ∀ count ∈ searchShifts height b height 0, count < 64
  level : (searchBucket height b height 0 0).1 < height
  leaf : (searchBucket height b height 0 0).2 < 2 ^ (height - 1)
  bucket : bucketForLevelLeaf height (searchBucket height b height 0 0).1
    (searchBucket height b height 0 0).2 = b

theorem bucketForLevelLeaf_root (hpos : 1 ≤ height) (hheight : height ≤ 31) :
    bucketForLevelLeaf height 0 0 = 1 := by
  rw [bucketForLevelLeaf_node hpos hheight (by norm_num), node, Nat.zero_add, Nat.sub_zero,
    Nat.div_self (Nat.two_pow_pos _)]

/-- The root takes the place of a leaf, and is still below the root. -/
theorem bucketForLevelLeaf_one (hheight : height ≤ 31) (htwo : 2 ≤ height) :
    bucketForLevelLeaf height 0 1 = 1 := by
  have hlt : 1 < 2 ^ (height - 1) := Nat.one_lt_two_pow (by omega)
  rw [bucketForLevelLeaf_node (by omega) hheight (by norm_num), node, Nat.sub_zero,
    Nat.add_div_right _ (Nat.two_pow_pos _), Nat.div_eq_of_lt hlt]

/-- The root is found at once. -/
theorem findsBucket_root (hheight : height ≤ 31) (htwo : 2 ≤ height) : FindsBucket height 1 := by
  have hroot := bucketForLevelLeaf_one hheight htwo
  obtain ⟨height, rfl⟩ : ∃ n, height = n + 1 := ⟨height - 1, by omega⟩
  -- the search starts at the root and stops there at once
  have hstop : ¬(bucketForLevelLeaf (height + 1) 0 1 ≠ 1 ∧ 0 < height + 1) := fun h => h.1 hroot
  have hsearch : searchBucket (height + 1) 1 (height + 1) 0 0 = (0, 0) := by
    rw [searchBucket, if_neg hstop]
  refine ⟨fun count hcount => ?_, ?_, ?_, ?_⟩
  · rw [searchShifts, if_neg hstop, List.append_nil] at hcount
    unfold levelCount at hcount
    simp only [List.mem_cons, List.not_mem_nil, or_false] at hcount
    omega
  · rw [hsearch]
    exact Nat.succ_pos _
  · rw [hsearch]
    exact Nat.two_pow_pos _
  · rw [hsearch]
    exact bucketForLevelLeaf_root (Nat.succ_pos _) hheight

/-- **The search finds the bucket exactly if it is the root** of a tree of two levels or more. It
takes the location for a leaf: the root is found with the leaf 1 on the first level, and on any
later level the search ends with the location of another bucket, or with a level that does not
exist. -/
theorem findsBucket_iff (hpos : 1 ≤ height) (hheight : height ≤ 31) (hb : 1 ≤ b)
    (hlt : b < 2 ^ height) : FindsBucket height b ↔ 2 ≤ height ∧ b = 1 := by
  constructor
  · rintro ⟨-, hlevel, -, hbucket⟩
    have hstart : SearchAt height b 0 0 := Or.inl ⟨rfl, rfl⟩
    obtain ⟨level, leaf, heq, hat, hstop⟩ := searchBucket_spec (Nat.add_zero height) hstart
    rw [heq] at hlevel hbucket
    dsimp only at hlevel hbucket
    obtain ⟨-, hfound⟩ := hstop.resolve_left hlevel.ne
    rcases hat with ⟨rfl, rfl⟩ | ⟨-, rfl⟩
    -- Nothing but the root is found with the leaf that the search starts with.
    · have hroot : b = 1 := hbucket.symm.trans (bucketForLevelLeaf_root hpos hheight)
      subst hroot
      refine ⟨?_, rfl⟩
      by_contra hone
      have hheight' : height = 1 := by omega
      subst hheight'
      exact absurd hfound (by decide)
    -- On a later level the search ends with the location of another bucket.
    · rw [bucketForLevelLeaf_shl hheight hlevel hlt] at hbucket
      have hpow := Nat.two_pow_pos level
      omega
  · rintro ⟨htwo, rfl⟩
    exact findsBucket_root hheight htwo

/-- The root of a tree of three levels. -/
theorem findsBucket_iff_three : FindsBucket 3 1 :=
  (findsBucket_iff (by decide) (by decide) le_rfl (by decide)).mpr ⟨by decide, rfl⟩

/-- The last bucket of a tree of two levels is not found on any level. -/
theorem not_findsBucket :
    ¬∀ height b : ℕ, 1 ≤ height → height ≤ 31 → 1 ≤ b → b < 2 ^ height →
      FindsBucket height b := fun h =>
  absurd (h 2 3 (by decide) (by decide) (by decide) (by decide)).level (by decide)

end Search

/-! ### The MACs of all buckets -/

section Macs

variable {c : Config} {M : Type}

/-- The counts of the shifts of `computeAndStoreAllBucketMACs`: on every level, that of its
number of buckets, and for every bucket those of its leaf and of its location, which is computed
twice. -/
def macShifts (height : ℕ) : List ℕ :=
  (List.range (height + 1)).flatMap (fun level =>
    level :: (List.range (intShl level)).flatMap (fun _ =>
      [leafCount height level, height - 1, levelCount height level, height - 1,
        levelCount height level]))

/-- The locations that `computeAndStoreAllBucketMACs` visits. -/
def macVisits (c : Config) : List ℕ :=
  (List.range (c.height + 1)).flatMap (fun level =>
    (List.range (intShl level)).map (macLocation c level))

/-- `computeAndStoreAllBucketMACs` covers the tree from the state `s`. -/
structure MacsCover (c : Config) (s : ORAM M) : Prop where
  shifts : ∀ count ∈ macShifts c.height, count ≤ 63
  visits : ∀ b, b ∈ macVisits c ↔ 1 ≤ b ∧ b < 2 ^ c.height
  ends : ∃ s', computeAndStoreAllBucketMACs c s = .ok () s' ∧
    (∀ b, content c.storage c.crypto s'.storage b = content c.storage c.crypto s.storage b) ∧
    (∀ b, b ∈ s'.macMap ↔ 1 ≤ b ∧ b < 2 ^ c.height) ∧
    ∀ b, 1 ≤ b → b < 2 ^ c.height → s'.macMap.lookup b =
      some (c.hmac c.key ((content c.storage c.crypto s.storage b).flatMap Prod.snd))

/-- **The tree is never covered exactly**: on the level below the leaves the count of a shift wraps
around, location 0 is visited, and it has a MAC at the end. This does not depend on the state, nor
on the height. -/
theorem not_macsCover (hpos : 1 ≤ c.height) (hheight : c.height ≤ 30) (s : ORAM M) :
    ¬MacsCover c s ∧ 2 ^ 64 - 1 ∈ macShifts c.height ∧ 0 ∈ macVisits c ∧
      ∀ s', computeAndStoreAllBucketMACs c s = .ok () s' → 0 ∈ s'.macMap := by
  have hfirst : 0 ∈ List.range (intShl c.height) :=
    List.mem_range.mpr (intShl_pos (by omega))
  have hlast : c.height ∈ List.range (c.height + 1) :=
    List.mem_range.mpr (Nat.lt_succ_self _)
  -- on the extra level the number of leaves wraps around
  have hcount : leafCount c.height c.height = 2 ^ 64 - 1 := by
    unfold leafCount
    omega
  have hshift : 2 ^ 64 - 1 ∈ macShifts c.height := by
    refine List.mem_flatMap.mpr ⟨c.height, hlast, List.mem_cons_of_mem _ ?_⟩
    exact List.mem_flatMap.mpr ⟨0, hfirst, hcount ▸ List.mem_cons_self⟩
  refine ⟨fun h => absurd (h.shifts _ hshift) (by norm_num), hshift, ?_, fun s' hrun => ?_⟩
  · exact List.mem_flatMap.mpr ⟨c.height, hlast,
      List.mem_map.mpr ⟨0, hfirst, macLocation_last hpos (by omega)⟩⟩
  · have hguarded := (computeAndStoreAllBucketMACs_spec (P := fun _ => True) hpos (by omega)
      trivial).ok hrun
    exact hguarded.1.macs 0 (Nat.two_pow_pos _)

theorem not_macsCover_tiny :
    ¬MacsCover (Config.tiny 1 2)
      (leaves (new (Config.tiny 1 2) InMemoryPositionMapAdapter.adapter true) unbuiltTiny) :=
  (not_macsCover (by decide) (by decide) _).1

/-- Location 0 is visited in a tree of a single bucket. -/
theorem macsCover_fails :
    ¬∀ (c : Config) (s : ORAM InMemoryPositionMapAdapter), 1 ≤ c.height → c.height ≤ 30 →
      MacsCover c s := by
  intro h
  have hcover := h (Config.tiny 1 2)
    (leaves (new (Config.tiny 1 2) InMemoryPositionMapAdapter.adapter true) unbuiltTiny)
    (by decide) (by decide)
  exact absurd ((hcover.visits 0).mp (by decide)) (by decide)

end Macs

/-! ### What the loop over all levels does -/

section Walk

variable {c : Config} {M : Type} {s₀ s : ORAM M} {b : ℕ}

/-- The loop from the state `s₀` may stand in the state `s`: the storage is as it was, and what
is cached and what has a MAC are buckets of it. -/
structure Walked (c : Config) (s₀ s : ORAM M) : Prop where
  blocks : s.storage.blocks = s₀.storage.blocks
  initializing : s.isInitializing = true
  cache : ∀ b bucket, s.cache.lookup b = some bucket →
    b < 2 ^ c.height ∧ bucket = content c.storage c.crypto s₀.storage b
  macs : ∀ b mac, s.macMap.lookup b = some mac →
    b < 2 ^ c.height ∧ mac = bucketMAC c (content c.storage c.crypto s₀.storage b)

/-- What the loop relies on: every location of the tree, and location 0, is inside the storage
and holds `Z` blocks of the block size. -/
structure Walkable (c : Config) (s₀ : ORAM M) : Prop where
  Z : c.storage.Z = c.Z
  capacity : 2 ^ c.height ≤ c.storage.capacity
  readable : ∀ b < 2 ^ c.height, Readable c.storage c.crypto s₀.storage b
  sized : ∀ b < 2 ^ c.height, ∀ e ∈ content c.storage c.crypto s₀.storage b,
    e.2.length = c.storage.userBlockSize

/-- Every location that is visited is that of a bucket of the tree, or 0. -/
theorem macLocation_lt (hpos : 1 ≤ c.height) (hheight : c.height ≤ 30) {level bucketIndex : ℕ}
    (hlevel : level < c.height + 1) (hindex : bucketIndex < intShl level) :
    macLocation c level bucketIndex < 2 ^ c.height := by
  rcases Nat.lt_succ_iff_lt_or_eq.mp hlevel with hlt | rfl
  · have hsplit : 2 ^ (c.height - 1) = 2 ^ level * 2 ^ (c.height - 1 - level) :=
      two_pow_split hlt
    have hpow : 2 ^ (c.height - 1) ≤ 2 ^ 30 := Nat.pow_le_pow_right (by norm_num) (by omega)
    -- the shift of the code, in 64 bits
    have hcount : (c.height + 2 ^ 64 - level - 1) % 2 ^ 64 % 64 = c.height - 1 - level := by omega
    rw [intShl_eq (by omega)] at hindex
    have hleaf : bucketIndex * 2 ^ (c.height - 1 - level) < 2 ^ (c.height - 1) := by
      rw [hsplit]
      exact Nat.mul_lt_mul_of_pos_right hindex (Nat.two_pow_pos _)
    unfold macLocation shl
    rw [hcount, Nat.shiftLeft_eq, Nat.mod_eq_of_lt (by omega),
      bucketForLevelLeaf_eq hlt (by omega) hleaf]
    exact node_lt_two_pow hlt hleaf
  -- the extra level gives location 0 or 1
  · have htwo : 2 ^ 1 ≤ 2 ^ c.height := Nat.pow_le_pow_right (by norm_num) hpos
    exact (bucketForLevelLeaf_last_lt c.height _).trans_le htwo

/-- One bucket is downloaded, or found in the cache. -/
theorem getCache_walked (hc : Walkable c s₀) (h : Walked c s₀ s) (hb : b < 2 ^ c.height) :
    wp (getCache c [b] [] false)
      (fun blocks s' => blocks = content c.storage c.crypto s₀.storage b ∧ Walked c s₀ s' ∧
        s'.macMap = s.macMap) (fun _ _ => False) s := by
  have hvisited : (Random.iterate [b] s.random).1 = [b] :=
    List.perm_singleton.mp (Random.perm_iterate _ _)
  have hcontent : content c.storage c.crypto s.storage b =
      content c.storage c.crypto s₀.storage b := content_congr (congrFun h.blocks b)
  unfold getCache
  refine wp_bind (wp_modifyGet (wp_bind (wp_get ?_)))
  rw [hvisited]
  cases hlookup : s.cache.lookup b with
  | some bucket =>
    -- a cached bucket is not downloaded again
    have hfound : PathORAM.ORAM.lookupCache s.cache false [b] [] [] = ([], bucket ++ []) := by
      rw [PathORAM.ORAM.lookupCache, hlookup]
      rfl
    simp only [hfound]
    refine wp_pure ⟨?_, ⟨h.blocks, h.initializing, h.cache, h.macs⟩, rfl⟩
    rw [List.append_nil]
    exact (h.cache b bucket hlookup).2
  | none =>
    have hmissed : PathORAM.ORAM.lookupCache s.cache false [b] [] [] = ([b], []) := by
      rw [PathORAM.ORAM.lookupCache, hlookup]
      rfl
    have hread : Readable c.storage c.crypto s.storage b :=
      (hc.readable b hb).congr (congrFun h.blocks b)
    simp only [hmissed]
    rw [if_pos (show [b].length > 0 from Nat.one_pos)]
    -- the one bucket that is missing comes from the storage
    have hget : wp (AbsStorageAdapter.get c.storage c.crypto [b]) (fun blocks storage =>
        blocks = content c.storage c.crypto s₀.storage b ∧ storage = s.storage.record (.get [b]))
        (fun _ _ => False) s.storage := by
      refine get_spec (fun l hl => ?_) (fun l hl => ?_) ⟨?_, rfl⟩
      · exact List.mem_singleton.mp hl ▸ hread
      · exact List.mem_singleton.mp hl ▸ hb.trans_le hc.capacity
      · rw [List.flatMap_singleton, hcontent]
    refine wp_bind (wp_zoom (wp_mono hget ?_ fun _ _ hfalse => hfalse))
    rintro _ _ ⟨rfl, rfl⟩
    refine wp_bind (wp_mono (addToCache_spec _ _ _ _ _) ?_ ?_)
    · rintro _ _ rfl
      have hcache := PathORAM.ORAM.addToCache_flatMap (c := c.toConfig)
        (content c.storage c.crypto s₀.storage) (hc.Z ▸ c.storage.Z_pos) [] [b]
        (fun l hl => (hc.readable l (List.mem_singleton.mp hl ▸ hb)).length.trans hc.Z) s.cache
      rw [List.flatMap_singleton, List.nil_append, List.length_nil, Nat.mul_zero,
        List.map_singleton] at hcache
      refine wp_pure ⟨List.nil_append _, ⟨h.blocks, h.initializing, fun l bucket hl => ?_, h.macs⟩,
        rfl⟩
      change (PathORAM.ORAM.addToCache c.toConfig [b] _ 0 [] s.cache).lookup l = some bucket at hl
      rw [hcache] at hl
      by_cases hself : l = b
      · subst hself
        rw [UnorderedMap.assignAll_cons, UnorderedMap.assignAll, List.foldl_nil,
          AList.lookup_insert, Option.some.injEq] at hl
        exact ⟨hb, hl.symm⟩
      · rw [UnorderedMap.assignAll_cons, UnorderedMap.assignAll, List.foldl_nil,
          AList.lookup_insert_ne hself] at hl
        exact h.cache l bucket hl
    · intro _ _ hinit
      exact absurd (h.initializing.symm.trans hinit) (by decide)

/-- A visited bucket gets its MAC. -/
theorem computeAndStoreMAC_walked (hc : Walkable c s₀) (h : Walked c s₀ s)
    {level bucketIndex : ℕ} (hb : macLocation c level bucketIndex < 2 ^ c.height) :
    wp (computeAndStoreMAC c level bucketIndex)
      (fun _ s' => Walked c s₀ s' ∧ macLocation c level bucketIndex ∈ s'.macMap ∧
        ∀ b ∈ s.macMap, b ∈ s'.macMap) (fun _ _ => False) s := by
  unfold computeAndStoreMAC
  refine wp_bind (wp_mono (getCache_walked hc h hb) ?_ fun _ _ hfalse => hfalse)
  rintro _ s₁ ⟨rfl, h₁, hmacs⟩
  refine wp_bind (wp_modify (wp_zoom (wp_modify ⟨⟨h₁.blocks, h₁.initializing,
    fun l bucket hl => ?_, fun l mac hl => ?_⟩, ?_, fun l hl => ?_⟩)))
  · change (AList.insert (macLocation c level bucketIndex) _ s₁.cache).lookup l = some bucket at hl
    -- only the location of the bucket changes, in the cache and among the MACs
    by_cases hself : l = macLocation c level bucketIndex
    · rw [hself, AList.lookup_insert, Option.some.injEq] at hl
      exact ⟨hself ▸ hb, hself ▸ hl.symm⟩
    · rw [AList.lookup_insert_ne hself] at hl
      exact h₁.cache l bucket hl
  · change (AList.insert (macLocation c level bucketIndex) _ s₁.macMap).lookup l = some mac at hl
    by_cases hself : l = macLocation c level bucketIndex
    · rw [hself, AList.lookup_insert, Option.some.injEq] at hl
      exact ⟨hself ▸ hb, hself ▸ hl.symm⟩
    · rw [AList.lookup_insert_ne hself] at hl
      exact h₁.macs l mac hl
  · exact AList.mem_insert _ |>.mpr (Or.inl rfl)
  · exact AList.mem_insert _ |>.mpr (Or.inr (hmacs ▸ hl))

/-- **The loop over all levels** visits every location and changes none. -/
theorem forM_computeAndStoreMAC (hpos : 1 ≤ c.height) (hheight : c.height ≤ 30)
    (hc : Walkable c s₀) (h : Walked c s₀ s) :
    wp ((List.range (c.height + 1)).forM (fun level =>
        (List.range (intShl level)).forM (computeAndStoreMAC c level)))
      (fun _ s' => Walked c s₀ s' ∧ ∀ b < 2 ^ c.height, b ∈ s'.macMap) (fun _ _ => False) s := by
  have hrefl : ∀ s : ORAM M, ∀ b ∈ s.macMap, b ∈ s.macMap := fun _ _ hb => hb
  have htrans : ∀ s s' s'' : ORAM M, (∀ b ∈ s.macMap, b ∈ s'.macMap) →
      (∀ b ∈ s'.macMap, b ∈ s''.macMap) → ∀ b ∈ s.macMap, b ∈ s''.macMap :=
    fun _ _ _ hkeep hkeep' b hb => hkeep' b (hkeep b hb)
  -- The goal of a level are the MACs of its locations.
  refine wp_mono (wp_forM_goals_of_mem (I := Walked c s₀) (E := fun _ _ => False)
    (G := fun level s' => ∀ i < intShl level, macLocation c level i ∈ s'.macMap) hrefl htrans
    (fun level _ _ hkeep hgoal i hi => hkeep _ (hgoal i hi)) ?_ s h) ?_ fun _ _ hfalse => hfalse
  · intro level hlevel s₁ h₁
    refine wp_mono (wp_forM_goals_of_mem (I := Walked c s₀) (E := fun _ _ => False)
      (G := fun i s' => macLocation c level i ∈ s'.macMap) hrefl htrans
      (fun i _ _ hkeep hgoal => hkeep _ hgoal) ?_ s₁ h₁) ?_ fun _ _ hfalse => hfalse
    · exact fun i hi s₂ h₂ => computeAndStoreMAC_walked hc h₂
        (macLocation_lt hpos hheight (List.mem_range.mp hlevel) (List.mem_range.mp hi))
    · rintro _ s₂ ⟨h₂, hgoals, hkeep⟩
      exact ⟨h₂, fun i hi => hgoals i (List.mem_range.mpr hi), hkeep⟩
  · rintro _ s₁ ⟨h₁, hgoals, -⟩
    refine ⟨h₁, fun b hb => ?_⟩
    obtain ⟨level, hlevel, i, hi, rfl⟩ := exists_macLocation hpos (by omega) hb
    exact hgoals level (List.mem_range.mpr hlevel) i hi

/-- **The upload** writes what the storage held. -/
theorem syncCache_walked (hcrypto : c.crypto.Lawful) (hc : Walkable c s₀) (h : Walked c s₀ s) :
    wp (syncCache c) (fun _ s' => s'.macMap = s.macMap ∧ s'.cache = ∅ ∧
      s'.random.ulongs = s.random.ulongs ∧ ∀ b,
      content c.storage c.crypto s'.storage b = content c.storage c.crypto s₀.storage b ∧
        (Readable c.storage c.crypto s₀.storage b → Readable c.storage c.crypto s'.storage b))
      (fun _ _ => False) s := by
  unfold syncCache PathORAM.ORAM.syncCache
  refine wp_zoom (wp_bind (wp_get (wp_bind (PathORAM.ORAM.wp_withRandom (wp_bind ?_)))))
  set entries := (Random.iterate s.toORAM.cache.toList s.toORAM.random).1 with hentries
  have hperm : entries.Perm s.cache.toList := Random.perm_iterate _ _
  have hentry : ∀ q ∈ entries, q.1 < 2 ^ c.height ∧
      q.2 = content c.storage c.crypto s₀.storage q.1 := fun q hq =>
    h.cache q.1 q.2 (UnorderedMap.mem_toList.mp (hperm.subset hq))
  have hnodup : (entries.map Prod.fst).Nodup :=
    (hperm.map Prod.fst).nodup_iff.mpr s.cache.nodup_keys_toList
  have hids : ∀ q ∈ entries, ∀ e ∈ q.2, e.1 < 2 ^ 64 := fun q hq e he => by
    obtain ⟨hlt, hbucket⟩ := hentry q hq
    rw [hbucket] at he
    exact (of_decodeBucket (hc.readable q.1 hlt)).2 e he
  have haccepts : ∀ q ∈ entries, Accepts c.storage q := fun q hq => by
    obtain ⟨hlt, hbucket⟩ := hentry q hq
    refine ⟨hlt.trans_le hc.capacity, ?_, fun e he => ?_⟩
    · rw [hbucket, (hc.readable q.1 hlt).length]
    · rw [hbucket] at he
      exact (hc.sized q.1 hlt e he).le
  obtain ⟨hok, hulongs, hstored⟩ := set_accepted hcrypto hids haccepts s.storage
    (Random.iterate s.toORAM.cache.toList s.toORAM.random).2
  refine PathORAM.ORAM.wp_storageSet (fun _ => wp_modify ⟨rfl, rfl, hulongs, fun b => ?_⟩)
    fun e herror => ?_
  · by_cases hb : b ∈ entries.map Prod.fst
    · obtain ⟨q, hq, rfl⟩ := List.mem_map.mp hb
      obtain ⟨hlt, hbucket⟩ := hentry q hq
      -- The blocks have the block size, so none is padded.
      have hpadded : padded c.storage q.2 = q.2 :=
        padded_eq_self fun e he => hc.sized q.1 hlt e (hbucket ▸ he)
      have hwritten := hstored.written hnodup q hq
      rw [hpadded] at hwritten
      exact ⟨(content_of_decodeBucket hwritten).trans hbucket,
        fun _ => readable_of_decodeBucket hwritten⟩
    · have hsame := (hstored.other b hb).trans (congrFun h.blocks b)
      exact ⟨content_congr hsame, fun hread => hread.congr hsame⟩
  · exact absurd (hok.symm.trans herror) (by simp)

/-- The walk draws no leaf. -/
theorem keeps_computeAndStoreMAC (level bucketIndex : ℕ) :
    Keeps (fun s : ORAM M => s.random.ulongs) (computeAndStoreMAC c level bucketIndex) := by
  unfold computeAndStoreMAC
  refine keeps_bind (keeps_download (fun _ _ => rfl) (fun _ _ => rfl) (fun _ _ => rfl) _ _ _)
    fun bucketBlocks => keeps_bind (keeps_modify fun _ => rfl) fun _ => ?_
  exact fun s => wp_zoom (wp_modify rfl)

/-- **What `computeAndStoreAllBucketMACs` does**: no bucket changes, and every location of the
tree has the MAC of its bucket, and so has location 0. -/
theorem computeAndStoreAllBucketMACs_content (hcrypto : c.crypto.Lawful) (hpos : 1 ≤ c.height)
    (hheight : c.height ≤ 30) (hc : Walkable c s) (hinit : s.isInitializing = true)
    (hcache : s.cache = ∅) (hmacs : s.macMap = ∅) :
    wp (computeAndStoreAllBucketMACs c) (fun _ s' =>
      s'.isInitializing = false ∧ s'.cache = ∅ ∧ s'.random.ulongs = s.random.ulongs ∧
      (∀ b, content c.storage c.crypto s'.storage b = content c.storage c.crypto s.storage b ∧
        (Readable c.storage c.crypto s.storage b → Readable c.storage c.crypto s'.storage b)) ∧
      ∀ b, s'.macMap.lookup b = if b < 2 ^ c.height then
        some (bucketMAC c (content c.storage c.crypto s.storage b)) else none)
      (fun _ _ => False) s := by
  -- nothing is cached and no MAC is stored yet
  have hstart : Walked c s s := by
    refine ⟨rfl, hinit, fun b bucket hb => ?_, fun b mac hb => ?_⟩
    · rw [hcache, AList.lookup_empty] at hb
      cases hb
    · rw [hmacs, AList.lookup_empty] at hb
      cases hb
  unfold computeAndStoreAllBucketMACs
  refine wp_bind (wp_mono (wp_and (forM_computeAndStoreMAC hpos hheight hc hstart)
    (keeps_forM (fun level => keeps_forM (fun bucketIndex => keeps_computeAndStoreMAC level
      bucketIndex) _) _ s)) ?_ fun _ _ hfalse => hfalse.1)
  rintro _ s₁ ⟨⟨h₁, hgoals⟩, hulongs₁⟩
  refine wp_bind (wp_mono (syncCache_walked hcrypto hc h₁) ?_ fun _ _ hfalse => hfalse)
  rintro _ s₂ ⟨hmacs₂, hcache₂, hulongs₂, hcontent⟩
  refine wp_modify ⟨rfl, hcache₂, hulongs₂.trans hulongs₁, hcontent, fun b => ?_⟩
  change s₂.macMap.lookup b = _
  rw [hmacs₂]
  cases hlookup : s₁.macMap.lookup b with
  | some mac =>
    -- a MAC that was stored is that of a bucket of the tree
    obtain ⟨hb, rfl⟩ := h₁.macs b mac hlookup
    rw [if_pos hb]
  | none =>
    rw [if_neg fun hb => absurd (hgoals b hb) (AList.lookup_eq_none.mp hlookup)]

/-- What else it leaves as it is. -/
theorem keeps_computeAndStoreAllBucketMACs :
    Keeps (fun s : ORAM M => (s.map, s.stash, s.usedBlockIDs))
      (computeAndStoreAllBucketMACs c) := by
  unfold computeAndStoreAllBucketMACs computeAndStoreMAC
  refine keeps_bind (keeps_forM (fun level => keeps_forM (fun bucketIndex => ?_) _) _) fun _ =>
    keeps_bind (fun s => ?_) fun _ => keeps_modify fun _ => rfl
  · refine keeps_bind (keeps_getCache ⟨fun _ _ => rfl, fun _ _ => rfl, fun _ _ => rfl⟩ _ _ _)
      fun bucketBlocks => keeps_bind (keeps_modify fun _ => rfl) fun _ => ?_
    exact fun s => wp_zoom (wp_modify rfl)
  · unfold syncCache PathORAM.ORAM.syncCache
    refine wp_zoom (wp_bind (wp_get (wp_bind (PathORAM.ORAM.wp_withRandom (wp_bind ?_)))))
    exact PathORAM.ORAM.wp_storageSet (fun _ => wp_modify rfl) fun _ _ => rfl

end Walk

end ORAM

end CloakQueryPathORAM
