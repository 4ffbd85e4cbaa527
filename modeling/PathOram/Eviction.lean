import PathOram.Correctness

/-!
# Eviction loses nothing and places as much as it can

`writePath` for an arbitrary stash, cache and position map, not only in a reachable state.

* `Distributed` says what a good eviction is: the stash goes to the buckets of the path and to
  what is left, no entry is lost or changed, every entry is placed where its leaf allows, and
  no assignment with these properties leaves fewer entries.
* `writePath_distributes` — `writePath` achieves it for IDs below `2 ^ 31`.
-/

namespace PathORAM

open Hoare HeapTree

namespace ORAM

/-- A `bucket` for each level of the path of `leaf`, and a stash that is left, make a good
eviction of `stash`, where the leaves of the IDs are those of `f`. -/
structure Distributed (c : Config) (f : ℕ → Option ℕ) (leaf : ℕ)
    (stash stash' : InMemoryStashAdapter) (bucket : ℕ → Bucket) : Prop where
  length : ∀ level < c.height, (bucket level).length = c.Z
  lossless : (((List.range c.height).flatMap bucket).filter (fun e => e.1 ≠ ULONG_MAX) ++
    stash'.toList).Perm stash.toList
  eligible : ∀ level < c.height, ∀ e ∈ bucket level, e.1 ≠ ULONG_MAX →
    ∃ leaf', f e.1 = some leaf' ∧
      bucketForLevelLeaf c.height level leaf' = bucketForLevelLeaf c.height level leaf
  least : IsLeast {left | ∃ a, Greedy.Assignment (fits c f leaf) c.Z c.height stash.toList a ∧
    stash.toList.countP (fun e => a e = none) = left} stash'.toList.length

variable {c : Config} {M : Type} {pm : AbsPositionMapAdapter M} {n bound : ℕ}
  {R : (ℕ → Option ℕ) → M → Prop} {mayThrow : Prop} {leaf : ℕ} {f : ℕ → Option ℕ}
  {stash stash' : InMemoryStashAdapter} {l : List Block} {bucket : ℕ → Bucket}

/-- Two paths that share a bucket share those above it. -/
theorem bucketForLevelLeaf_mono {height level leaf leaf' : ℕ}
    (h : bucketForLevelLeaf height (level + 1) leaf' = bucketForLevelLeaf height (level + 1) leaf) :
    bucketForLevelLeaf height level leaf' = bucketForLevelLeaf height level leaf := by
  unfold bucketForLevelLeaf at h ⊢
  rcases Nat.lt_or_ge level (height - 1) with hlt | hge
  · -- The bucket above is found by one shift more.
    have hshift : height - 1 - level = (height - 1 - (level + 1)) + 1 := by omega
    rw [hshift, Nat.shiftRight_add, Nat.shiftRight_add, h]
  · -- Beyond the last level nothing is shifted.
    have hlast : height - 1 - level = height - 1 - (level + 1) := by omega
    rw [hlast, h]

theorem fits_mono (level : ℕ) (e : Block) (h : fits c f leaf (level + 1) e = true) :
    fits c f leaf level e = true := by
  unfold fits canInclude at h ⊢
  exact beq_iff_eq.mpr (bucketForLevelLeaf_mono (beq_iff_eq.mp h))

/-- A block that fits a bucket of the path fits those above it. -/
theorem fits_root_of_fits (level : ℕ) {e : Block} (h : fits c f leaf level e = true) :
    fits c f leaf 0 e = true := by
  induction level with
  | zero => exact h
  | succ level ih => exact ih (fits_mono level e h)

theorem nodup_of_perm_toList (hl : l.Perm stash.toList) : (l.map Prod.fst).Nodup :=
  (hl.map Prod.fst).nodup_iff.mpr stash.nodup_keys_toList

theorem mem_stash_of_perm (hl : l.Perm stash.toList) {e : Block} (he : e ∈ l) : e.1 ∈ stash :=
  mem_of_lookup (UnorderedMap.mem_toList.mp (hl.subset he))

theorem mem_stash_of_placedAt (hl : l.Perm stash.toList) {fits : ℕ → Block → Bool}
    {Z height k : ℕ} (hk : k < height) {e : Block}
    (he : e ∈ Greedy.placedAt fits Z height l k) : e.1 ∈ stash :=
  mem_stash_of_perm hl (Greedy.placed_append_leftover_perm.subset
    (List.mem_append_left _ (Greedy.mem_placed.mpr ⟨k, hk, he⟩)))

/-- What stays in the stash is what the filling leaves. -/
theorem toList_perm_leftover (hl : l.Perm stash.toList) (hsmall : ∀ id ∈ stash, id < 2 ^ 31)
    {fits : ℕ → Block → Bool} {Z height : ℕ}
    (hstash : ∀ id, stash'.lookup id =
      if id ∈ (Greedy.placed fits Z height l).map (fun e => ofInt (toInt e.1)) then none
      else stash.lookup id) :
    stash'.toList.Perm (Greedy.leftover fits Z height l) := by
  have hperm : (Greedy.placed fits Z height l ++ Greedy.leftover fits Z height l).Perm l :=
    Greedy.placed_append_leftover_perm
  have hkeys := (hperm.map Prod.fst).nodup_iff.mpr (nodup_of_perm_toList hl)
  rw [List.map_append] at hkeys
  -- what is placed and what is left over share no ID
  have hdisjoint := List.disjoint_of_nodup_append hkeys
  have hleftover := List.Nodup.of_map Prod.fst (List.Nodup.of_append_right hkeys)
  rw [map_ofInt_placed hl hsmall] at hstash
  refine (List.perm_ext_iff_of_nodup (stash'.nodup_keys_toList.of_map Prod.fst) hleftover).mpr ?_
  rintro ⟨id, d⟩
  rw [UnorderedMap.mem_toList, hstash]
  constructor
  · intro h
    split at h
    · exact absurd h (by simp)
    · next hnot =>
      have hmem := hperm.mem_iff.mpr (hl.mem_iff.mpr (UnorderedMap.mem_toList.mpr h))
      exact (List.mem_append.mp hmem).resolve_left fun h => hnot (List.mem_map_of_mem h)
  · intro h
    have hnot := List.disjoint_right.mp hdisjoint (List.mem_map_of_mem (f := Prod.fst) h)
    rw [if_neg hnot]
    exact UnorderedMap.mem_toList.mp (hl.mem_iff.mp (hperm.mem_iff.mp (List.mem_append_right _ h)))

/-- The blocks in the buckets are the placed ones. -/
theorem filter_flatMap_perm {fits : ℕ → Block → Bool} {Z : ℕ} (hl : l.Perm stash.toList)
    (hreal : ∀ id ∈ stash, id ≠ ULONG_MAX)
    (hfilled : ∀ k < c.height, Filled c (Greedy.placedAt fits Z c.height l k) (bucket k)) :
    (((List.range c.height).flatMap bucket).filter (fun e => e.1 ≠ ULONG_MAX)).Perm
      (Greedy.placed fits Z c.height l) := by
  rw [List.filter_flatMap]
  refine (List.Perm.flatMap_left _ fun k hk => ?_).trans Greedy.flatMap_placedAt_perm
  have hk := List.mem_range.mp hk
  have hmem : ∀ e ∈ Greedy.placedAt fits Z c.height l k, e.1 ≠ ULONG_MAX := fun e he =>
    hreal e.1 (mem_stash_of_placedAt hl hk he)
  obtain ⟨dummies, hbucket, -, hdummies⟩ := hfilled k hk
  -- of a bucket the real blocks are kept and the dummies dropped
  have hkeep : (Greedy.placedAt fits Z c.height l k).reverse.filter (fun e => e.1 ≠ ULONG_MAX) =
      (Greedy.placedAt fits Z c.height l k).reverse :=
    List.filter_eq_self.mpr fun e he => decide_eq_true (hmem e (List.mem_reverse.mp he))
  have hdrop : dummies.filter (fun e => e.1 ≠ ULONG_MAX) = [] :=
    List.filter_eq_nil_iff.mpr fun e he h => of_decide_eq_true h (hdummies e he).1
  rw [hbucket, List.filter_append, hkeep, hdrop, List.append_nil]
  exact List.reverse_perm _

/-- **The greedy filling is a good eviction.** -/
theorem distributed_of_filled (hl : l.Perm stash.toList)
    (hstash : ∀ id ∈ stash, id < 2 ^ 31 ∧ ∃ leaf', f id = some leaf')
    (hfilled : ∀ k < c.height,
      Filled c (Greedy.placedAt (fits c f leaf) c.Z c.height l k) (bucket k))
    (hleft : ∀ id, stash'.lookup id =
      if id ∈ (Greedy.placed (fits c f leaf) c.Z c.height l).map (fun e => ofInt (toInt e.1))
      then none else stash.lookup id) :
    Distributed c f leaf stash stash' bucket := by
  have hsmall : ∀ id ∈ stash, id < 2 ^ 31 := fun id hid => (hstash id hid).1
  have hreal : ∀ id ∈ stash, id ≠ ULONG_MAX := fun id hid =>
    ((hsmall id hid).trans (by decide)).ne
  have hleftover := toList_perm_leftover hl hsmall hleft
  refine ⟨?_, ?_, ?_, ?_⟩
  -- Every bucket is filled up with dummies.
  · intro level hlevel
    obtain ⟨-, -, hlength, -⟩ := hfilled level hlevel
    exact hlength
  -- What is placed and what is left are together the stash.
  · exact (((filter_flatMap_perm hl hreal hfilled).append hleftover).trans
      Greedy.placed_append_leftover_perm).trans hl
  -- What is placed passed the test for its level.
  · intro level hlevel e he hdummy
    have hmem := (hfilled level hlevel).mem he hdummy
    obtain ⟨-, leaf', hleaf'⟩ := hstash e.1 (mem_stash_of_placedAt hl hlevel hmem)
    have hfits := Greedy.fits_of_mem_placedAt hmem
    rw [fits, hleaf'] at hfits
    exact ⟨leaf', hleaf', beq_iff_eq.mp hfits⟩
  -- The order of the shuffled stash decides what is left, but not how much.
  · rw [hleftover.length_eq]
    have hmono : ∀ k e, fits c f leaf (k + 1) e = true → fits c f leaf k e = true :=
      fun k e h => fits_mono k e h
    have hleast : IsLeast {n | ∃ a, Greedy.Assignment (fits c f leaf) c.Z c.height l a ∧
        l.countP (fun e => a e = none) = n}
        (Greedy.leftover (fits c f leaf) c.Z c.height l).length :=
      Greedy.isLeast_leftover hmono ((nodup_of_perm_toList hl).of_map Prod.fst)
    refine ⟨?_, ?_⟩
    · obtain ⟨a, ha, hcount⟩ := hleast.1
      exact ⟨a, ha.perm hl, by rw [← hl.countP_eq, hcount]⟩
    · rintro left ⟨a, ha, rfl⟩
      exact hleast.2 ⟨a, ha.perm hl.symm, hl.countP_eq _⟩

/-- **Eviction is lossless and optimal**, for every cache, every order in which the stash is
visited and every position map that implements its interface. The buckets of the path and the
remaining stash divide the entries among them, each placed entry is on the path of its own leaf,
and no placement of this kind leaves fewer in the stash. -/
theorem writePath_distributes (hpos : 1 ≤ c.height) (hheight : c.height ≤ 31) (hZ : 0 < c.Z)
    (hleaf : leaf < 2 ^ (c.height - 1)) (hpm : pm.Implements n bound R mayThrow) {s : ORAM M}
    (hR : R f s.map)
    (hstash : ∀ id ∈ s.stash, id < n ∧ id < 2 ^ 31 ∧
      ∃ leaf' < 2 ^ (c.height - 1), f id = some leaf') :
    wp (writePath c pm leaf)
      (fun _ s' => ∃ bucket : ℕ → Bucket,
        (∀ level < c.height,
          s'.cache.lookup (bucketForLevelLeaf c.height level leaf) = some (bucket level)) ∧
        Distributed c f leaf s.stash s'.stash bucket)
      (fun _ _ => mayThrow) s := by
  have hl := InMemoryStashAdapter.perm_getAll s.stash s.random
  refine writePath_filled hpos hheight hZ hleaf hpm (fun _ _ h => h) hR rfl ?_ ?_
  · intro e he
    obtain ⟨hlt, -, leaf', -, hleaf'⟩ := hstash e.1 (mem_stash_of_perm hl he)
    exact ⟨hlt, leaf', hleaf'⟩
  -- what the write left in the cache and in the stash, read back bucket by bucket
  · intro bucket m r _ _ hfilled
    refine ⟨bucket, fun level hlevel => ?_, distributed_of_filled hl ?_ hfilled fun id => ?_⟩
    · rw [bucketForLevelLeaf_eq hpos hheight hleaf]
      exact lookup_assignAll_requests hleaf hlevel bucket s.cache
    · intro id hid
      obtain ⟨-, hsmall, leaf', -, hleaf'⟩ := hstash id hid
      exact ⟨hsmall, leaf', hleaf'⟩
    · exact lookup_deletePlaced _ _ _

theorem four_lt_two_pow : 4 < 2 ^ 64 := by norm_num

/-! ### The records to delete -/

/-- A block of this ID is in a bucket of the path that was written. -/
def Written (c : Config) (leaf : ℕ) (cache : UnorderedMap Bucket) (id : ℕ) : Prop :=
  ∃ level < c.height, ∃ e ∈ (cache.lookup (bucketForLevelLeaf c.height level leaf)).getD [],
    e.1 = id

instance (c : Config) (leaf : ℕ) (cache : UnorderedMap Bucket) (id : ℕ) :
    Decidable (Written c leaf cache id) :=
  inferInstanceAs (Decidable (∃ level < c.height,
    ∃ e ∈ (cache.lookup (bucketForLevelLeaf c.height level leaf)).getD [], e.1 = id))

/-- No ID is both on the path and in the stash, and the IDs that left the stash are those that
were written. -/
structure Separated (c : Config) (leaf : ℕ) (stash : InMemoryStashAdapter)
    (cache : UnorderedMap Bucket) (stash' : InMemoryStashAdapter) : Prop where
  apart : ∀ id, Written c leaf cache id → id ∉ stash'
  exactly : ∀ id ∈ stash, id ∉ stash' → Written c leaf cache id

/-- What was placed is in the buckets of the path. -/
theorem written_iff {fit : ℕ → Block → Bool} {cache : UnorderedMap Bucket}
    (hfilled : ∀ k < c.height, Filled c (Greedy.placedAt fit c.Z c.height l k) (bucket k))
    (hcache : ∀ k < c.height,
      cache.lookup (bucketForLevelLeaf c.height k leaf) = some (bucket k)) {id : ℕ}
    (hid : id ≠ ULONG_MAX) :
    Written c leaf cache id ↔ id ∈ (Greedy.placed fit c.Z c.height l).map Prod.fst := by
  -- a real ID in a bucket of the path is one of the blocks placed there
  rw [List.mem_map]
  constructor
  · rintro ⟨k, hk, e, he, rfl⟩
    rw [hcache k hk] at he
    exact ⟨e, Greedy.mem_placed.mpr ⟨k, hk, (hfilled k hk).mem he hid⟩, rfl⟩
  · rintro ⟨e, he, rfl⟩
    obtain ⟨k, hk, he⟩ := Greedy.mem_placed.mp he
    obtain ⟨dummies, hbucket, -, -⟩ := hfilled k hk
    refine ⟨k, hk, e, ?_, rfl⟩
    rw [hcache k hk, Option.getD_some, hbucket]
    exact List.mem_append_left _ (List.mem_reverse.mpr he)

/-- **The stash and the path are apart when the placed IDs pass through `toDelete` unchanged.**
An ID that does not stays in the stash: no other ID can stand for it, since what comes out of
an `int` goes in again unchanged. -/
theorem separated_iff {fit : ℕ → Block → Bool} {cache : UnorderedMap Bucket}
    (hl : l.Perm stash.toList) (hreal : ∀ id ∈ stash, id ≠ ULONG_MAX)
    (hfilled : ∀ k < c.height, Filled c (Greedy.placedAt fit c.Z c.height l k) (bucket k))
    (hcache : ∀ k < c.height,
      cache.lookup (bucketForLevelLeaf c.height k leaf) = some (bucket k))
    (hleft : ∀ id, stash'.lookup id =
      if id ∈ (Greedy.placed fit c.Z c.height l).map (fun e => ofInt (toInt e.1)) then none
      else stash.lookup id) :
    Separated c leaf stash cache stash' ↔
      ∀ e ∈ Greedy.placed fit c.Z c.height l, ofInt (toInt e.1) = e.1 := by
  have hmem : ∀ e ∈ Greedy.placed fit c.Z c.height l, e.1 ∈ stash := fun e he =>
    mem_stash_of_perm hl
      (Greedy.placed_append_leftover_perm.subset (List.mem_append_left _ he))
  set placed := Greedy.placed fit c.Z c.height l
  -- the stash loses the IDs as they come back from 32 bits
  have hkept : ∀ id ∈ stash, id ∉ stash' ↔ id ∈ placed.map (fun e => ofInt (toInt e.1)) := by
    intro id hid
    rw [← AList.lookup_isSome, hleft]
    split
    · next h => exact iff_of_true (by simp) h
    · next h => exact iff_of_false (fun hnot => hnot (AList.lookup_isSome.mpr hid)) h
  have hsub : ∀ id ∈ stash', id ∈ stash := fun id hid => by
    rw [← AList.lookup_isSome, hleft] at hid
    split at hid
    · exact absurd hid (by simp)
    · exact AList.lookup_isSome.mp hid
  constructor
  · intro h e he
    have hwritten := (written_iff hfilled hcache (hreal e.1 (hmem e he))).mpr
      (List.mem_map_of_mem he)
    obtain ⟨e', -, heq⟩ := List.mem_map.mp ((hkept e.1 (hmem e he)).mp (h.apart e.1 hwritten))
    rw [← heq, toInt_ofInt]
  · intro h
    -- no ID changes on the way through 32 bits
    have hdeleted : placed.map (fun e => ofInt (toInt e.1)) = placed.map Prod.fst :=
      List.map_congr_left h
    refine ⟨fun id hwritten hid => ?_, fun id hid hnot => ?_⟩
    · have hid' := hsub id hid
      rw [written_iff hfilled hcache (hreal id hid'), ← hdeleted] at hwritten
      exact (hkept id hid').mpr hwritten hid
    · rw [written_iff hfilled hcache (hreal id hid), ← hdeleted]
      exact (hkept id hid).mp hnot

/-- Every entry of the stash comes first in some order. -/
theorem exists_head?_getAll {e : Block} (he : e ∈ stash.toList) :
    ∃ r, (InMemoryStashAdapter.getAll stash [] r).1.head? = some e := by
  obtain ⟨orders, hhead⟩ := FisherYates.exists_head?_shuffle he
  refine ⟨⟨Stream'.const 0, Stream'.const 0, Stream'.const 0, orders⟩, ?_⟩
  change (FisherYates.shuffleN _ ((FisherYates.shuffle stash.toList orders).1 ++ [])
    (Stream'.const 0)).1.head? = some e
  rw [FisherYates.head?_shuffleN_zero (Nat.mod_le _ _), List.append_nil, hhead]

/-- Every path has the root in its first bucket. -/
theorem fits_root (hpos : 1 ≤ c.height) (hheight : c.height ≤ 31)
    (hleaf : leaf < 2 ^ (c.height - 1)) {e : Block} {leaf' : ℕ}
    (hleaf' : leaf' < 2 ^ (c.height - 1)) (hf : f e.1 = some leaf') :
    fits c f leaf 0 e = true := by
  have hroot : ∀ leaf < 2 ^ (c.height - 1), node c.height 0 leaf = 1 := fun leaf hleaf =>
    le_antisymm (Nat.lt_succ_iff.mp (node_lt hpos hleaf)) (node_pos hpos)
  rw [fits, hf, Option.getD_some, canInclude, beq_iff_eq, bucketForLevelLeaf_eq hpos hheight hleaf,
    bucketForLevelLeaf_eq hpos hheight hleaf', hroot _ hleaf, hroot _ hleaf']

/-- What holds of all entries that are placed in some order of the stash holds of all that fit
the root, and the other way round. -/
theorem forall_placed_iff {fit : ℕ → Block → Bool} {Z height : ℕ} (hZ : 0 < Z)
    (hheight : 0 < height) (hroot : ∀ k e, fit k e = true → fit 0 e = true) {P : ℕ → Prop} :
    (∀ r, ∀ e ∈ Greedy.placed fit Z height (InMemoryStashAdapter.getAll stash [] r).1, P e.1) ↔
      ∀ e ∈ stash.toList, fit 0 e = true → P e.1 := by
  constructor
  · intro h e he hfit
    -- some order visits the entry first, and the first that fits is placed
    obtain ⟨r, hhead⟩ := exists_head?_getAll he
    obtain ⟨rest, hrest⟩ : ∃ rest, (InMemoryStashAdapter.getAll stash [] r).1 = e :: rest :=
      List.head?_eq_some_iff.mp hhead
    refine h r e ?_
    rw [hrest]
    exact Greedy.mem_placed_of_head hZ hheight hfit
  · intro h r e he
    have hl := InMemoryStashAdapter.perm_getAll stash r
    obtain ⟨k, -, hk⟩ := Greedy.mem_placed.mp he
    exact h e (hl.subset (Greedy.placed_append_leftover_perm.subset
      (List.mem_append_left _ he))) (hroot k e (Greedy.fits_of_mem_placedAt hk))

/-- A program that writes a path for every order of the stash, whatever its state is, separates
the IDs in every order exactly when those that fit the root survive the conversion to `int`. -/
theorem forall_separated_iff {σ : Type} {x : EStateM Exception σ Unit} {init : Random → σ}
    {cache : σ → UnorderedMap Bucket} {left : σ → InMemoryStashAdapter}
    {fit : ℕ → Block → Bool} (hpos : 0 < c.height) (hZ : 0 < c.Z)
    (hroot : ∀ k e, fit k e = true → fit 0 e = true) (hstash : ∀ id ∈ stash, id < ULONG_MAX)
    (hx : ∀ r, wp x (fun _ s' => ∃ bucket : ℕ → Bucket,
        (∀ k < c.height, Filled c (Greedy.placedAt fit c.Z c.height
          (InMemoryStashAdapter.getAll stash [] r).1 k) (bucket k)) ∧
        (∀ k < c.height,
          (cache s').lookup (bucketForLevelLeaf c.height k leaf) = some (bucket k)) ∧
        ∀ id, (left s').lookup id =
          if id ∈ (Greedy.placed fit c.Z c.height (InMemoryStashAdapter.getAll stash [] r).1).map
            (fun e => ofInt (toInt e.1)) then none else stash.lookup id)
      (fun _ _ => False) (init r)) :
    (∀ r, wp x (fun _ s' => Separated c leaf stash (cache s') (left s')) (fun _ _ => False)
        (init r)) ↔
      ∀ e ∈ stash.toList, fit 0 e = true → e.1 < 2 ^ 31 ∨ 2 ^ 64 - 2 ^ 31 ≤ e.1 := by
  have hlt : ∀ e ∈ stash.toList, e.1 < 2 ^ 64 := fun e he =>
    (hstash e.1 (mem_stash_of_perm (List.Perm.refl _) he)).trans (by decide)
  calc (∀ r, wp x (fun _ s' => Separated c leaf stash (cache s') (left s')) (fun _ _ => False)
        (init r))
      ↔ ∀ r, ∀ e ∈ Greedy.placed fit c.Z c.height (InMemoryStashAdapter.getAll stash [] r).1,
          ofInt (toInt e.1) = e.1 := by
        refine forall_congr' fun r => ?_
        obtain ⟨_, s', hok, bucket, hfilled, hcache, hleft⟩ := (hx r).exists_ok
        rw [← separated_iff (InMemoryStashAdapter.perm_getAll stash r)
          (fun id hid => (hstash id hid).ne) hfilled hcache hleft]
        exact ⟨fun h => h.ok hok, fun h => wp_of_ok hok h⟩
    _ ↔ ∀ e ∈ stash.toList, fit 0 e = true → ofInt (toInt e.1) = e.1 :=
        forall_placed_iff (P := fun id => ofInt (toInt id) = id) hZ hpos hroot
    _ ↔ _ := forall₂_congr fun e he => by rw [ofInt_toInt_iff (hlt e he)]

/-- **The IDs that leave the stash are those that were written, in every order of the stash,
exactly when all of them survive the conversion to `int`.** -/
theorem writePath_separated_iff (hpos : 1 ≤ c.height) (hheight : c.height ≤ 31) (hZ : 0 < c.Z)
    (hleaf : leaf < 2 ^ (c.height - 1)) (hpm : pm.Implements n bound R False)
    (hn : n ≤ ULONG_MAX) {s : ORAM M} (hR : R f s.map)
    (hstash : ∀ id ∈ s.stash, id < n ∧ ∃ leaf' < 2 ^ (c.height - 1), f id = some leaf') :
    (∀ r, wp (writePath c pm leaf)
        (fun _ s' => Separated c leaf s.stash s'.cache s'.stash) (fun _ _ => False)
        { s with random := r }) ↔
      ∀ id ∈ s.stash, id < 2 ^ 31 ∨ 2 ^ 64 - 2 ^ 31 ≤ id := by
  -- every entry of the stash fits the root, so any of them can be placed
  have hfit : ∀ id ∈ s.stash, ∀ d, fits c f leaf 0 (id, d) = true := fun id hid d => by
    obtain ⟨-, leaf', hlt, hleaf'⟩ := hstash id hid
    exact fits_root hpos hheight hleaf hlt hleaf'
  have hroot : ∀ k e, fits c f leaf k e = true → fits c f leaf 0 e = true :=
    fun k _ => fits_root_of_fits k
  refine (forall_separated_iff hpos hZ hroot (fun id hid => (hstash id hid).1.trans_le hn)
    fun r => ?_).trans ⟨fun h id hid => ?_, fun h e he _ => ?_⟩
  · refine writePath_filled (s := { s with random := r }) hpos hheight hZ hleaf hpm
      (fun _ _ h => h) hR rfl ?_ ?_
    · intro e he
      obtain ⟨hlt, leaf', -, hleaf'⟩ :=
        hstash e.1 (mem_stash_of_perm (InMemoryStashAdapter.perm_getAll s.stash r) he)
      exact ⟨hlt, leaf', hleaf'⟩
    · intro bucket m r' _ _ hfilled
      refine ⟨bucket, hfilled, fun k hk => ?_, lookup_deletePlaced _ _⟩
      rw [bucketForLevelLeaf_eq hpos hheight hleaf]
      exact lookup_assignAll_requests hleaf hk bucket s.cache
  · obtain ⟨d, hd⟩ := exists_lookup hid
    obtain ⟨-, leaf', hlt, hleaf'⟩ := hstash id hid
    exact h (id, d) (UnorderedMap.mem_toList.mpr hd) (fits_root hpos hheight hleaf hlt hleaf')
  · exact h e.1 (mem_stash_of_perm (List.Perm.refl _) he)

/-- An ORAM that holds blocks 0, 1 and 2 in the stash. Even IDs have leaf 0. -/
def tinyStash : ORAM InMemoryPositionMapAdapter :=
  { unbuilt ⟨4, fun id => some (id % 2), fun _ => 0, [], four_lt_two_pow⟩
      (Random.ofLeaves (Stream'.const 0)) with
    stash := AList.insert 0 [7] (AList.insert 1 [8] (AList.insert 2 [9] ∅)) }

theorem writePath_distributes_tiny :
    wp (writePath (Config.tiny 2 4) InMemoryPositionMapAdapter.adapter 1)
      (fun _ s' => ∃ bucket : ℕ → Bucket,
        (∀ level < 2, s'.cache.lookup (bucketForLevelLeaf 2 level 1) = some (bucket level)) ∧
        Distributed (Config.tiny 2 4) (fun id => some (id % 2)) 1 tinyStash.stash s'.stash bucket)
      (fun _ _ => False) tinyStash := by
  refine writePath_distributes (by decide) (by decide) (by decide) (by decide)
    (InMemoryPositionMapAdapter.implements 4 2) ⟨rfl, le_rfl⟩ fun id hid => ?_
  have hlt : id < 4 := by
    simp only [tinyStash, AList.mem_insert] at hid
    rcases hid with rfl | rfl | rfl | hid
    · decide
    · decide
    · decide
    · exact absurd hid (AList.notMem_empty id)
  exact ⟨hlt, hlt.trans (by decide), id % 2, Nat.mod_lt _ (by decide), rfl⟩

end ORAM

end PathORAM
