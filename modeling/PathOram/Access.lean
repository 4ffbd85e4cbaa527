import PathOram.Invariant
import PathOram.Lib.Greedy

/-!
# The code of an access runs the protocol

`Shows c R v s` says that the state `s` of an ORAM shows the view `v`. The position map
may be any adapter that implements its interface (`AbsPositionMapAdapter.Implements`);
`R` is what its state is related by.

* `getCache_spec`, `addToStash_spec` — reading a path.
* `selectBlocks_spec`, `evictLevels_spec`, `writePath_spec` — writing it back: the loops
  compute the greedy filling of `Greedy`, level by level from the leaf up.
* `access_spec` — an access is an `Access` of the protocol if it returns. If it throws,
  it is an `Overflow`, or the position map threw.
-/

namespace PathORAM

open Hoare HeapTree AbsStorageAdapter

/-- The state `s` shows the view `v`. -/
structure Shows (c : Config) {M : Type} (R : (ℕ → Option ℕ) → M → Prop) (v : View)
    (s : ORAM M) : Prop where
  pos : R v.pos s.map
  tree : ∀ b, v.tree b = (s.cache.lookup b).getD (content c.storage c.crypto s.storage b)
  stash : v.stash = s.stash
  coins : v.coins = s.random.ulongs
  cached : ∀ b, b ∈ v.cached ↔ b ∈ s.cache
  touched : v.touched = s.storage.calls.map StorageCall.touch
  readable : ∀ b, InTree c.height b → Readable c.storage c.crypto s.storage b

namespace ORAM

variable {c : Config} {M : Type} {pm : AbsPositionMapAdapter M} {n bound : ℕ}
  {R : (ℕ → Option ℕ) → M → Prop} {mayThrow : Prop} {v : View} {s : ORAM M} {leaf : ℕ}

/-! ### Programs on the parts of the state -/

section Parts

variable {α : Type} {Q : α → ORAM M → Prop} {E : Exception → ORAM M → Prop}

theorem wp_withRandom {f : Random → α × Random}
    (h : Q (f s.random).1 { s with random := (f s.random).2 }) : wp (withRandom f) Q E s :=
  wp_modifyGet h

theorem wp_mapGet {f : ℕ → Option ℕ} {block : ℕ} {Q : ℕ → ORAM M → Prop}
    (hpm : pm.Implements n bound R mayThrow) (hR : R f s.map) (hblock : block < n)
    (hleaf : f block = some leaf) (hQ : ∀ m', R f m' → Q leaf { s with map := m' })
    (hE : ∀ e s', mayThrow → E e s') : wp (zoom mapLens (pm.get block)) Q E s := by
  refine wp_zoom (wp_mono (hpm.get_spec f s.map block hR hblock) ?_ fun e _ h => hE e _ h)
  rintro l m' ⟨hl, hR'⟩
  rw [hl leaf hleaf]
  exact hQ m' hR'

theorem wp_mapSet {f : ℕ → Option ℕ} {block : ℕ} {Q : Unit → ORAM M → Prop}
    (hpm : pm.Implements n bound R mayThrow) (hR : R f s.map) (hblock : block < n)
    (hleaf : leaf < bound)
    (hQ : ∀ m', R (Function.update f block (some leaf)) m' → Q () { s with map := m' })
    (hE : ∀ e s', mayThrow → E e s') : wp (zoom mapLens (pm.set block leaf)) Q E s := by
  refine wp_zoom (wp_mono (hpm.set_spec f s.map block leaf hR hblock hleaf) ?_
    fun e _ h => hE e _ h)
  exact fun _ m' hR' => hQ m' hR'

end Parts

/-! ### The cache -/

theorem lookupCache_fst (cache : UnorderedMap Bucket) (dryRun : Bool) (locations toGet : List ℕ)
    (response : List Block) :
    (lookupCache cache dryRun locations toGet response).1 =
      toGet ++ locations.filter (· ∉ cache) := by
  -- Both accumulators grow along the list, so the induction is general in them.
  induction locations generalizing toGet response with
  | nil => simp [lookupCache]
  | cons location rest ih =>
    rw [lookupCache]
    cases h : cache.lookup location with
    | none =>
      have hmem : location ∉ cache := AList.lookup_eq_none.mp h
      simp only [ih]
      simp [hmem]
    | some bucket =>
      have hmem : location ∈ cache := AList.lookup_isSome.mp (by rw [h]; rfl)
      simp only [ih]
      simp [hmem]

theorem mem_lookupCache_snd (cache : UnorderedMap Bucket) (locations toGet : List ℕ)
    (response : List Block) (e : Block) :
    e ∈ (lookupCache cache false locations toGet response).2 ↔
      e ∈ response ∨ ∃ b ∈ locations, ∃ bucket, cache.lookup b = some bucket ∧ e ∈ bucket := by
  induction locations generalizing toGet response with
  | nil => simp [lookupCache]
  | cons location rest ih =>
    rw [lookupCache]
    cases h : cache.lookup location with
    | none =>
      simp only [ih, List.exists_mem_cons_iff, h]
      simp
    | some bucket =>
      simp only [ih, List.exists_mem_cons_iff, h, Bool.false_eq_true, if_false,
        List.mem_append, Option.some.injEq, exists_eq_left']
      tauto

/-- One bucket of downloaded blocks goes to the cache. -/
theorem addToCache_bucket (toGet : List ℕ) (rest : List Block) (cache : UnorderedMap Bucket)
    (j : ℕ) (blocks bucket : Bucket) (hblocks : blocks ≠ [])
    (hlength : bucket.length + blocks.length = c.Z) :
    addToCache c toGet (blocks ++ rest) (c.Z * j + bucket.length) bucket cache =
      addToCache c toGet rest (c.Z * (j + 1)) []
        (cache.insert (toGet.getD j 0) (bucket ++ blocks)) := by
  induction blocks generalizing bucket with
  | nil => exact absurd rfl hblocks
  | cons block blocks ih =>
    rw [List.length_cons] at hlength
    -- `i % Z` is the place in the bucket and `i / Z` the bucket, by `i = Z * j + place`.
    have hmod : (c.Z * j + bucket.length) % c.Z = bucket.length := by
      rw [Nat.mul_add_mod]
      exact Nat.mod_eq_of_lt (by omega)
    have hdiv : (c.Z * j + bucket.length) / c.Z = j := by
      rw [Nat.mul_add_div (by omega), Nat.div_eq_of_lt (by omega), Nat.add_zero]
    rw [List.cons_append, addToCache, hmod, hdiv]
    -- The last block of the bucket closes it; the others only lengthen it.
    cases blocks with
    | nil =>
      rw [List.length_nil] at hlength
      rw [if_pos (by omega), Nat.mul_succ, List.nil_append]
      congr 1
      omega
    | cons block' blocks =>
      rw [List.length_cons] at hlength
      -- Here `(i + 1) % Z ≠ 0`, and the bucket under construction goes on.
      have hsnoc : bucket.length + 1 = (bucket ++ [block]).length := by simp
      have hlength' : (bucket ++ [block]).length + (block' :: blocks).length = c.Z := by
        rw [← hsnoc, List.length_cons]
        omega
      rw [if_neg (by omega), Nat.add_assoc, hsnoc, ih (bucket ++ [block]) (by simp) hlength',
        List.append_assoc]
      rfl

/-- **The download is cut to the buckets it consists of.** -/
theorem addToCache_flatMap (f : ℕ → Bucket) (hZ : 0 < c.Z) (done toGet : List ℕ)
    (hf : ∀ b ∈ toGet, (f b).length = c.Z) (cache : UnorderedMap Bucket) :
    addToCache c (done ++ toGet) (toGet.flatMap f) (c.Z * done.length) [] cache =
      UnorderedMap.assignAll (toGet.map (fun b => (b, f b))) cache := by
  induction toGet generalizing done cache with
  | nil => rfl
  | cons b toGet ih =>
    have hlength := hf b List.mem_cons_self
    have hne : f b ≠ [] := fun h => by
      rw [h] at hlength
      exact hZ.ne hlength
    -- The first `Z` blocks make the bucket of `b`, which has place `done.length` in the list.
    have hbucket := addToCache_bucket (c := c) (done ++ b :: toGet) (toGet.flatMap f) cache
      done.length (f b) [] hne (by simpa using hlength)
    rw [List.length_nil, Nat.add_zero, List.nil_append] at hbucket
    have hget : (done ++ b :: toGet).getD done.length 0 = b := by simp
    have hdone : done ++ b :: toGet = (done ++ [b]) ++ toGet := by simp
    have hsucc : done.length + 1 = (done ++ [b]).length := by simp
    -- What follows is the same loop with `b` moved to `done`.
    rw [List.flatMap_cons, hbucket, hget, hdone, hsucc,
      ih (done ++ [b]) (fun b' hb' => hf b' (List.mem_cons_of_mem _ hb'))]
    rfl

/-- The locations that are looked up without success are downloaded. -/
theorem mem_lookupCache_fst (cache : UnorderedMap Bucket) (dryRun : Bool) (visited : List ℕ)
    (b : ℕ) : b ∈ (lookupCache cache dryRun visited [] []).1 ↔ b ∈ visited ∧ b ∉ cache := by
  rw [lookupCache_fst, List.nil_append, List.mem_filter, decide_eq_true_eq]

/-- The cached part of the response. -/
theorem mem_cachedBlocks (hs : Shows c R v s) (visited : List ℕ) (e : Block) :
    e ∈ (lookupCache s.cache false visited [] []).2 ↔
      ∃ b ∈ visited, b ∈ s.cache ∧ e ∈ v.tree b := by
  rw [mem_lookupCache_snd, or_iff_right List.not_mem_nil]
  refine exists_congr fun b => and_congr_right fun _ => ?_
  rw [hs.tree b]
  constructor
  · rintro ⟨bucket, hlookup, he⟩
    exact ⟨AList.lookup_isSome.mp (by rw [hlookup]; rfl), by rwa [hlookup]⟩
  · rintro ⟨hmem, he⟩
    obtain ⟨bucket, hlookup⟩ := Option.isSome_iff_exists.mp (AList.lookup_isSome.mpr hmem)
    rw [hlookup] at he
    exact ⟨bucket, hlookup, he⟩

/-- The cached blocks and the stored ones together are the blocks of the tree. -/
theorem mem_cached_or_stored (hs : Shows c R v s) {locations toGet : List ℕ}
    (htoGet : ∀ b, b ∈ toGet ↔ b ∈ locations ∧ b ∉ s.cache) (e : Block) :
    ((∃ b ∈ locations, b ∈ s.cache ∧ e ∈ v.tree b) ∨
        ∃ b ∈ toGet, e ∈ content c.storage c.crypto s.storage b) ↔
      ∃ b ∈ locations, e ∈ v.tree b := by
  constructor
  · rintro (⟨b, hb, -, he⟩ | ⟨b, hb, he⟩)
    · exact ⟨b, hb, he⟩
    · obtain ⟨hb, hnot⟩ := (htoGet b).mp hb
      exact ⟨b, hb, by rwa [hs.tree b, AList.lookup_eq_none.mpr hnot]⟩
  · rintro ⟨b, hb, he⟩
    by_cases hmem : b ∈ s.cache
    · exact Or.inl ⟨b, hb, hmem, he⟩
    · rw [hs.tree b, AList.lookup_eq_none.mpr hmem] at he
      exact Or.inr ⟨b, (htoGet b).mpr ⟨hb, hmem⟩, he⟩

theorem toFinset_eq_sdiff {toGet locations : List ℕ} {cached : Finset ℕ}
    (h : ∀ b, b ∈ toGet ↔ b ∈ locations ∧ b ∉ cached) :
    toGet.toFinset = locations.toFinset \ cached := by
  ext b
  rw [List.mem_toFinset, h, Finset.mem_sdiff, List.mem_toFinset]

/-- Caching what the storage holds at the missing locations changes no bucket. -/
theorem shows_cached (hs : Shows c R v s) {r : Random} (hr : r.ulongs = s.random.ulongs)
    {locations toGet : List ℕ} (htoGet : ∀ b, b ∈ toGet ↔ b ∈ locations ∧ b ∉ s.cache)
    (calls : List StorageCall)
    (hcalls : calls.map StorageCall.touch =
      s.storage.calls.map StorageCall.touch ++ Touch.reads (locations.toFinset \ v.cached)) :
    Shows c R (v.fetch locations.toFinset)
      { s with
        storage := { s.storage with calls := calls }
        random := r
        cache := UnorderedMap.assignAll
          (toGet.map (fun b => (b, content c.storage c.crypto s.storage b))) s.cache } where
  pos := hs.pos
  tree b := by
    change v.tree b = ((UnorderedMap.assignAll _ _).lookup b).getD
      (content c.storage c.crypto s.storage b)
    rw [UnorderedMap.lookup_assignAll_map, hs.tree b]
    split
    · next hb =>
      rw [AList.lookup_eq_none.mpr ((htoGet b).mp hb).2]
      rfl
    · rfl
  stash := hs.stash
  coins := hs.coins.trans hr.symm
  cached b := by
    have hkeys : (toGet.map (fun b => (b, content c.storage c.crypto s.storage b))).map
        Prod.fst = toGet := by
      rw [List.map_map]
      exact List.map_id _
    change b ∈ v.cached ∪ locations.toFinset ↔ _
    rw [UnorderedMap.mem_assignAll, hkeys, htoGet, Finset.mem_union, List.mem_toFinset, hs.cached]
    tauto
  touched := by
    change v.touched ++ _ = _
    rw [hcalls, hs.touched]
  readable := hs.readable

/-- **Reading through the cache.** The missing locations are downloaded in one call; the
response consists of the blocks of all locations asked for. -/
theorem getCache_spec (hc : c.Valid) (hs : Shows c R v s) {locations : List ℕ}
    (hin : ∀ b ∈ locations, InTree c.height b) (dryRun : Bool)
    {Q : List Block → ORAM M → Prop} {E : Exception → ORAM M → Prop}
    (hQ : ∀ response s', Shows c R (v.fetch locations.toFinset) s' →
      (dryRun = false → ∀ e, e ∈ response ↔ ∃ b ∈ locations, e ∈ v.tree b) →
      Q response s') :
    wp (getCache c locations [] dryRun) Q E s := by
  unfold getCache
  refine wp_bind (wp_withRandom (wp_bind (wp_get ?_)))
  -- The order in which the locations are visited is random, and does not matter.
  set visited := (Random.iterate locations s.random).1
  have hvisited : ∀ b, b ∈ visited ↔ b ∈ locations := fun b =>
    (Random.perm_iterate locations s.random).mem_iff
  have htoGet : ∀ b, b ∈ (lookupCache s.cache dryRun visited [] []).1 ↔
      b ∈ locations ∧ b ∉ s.cache := fun b => by rw [mem_lookupCache_fst, hvisited]
  have hfinset : (lookupCache s.cache dryRun visited [] []).1.toFinset =
      locations.toFinset \ v.cached :=
    toFinset_eq_sdiff fun b => by rw [htoGet, hs.cached]
  -- A dry run returns no blocks, so the response is described only without it.
  have hcached : dryRun = false → ∀ e, e ∈ (lookupCache s.cache dryRun visited [] []).2 ↔
      ∃ b ∈ locations, b ∈ s.cache ∧ e ∈ v.tree b := by
    rintro rfl e
    simp only [mem_cachedBlocks hs, hvisited]
  generalize lookupCache s.cache dryRun visited [] [] = found at *
  obtain ⟨toGet, response⟩ := found
  change wp (if toGet.length > 0 then _ else _) Q E _
  split
  · next hpos =>
    -- Something is missing, and is downloaded in one call.
    have hreadable : ∀ b ∈ toGet, Readable c.storage c.crypto s.storage b := fun b hb =>
      hs.readable b (hin b ((htoGet b).mp hb).1)
    refine wp_bind (wp_zoom (get_spec hreadable
      (fun b hb => hc.lt_capacity (hin b ((htoGet b).mp hb).1)) ?_))
    refine wp_bind (wp_modify (wp_pure ?_))
    -- The downloaded blocks are cut to buckets, and these are what the tree holds there.
    have hcache := addToCache_flatMap (c := c) (content c.storage c.crypto s.storage) hc.Z_pos
      [] toGet (fun b hb => ((hreadable b hb).length).trans hc.Z_eq) s.cache
    rw [List.nil_append, List.length_nil, Nat.mul_zero] at hcache
    have hshows := shows_cached hs (r := (Random.iterate locations s.random).2) rfl htoGet
      -- The call shows as reads, because the list of missing locations is not empty.
      (s.storage.calls ++ [.get toGet]) (by
        have hne : locations.toFinset \ v.cached ≠ ∅ := by
          rw [← hfinset]
          exact fun h => hpos.ne' (List.length_eq_zero_iff.mpr
            (List.toFinset_eq_empty_iff _ |>.mp h))
        rw [List.map_append, Touch.reads, if_neg hne, ← hfinset]
        rfl)
    rw [← hcache] at hshows
    refine hQ _ _ hshows ?_
    rintro rfl e
    show e ∈ response ++ toGet.flatMap (content c.storage c.crypto s.storage) ↔ _
    rw [List.mem_append, hcached rfl, List.mem_flatMap]
    exact mem_cached_or_stored hs htoGet e
  · next hzero =>
    -- Everything is cached, and the storage is not asked.
    obtain rfl : toGet = [] := List.length_eq_zero_iff.mp (by omega)
    have hshows := shows_cached hs (r := (Random.iterate locations s.random).2) rfl htoGet
      s.storage.calls (by
        rw [← hfinset]
        exact (List.append_nil _).symm)
    refine wp_pure (hQ _ _ hshows ?_)
    rintro rfl e
    rw [hcached rfl, ← mem_cached_or_stored hs htoGet e]
    exact (or_iff_left fun ⟨b, hb, _⟩ => List.not_mem_nil hb).symm

/-! ### Reading a path -/

/-- `stash'` holds `stash` and blocks of `blocks`; blocks that were there are kept. -/
structure Adds (blocks : List Block) (stash stash' : InMemoryStashAdapter) : Prop where
  keep : ∀ id d, stash.lookup id = some d → stash'.lookup id = some d
  source : ∀ id d, stash'.lookup id = some d → stash.lookup id = some d ∨
    (id ≠ ULONG_MAX ∧ (id, d) ∈ blocks)

theorem Adds.refl (blocks : List Block) (stash : InMemoryStashAdapter) :
    Adds blocks stash stash :=
  ⟨fun _ _ h => h, fun _ _ h => Or.inl h⟩

/-- `add` keeps what is there and adds at most its block. -/
theorem adds_add {block : Block} (hreal : Block.Real block) (rest : List Block)
    (stash : InMemoryStashAdapter) :
    Adds (block :: rest) stash
      (if block.1 ∈ stash then stash else stash.insert block.1 block.2) := by
  split
  · exact Adds.refl _ _
  · next hnot =>
    refine ⟨fun id d h => ?_, fun id d h => ?_⟩
    · have hne : id ≠ block.1 := fun heq => hnot (heq ▸ mem_of_lookup h)
      rwa [AList.lookup_insert_ne hne]
    · by_cases hid : id = block.1
      · subst hid
        rw [AList.lookup_insert, Option.some.injEq] at h
        subst h
        exact Or.inr ⟨hreal, List.mem_cons_self⟩
      · rw [AList.lookup_insert_ne hid] at h
        exact Or.inl h

theorem Adds.trans {block : Block} {rest : List Block} {stash stash₁ stash' : InMemoryStashAdapter}
    (h : Adds (block :: rest) stash stash₁) (h' : Adds rest stash₁ stash') :
    Adds (block :: rest) stash stash' where
  keep id d hd := h'.keep id d (h.keep id d hd)
  source id d hd := by
    rcases h'.source id d hd with hd | ⟨hreal, hmem⟩
    · exact h.source id d hd
    · exact Or.inr ⟨hreal, List.mem_cons_of_mem _ hmem⟩

theorem Adds.mem {blocks : List Block} {stash stash' : InMemoryStashAdapter}
    (h : Adds blocks stash stash') {id : ℕ} (hid : id ∈ stash) : id ∈ stash' := by
  obtain ⟨d, hd⟩ := exists_lookup hid
  exact mem_of_lookup (h.keep id d hd)

/-- **Blocks are put in the stash one by one**, until one has no room. -/
theorem addToStash_spec (blocks : List Block) {Q : Unit → ORAM M → Prop}
    {E : Exception → ORAM M → Prop}
    (hQ : ∀ stash, Adds blocks s.stash stash → (∀ e ∈ blocks, Block.Real e → e.1 ∈ stash) →
      Q () { s with stash := stash })
    (hE : ∀ stash, Adds blocks s.stash stash → stash.keys.length = c.stashCapacity →
      (∃ e ∈ blocks, Block.Real e ∧ e.1 ∉ stash) →
      E (.overCapacity c.stashCapacity) { s with stash := stash }) :
    wp (addToStash c blocks) Q E s := by
  induction blocks generalizing s with
  | nil => exact wp_pure (hQ s.stash (Adds.refl _ _) (by simp))
  | cons block rest ih =>
    rw [addToStash]
    by_cases hreal : block.1 ≠ ULONG_MAX
    · rw [if_pos hreal]
      refine wp_bind (wp_zoom (InMemoryStashAdapter.wp_add ?_ ?_))
      -- `add` has room: the block is in the stash afterwards, new or not.
      · set stash₁ := if block.1 ∈ s.stash then s.stash else s.stash.insert block.1 block.2
        have hadds : Adds (block :: rest) s.stash stash₁ := adds_add hreal rest s.stash
        have hmem : block.1 ∈ stash₁ := by
          by_cases h : block.1 ∈ s.stash
          · rwa [show stash₁ = s.stash from if_pos h]
          · rw [show stash₁ = s.stash.insert block.1 block.2 from if_neg h]
            exact AList.mem_insert _ |>.mpr (Or.inl rfl)
        refine ih ?_ ?_
        · intro stash hrest hall
          refine hQ stash (hadds.trans hrest) fun e he he' => ?_
          rcases List.mem_cons.mp he with rfl | he
          · exact hrest.mem hmem
          · exact hall e he he'
        · rintro stash hrest hfull ⟨e, he, hblocked⟩
          exact hE stash (hadds.trans hrest) hfull ⟨e, List.mem_cons_of_mem _ he, hblocked⟩
      -- `add` has no room: nothing of the rest was tried.
      · intro hfull hnot
        exact hE s.stash (Adds.refl _ _) hfull ⟨block, List.mem_cons_self, hreal, hnot⟩
    · -- an "empty" block is skipped
      rw [if_neg hreal]
      have hskip : Adds (block :: rest) s.stash s.stash := Adds.refl _ _
      refine wp_bind (wp_pure (ih ?_ ?_))
      · intro stash hrest hall
        refine hQ stash (hskip.trans hrest) fun e he he' => ?_
        rcases List.mem_cons.mp he with rfl | he
        · exact absurd he' hreal
        · exact hall e he he'
      · rintro stash hrest hfull ⟨e, he, hblocked⟩
        exact hE stash (hskip.trans hrest) hfull ⟨e, List.mem_cons_of_mem _ he, hblocked⟩

theorem pathLocations_toFinset (hc : c.Valid) (hleaf : leaf < 2 ^ (c.height - 1)) :
    (pathLocations c leaf []).toFinset = c.path leaf := by
  ext b
  rw [List.mem_toFinset, mem_pathLocations hc hleaf, Config.mem_path]
  simp

theorem shows_stash (hs : Shows c R v s) (stash : InMemoryStashAdapter) :
    Shows c R { v with stash := stash } { s with stash := stash } :=
  ⟨hs.pos, hs.tree, rfl, hs.coins, hs.cached, hs.touched, hs.readable⟩

theorem shows_map (hs : Shows c R v s) {f : ℕ → Option ℕ} {m : M} (hR : R f m) :
    Shows c R { v with pos := f } { s with map := m } :=
  ⟨hR, hs.tree, hs.stash, hs.coins, hs.cached, hs.touched, hs.readable⟩

/-- **Reading a path** downloads what is not cached and absorbs its blocks. -/
theorem readPath_spec (hc : c.Valid) (hs : Shows c R v s) (hleaf : leaf < 2 ^ (c.height - 1))
    {Q : List ℕ → ORAM M → Prop} {E : Exception → ORAM M → Prop}
    (hQ : ∀ path stash s', Shows c R { v.fetch (c.path leaf) with stash := stash } s' →
      AbsorbsAll c v leaf stash → Q path s')
    (hE : ∀ stash s', Shows c R { v.fetch (c.path leaf) with stash := stash } s' →
      Absorbs c v leaf stash → stash.keys.length = c.stashCapacity →
      (∃ b ∈ c.path leaf, ∃ e ∈ v.tree b, Block.Real e ∧ e.1 ∉ stash) →
      E (.overCapacity c.stashCapacity) s') :
    wp (readPath c leaf [] true) Q E s := by
  unfold readPath
  have hmem : ∀ b, b ∈ pathLocations c leaf [] ↔ b ∈ c.path leaf := fun b => by
    rw [← List.mem_toFinset, pathLocations_toFinset hc hleaf]
  refine wp_bind (getCache_spec hc hs
    (fun b hb => Config.inTree_of_mem_path hleaf ((hmem b).mp hb)) false ?_)
  intro blocks s' hs' hblocks
  rw [pathLocations_toFinset hc hleaf] at hs'
  have hblocks := fun e => hblocks rfl e
  -- Whatever part of the blocks was added, it came from the buckets of the path.
  have habsorbs : ∀ stash, Adds blocks s'.stash stash → Absorbs c v leaf stash := by
    intro stash hadds
    rw [← hs'.stash] at hadds
    refine ⟨hadds.keep, fun id d hd => (hadds.source id d hd).imp_right ?_⟩
    rintro ⟨hreal, he⟩
    obtain ⟨b, hb, he⟩ := (hblocks (id, d)).mp he
    exact ⟨hreal, b, (hmem b).mp hb, he⟩
  refine wp_bind (addToStash_spec blocks ?_ ?_)
  · intro stash hadds hall
    refine wp_pure (hQ _ stash _ (shows_stash hs' stash) ⟨habsorbs stash hadds, ?_⟩)
    exact fun b hb e he hreal => hall e ((hblocks e).mpr ⟨b, (hmem b).mpr hb, he⟩) hreal
  · rintro stash hadds hfull ⟨e, he, hreal, hnot⟩
    obtain ⟨b, hb, he⟩ := (hblocks e).mp he
    exact hE stash _ (shows_stash hs' stash) (habsorbs stash hadds) hfull
      ⟨b, (hmem b).mp hb, e, he, hreal, hnot⟩

/-! ### Writing a path -/

/-- Whether a block fits in the bucket of a level, by the leaf its ID has in `f`. -/
def fits (c : Config) (f : ℕ → Option ℕ) (leaf level : ℕ) (e : Block) : Bool :=
  canInclude c.height ((f e.1).getD 0) leaf level

/-- A selection with more blocks selected. -/
def Selection.extend (sel : Selection) (more : List Block × List ℕ) : Selection :=
  ⟨sel.toInsert ++ more.1, sel.toDelete ++ more.1.map (fun e => toInt e.1),
    sel.toDeleteLocal ++ more.2⟩

theorem Selection.extend_nil (sel : Selection) : sel.extend ([], []) = sel := by
  simp [Selection.extend]

/-- A selection with one more block selected. -/
def Selection.snoc (sel : Selection) (e : Block) (i : ℕ) : Selection :=
  ⟨sel.toInsert ++ [e], sel.toDelete ++ [toInt e.1], sel.toDeleteLocal ++ [i]⟩

theorem Selection.extend_cons (sel : Selection) (e : Block) (i : ℕ)
    (more : List Block × List ℕ) :
    (sel.snoc e i).extend more = sel.extend (e :: more.1, i :: more.2) := by
  simp [Selection.extend, Selection.snoc]

section Scan

variable {p : Block → Bool} {size i : ℕ} {sel : Selection} {e : Block} {l : List Block}

/-- The scan has run off the list, whatever room is left. -/
theorem Selection.extend_select_nil :
    sel.extend (Greedy.select p (size - sel.toInsert.length) [] i) = sel := by
  have hselect : Greedy.select p (size - sel.toInsert.length) [] i = ([], []) := by
    cases size - sel.toInsert.length <;> rfl
  rw [hselect, Selection.extend_nil]

/-- A block that does not fit is passed over. -/
theorem Selection.extend_select_of_not (hlen : sel.toInsert.length < size) (he : p e = false) :
    sel.extend (Greedy.select p (size - sel.toInsert.length) (e :: l) i) =
      sel.extend (Greedy.select p (size - sel.toInsert.length) l (i + 1)) := by
  obtain ⟨room, hroom⟩ : ∃ room, size - sel.toInsert.length = room + 1 :=
    ⟨size - sel.toInsert.length - 1, by omega⟩
  rw [hroom, Greedy.select, he, if_neg Bool.false_ne_true]

/-- A block that fits is selected, and the scan goes on while there is room. -/
theorem Selection.extend_select_of_fits (hlen : sel.toInsert.length < size) (he : p e = true) :
    sel.extend (Greedy.select p (size - sel.toInsert.length) (e :: l) i) =
      if (sel.snoc e i).toInsert.length = size then sel.snoc e i
      else (sel.snoc e i).extend
        (Greedy.select p (size - (sel.snoc e i).toInsert.length) l (i + 1)) := by
  have hsnoc : (sel.snoc e i).toInsert.length = sel.toInsert.length + 1 := List.length_append
  obtain ⟨room, hroom⟩ : ∃ room, size - sel.toInsert.length = room + 1 :=
    ⟨size - sel.toInsert.length - 1, by omega⟩
  have hrest : size - (sel.snoc e i).toInsert.length = room := by omega
  rw [hroom, Greedy.select, he, if_pos rfl, ← Selection.extend_cons, hrest]
  by_cases hfull : (sel.snoc e i).toInsert.length = size
  · obtain rfl : room = 0 := by omega
    rw [if_pos hfull, Greedy.select, Selection.extend_nil]
  · rw [if_neg hfull]

end Scan

section Writing

variable {f : ℕ → Option ℕ} {E : Exception → ORAM M → Prop}

/-- **The loop over the stash is a greedy selection**: it takes the first blocks that fit,
until the bucket is full. -/
theorem selectBlocks_spec (hpm : pm.Implements n bound R mayThrow) {level : ℕ}
    (hE : ∀ e s', mayThrow → E e s') {l : List Block}
    (hl : ∀ e ∈ l, e.1 < n ∧ ∃ leaf', f e.1 = some leaf') {i : ℕ} {sel : Selection}
    {s : ORAM M} (hR : R f s.map) (hlen : sel.toInsert.length < c.Z)
    {Q : Selection → ORAM M → Prop}
    (hQ : ∀ m, R f m → Q (sel.extend (Greedy.select (fits c f leaf level)
      (c.Z - sel.toInsert.length) l i)) { s with map := m }) :
    wp (selectBlocks c pm leaf level l i sel) Q E s := by
  induction l generalizing i sel s with
  | nil =>
    have hQ := hQ s.map hR
    rw [Selection.extend_select_nil] at hQ
    exact wp_pure hQ
  | cons e l ih =>
    obtain ⟨hid, leaf', hleaf'⟩ := hl e List.mem_cons_self
    have hrest : ∀ e ∈ l, e.1 < n ∧ ∃ leaf', f e.1 = some leaf' :=
      fun e he => hl e (List.mem_cons_of_mem _ he)
    rw [selectBlocks]
    refine wp_bind (wp_mapGet hpm hR hid hleaf' (fun m hR' => ?_) hE)
    -- The leaf that the map returned is the one that `fits` looks up.
    have hfits : fits c f leaf level e = canInclude c.height leaf' leaf level := by
      rw [fits, hleaf']
      rfl
    by_cases hcan : canInclude c.height leaf' leaf level = true
    · rw [if_pos hcan]
      rw [Selection.extend_select_of_fits hlen (hfits.trans hcan)] at hQ
      change wp (if (sel.snoc e i).toInsert.length = c.Z then _ else _) Q E _
      split
      · next hfull =>
        -- The bucket is full, and the scan stops here.
        rw [if_pos hfull] at hQ
        exact wp_pure (hQ m hR')
      · next hfull =>
        have hsnoc : (sel.snoc e i).toInsert.length = sel.toInsert.length + 1 :=
          List.length_append
        have hroom : (sel.snoc e i).toInsert.length < c.Z := by omega
        rw [if_neg hfull] at hQ
        exact ih hrest hR' hroom fun m' hR'' => hQ m' hR''
    -- The block belongs to another path, and stays where it is.
    · rw [if_neg hcan]
      rw [Selection.extend_select_of_not hlen (hfits.trans (Bool.eq_false_iff.mpr hcan))] at hQ
      exact ih hrest hR' hlen fun m' hR'' => hQ m' hR''

/-- **A bucket is the selected blocks, last one first, and then dummies.** -/
theorem fillBucket_spec {size : ℕ} {toInsert : List Block} (hlen : toInsert.length ≤ size)
    {s : ORAM M} {Q : Bucket → ORAM M → Prop}
    (hQ : ∀ dummies r, r.ulongs = s.random.ulongs →
      (toInsert.reverse ++ dummies).length = size →
      (∀ e ∈ dummies, e.1 = ULONG_MAX ∧ e.2.length = c.dataSize) →
      Q (toInsert.reverse ++ dummies) { s with random := r }) :
    wp (fillBucket c size toInsert) Q E s := by
  induction size generalizing toInsert s Q with
  | zero =>
    obtain rfl : toInsert = [] := List.length_eq_zero_iff.mp (Nat.le_zero.mp hlen)
    exact wp_pure (hQ [] s.random rfl rfl (by simp))
  | succ size ih =>
    rw [fillBucket]
    rcases List.eq_nil_or_concat toInsert with rfl | ⟨init, block, rfl⟩
    -- Nothing is left to insert, and the entry is a dummy.
    · rw [List.getLast?_nil]
      refine wp_bind (wp_withRandom (wp_bind (ih (Nat.zero_le _) ?_)))
      intro dummies r hr hlength hdummies
      rw [List.reverse_nil, List.nil_append] at hlength
      refine wp_pure (hQ ((ULONG_MAX, _) :: dummies) r hr ?_ ?_)
      · rw [List.reverse_nil, List.nil_append, List.length_cons, hlength]
      · intro e he
        rcases List.mem_cons.mp he with rfl | he
        · exact ⟨rfl, Random.length_getRandomBlock _ _⟩
        · exact hdummies e he
    -- The last block of `toInsert` is taken off and comes first.
    · rw [List.concat_eq_append] at hlen ⊢
      rw [List.getLast?_concat, List.dropLast_concat]
      have hinit : init.length ≤ size := by simpa using hlen
      refine wp_bind (ih hinit ?_)
      intro dummies r hr hlength hdummies
      have hQ := hQ dummies r hr (by simpa using hlength) hdummies
      rw [List.concat_eq_append, List.reverse_append] at hQ
      exact wp_pure hQ

/-- A bucket as `writePath` fills it: the blocks of `blocks` and dummies, `Z` in all. -/
def Filled (c : Config) (blocks : List Block) (bucket : Bucket) : Prop :=
  ∃ dummies, bucket = blocks.reverse ++ dummies ∧ bucket.length = c.Z ∧
    ∀ e ∈ dummies, e.1 = ULONG_MAX ∧ e.2.length = c.dataSize

/-- **The loop over the levels is the greedy filling of the path.** It requests one
bucket for each level and notes every placed block for deletion. -/
theorem evictLevels_spec (hpos : 1 ≤ c.height) (hheight : c.height ≤ 31) (hZ : 0 < c.Z)
    (hleaf : leaf < 2 ^ (c.height - 1)) (hpm : pm.Implements n bound R mayThrow)
    (hE : ∀ e s', mayThrow → E e s') {levels : ℕ} {l : List Block}
    (hl : ∀ e ∈ l, e.1 < n ∧ ∃ leaf', f e.1 = some leaf')
    {toDelete : List (BitVec 32)} {requests : List (ℕ × Bucket)} {s : ORAM M}
    (hR : R f s.map) {Q : List (ℕ × Bucket) × List (BitVec 32) → ORAM M → Prop}
    (hQ : ∀ (bucket : ℕ → Bucket) m r, R f m → r.ulongs = s.random.ulongs →
      (∀ k < levels, Filled c (Greedy.placedAt (fits c f leaf) c.Z levels l k) (bucket k)) →
      Q (requests ++ (List.range levels).reverse.map
            (fun k => (node c.height k leaf, bucket k)),
          toDelete ++ (Greedy.placed (fits c f leaf) c.Z levels l).map (fun e => toInt e.1))
        { s with map := m, random := r }) :
    wp (evictLevels c pm leaf levels l toDelete requests) Q E s := by
  induction levels generalizing l toDelete requests s with
  | zero =>
    have hQ := hQ (fun _ => []) s.map s.random hR rfl (fun k hk => absurd hk (Nat.not_lt_zero k))
    rw [List.range_zero, List.reverse_nil, List.map_nil, List.append_nil, Greedy.placed,
      List.map_nil, List.append_nil] at hQ
    exact wp_pure hQ
  | succ level ih =>
    rw [evictLevels]
    refine wp_bind (selectBlocks_spec hpm hE hl hR (by exact hZ) fun m hR' => ?_)
    -- The selection starts empty, so the bucket has room for `Z` blocks.
    set taken := Greedy.take (fits c f leaf level) c.Z l with htaken
    set rest := Greedy.rest (fits c f leaf level) c.Z l with hrest
    have hselect : (Greedy.select (fits c f leaf level) c.Z l 0).1 = taken :=
      Greedy.select_fst _ _ _ _
    have hextend : (Selection.mk [] toDelete []).extend
        (Greedy.select (fits c f leaf level) (c.Z - ([] : List Block).length) l 0) =
        ⟨taken, toDelete ++ taken.map (fun e => toInt e.1),
          (Greedy.select (fits c f leaf level) c.Z l 0).2⟩ := by
      rw [List.length_nil, Nat.sub_zero, Selection.extend, hselect]
      simp
    rw [hextend]
    change wp (_ >>= _) Q E _
    -- Erasing by position leaves what was not selected.
    rw [Greedy.foldl_eraseIdx_select, ← hrest]
    refine wp_bind (fillBucket_spec (Greedy.length_take_le _ _ _) ?_)
    intro dummies r hr hlength hdummies
    have hsub : ∀ e ∈ rest, e ∈ l := fun e he =>
      (Greedy.take_append_rest_perm (fits c f leaf level) c.Z l).subset
        (List.mem_append_right _ he)
    -- The levels below see only the blocks that are left.
    refine ih (fun e he => hl e (hsub e he)) hR' ?_
    intro bucket m' r' hR'' hr' hfilled
    -- The bucket of this level comes first in the requests, before those of the levels below.
    have hlast : Greedy.placedAt (fits c f leaf) c.Z (level + 1) l level = taken := by
      rw [Greedy.placedAt, if_pos rfl]
    have hQ := hQ (fun k => if k = level then taken.reverse ++ dummies else bucket k) m' r' hR''
      (hr'.trans hr) ?_
    · have hmap : (List.range level).reverse.map (fun k => (node c.height k leaf,
          if k = level then taken.reverse ++ dummies else bucket k)) =
          (List.range level).reverse.map (fun k => (node c.height k leaf, bucket k)) :=
        List.map_congr_left fun k hk => by
          rw [List.mem_reverse, List.mem_range] at hk
          rw [if_neg hk.ne]
      rw [List.range_succ, List.reverse_append, List.reverse_singleton, List.singleton_append,
        List.map_cons, if_pos rfl, hmap, Greedy.placed, List.map_append] at hQ
      rw [bucketForLevelLeaf_eq hpos hheight hleaf, List.append_assoc, List.append_assoc]
      exact hQ
    · intro k hk
      by_cases hlevel : k = level
      · subst hlevel
        rw [if_pos rfl, hlast]
        exact ⟨dummies, rfl, hlength, hdummies⟩
      · rw [if_neg hlevel, Greedy.placedAt, if_neg hlevel]
        exact hfilled k (by omega)

/-- The entries of a bucket that are not dummies are the blocks it was filled with. -/
theorem Filled.mem {blocks : List Block} {bucket : Bucket} (h : Filled c blocks bucket)
    {e : Block} (he : e ∈ bucket) (hreal : Block.Real e) : e ∈ blocks := by
  obtain ⟨dummies, rfl, -, hdummies⟩ := h
  rcases List.mem_append.mp he with he | he
  · exact List.mem_reverse.mp he
  · exact absurd (hdummies e he).1 hreal

theorem Filled.dummy {blocks : List Block} {bucket : Bucket} (h : Filled c blocks bucket)
    (hblocks : ∀ e ∈ blocks, Block.Real e) {e : Block} (he : e ∈ bucket)
    (hdummy : ¬Block.Real e) : e.2.length = c.dataSize := by
  obtain ⟨dummies, rfl, -, hdummies⟩ := h
  rcases List.mem_append.mp he with he | he
  · exact absurd (hblocks e (List.mem_reverse.mp he)) hdummy
  · exact (hdummies e he).2

theorem Filled.countP {blocks : List Block} {bucket : Bucket} (h : Filled c blocks bucket)
    {id : ℕ} (hid : id ≠ ULONG_MAX) :
    bucket.countP (·.1 = id) = blocks.countP (·.1 = id) := by
  obtain ⟨dummies, rfl, -, hdummies⟩ := h
  have hzero : dummies.countP (·.1 = id) = 0 := List.countP_eq_zero.mpr fun e he => by
    rw [(hdummies e he).1, decide_eq_true_eq]
    exact hid.symm
  rw [List.countP_append, List.countP_reverse, hzero, Nat.add_zero]

/-- Each ID of the stash is listed once. -/
theorem countP_of_perm_toList {stash : InMemoryStashAdapter} {l : List Block}
    (hl : l.Perm stash.toList) {id : ℕ} (hid : id ∈ stash) : l.countP (·.1 = id) = 1 := by
  have hmem : id ∈ stash.toList.map Prod.fst := by
    rw [UnorderedMap.keys_toList]
    exact hid
  have hcount := List.count_eq_one_of_mem stash.nodup_keys_toList hmem
  rw [hl.countP_eq, ← hcount, List.count_eq_countP, List.countP_map]
  exact List.countP_congr fun e _ => by simp

/-- The blocks of an ID on the path are the placed ones. -/
theorem sum_countP_filled (hleaf : leaf < 2 ^ (c.height - 1)) {l : List Block}
    {fits : ℕ → Block → Bool} {bucket : ℕ → Bucket}
    (hfilled : ∀ k < c.height, Filled c (Greedy.placedAt fits c.Z c.height l k) (bucket k))
    {v' : View} (hpath : ∀ k < c.height, v'.tree (node c.height k leaf) = bucket k) {id : ℕ}
    (hid : id ≠ ULONG_MAX) :
    ∑ b ∈ c.path leaf, (v'.tree b).countP (·.1 = id) =
      (Greedy.placed fits c.Z c.height l).countP (·.1 = id) := by
  rw [Config.path, HeapTree.sum_path hleaf (fun b => (v'.tree b).countP (·.1 = id)),
    ← Greedy.sum_countP_placedAt]
  refine congrArg List.sum (List.map_congr_left fun k hk => ?_)
  have hk := List.mem_range.mp hk
  rw [hpath k hk, (hfilled k hk).countP hid]

/-- Small IDs survive the conversion to `int` on their way to `deleteBlock`. -/
theorem map_ofInt_placed {stash : InMemoryStashAdapter} {l : List Block}
    (hl : l.Perm stash.toList) (hsmall : ∀ id ∈ stash, id < 2 ^ 31) {fits : ℕ → Block → Bool}
    {Z height : ℕ} :
    (Greedy.placed fits Z height l).map (fun e => ofInt (toInt e.1)) =
      (Greedy.placed fits Z height l).map Prod.fst :=
  List.map_congr_left fun e he => by
    have hmem := hl.subset (Greedy.placed_append_leftover_perm.subset (List.mem_append_left _ he))
    exact ofInt_toInt (hsmall e.1 (mem_of_lookup (UnorderedMap.mem_toList.mp hmem)))

/-- A block of the stash is placed once, or kept: the IDs that are deleted are those that were
placed, as long as they survive the conversion to `int`. -/
theorem placed_or_kept {l : List Block} (hl : l.Perm v.stash.toList)
    (hsmall : ∀ id ∈ v.stash, id < 2 ^ 31) {fits : ℕ → Block → Bool} {Z height : ℕ}
    {stash' : InMemoryStashAdapter}
    (hstash : ∀ id, stash'.lookup id =
      if id ∈ (Greedy.placed fits Z height l).map (fun e => ofInt (toInt e.1)) then none
      else v.stash.lookup id) {id : ℕ} (hid : id ∈ v.stash) :
    (Greedy.placed fits Z height l).countP (·.1 = id) + (if id ∈ stash' then 1 else 0) = 1 := by
  set placed := Greedy.placed fits Z height l with hplaced
  have hdeleted : placed.map (fun e => ofInt (toInt e.1)) = placed.map Prod.fst :=
    map_ofInt_placed hl hsmall
  -- The stash lists each ID once, so it is either placed or left over.
  have htotal : placed.countP (·.1 = id) +
      (Greedy.leftover fits Z height l).countP (·.1 = id) = 1 := by
    rw [← List.countP_append, Greedy.placed_append_leftover_perm.countP_eq,
      countP_of_perm_toList hl hid]
  have hkept : id ∈ stash' ↔ ¬0 < placed.countP (·.1 = id) := by
    rw [← AList.lookup_isSome, hstash, hdeleted, List.countP_pos_iff]
    have hexists : id ∈ placed.map Prod.fst ↔ ∃ e ∈ placed, decide (e.1 = id) = true := by
      simp
    by_cases h : id ∈ placed.map Prod.fst
    · rw [if_pos h]
      simpa using hexists.mp h
    · rw [if_neg h, ← hexists]
      exact iff_of_true (AList.lookup_isSome.mpr hid) h
  split
  · next h =>
    have := hkept.mp h
    omega
  · next h =>
    have := not_not.mp (mt hkept.mpr h)
    omega

/-- **What the loops leave is an eviction.** `l` is the shuffled stash, and the buckets of
the path hold its greedy filling, by a test that blocks which do not fit never pass. -/
theorem evicts_of_filled (hc : c.Valid) (hleaf : leaf < 2 ^ (c.height - 1))
    {fit : ℕ → Block → Bool} (hfit : ∀ k e, fit k e = true → fits c v.pos leaf k e = true)
    (hpos : ∀ id ∈ v.stash, id < c.blocks ∧ ∃ leaf' < 2 ^ (c.height - 1), v.pos id = some leaf')
    {l : List Block} (hl : l.Perm v.stash.toList) {bucket : ℕ → Bucket}
    (hfilled : ∀ k < c.height,
      Filled c (Greedy.placedAt fit c.Z c.height l k) (bucket k))
    {v' : View} (hpath : ∀ k < c.height, v'.tree (node c.height k leaf) = bucket k)
    (hoff : ∀ b ∉ c.path leaf, v'.tree b = v.tree b)
    (hstash : ∀ id, v'.stash.lookup id =
      if id ∈ (Greedy.placed fit c.Z c.height l).map
        (fun e => ofInt (toInt e.1)) then none else v.stash.lookup id) :
    Evicts c v.pos leaf v.stash v.tree v' := by
  -- Where the buckets and the blocks of the greedy filling come from.
  have hlevel : ∀ b ∈ c.path leaf, ∃ k < c.height, node c.height k leaf = b := fun b hb =>
    HeapTree.mem_path.mp (Config.mem_path.mp hb)
  have hmem_l : ∀ e ∈ l, v.stash.lookup e.1 = some e.2 := fun e he =>
    UnorderedMap.mem_toList.mp (hl.subset he)
  have hplaced : ∀ k < c.height, ∀ e ∈ Greedy.placedAt fit c.Z c.height l k,
      e ∈ l := fun k hk e he =>
    Greedy.placed_append_leftover_perm.subset
      (List.mem_append_left _ (Greedy.mem_placed.mpr ⟨k, hk, he⟩))
  have hreal : ∀ k < c.height, ∀ e ∈ Greedy.placedAt fit c.Z c.height l k,
      Block.Real e := fun k hk e he =>
    hc.ne_ULONG_MAX (hpos e.1 (mem_of_lookup (hmem_l e (hplaced k hk e he)))).1
  refine ⟨hoff, ?_, ?_, ?_, ?_, ?_, ?_⟩
  -- Every bucket of the path is full.
  · intro b hb
    obtain ⟨k, hk, rfl⟩ := hlevel b hb
    rw [hpath k hk]
    obtain ⟨-, -, hlength, -⟩ := hfilled k hk
    exact hlength
  -- Its dummies have the size of a block.
  · intro b hb e he hdummy
    obtain ⟨k, hk, rfl⟩ := hlevel b hb
    rw [hpath k hk] at he
    exact (hfilled k hk).dummy (hreal k hk) he hdummy
  -- Its blocks come from the stash.
  · intro b hb e he hreal'
    obtain ⟨k, hk, rfl⟩ := hlevel b hb
    rw [hpath k hk] at he
    exact hmem_l e (hplaced k hk e ((hfilled k hk).mem he hreal'))
  -- They lie on the path of their own leaf as well, by the test that selected them.
  · intro b hb e he hreal'
    obtain ⟨k, hk, rfl⟩ := hlevel b hb
    rw [hpath k hk] at he
    have hmem := (hfilled k hk).mem he hreal'
    obtain ⟨-, leaf', hleaf', hpos'⟩ :=
      hpos e.1 (mem_of_lookup (hmem_l e (hplaced k hk e hmem)))
    have hfits := hfit k e (Greedy.fits_of_mem_placedAt hmem)
    rw [fits, hpos'] at hfits
    exact ⟨leaf', hpos', (canInclude_iff hc.height_pos hc.height_le hk hleaf hleaf').mp hfits⟩
  -- What the stash still holds it held before.
  · intro id d hd
    rw [hstash] at hd
    split at hd
    · exact absurd hd (by simp)
    · exact hd
  -- Small IDs are in one place: on the path, or in the stash.
  · intro hsmall id hid
    rw [sum_countP_filled hleaf hfilled hpath (hc.ne_ULONG_MAX (hpos id hid).1)]
    exact placed_or_kept hl hsmall hstash hid

/-- The requests go to the buckets of the path, from the leaf to the root. -/
theorem keys_requests (height leaf : ℕ) (bucket : ℕ → Bucket) :
    ((List.range height).reverse.map (fun k => (node height k leaf, bucket k))).map Prod.fst =
      (HeapTree.path height leaf).reverse := by
  rw [List.map_map, HeapTree.path, ← List.map_reverse]
  rfl

theorem lookup_assignAll_requests {height k : ℕ} (hleaf : leaf < 2 ^ (height - 1))
    (hk : k < height) (bucket : ℕ → Bucket) (cache : UnorderedMap Bucket) :
    (UnorderedMap.assignAll ((List.range height).reverse.map
      (fun k => (node height k leaf, bucket k))) cache).lookup (node height k leaf) =
      some (bucket k) := by
  have hmem : (node height k leaf, bucket k) ∈
      (List.range height).reverse.map (fun k => (node height k leaf, bucket k)) :=
    List.mem_map.mpr ⟨k, List.mem_reverse.mpr (List.mem_range.mpr hk), rfl⟩
  refine UnorderedMap.lookup_assignAll_of_mem ?_ hmem cache
  rw [keys_requests, List.nodup_reverse]
  exact nodup_path hleaf

/-- The requests for a path in the cache, and a new stash: a view in which the buckets of the
path are those of the requests. -/
theorem exists_written (hs : Shows c R v s) (hleaf : leaf < 2 ^ (c.height - 1))
    (bucket : ℕ → Bucket) {m : M} {r : Random} (hR : R v.pos m)
    (hr : r.ulongs = s.random.ulongs) (stash : InMemoryStashAdapter) :
    ∃ v', Shows c R v'
        { s with
          map := m
          random := r
          cache := UnorderedMap.assignAll ((List.range c.height).reverse.map
            (fun k => (node c.height k leaf, bucket k))) s.cache
          stash := stash } ∧
      v'.pos = v.pos ∧ v'.stash = stash ∧ v'.coins = v.coins ∧
      v'.cached = v.cached ∪ c.path leaf ∧ v'.touched = v.touched ∧
      (∀ k < c.height, v'.tree (node c.height k leaf) = bucket k) ∧
      ∀ b ∉ c.path leaf, v'.tree b = v.tree b := by
  set requests := (List.range c.height).reverse.map (fun k => (node c.height k leaf, bucket k))
    with hrequests
  have hmem_keys : ∀ b, b ∈ requests.map Prod.fst ↔ b ∈ c.path leaf := fun b => by
    rw [hrequests, keys_requests, List.mem_reverse, Config.mem_path]
  set cache' := UnorderedMap.assignAll requests s.cache with hcache'
  refine ⟨{ v with
    tree := fun b => (cache'.lookup b).getD (content c.storage c.crypto s.storage b)
    stash := stash
    cached := v.cached ∪ c.path leaf }, ?_, rfl, rfl, rfl, rfl, rfl, ?_, ?_⟩
  · exact
    { pos := hR
      tree := fun _ => rfl
      stash := rfl
      coins := hs.coins.trans hr.symm
      cached := fun b => by
        rw [Finset.mem_union, hs.cached, ← hmem_keys, hcache', UnorderedMap.mem_assignAll,
          or_comm]
      touched := hs.touched
      readable := hs.readable }
  -- On the path the tree is what the cache was given.
  · intro k hk
    change (cache'.lookup (node c.height k leaf)).getD _ = bucket k
    rw [hcache', hrequests, lookup_assignAll_requests hleaf hk]
    rfl
  -- Off the path the cache is as before.
  · intro b hb
    change (cache'.lookup b).getD _ = v.tree b
    rw [hcache', UnorderedMap.lookup_assignAll_of_notMem (fun h => hb ((hmem_keys b).mp h)),
      hs.tree b]

/-- The IDs that are deleted from the stash are those that were placed, as they come back
from the conversion to `int`. -/
theorem lookup_deletePlaced (placed : List Block) (stash : InMemoryStashAdapter) (id : ℕ) :
    ((placed.map (fun e => toInt e.1)).foldl (fun stash removed =>
      InMemoryStashAdapter.deleteBlock (ofInt removed) stash) stash).lookup id =
      if id ∈ placed.map (fun e => ofInt (toInt e.1)) then none else stash.lookup id := by
  -- The conversion is done on the list, before the loop.
  have hfold : (placed.map (fun e => toInt e.1)).foldl (fun stash removed =>
      InMemoryStashAdapter.deleteBlock (ofInt removed) stash) stash =
      ((placed.map (fun e => toInt e.1)).map ofInt).foldl
        (fun stash id => InMemoryStashAdapter.deleteBlock id stash) stash :=
    (List.foldl_map (f := ofInt)
      (g := fun stash id => InMemoryStashAdapter.deleteBlock id stash)).symm
  rw [hfold, InMemoryStashAdapter.lookup_foldl_deleteBlock, List.map_map]
  rfl

/-- The entries of the shuffled stash have leaves, which the selection looks up. -/
theorem exists_leaf_of_perm
    (hpos : ∀ id ∈ v.stash, id < c.blocks ∧ ∃ leaf' < 2 ^ (c.height - 1), v.pos id = some leaf')
    {l : List Block} (hl : l.Perm v.stash.toList) :
    ∀ e ∈ l, e.1 < c.blocks ∧ ∃ leaf', v.pos e.1 = some leaf' := fun e he => by
  have hmem : e.1 ∈ v.stash := mem_of_lookup (UnorderedMap.mem_toList.mp (hl.subset he))
  obtain ⟨hlt, leaf', -, hleaf'⟩ := hpos e.1 hmem
  exact ⟨hlt, leaf', hleaf'⟩

/-- **Writing a path back** fills its buckets in the cache, and deletes what was placed from the
stash. `l` is the shuffled stash. -/
theorem writePath_filled (hpos : 1 ≤ c.height) (hheight : c.height ≤ 31) (hZ : 0 < c.Z)
    (hleaf : leaf < 2 ^ (c.height - 1)) (hpm : pm.Implements n bound R mayThrow)
    (hE : ∀ e s', mayThrow → E e s') (hR : R f s.map) {l : List Block}
    (hshuffle : (InMemoryStashAdapter.getAll s.stash [] s.random).1 = l)
    (hl : ∀ e ∈ l, e.1 < n ∧ ∃ leaf', f e.1 = some leaf') {Q : Unit → ORAM M → Prop}
    (hQ : ∀ (bucket : ℕ → Bucket) m r, R f m → r.ulongs = s.random.ulongs →
      (∀ k < c.height, Filled c (Greedy.placedAt (fits c f leaf) c.Z c.height l k) (bucket k)) →
      Q () { s with
        map := m
        random := r
        cache := UnorderedMap.assignAll ((List.range c.height).reverse.map
          (fun k => (node c.height k leaf, bucket k))) s.cache
        stash := ((Greedy.placed (fits c f leaf) c.Z c.height l).map (fun e => toInt e.1)).foldl
          (fun stash removed => InMemoryStashAdapter.deleteBlock (ofInt removed) stash) s.stash }) :
    wp (writePath c pm leaf) Q E s := by
  unfold writePath
  refine wp_bind (wp_get (wp_bind (wp_withRandom ?_)))
  rw [hshuffle]
  -- The loops touch neither the cache nor the stash; both are written afterwards.
  refine wp_bind (evictLevels_spec hpos hheight hZ hleaf hpm hE hl (by exact hR) ?_)
  intro bucket m r hR hr hfilled
  rw [List.nil_append, List.nil_append]
  exact wp_bind (wp_modify (wp_modify (hQ bucket m r hR (hr.trans rfl) hfilled)))

/-- **Writing a path back is an eviction.** -/
theorem writePath_spec (hc : c.Valid) (hpm : pm.Implements c.blocks bound R mayThrow)
    (hs : Shows c R v s) (hleaf : leaf < 2 ^ (c.height - 1))
    (hpos : ∀ id ∈ v.stash, id < c.blocks ∧ ∃ leaf' < 2 ^ (c.height - 1), v.pos id = some leaf')
    (hE : ∀ e s', mayThrow → E e s') {Q : Unit → ORAM M → Prop}
    (hQ : ∀ v' s', Shows c R v' s' → Evicts c v.pos leaf v.stash v.tree v' →
      v'.pos = v.pos → v'.coins = v.coins → v'.cached = v.cached ∪ c.path leaf →
      v'.touched = v.touched → Q () s') :
    wp (writePath c pm leaf) Q E s := by
  have hl : (InMemoryStashAdapter.getAll s.stash [] s.random).1.Perm v.stash.toList :=
    hs.stash ▸ InMemoryStashAdapter.perm_getAll s.stash s.random
  refine writePath_filled hc.height_pos hc.height_le hc.Z_pos hleaf hpm hE hs.pos rfl
    (exists_leaf_of_perm hpos hl) fun bucket m r hR hr hfilled => ?_
  obtain ⟨v', hs', hpos', hstash, hcoins, hcached, htouched, hpath, hoff⟩ :=
    exists_written hs hleaf bucket hR hr _
  refine hQ v' _ hs' ?_ hpos' hcoins hcached htouched
  refine evicts_of_filled hc hleaf (fun _ _ h => h) hpos hl hfilled hpath hoff fun id => ?_
  rw [hstash, lookup_deletePlaced, hs.stash]

end Writing

/-! ### A whole access -/

/-- The operation that `access` performs. -/
def opOfAccess (read : Bool) (block : ℕ) (data : Bytes) : Op :=
  if read then .read block else .write block data

theorem block_opOfAccess (read : Bool) (block : ℕ) (data : Bytes) :
    (opOfAccess read block data).block = block := by
  cases read <;> rfl

/-- The remaining steps of an access, from the stash in which the operation was served. -/
theorem access_write_spec (hc : c.Valid) (hpm : pm.Implements c.blocks bound R mayThrow)
    (hv : v.Valid c) {op : Op} (hop : op.block < c.blocks) (hpos : v.pos op.block = some leaf)
    {stash : InMemoryStashAdapter} (habsorbs : AbsorbsAll c v leaf stash)
    (hs : Shows c R { (v.remap c op.block).fetch (c.path leaf) with stash := op.serve stash } s)
    {E : Exception → ORAM M → Prop} (hE : ∀ e s', mayThrow → E e s') {Q : Unit → ORAM M → Prop}
    (hQ : ∀ v' s', Shows c R v' s' →
      Access c v op leaf stash (((op.serve stash).lookup op.block).getD []) v' → Q () s') :
    wp (writePath c pm leaf) Q E s := by
  have hleaf := hv.leaf_lt hop hpos
  have hids : ∀ id ∈ op.serve stash, id < c.blocks :=
    View.Within.serve (hv.within.absorbs hleaf habsorbs.toAbsorbs) (Op.forall_write hop)
  refine writePath_spec hc hpm hs hleaf (fun id hid => ⟨hids id hid, ?_⟩) hE ?_
  · exact hv.remap_pos op.block id (hids id hid)
  intro v' s' hs' hevicts hpos' hcoins hcached htouched
  refine hQ v' s' hs' ⟨hpos, habsorbs, rfl, hpos' ▸ hevicts, hpos', hcoins, ?_, htouched⟩
  rw [hcached]
  exact Finset.union_eq_left.mpr Finset.subset_union_right

/-- **The code of an access runs the protocol.** If it returns it is an `Access`; if it
throws it is an `Overflow`, unless the position map threw. -/
theorem access_spec (hc : c.Valid) (hpm : pm.Implements c.blocks bound R mayThrow)
    (hbound : 2 ^ (c.height - 1) ≤ bound) (hv : v.Valid c) (hs : Shows c R v s) (read : Bool)
    {block : ℕ} (hblock : block < c.blocks) (data : Bytes) :
    wp (access c pm read block data [])
      (fun response s' => ∃ leaf stash v',
        Access c v (opOfAccess read block data) leaf stash response v' ∧ Shows c R v' s')
      (fun e s' => mayThrow ∨ e = .overCapacity c.stashCapacity ∧
        ∃ leaf v', Overflow c v (opOfAccess read block data) leaf v' ∧ Shows c R v' s') s := by
  obtain ⟨leaf, hleaf, hpos⟩ := hv.pos block hblock
  have hopblock := block_opOfAccess read block data
  generalize hop : opOfAccess read block data = op at *
  subst hopblock
  unfold access
  -- Remap the block.
  refine wp_bind (wp_mapGet hpm hs.pos hblock hpos (fun m hR => ?_) (fun e s' h => Or.inl h))
  refine wp_bind (wp_withRandom ?_)
  -- The draw is the next coin, reduced to the number of leaves.
  have hdraw : (Random.getRandomULong (intShl (c.height - 1)) s.random).1 =
      v.coins.head % 2 ^ (c.height - 1) := by
    rw [hs.coins, hc.intShl_height]
    rfl
  refine wp_bind (wp_mapSet hpm (by exact hR) hblock
    (by rw [hdraw]; exact (Nat.mod_lt _ (Nat.two_pow_pos _)).trans_le hbound)
    (fun m' hR' => ?_) (fun e s' h => Or.inl h))
  rw [hdraw] at hR'
  have hs₁ : Shows c R (v.remap c op.block)
      { s with
        map := m'
        random := (Random.getRandomULong (intShl (c.height - 1)) s.random).2 } :=
    ⟨hR', hs.tree, hs.stash, congrArg Stream'.tail hs.coins, hs.cached, hs.touched, hs.readable⟩
  -- Read the path.
  refine wp_bind (readPath_spec hc hs₁ hleaf ?_ ?_)
  · intro _ stash s₂ hs₂ habsorbs
    have habsorbs : AbsorbsAll c v leaf stash := ⟨⟨habsorbs.keep, habsorbs.source⟩, habsorbs.all⟩
    -- The operation was served in the stash; what remains does not depend on its kind.
    have hwrite : ∀ s₃, Shows c R
        { (v.remap c op.block).fetch (c.path leaf) with stash := op.serve stash } s₃ →
        wp (writePath c pm leaf >>= fun _ => pure (InMemoryStashAdapter.get s₃.stash op.block []))
          (fun response s' => ∃ leaf stash v',
            Access c v op leaf stash response v' ∧ Shows c R v' s')
          (fun e s' => mayThrow ∨ e = .overCapacity c.stashCapacity ∧
            ∃ leaf v', Overflow c v op leaf v' ∧ Shows c R v' s') s₃ := by
      intro s₃ hs₃
      refine wp_bind (access_write_spec hc hpm hv hblock hpos habsorbs hs₃
        (fun e s' h => Or.inl h) ?_)
      intro v' s' hs' haccess
      refine wp_pure ⟨leaf, stash, v', ?_, hs'⟩
      -- The response is looked up in the stash that the path was read to.
      have hget : InMemoryStashAdapter.get s₃.stash op.block [] =
          ((op.serve stash).lookup op.block).getD [] := by
        rw [← hs₃.stash]
        unfold InMemoryStashAdapter.get
        cases (op.serve stash).lookup op.block with
        | none => rfl
        | some d => exact List.append_nil d
      rw [hget]
      exact haccess
    cases read with
    | true =>
      have hserve : op.serve stash = stash := by
        rw [← hop]
        rfl
      rw [hserve] at hwrite
      simp only [Bool.not_true, Bool.false_eq_true, if_false]
      exact wp_bind (wp_get (hwrite s₂ hs₂))
    | false =>
      have hserve : op.serve stash = AList.insert op.block data stash := by
        rw [← hop]
        rfl
      rw [hserve] at hwrite
      simp only [Bool.not_false, if_true]
      obtain rfl : stash = s₂.stash := hs₂.stash
      refine wp_bind (wp_zoom (InMemoryStashAdapter.wp_update ?_ ?_))
      · exact wp_bind (wp_get (hwrite _ (shows_stash hs₂ (AList.insert op.block data s₂.stash))))
      -- The update of the stash overflows.
      · intro hfull hnot
        refine Or.inr ⟨rfl, leaf, _, ?_, hs₂⟩
        exact ⟨hpos, habsorbs.toAbsorbs, hfull, ⟨op.block, hnot, Or.inl ⟨data, hop.symm⟩⟩,
          rfl, rfl, rfl, rfl, rfl⟩
  -- Reading the path overflows, and nothing was served.
  · rintro stash s₂ hs₂ habsorbs hfull ⟨b, hb, e, he, hreal, hnot⟩
    refine Or.inr ⟨rfl, leaf, _, ?_, hs₂⟩
    exact ⟨hpos, ⟨habsorbs.keep, habsorbs.source⟩, hfull,
      ⟨e.1, hnot, Or.inr ⟨b, hb, e, he, hreal, rfl⟩⟩, rfl, rfl, rfl, rfl, rfl⟩

end ORAM

end PathORAM
