import PathOram.Cloak.Macs

/-!
# The MAC map follows the storage

A MAC is computed on a bucket in memory, and the bucket reaches the storage later, through
the cache and a codec that pads payloads. The map is in step with the storage between calls
all the same.

* `Current` — the invariant inside a call: the MAC of every bucket is that of the bucket in
  the cache, or in the storage where it is not cached.
* `evictLevels_current` — writing a path back updates the MACs and, with the requests it
  returns, the buckets.
* `syncCache_current` — the upload changes no bucket, because none is short.
* `macs_in_step` — a completed call keeps the map in step with the storage.
-/

namespace CloakQueryPathORAM

open PathORAM Hoare HeapTree AbsStorageAdapter

variable {c : Config} {M : Type} {pm : AbsPositionMapAdapter M}

/-- The MAC of the bucket `b` is that of the payloads that the storage returns for it. -/
def InStep (c : Config) (s : ORAM M) (b : ℕ) : Prop :=
  ∃ blocks storage, AbsStorageAdapter.get c.storage c.crypto [b] s.storage = .ok blocks storage ∧
    s.macMap.lookup b = some (c.hmac c.key (blocks.flatMap Prod.snd))

/-- A bucket of `Z` blocks, none of them short. -/
structure Sized (c : Config) (bucket : Bucket) : Prop where
  length : bucket.length = c.Z
  payload : ∀ e ∈ bucket, e.2.length = c.storage.userBlockSize

namespace ORAM

/-- The bucket of a location: the cached one, or else the stored one. -/
def bucketAt (c : Config) (s : ORAM M) (b : ℕ) : Bucket :=
  (s.cache.lookup b).getD (content c.storage c.crypto s.storage b)

/-- The MAC of every bucket is that of the bucket as it is now. -/
structure Current (c : Config) (s : ORAM M) : Prop where
  readable : ∀ b, InTree c.height b → Readable c.storage c.crypto s.storage b
  mac : ∀ b, InTree c.height b → s.macMap.lookup b = some (bucketMAC c (s.bucketAt c b))
  sized : ∀ b, InTree c.height b → Sized c (s.bucketAt c b)
  cache_id : ∀ b bucket, s.cache.lookup b = some bucket → ∀ e ∈ bucket, e.1 < 2 ^ 64
  stash_id : ∀ id ∈ s.stash, id < 2 ^ 64

variable {s s' : ORAM M}

/-- The invariant looks at the MACs, the buckets and the stash only. -/
theorem Current.congr (h : Current c s) (hmacs : s'.macMap = s.macMap)
    (hcache : s'.cache = s.cache) (hblocks : s'.storage.blocks = s.storage.blocks)
    (hstash : ∀ id ∈ s'.stash, id < 2 ^ 64) : Current c s' := by
  -- the bucket of a location depends on the cache and the stored bytes only
  have hat : ∀ b, s'.bucketAt c b = s.bucketAt c b := fun b => by
    rw [bucketAt, hcache, content_congr (congrFun hblocks b)]
    rfl
  refine ⟨fun b hb => (h.readable b hb).congr (congrFun hblocks b), fun b hb => ?_, fun b hb => ?_,
    fun b bucket hlookup => ?_, hstash⟩
  · rw [hmacs, hat]
    exact h.mac b hb
  · rw [hat]
    exact h.sized b hb
  · rw [hcache] at hlookup
    exact h.cache_id b bucket hlookup

/-! ### Reading -/

/-- Caching what the storage holds changes no bucket. -/
theorem Current.cached (h : Current c s) {toGet : List ℕ} (htoGet : ∀ b ∈ toGet, b ∉ s.cache)
    (hread : ∀ b ∈ toGet, Readable c.storage c.crypto s.storage b) (calls : List StorageCall)
    (r : Random) :
    Current c { s with
      storage := { s.storage with calls := calls }
      random := r
      cache := UnorderedMap.assignAll
        (toGet.map (fun b => (b, content c.storage c.crypto s.storage b))) s.cache } := by
  set s₁ : ORAM M := { s with
    storage := { s.storage with calls := calls }
    random := r
    cache := UnorderedMap.assignAll
      (toGet.map (fun b => (b, content c.storage c.crypto s.storage b))) s.cache }
  -- what is cached is what the storage holds, so no location changes its bucket
  have hat : ∀ b, s₁.bucketAt c b = s.bucketAt c b := fun b => by
    change ((UnorderedMap.assignAll _ _).lookup b).getD _ = _
    rw [UnorderedMap.lookup_assignAll_map, bucketAt]
    split
    · next hb =>
      rw [AList.lookup_eq_none.mpr (htoGet b hb)]
      rfl
    · rfl
  refine ⟨h.readable, fun b hb => ?_, fun b hb => ?_, fun b bucket hlookup e he => ?_, h.stash_id⟩
  · rw [hat]
    exact h.mac b hb
  · rw [hat]
    exact h.sized b hb
  · change (UnorderedMap.assignAll _ _).lookup b = some bucket at hlookup
    rw [UnorderedMap.lookup_assignAll_map] at hlookup
    split at hlookup
    · next hb =>
      -- a decoded bucket has 64-bit IDs
      obtain rfl := Option.some.inj hlookup
      exact (of_decodeBucket (hread b hb)).2 e he
    · exact h.cache_id b bucket hlookup e he

/-- **Reading through the cache** changes no bucket, and leaves all locations cached. -/
theorem getCache_current (hZ : c.storage.Z = c.Z) (h : Current c s) (locations : List ℕ)
    (dryRun : Bool) :
    wp (getCache c locations [] dryRun)
      (fun response s' => Current c s' ∧ (∀ b ∈ locations, b ∈ s'.cache) ∧
        (dryRun = false → ∀ e ∈ response, e.1 < 2 ^ 64))
      (fun _ _ => True) s := by
  unfold getCache
  refine wp_bind (wp_modifyGet (wp_bind (wp_get ?_)))
  set visited := (Random.iterate locations s.random).1
  have hvisited : ∀ b, b ∈ visited ↔ b ∈ locations := fun b =>
    (Random.perm_iterate locations s.random).mem_iff
  have htoGet := PathORAM.ORAM.mem_lookupCache_fst s.cache dryRun visited
  -- The blocks that are found in the cache.
  have hfound : dryRun = false → ∀ e ∈ (PathORAM.ORAM.lookupCache s.cache dryRun visited [] []).2,
      e.1 < 2 ^ 64 := by
    rintro rfl e he
    obtain he | ⟨b, -, bucket, hlookup, he⟩ :=
      (PathORAM.ORAM.mem_lookupCache_snd s.cache visited [] [] e).mp he
    · exact absurd he List.not_mem_nil
    · exact h.cache_id b bucket hlookup e he
  generalize PathORAM.ORAM.lookupCache s.cache dryRun visited [] [] = found at *
  obtain ⟨toGet, response⟩ := found
  have hmissing : ∀ b ∈ locations, b ∉ toGet → b ∈ s.cache := fun b hb hnot =>
    not_not.mp fun hcache => hnot ((htoGet b).mpr ⟨(hvisited b).mpr hb, hcache⟩)
  change wp (if toGet.length > 0 then _ else _) _ _ _
  split
  · refine wp_bind (wp_zoom (wp_mono (get_returned toGet s.storage) ?_ fun _ _ _ => trivial))
    rintro _ _ ⟨rfl, rfl, hread⟩
    refine wp_bind (wp_mono (addToCache_spec _ _ _ _ _) ?_ fun _ _ _ => trivial)
    rintro _ _ rfl
    have hcache := PathORAM.ORAM.addToCache_flatMap (c := c.toConfig)
      (content c.storage c.crypto s.storage) (hZ ▸ c.storage.Z_pos) [] toGet
      (fun b hb => (hread b hb).2.length.trans hZ) s.cache
    rw [List.nil_append, List.length_nil, Nat.mul_zero] at hcache
    have hcurrent := h.cached (fun b hb => ((htoGet b).mp hb).2)
      (fun b hb => (hread b hb).2) (s.storage.calls ++ [.get toGet])
      (Random.iterate locations s.random).2
    rw [← hcache] at hcurrent
    refine wp_pure ⟨hcurrent, fun b hb => ?_, fun hdry e he => ?_⟩
    · -- What was missing was downloaded.
      change b ∈ PathORAM.ORAM.addToCache c.toConfig toGet _ _ _ s.cache
      rw [hcache, UnorderedMap.mem_assignAll, List.map_map]
      by_cases hget : b ∈ toGet
      · exact Or.inl (List.mem_map.mpr ⟨b, hget, rfl⟩)
      · exact Or.inr (hmissing b hb hget)
    · rw [hdry, if_neg Bool.false_ne_true] at he
      rcases List.mem_append.mp he with he | he
      · exact hfound hdry e he
      · obtain ⟨b, hb, he⟩ := List.mem_flatMap.mp he
        exact (of_decodeBucket (hread b hb).2).2 e he
  · next hzero =>
    obtain rfl : toGet = [] := List.length_eq_zero_iff.mp (by omega)
    refine wp_pure ⟨h.congr rfl rfl rfl h.stash_id, fun b hb => ?_, hfound⟩
    exact hmissing b hb List.not_mem_nil

/-- The program writes nothing but the stash, which may gain the ID `block`. -/
theorem stashAdd_spec (block : ℕ) (data : Bytes) (s : ORAM M) :
    wp (stashAdd c block data)
      (fun _ s' => ∃ stash r, s' = { s with stash := stash, random := r } ∧
        ∀ id ∈ stash, id ∈ s.stash ∨ id = block) (fun _ _ => True) s := by
  unfold stashAdd InMemoryStashAdapter.add
  refine wp_bind (wp_get (wp_bind (wp_modifyGet (wp_zoom (wp_bind
    (PathORAM.InMemoryStashAdapter.wp_checkOverflow (fun _ => ?_) fun _ _ => trivial))))))
  split
  · refine wp_modify ⟨_, _, rfl, fun id hid => ?_⟩
    split at hid
    · exact Or.inl hid
    · exact (AList.mem_insert _ |>.mp hid).symm
  · exact wp_pure ⟨s.stash, _, rfl, fun _ hid => Or.inl hid⟩

theorem stashUpdate_spec (block : ℕ) (data : Bytes) (s : ORAM M) :
    wp (stashUpdate c block data)
      (fun _ s' => ∃ stash r, s' = { s with stash := stash, random := r } ∧
        ∀ id ∈ stash, id ∈ s.stash ∨ id = block) (fun _ _ => True) s := by
  unfold stashUpdate InMemoryStashAdapter.update
  refine wp_bind (wp_get (wp_bind (wp_modifyGet (wp_zoom (wp_bind
    (PathORAM.InMemoryStashAdapter.wp_checkOverflow (fun _ => ?_) fun _ _ => trivial))))))
  exact wp_modify ⟨_, _, rfl, fun id hid => (AList.mem_insert _ |>.mp hid).symm⟩

/-- A change of the stash to 64-bit IDs. -/
theorem Current.stash (h : Current c s) {stash : InMemoryStashAdapter} (r : Random)
    (hids : ∀ id ∈ stash, id < 2 ^ 64) : Current c { s with stash := stash, random := r } :=
  h.congr rfl rfl rfl hids

theorem addToStash_current {blocks : List Block} (hblocks : ∀ e ∈ blocks, e.1 < 2 ^ 64)
    {s : ORAM M} (h : Current c s) :
    wp (addToStash c blocks) (fun _ s' => Current c s' ∧ s'.cache = s.cache) (fun _ _ => True)
      s := by
  -- on the blocks: the stash grows by 64-bit IDs, nothing else changes
  induction blocks generalizing s with
  | nil => exact wp_pure ⟨h, rfl⟩
  | cons block rest ih =>
    have hrest : ∀ e ∈ rest, e.1 < 2 ^ 64 := fun e he => hblocks e (List.mem_cons_of_mem _ he)
    rw [addToStash]
    split
    · refine wp_bind (wp_mono (stashAdd_spec _ _ s) ?_ fun _ _ _ => trivial)
      rintro _ _ ⟨stash, r, rfl, hstash⟩
      refine ih hrest (h.stash r fun id hid => ?_)
      rcases hstash id hid with hid | rfl
      · exact h.stash_id id hid
      · exact hblocks block List.mem_cons_self
    · exact ih hrest h

theorem readPath_current (hZ : c.storage.Z = c.Z) (h : Current c s) (leaf : ℕ) :
    wp (readPath c leaf [] true) (fun _ s' => Current c s') (fun _ _ => True) s := by
  unfold readPath
  refine wp_bind (wp_mono (getCache_current hZ h _ false) ?_ fun _ _ _ => trivial)
  rintro blocks s₁ ⟨h₁, hcached, hids⟩
  refine wp_bind (wp_mono (addToStash_current (hids rfl) h₁) ?_ fun _ _ _ => trivial)
  rintro _ s₂ ⟨h₂, hcache⟩
  refine wp_bind (wp_modifyGet (wp_bind (wp_mono (verifyPath_spec fun b hb => ?_) ?_
    fun _ _ _ => trivial)))
  · change b ∈ s₂.cache
    -- the stash was filled in between, which leaves the cache alone
    rw [hcache]
    exact hcached b ((Random.perm_iterate _ s₂.random).mem_iff.mp hb)
  · rintro _ _ rfl
    exact wp_pure (h₂.congr rfl rfl rfl h₂.stash_id)

/-! ### Writing -/

/-- What is selected for a bucket are entries of the stash that are not short. -/
theorem selectBlocks_mem (leaf level : ℕ) (l : List Block) (i : ℕ)
    (sel : PathORAM.ORAM.Selection) (s : ORAM M) :
    wp (selectBlocks c pm leaf level l i sel)
      (fun sel' s' => (∃ m, s' = { s with map := m }) ∧
        ∀ e ∈ sel'.toInsert, e ∈ sel.toInsert ∨ e ∈ l ∧ e.2.length = c.dataSize)
      (fun _ _ => True) s := by
  -- on the entries that are left; what is taken so far is in `sel`
  induction l generalizing i sel s with
  | nil => exact wp_pure ⟨⟨s.map, rfl⟩, fun e he => Or.inl he⟩
  | cons entry rest ih =>
    rw [selectBlocks]
    split
    · refine wp_mono (ih _ _ s) ?_ fun _ _ h => h
      rintro sel' s' ⟨hs', hsel'⟩
      exact ⟨hs', fun e he => (hsel' e he).imp_right fun h => ⟨List.mem_cons_of_mem _ h.1, h.2⟩⟩
    · next hsize =>
      -- an entry of another size was passed over above
      have hlength : entry.2.length = c.dataSize := by
        by_contra hne
        exact hsize (Or.inr hne)
      refine wp_bind (wp_zoom ?_)
      cases hget : pm.get entry.1 s.map with
      | error e m => exact wp_of_error hget trivial
      | ok entryLeaf m =>
        refine wp_of_ok hget ?_
        -- with the entry, what is taken still has the payload size
        have hgrown : ∀ e, e ∈ sel.toInsert ++ [entry] →
            e ∈ sel.toInsert ∨ e ∈ entry :: rest ∧ e.2.length = c.dataSize := by
          intro e he
          rcases List.mem_append.mp he with he | he
          · exact Or.inl he
          · rw [List.mem_singleton.mp he]
            exact Or.inr ⟨List.mem_cons_self, hlength⟩
        split
        · change wp (if (sel.toInsert ++ [entry]).length = c.Z then _ else _) _ _ _
          split
          · exact wp_pure ⟨⟨m, rfl⟩, hgrown⟩
          · refine wp_mono (ih _ _ _) ?_ fun _ _ h => h
            rintro sel' _ ⟨⟨m', rfl⟩, hsel'⟩
            refine ⟨⟨m', rfl⟩, fun e he => ?_⟩
            rcases hsel' e he with h | h
            · exact hgrown e h
            · exact Or.inr ⟨List.mem_cons_of_mem _ h.1, h.2⟩
        · refine wp_mono (ih _ _ _) ?_ fun _ _ h => h
          rintro sel' _ ⟨⟨m', rfl⟩, hsel'⟩
          exact ⟨⟨m', rfl⟩,
            fun e he => (hsel' e he).imp_right fun h => ⟨List.mem_cons_of_mem _ h.1, h.2⟩⟩

/-- The state once the requests are in the cache. -/
def withRequests (s : ORAM M) (requests : List (ℕ × Bucket)) : ORAM M :=
  { s with cache := UnorderedMap.assignAll requests s.cache }

/-- A bucket that is sealed and requested is in step from then on. -/
theorem Current.seal (hsize : c.storage.userBlockSize = c.dataSize) {requests : List (ℕ × Bucket)}
    (h : Current c (s.withRequests requests)) {bucket : Bucket} (bucketId : ℕ)
    (hlength : bucket.length = c.Z) (hpayload : ∀ e ∈ bucket, e.2.length = c.dataSize)
    (hids : ∀ e ∈ bucket, e.1 < 2 ^ 64) (m : M) (r : Random) :
    Current c (withRequests { s with
      map := m
      random := r
      macMap := s.macMap.insert bucketId (bucketMAC c bucket) }
      (requests ++ [(bucketId, bucket)])) := by
  have hcache : UnorderedMap.assignAll (requests ++ [(bucketId, bucket)]) s.cache =
      AList.insert bucketId bucket (UnorderedMap.assignAll requests s.cache) :=
    List.foldl_append
  set s' := withRequests { s with
    map := m
    random := r
    macMap := s.macMap.insert bucketId (bucketMAC c bucket) } (requests ++ [(bucketId, bucket)])
  -- The request decides what its location holds, and no other.
  have hself : s'.bucketAt c bucketId = bucket := by
    change ((UnorderedMap.assignAll _ s.cache).lookup bucketId).getD _ = bucket
    rw [hcache, AList.lookup_insert]
    rfl
  have hother : ∀ b, b ≠ bucketId → s'.bucketAt c b = (s.withRequests requests).bucketAt c b := by
    intro b hb
    change ((UnorderedMap.assignAll _ s.cache).lookup b).getD _ = _
    rw [hcache, AList.lookup_insert_ne hb]
    rfl
  refine ⟨h.readable, fun b hb => ?_, fun b hb => ?_, fun b bucket' hlookup => ?_, h.stash_id⟩
  · change (s.macMap.insert bucketId _).lookup b = _
    by_cases hid : b = bucketId
    · rw [hid, hself, AList.lookup_insert]
    · rw [hother b hid, AList.lookup_insert_ne hid]
      exact h.mac b hb
  · by_cases hid : b = bucketId
    · rw [hid, hself]
      exact ⟨hlength, fun e he => (hpayload e he).trans hsize.symm⟩
    · rw [hother b hid]
      exact h.sized b hb
  · change (UnorderedMap.assignAll _ s.cache).lookup b = some bucket' at hlookup
    rw [hcache] at hlookup
    by_cases hid : b = bucketId
    · rw [hid, AList.lookup_insert, Option.some.injEq] at hlookup
      exact hlookup ▸ hids
    · rw [AList.lookup_insert_ne hid] at hlookup
      exact h.cache_id b bucket' hlookup

theorem mem_of_mem_foldl_eraseIdx {α : Type} {e : α} (indices : List ℕ) {l : List α}
    (h : e ∈ indices.foldl List.eraseIdx l) : e ∈ l := by
  induction indices generalizing l with
  | nil => exact h
  | cons i indices ih => exact List.mem_of_mem_eraseIdx (ih h)

theorem evictLevels_current (hsize : c.storage.userBlockSize = c.dataSize) (leaf levels : ℕ)
    {l : List Block} (hl : ∀ e ∈ l, e.1 < 2 ^ 64) (toDelete : List (BitVec 32))
    {requests : List (ℕ × Bucket)} {s : ORAM M} (h : Current c (s.withRequests requests)) :
    wp (evictLevels c pm leaf levels l toDelete requests)
      (fun result s' => Current c (s'.withRequests result.1)) (fun _ _ => True) s := by
  induction levels generalizing l toDelete requests s with
  | zero => exact wp_pure h
  | succ level ih =>
    rw [evictLevels]
    refine wp_bind (wp_mono (selectBlocks_mem leaf level l 0 ⟨[], toDelete, []⟩ s) ?_
      fun _ _ _ => trivial)
    rintro sel _ ⟨⟨m, rfl⟩, hsel⟩
    refine wp_bind (wp_zoom (wp_mono (PathORAM.ORAM.fillBucket_mem c.Z sel.toInsert _) ?_
      fun _ _ h => h.elim))
    rintro bucket _ ⟨⟨r, rfl⟩, hlength, hmem⟩
    unfold computeAndStoreBucketMAC
    refine wp_bind (wp_modify (wp_bind (wp_mono (checkBucket_spec _ _ _ _ _) ?_
      fun _ _ _ => trivial)))
    rintro _ _ rfl
    -- A block of the bucket is an entry of the stash, or a dummy.
    have hbucket : ∀ e ∈ bucket, e.1 < 2 ^ 64 ∧ e.2.length = c.dataSize := fun e he => by
      rcases hmem e he with he | ⟨hid, hdummy⟩
      · rcases hsel e he with he | ⟨he, hpayload⟩
        · exact absurd he List.not_mem_nil
        · exact ⟨hl e he, hpayload⟩
      · exact ⟨by rw [hid]; decide, hdummy⟩
    refine ih (fun e he => hl e (mem_of_mem_foldl_eraseIdx _ he)) _ ?_
    exact h.seal hsize _ hlength (fun e he => (hbucket e he).2) (fun e he => (hbucket e he).1) m r

theorem mem_of_mem_deleted {id : ℕ} (toDelete : List (BitVec 32)) {stash : InMemoryStashAdapter}
    (h : id ∈ toDelete.foldl (fun stash removed =>
      PathORAM.InMemoryStashAdapter.deleteBlock (ofInt removed) stash) stash) : id ∈ stash := by
  induction toDelete generalizing stash with
  | nil => exact h
  | cons removed toDelete ih => exact (AList.mem_erase.mp (ih h)).2

/-- **Writing a path back** keeps the MACs current. -/
theorem writePath_current (hsize : c.storage.userBlockSize = c.dataSize) (h : Current c s)
    (leaf : ℕ) : wp (writePath c pm leaf) (fun _ s' => Current c s') (fun _ _ => True) s := by
  unfold writePath
  refine wp_bind (wp_get (wp_bind (wp_modifyGet ?_)))
  set l := (PathORAM.InMemoryStashAdapter.getAll s.stash [] s.random).1
  -- the entries offered to the buckets are those of the stash
  have hl : ∀ e ∈ l, e.1 < 2 ^ 64 := fun e he =>
    h.stash_id e.1 (mem_of_lookup (UnorderedMap.mem_toList.mp
      ((PathORAM.InMemoryStashAdapter.perm_getAll s.stash s.random).subset he)))
  refine wp_bind (wp_mono (evictLevels_current hsize leaf c.height hl []
    (h.congr rfl rfl rfl h.stash_id)) ?_ fun _ _ _ => trivial)
  rintro ⟨requests, toDelete⟩ s₁ h₁
  refine wp_bind (wp_zoom (wp_modify (wp_modify ?_)))
  exact h₁.congr rfl rfl rfl fun id hid => h₁.stash_id id (mem_of_mem_deleted toDelete hid)

/-! ### Uploading the cache -/

/-- Uploading the whole cache changes no bucket: none is short, so none is padded. -/
theorem Current.stored (h : Current c s) {entries : List (ℕ × Bucket)}
    (hlookup : ∀ q ∈ entries, s.cache.lookup q.1 = some q.2)
    (hkeys : ∀ b, b ∈ entries.map Prod.fst ↔ b ∈ s.cache)
    (hnodup : (entries.map Prod.fst).Nodup) {storage : Storage}
    (hstored : Stored c.storage c.crypto entries s.storage storage) (r : Random) :
    Current c { s with storage := storage, cache := ∅, random := r } := by
  set s' : ORAM M := { s with storage := storage, cache := ∅, random := r }
  -- A cached bucket of the tree is stored as it is, and any other stays.
  have hdecode : ∀ b, InTree c.height b →
      decodeBucket c.storage c.crypto (storage.blocks b) = .ok (s.bucketAt c b) := by
    intro b hb
    by_cases hcached : b ∈ s.cache
    · obtain ⟨q, hq, rfl⟩ := List.mem_map.mp ((hkeys b).mpr hcached)
      have hat : s.bucketAt c q.1 = q.2 := by
        rw [bucketAt, hlookup q hq]
        rfl
      have hpadded : padded c.storage q.2 = q.2 :=
        padded_eq_self fun e he => (h.sized q.1 hb).payload e (hat ▸ he)
      rw [hat, hstored.written hnodup q hq, hpadded]
    · rw [hstored.other b fun hmem => hcached ((hkeys b).mp hmem), bucketAt,
        AList.lookup_eq_none.mpr hcached]
      exact h.readable b hb
  have hat : ∀ b, InTree c.height b → s'.bucketAt c b = s.bucketAt c b := fun b hb =>
    content_of_decodeBucket (hdecode b hb)
  refine ⟨fun b hb => readable_of_decodeBucket (hdecode b hb), fun b hb => ?_, fun b hb => ?_,
    fun b bucket hlookup => ?_, h.stash_id⟩
  · rw [hat b hb]
    exact h.mac b hb
  · rw [hat b hb]
    exact h.sized b hb
  · exact absurd hlookup (by simp [s'])

/-- **The upload** keeps the MACs current. -/
theorem syncCache_current (hcrypto : c.crypto.Lawful) (h : Current c s) :
    wp (syncCache c) (fun _ s' => Current c s' ∧ s'.cache = ∅) (fun _ _ => True) s := by
  unfold syncCache PathORAM.ORAM.syncCache
  refine wp_zoom (wp_bind (wp_get (wp_bind (PathORAM.ORAM.wp_withRandom (wp_bind ?_)))))
  set entries := (Random.iterate s.toORAM.cache.toList s.toORAM.random).1 with hentries
  -- the cache is uploaded in any order, each location once
  have hperm : entries.Perm s.cache.toList := Random.perm_iterate _ _
  have hlookup : ∀ q ∈ entries, s.cache.lookup q.1 = some q.2 := fun q hq =>
    UnorderedMap.mem_toList.mp (hperm.subset hq)
  have hnodup : (entries.map Prod.fst).Nodup :=
    (hperm.map Prod.fst).nodup_iff.mpr s.cache.nodup_keys_toList
  have hkeys : ∀ b, b ∈ entries.map Prod.fst ↔ b ∈ s.cache := fun b => by
    rw [(hperm.map Prod.fst).mem_iff, UnorderedMap.keys_toList]
    rfl
  obtain ⟨-, -, -, hresult⟩ := set_spec (c := c.storage) hcrypto entries
    (fun q hq => h.cache_id q.1 q.2 (hlookup q hq)) s.storage
    (Random.iterate s.toORAM.cache.toList s.toORAM.random).2
  refine PathORAM.ORAM.wp_storageSet (fun hok => wp_modify ⟨?_, rfl⟩) fun _ _ => trivial
  obtain ⟨-, hstored⟩ | ⟨e, herror, -⟩ := hresult
  · exact h.stored (fun q hq => hlookup q hq) hkeys hnodup hstored _
  -- a failed upload is no returning call
  · exact absurd (hok.symm.trans herror) (by simp)

/-! ### Calls -/

section Calls

variable (hZ : c.storage.Z = c.Z) (hsize : c.storage.userBlockSize = c.dataSize)

include hZ hsize

theorem access_current (h : Current c s) (read : Bool) {block : ℕ} (hblock : block < 2 ^ 64)
    (data response : Bytes) :
    wp (access c pm read block data response) (fun _ s' => Current c s') (fun _ _ => True) s := by
  unfold access
  -- Neither the position map nor the random source matters.
  refine wp_bind (wp_zoom ?_)
  cases hget : pm.get block s.map with
  | error e m => exact wp_of_error hget trivial
  | ok previousPosition m =>
  refine wp_of_ok hget (wp_bind (wp_modifyGet (wp_bind (wp_zoom ?_))))
  generalize (Random.getRandomULong (intShl (c.height - 1)) _).1 = leaf
  generalize (Random.getRandomULong (intShl (c.height - 1)) _).2 = r
  cases hset : pm.set block leaf m with
  | error e m' => exact wp_of_error hset trivial
  | ok _ m' =>
  refine wp_of_ok hset (wp_bind (wp_mono (readPath_current hZ ?_ previousPosition) ?_
    fun _ _ _ => trivial))
  · exact h.congr rfl rfl rfl h.stash_id
  rintro _ s₁ h₁
  have hwrite : ∀ s₂ : ORAM M, Current c s₂ → wp (do
      let s ← get
      let response := PathORAM.InMemoryStashAdapter.get s.stash block response
      writePath c pm previousPosition
      return response) (fun _ s' => Current c s') (fun _ _ => True) s₂ := fun s₂ h₂ =>
    wp_bind (wp_get (wp_bind (wp_mono (writePath_current hsize h₂ _) (fun _ _ h => wp_pure h)
      fun _ _ h => h)))
  cases read with
  | true => exact hwrite s₁ h₁
  | false =>
    refine wp_bind (wp_mono (stashUpdate_spec block data s₁) ?_ fun _ _ _ => trivial)
    rintro _ _ ⟨stash, r, rfl, hstash⟩
    refine hwrite _ (h₁.stash r fun id hid => ?_)
    rcases hstash id hid with hid | rfl
    · exact h₁.stash_id id hid
    · exact hblock

theorem accessAll_current {requests : List Block} (hrequests : ∀ request ∈ requests,
    request.1 < 2 ^ 64) (responses : List Bytes) (h : Current c s) :
    wp (accessAll c pm requests responses) (fun _ s' => Current c s') (fun _ _ => True) s := by
  -- one access per request
  induction requests generalizing responses s with
  | nil => exact wp_pure h
  | cons request requests ih =>
    rw [accessAll]
    refine wp_bind (wp_mono (access_current hZ hsize h _
      (hrequests request List.mem_cons_self) _ _) ?_ fun _ _ h => h)
    rintro response s₁ h₁
    exact wp_bind (wp_mono (ih (fun r hr => hrequests r (List.mem_cons_of_mem _ hr)) _ h₁)
      (fun _ _ h => wp_pure h) fun _ _ h => h)

theorem exec_current (hcrypto : c.crypto.Lawful) (h : Current c s) {call : Call}
    (hids : ∀ op ∈ call.ops, op.block < 2 ^ 64) :
    wp (exec c pm call) (fun _ s' => Current c s' ∧ s'.cache = ∅) (fun _ _ => True) s := by
  cases call with
  | get block =>
    have hblock : block < 2 ^ 64 := hids (.read block) List.mem_cons_self
    refine wp_map (wp_bind (wp_mono (access_current hZ hsize h true hblock _ _) ?_
      fun _ _ h => h))
    exact fun _ s₁ h₁ => wp_bind (wp_mono (syncCache_current hcrypto h₁)
      (fun _ _ h => wp_pure h) fun _ _ h => h)
  | put block data =>
    have hblock : block < 2 ^ 64 := hids (.write block data) List.mem_cons_self
    refine wp_map (wp_bind (wp_mono (access_current hZ hsize h false hblock _ _) ?_
      fun _ _ h => h))
    exact fun _ s₁ h₁ => syncCache_current hcrypto h₁
  | multiple requests =>
    have hrequests : ∀ request ∈ requests, request.1 < 2 ^ 64 := fun request hrequest => by
      rw [← Call.block_opOf request]
      exact hids _ (List.mem_map_of_mem hrequest)
    change wp (multiple c pm requests []) _ _ s
    unfold multiple
    by_cases hmany : c.batchSize < requests.length
    · rw [if_pos hmany]
      exact wp_bind (wp_throw trivial)
    rw [if_neg hmany]
    -- Collecting the locations only reads the position map.
    refine wp_bind (wp_mono (wp_foldlM (E := fun _ _ => True) (fun _ _ s' => Current c s') ?_
      requests [] s h) ?_ fun _ _ h => h)
    · intro request _ locations s₁ h₁
      refine wp_bind (wp_zoom ?_)
      cases hget : pm.get request.1 s₁.map with
      | error e m => exact wp_of_error hget trivial
      | ok leaf m => exact wp_of_ok hget (wp_pure (h₁.congr rfl rfl rfl h₁.stash_id))
    intro locations s₁ h₁
    refine wp_bind (wp_mono (getCache_current hZ h₁ locations true) ?_ fun _ _ h => h)
    rintro _ s₂ ⟨h₂, -, -⟩
    refine wp_bind (wp_mono (accessAll_current hZ hsize hrequests _ h₂) ?_ fun _ _ h => h)
    intro response s₃ h₃
    exact wp_bind (wp_mono (syncCache_current hcrypto h₃) (fun _ _ h => wp_pure h)
      fun _ _ h => h)

end Calls

/-! ### Between calls -/

theorem get_one {b : ℕ} {blocks : List Block} {t t' : Storage}
    (h : AbsStorageAdapter.get c.storage c.crypto [b] t = .ok blocks t') :
    b < c.storage.capacity ∧ Readable c.storage c.crypto t b ∧
      blocks = content c.storage c.crypto t b := by
  obtain ⟨-, hblocks, hread⟩ := (get_returned [b] t).ok h
  rw [List.flatMap_singleton] at hblocks
  obtain ⟨hlt, hread⟩ := hread b List.mem_cons_self
  exact ⟨hlt, hread, hblocks⟩

/-- The MAC of a bucket covers all of it. -/
theorem bucketMAC_eq {bucket : Bucket} (h : bucket.length = c.Z) :
    bucketMAC c bucket = c.hmac c.key (bucket.flatMap Prod.snd) := by
  rw [bucketMAC, ← h, List.take_length]

/-- **The MAC map stays in step with the stored tree.** If, between two calls, the MAC of
every bucket is that of the payloads which the storage returns for it, and these have the
size of a block, then the same holds after the next call that completes. IDs are 64-bit
numbers. -/
theorem macs_in_step (hZ : c.storage.Z = c.Z) (hsize : c.storage.userBlockSize = c.dataSize)
    (hcrypto : c.crypto.Lawful) (hcache : s.cache = ∅)
    (hblocks : ∀ b, InTree c.height b → ∀ blocks storage,
      AbsStorageAdapter.get c.storage c.crypto [b] s.storage = .ok blocks storage →
        ∀ block ∈ blocks, block.2.length = c.storage.userBlockSize)
    (hstash : ∀ id ∈ s.stash, id < 2 ^ 64) {call : Call}
    (hids : ∀ op ∈ call.ops, op.block < 2 ^ 64)
    (hstep : ∀ b, InTree c.height b → InStep c s b) {responses : List Bytes}
    (hexec : exec c pm call s = .ok responses s') :
    ∀ b, InTree c.height b → InStep c s' b := by
  have hat : ∀ b, s.bucketAt c b = content c.storage c.crypto s.storage b := fun b => by
    rw [bucketAt, hcache]
    rfl
  have hcurrent : Current c s := by
    refine ⟨fun b hb => ?_, fun b hb => ?_, fun b hb => ?_, fun b bucket hlookup => ?_, hstash⟩
    · obtain ⟨blocks, storage, hget, -⟩ := hstep b hb
      exact (get_one hget).2.1
    · obtain ⟨blocks, storage, hget, hmac⟩ := hstep b hb
      obtain ⟨-, hread, rfl⟩ := get_one hget
      rw [hat, bucketMAC_eq (hread.length.trans hZ)]
      exact hmac
    · obtain ⟨blocks, storage, hget, hmac⟩ := hstep b hb
      obtain ⟨-, hread, heq⟩ := get_one hget
      rw [hat]
      exact ⟨hread.length.trans hZ, heq ▸ hblocks b hb blocks storage hget⟩
    · rw [hcache] at hlookup
      exact absurd hlookup (by simp)
  obtain ⟨h', hcache'⟩ := (exec_current hZ hsize hcrypto hcurrent hids).ok hexec
  intro b hb
  obtain ⟨blocks, storage, hget, -⟩ := hstep b hb
  have hat' : s'.bucketAt c b = content c.storage c.crypto s'.storage b := by
    rw [bucketAt, hcache']
    rfl
  -- The bucket can still be read, and its MAC is current.
  have hread := h'.readable b hb
  have hmac := h'.mac b hb
  rw [hat', bucketMAC_eq (hread.length.trans hZ)] at hmac
  have hget' : wp (AbsStorageAdapter.get c.storage c.crypto [b])
      (fun blocks _ => blocks = content c.storage c.crypto s'.storage b) (fun _ _ => False)
      s'.storage :=
    get_spec (fun l hl => List.mem_singleton.mp hl ▸ hread)
      (fun l hl => List.mem_singleton.mp hl ▸ (get_one hget).1) (List.flatMap_singleton _ _)
  obtain ⟨blocks', storage', hget', rfl⟩ := hget'.exists_ok
  exact ⟨_, storage', hget', hmac⟩

theorem inTree_one {b : ℕ} (hb : InTree 1 b) : b = 1 := by
  have h := hb.2
  have h' := hb.1
  omega

theorem macs_in_step_tiny :
    ∃ s', exec (Config.tiny 1 2) InMemoryPositionMapAdapter.adapter (.put 0 [7]) guardedTiny =
        .ok [] s' ∧ ∀ b, InTree 1 b → InStep (Config.tiny 1 2) s' b := by
  have hexec : exec (Config.tiny 1 2) InMemoryPositionMapAdapter.adapter (.put 0 [7]) guardedTiny =
      .ok [] _ := eq_ok_of_returned (by decide +kernel)
  refine ⟨_, hexec, macs_in_step (c := Config.tiny 1 2) rfl rfl (fun h => absurd rfl h)
    (AList.ext (by decide +kernel)) (fun b hb blocks storage hget => ?_) (by decide +kernel)
    (by decide) (fun b hb => ?_) hexec⟩
  · obtain rfl := inTree_one hb
    rw [(get_one hget).2.2]
    decide +kernel
  · obtain rfl := inTree_one hb
    have hreturned : returned (AbsStorageAdapter.get (Config.tiny 1 2).storage
        (Config.tiny 1 2).crypto [1]) guardedTiny.storage =
          some (content (Config.tiny 1 2).storage (Config.tiny 1 2).crypto guardedTiny.storage 1) := by
      decide +kernel
    exact ⟨_, _, eq_ok_of_returned hreturned, by decide +kernel⟩

end ORAM

end CloakQueryPathORAM
