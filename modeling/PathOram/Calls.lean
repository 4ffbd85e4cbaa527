import PathOram.Access

/-!
# The public interface runs the protocol

* `syncCache_spec` — uploading the cache is a `Synced` or a `SyncFailed` step.
* `exec_spec` — a call to `get`, `put` or `multiple` is `Call.Done` if it returns and
  `Call.Failed` if it throws, unless the position map threw. This is the refinement
  theorem that the results about the ORAM are derived from.
* `new_spec` — construction leaves a `Fresh` view.
-/

namespace PathORAM

open Hoare HeapTree AbsStorageAdapter

/-- A freshly initialised ORAM: empty buckets, an empty stash and cache, and a leaf for
every ID, drawn in the order of the IDs. -/
structure View.Fresh (c : Config) (coins : Stream' ℕ) (v : View) : Prop where
  pos : ∀ id < c.blocks, v.pos id = some (coins.get id % 2 ^ (c.height - 1))
  tree : ∀ b, InTree c.height b → v.tree b = List.replicate c.Z (emptyBlock c.storage)
  stash : v.stash = ∅
  cached : v.cached = ∅
  coins : v.coins = coins.drop c.blocks

/-- The store in which nothing was put. -/
def Store.empty : Store := fun _ => none

namespace View.Fresh

variable {c : Config} {coins : Stream' ℕ} {v : View}

/-- A fresh tree holds dummies only. -/
theorem dummy (h : v.Fresh c coins) {b : ℕ} (hb : InTree c.height b) {e : Block}
    (he : e ∈ v.tree b) : e = emptyBlock c.storage := by
  rw [h.tree b hb] at he
  exact List.eq_of_mem_replicate he

theorem not_real (h : v.Fresh c coins) {b : ℕ} (hb : InTree c.height b) {e : Block}
    (he : e ∈ v.tree b) : ¬Block.Real e := by
  rw [h.dummy hb he]
  exact not_not.mpr rfl

theorem not_mem_stash (h : v.Fresh c coins) (id : ℕ) : id ∉ v.stash := by
  rw [h.stash]
  exact AList.notMem_empty id

theorem within (h : v.Fresh c coins) (P : ℕ → Prop) : v.Within c P :=
  ⟨fun _ hb _ he hreal => absurd hreal (h.not_real hb he),
    fun id hid => absurd hid (h.not_mem_stash id)⟩

theorem valid (hc : c.Valid) (h : v.Fresh c coins) : v.Valid c := by
  have hwithin := h.within (· < c.blocks)
  refine ⟨fun id hid => ⟨_, Nat.mod_lt _ (Nat.two_pow_pos _), h.pos id hid⟩, ?_, ?_,
    hwithin.tree, hwithin.stash, ?_⟩
  · intro b hb
    -- Every bucket holds `Z` empty blocks.
    rw [h.tree b hb, List.length_replicate]
  · intro b hb e he _
    rw [h.dummy hb he, ← hc.dataSize_eq]
    exact (length_padTo (Nat.zero_le _)).le
  · intro b hb
    rw [h.cached] at hb
    exact absurd hb (Finset.notMem_empty b)

theorem tracks (h : v.Fresh c coins) (T : Set ℕ) : v.Tracks c Store.empty T where
  onPath _ hb _ he hreal := absurd hreal (h.not_real hb he)
  tree _ hb _ he hreal := absurd hreal (h.not_real hb he)
  stash id _ hd := absurd (mem_of_lookup hd) (h.not_mem_stash id)
  present _ _ hkv := absurd hkv (by simp [Store.empty])

theorem once (h : v.Fresh c coins) : v.Once c Store.empty := by
  intro id hid
  -- Neither the stash nor the tree holds a block of any ID.
  rw [if_neg (h.not_mem_stash id), Nat.add_zero]
  refine (sum_countP_eq_zero fun b hb e he heq => ?_).trans rfl
  exact h.not_real (Finset.mem_Ico.mp hb) he (by rwa [Block.Real, heq])

end View.Fresh

namespace ORAM

variable {c : Config} {M : Type} {pm : AbsPositionMapAdapter M} {bound : ℕ}
  {R : (ℕ → Option ℕ) → M → Prop} {mayThrow : Prop} {v : View} {s : ORAM M}

/-! ### Uploading the cache -/

theorem wp_storageSet {f : Storage → Random → SetResult}
    {put : List (ℕ × Bucket) → ORAM M → ORAM M} {Q : Unit → ORAM M → Prop}
    {E : Exception → ORAM M → Prop}
    (hok : (f s.storage s.random).result = .ok () →
      Q () (put (f s.storage s.random).requests
        { s with
          storage := (f s.storage s.random).storage
          random := (f s.storage s.random).random }))
    (herr : ∀ e, (f s.storage s.random).result = .error e →
      E e (put (f s.storage s.random).requests
        { s with
          storage := (f s.storage s.random).storage
          random := (f s.storage s.random).random })) :
    wp (storageSet f put) Q E s := by
  cases hresult : (f s.storage s.random).result with
  | ok u =>
    refine wp_of_ok ?_ (hok hresult)
    unfold storageSet
    simp only [hresult]
  | error e =>
    refine wp_of_error ?_ (herr e hresult)
    unfold storageSet
    simp only [hresult]

/-- The entries of the cache are buckets of the tree. -/
theorem tree_of_lookup (hs : Shows c R v s) {b : ℕ} {bucket : Bucket}
    (h : s.cache.lookup b = some bucket) : b ∈ v.cached ∧ v.tree b = bucket := by
  refine ⟨(hs.cached b).mpr (AList.lookup_isSome.mp (by rw [h]; rfl)), ?_⟩
  rw [hs.tree b, h]
  rfl

/-- `entries` lists the buckets of the cache. -/
structure Entries (v : View) (entries : List (ℕ × Bucket)) : Prop where
  nodup : (entries.map Prod.fst).Nodup
  keys : ∀ b, b ∈ entries.map Prod.fst ↔ b ∈ v.cached
  tree : ∀ q ∈ entries, v.tree q.1 = q.2

/-- So does a visit of the cache, in whatever order. -/
theorem entries_iterate (hs : Shows c R v s) (r : Random) :
    Entries v (Random.iterate s.cache.toList r).1 := by
  have hperm : (Random.iterate s.cache.toList r).1.Perm s.cache.toList := Random.perm_iterate _ r
  refine ⟨(hperm.map Prod.fst).nodup_iff.mpr s.cache.nodup_keys_toList, fun b => ?_,
    fun q hq => (tree_of_lookup hs (UnorderedMap.mem_toList.mp (hperm.subset hq))).2⟩
  -- The keys of the map are the cached locations, each once.
  rw [(hperm.map Prod.fst).mem_iff, UnorderedMap.keys_toList, hs.cached]
  rfl

section Upload

variable {entries range : List (ℕ × Bucket)} {storage' : Storage} {r : Random}

theorem Entries.cached (he : Entries v entries) {q : ℕ × Bucket} (hq : q ∈ entries) :
    q.1 ∈ v.cached := (he.keys q.1).mp (List.mem_map_of_mem hq)

/-- Every ID in the cache is a 64-bit number. -/
theorem Entries.id_lt (hc : c.Valid) (hv : v.Valid c) (he : Entries v entries) :
    ∀ q ∈ entries, ∀ block ∈ q.2, block.1 < 2 ^ 64 := by
  intro q hq block hblock
  rw [← he.tree q hq] at hblock
  have hlt := hc.blocks_lt
  -- An ID is in range, or that of an "empty" block.
  by_cases hreal : Block.Real block
  · have := hv.tree_id q.1 (hv.cached q.1 (he.cached hq)) block hblock hreal
    rw [hc.blocks_eq] at this
    omega
  · rw [not_not.mp hreal]
    decide

/-- The upload of the cache, noted as a call to the storage adapter. -/
theorem Entries.touched (he : Entries v entries) (hs : Shows c R v s)
    (hcalls : storage'.calls = s.storage.calls ++ [.set (entries.map Prod.fst)]) :
    v.touched ++ [.write v.cached] = storage'.calls.map StorageCall.touch := by
  have hfinset : (entries.map Prod.fst).toFinset = v.cached := by
    ext b
    rw [List.mem_toFinset, he.keys]
  rw [hcalls, List.map_append, ← hs.touched, ← hfinset]
  rfl

/-- **The upload succeeded**: every cached bucket is stored, with its payloads padded. -/
theorem Entries.synced (hc : c.Valid) (he : Entries v entries) (hs : Shows c R v s)
    (hcalls : storage'.calls = s.storage.calls ++ [.set (entries.map Prod.fst)])
    (hulongs : r.ulongs = s.random.ulongs)
    (hstored : Stored c.storage c.crypto entries s.storage storage') :
    ∃ v', Synced c v v' ∧
      Shows c R v' { s with storage := storage', cache := ∅, random := r } := by
  -- What the adapter accepted, and what it stored, for the buckets of the tree.
  have hfitted : ∀ b ∈ v.cached, ∀ e ∈ v.tree b, e.2.length ≤ c.storage.userBlockSize := by
    intro b hb e hmem
    obtain ⟨q, hq, rfl⟩ := List.mem_map.mp ((he.keys b).mpr hb)
    exact (hstored.accepts q hq).2.2 e (by rwa [← he.tree q hq])
  have hdecode : ∀ b ∈ v.cached, decodeBucket c.storage c.crypto (storage'.blocks b) =
      .ok (padded c.storage (v.tree b)) := by
    intro b hb
    obtain ⟨q, hq, rfl⟩ := List.mem_map.mp ((he.keys b).mpr hb)
    rw [he.tree q hq]
    exact hstored.written he.nodup q hq
  have hother : ∀ b ∉ v.cached, storage'.blocks b = s.storage.blocks b := fun b hb =>
    hstored.other b fun h => hb ((he.keys b).mp h)
  refine ⟨{ v with
    tree := content c.storage c.crypto storage'
    cached := ∅
    touched := v.touched ++ [.write v.cached] }, ?_, ?_⟩
  · refine ⟨⟨rfl, rfl, rfl, fun b => ?_, rfl⟩, rfl, fun b hb e hmem => ?_⟩
    · show List.Forall₂ _ (v.tree b) (content c.storage c.crypto storage' b)
      by_cases hb : b ∈ v.cached
      · rw [content_of_decodeBucket (hdecode b hb)]
        exact forall₂_touched_padded (hfitted b hb)
      · -- What was not cached is stored as before.
        rw [content_congr (hother b hb), hs.tree b,
          AList.lookup_eq_none.mpr (fun h => hb ((hs.cached b).mpr h))]
        exact forall₂_touched_refl _
    · rw [← hc.dataSize_eq]
      exact hfitted b hb e hmem
  · refine ⟨hs.pos, fun b => rfl, hs.stash, hs.coins.trans hulongs.symm, fun b => ?_,
      he.touched hs hcalls, fun b hb => ?_⟩
    · exact iff_of_false (Finset.notMem_empty b) (AList.notMem_empty b)
    · show Readable c.storage c.crypto storage' b
      by_cases hcached : b ∈ v.cached
      · exact readable_of_decodeBucket (hdecode b hcached)
      · exact (hs.readable b hb).congr (hother b hcached)

/-- Only the length of a payload can be rejected. -/
theorem Entries.offending (hc : c.Valid) (hv : v.Valid c) (he : Entries v entries)
    {e : Exception} (hrejects : Rejects c.storage entries e) :
    ∃ b ∈ v.cached, ∃ block ∈ v.tree b, c.dataSize < block.2.length ∧
      e = .dataTooLong block.2.length c.dataSize := by
  obtain ⟨q, hq, hreject⟩ := hrejects
  have hin := hv.cached q.1 (he.cached hq)
  -- Locations and numbers of blocks are those of the tree, so they pass.
  rcases hreject with ⟨hcapacity, -⟩ | ⟨hZ, -⟩ | ⟨block, hblock, hlong, heq⟩
  · exact absurd (hc.lt_capacity hin) (not_lt.mpr hcapacity)
  · rw [← he.tree q hq, hv.length q.1 hin, hc.Z_eq] at hZ
    exact absurd rfl hZ
  · rw [hc.dataSize_eq] at hlong heq
    exact ⟨q.1, he.cached hq, block, by rwa [he.tree q hq], hlong, heq⟩

/-- **The upload failed**: nothing is stored, and the cache holds what the adapter left of
the range it was given. -/
theorem Entries.syncFailed (hc : c.Valid) (hv : v.Valid c) (he : Entries v entries)
    (hs : Shows c R v s)
    (hcalls : storage'.calls = s.storage.calls ++ [.set (entries.map Prod.fst)])
    (hulongs : r.ulongs = s.random.ulongs) (hblocks : storage'.blocks = s.storage.blocks)
    (htouched : List.Forall₂ (TouchedRequest c.storage) entries range) {e : Exception}
    (hrejects : Rejects c.storage entries e) :
    ∃ v', SyncFailed c v e v' ∧ Shows c R v'
      { s with
        storage := storage'
        cache := UnorderedMap.assignAll range s.cache
        random := r } := by
  set cache' := UnorderedMap.assignAll range s.cache with hcache'
  have hrange : range.map Prod.fst = entries.map Prod.fst :=
    map_eq_of_forall₂ (fun _ _ h => h.1) htouched
  have hother : ∀ b, storage'.blocks b = s.storage.blocks b := fun b => congrFun hblocks b
  refine ⟨{ v with
    tree := fun b => (cache'.lookup b).getD (content c.storage c.crypto storage' b)
    touched := v.touched ++ [.write v.cached] }, ?_, ?_⟩
  · refine ⟨⟨rfl, rfl, rfl, fun b => ?_, rfl⟩, rfl, he.offending hc hv hrejects⟩
    show List.Forall₂ _ (v.tree b) ((cache'.lookup b).getD _)
    by_cases hb : b ∈ v.cached
    · -- The entry of the cache was padded in place, or not reached.
      obtain ⟨q, hq, rfl⟩ := List.mem_map.mp ((he.keys b).mpr hb)
      obtain ⟨q', hq', hkey, htouch⟩ := exists_right_of_forall₂ htouched hq
      have hlookup : cache'.lookup q'.1 = some q'.2 :=
        UnorderedMap.lookup_assignAll_of_mem (by rw [hrange]; exact he.nodup) hq' _
      rw [hkey] at hlookup
      rw [hlookup, he.tree q hq]
      exact htouch
    -- What is not cached is not in the range either.
    · have hnot : b ∉ range.map Prod.fst := fun h => hb ((he.keys b).mp (hrange ▸ h))
      rw [hcache', UnorderedMap.lookup_assignAll_of_notMem hnot, content_congr (hother b),
        ← hs.tree b]
      exact forall₂_touched_refl _
  · refine ⟨hs.pos, fun b => rfl, hs.stash, hs.coins.trans hulongs.symm, fun b => ?_,
      he.touched hs hcalls, fun b hb => (hs.readable b hb).congr (hother b)⟩
    show b ∈ v.cached ↔ b ∈ cache'
    rw [hcache', UnorderedMap.mem_assignAll, hrange, he.keys, hs.cached]
    tauto

end Upload

/-- **Uploading the cache** empties it, or fails at a payload that is too long. -/
theorem syncCache_spec (hc : c.Valid) (hv : v.Valid c) (hs : Shows c R v s) :
    wp (syncCache c) (fun _ s' => ∃ v', Synced c v v' ∧ Shows c R v' s')
      (fun e s' => ∃ v', SyncFailed c v e v' ∧ Shows c R v' s') s := by
  unfold syncCache
  refine wp_bind (wp_get (wp_bind (wp_withRandom (wp_bind ?_))))
  have he := entries_iterate hs s.random
  set entries := (Random.iterate s.cache.toList s.random).1
  obtain ⟨hcalls, hulongs, htouched, hresult⟩ := set_spec (c := c.storage) hc.crypto_lawful
    entries (he.id_lt hc hv) s.storage (Random.iterate s.cache.toList s.random).2
  refine wp_storageSet (fun hok => ?_) fun e herror => ?_
  -- The result of the adapter decides which of the two cases of `set_spec` applies.
  · obtain ⟨-, hstored⟩ | ⟨e, herror, -⟩ := hresult
    · have hsynced := he.synced hc hs hcalls hulongs hstored
      exact wp_modify hsynced
    · rw [herror] at hok
      exact absurd hok (by simp)
  · obtain ⟨hok, -⟩ | ⟨e', herror', hblocks, hrejects⟩ := hresult
    · rw [herror] at hok
      exact absurd hok (by simp)
    · rw [herror, Except.error.injEq] at herror'
      subst herror'
      have hfailed := he.syncFailed hc hv hs hcalls hulongs hblocks htouched hrejects
      exact hfailed

/-! ### The accesses of a call -/

theorem opOf_eq (request : Block) :
    opOfAccess (request.2.length == 0) request.1 request.2 = Call.opOf request := by
  unfold opOfAccess Call.opOf
  by_cases h : request.2.length = 0
  · rw [if_pos (beq_iff_eq.mpr h), if_pos h]
  · rw [if_neg (mt beq_iff_eq.mp h), if_neg h]

theorem overflowAt_cons {op : Op} {ops : List Op} {leaf : ℕ} {stash : InMemoryStashAdapter}
    {response : Bytes} {v' v'' : View} (head : Access c v op leaf stash response v')
    (h : OverflowAt c v' ops v'') : OverflowAt c v (op :: ops) v'' := by
  obtain ⟨done, op', rest, answers, leaf', v₁, rfl, hdone, hoverflow⟩ := h
  exact ⟨op :: done, op', rest, response :: answers, leaf', v₁, rfl, .cons head hdone,
    hoverflow⟩

/-- **The requests of a batch are accesses, one after the other.** -/
theorem accessAll_spec (hc : c.Valid) (hpm : pm.Implements c.blocks bound R mayThrow)
    (hbound : 2 ^ (c.height - 1) ≤ bound) {requests : List Block}
    (hrequests : ∀ request ∈ requests, request.1 < c.blocks) {responses : List Bytes}
    (hempty : ∀ response ∈ responses, response = []) (hv : v.Valid c) (hs : Shows c R v s) :
    wp (accessAll c pm requests responses)
      (fun answers s' => ∃ v', Accesses c v (requests.map Call.opOf) answers v' ∧
        v'.Valid c ∧ Shows c R v' s')
      (fun e s' => mayThrow ∨ e = .overCapacity c.stashCapacity ∧
        ∃ v', OverflowAt c v (requests.map Call.opOf) v' ∧ Shows c R v' s') s := by
  induction requests generalizing responses v s with
  | nil => exact wp_pure ⟨v, .nil v, hv, hs⟩
  | cons request requests ih =>
    rw [accessAll]
    have hid : request.1 < c.blocks := hrequests request List.mem_cons_self
    -- No response buffer is given, so each response starts empty.
    have hhead : responses.headD [] = [] := by
      cases responses with
      | nil => rfl
      | cons response _ => exact hempty response List.mem_cons_self
    have htail : ∀ response ∈ responses.tail, response = [] := fun response h =>
      hempty response (List.mem_of_mem_tail h)
    rw [hhead]
    refine wp_bind (wp_mono (access_spec hc hpm hbound hv hs _ hid _) ?_ ?_)
    -- The first request was served, and the others start from the view it left.
    · rintro response s₁ ⟨leaf, stash, v₁, haccess, hs₁⟩
      rw [opOf_eq] at haccess
      have hv₁ := hv.access (by rwa [Call.block_opOf]) haccess
      refine wp_bind (wp_mono (ih (fun r hr => hrequests r (List.mem_cons_of_mem _ hr)) htail
        hv₁ hs₁) ?_ ?_)
      · rintro answers s' ⟨v', haccesses, hv', hs'⟩
        exact wp_pure ⟨v', .cons haccess haccesses, hv', hs'⟩
      · rintro e s' (hthrow | ⟨he, v', hoverflow, hs'⟩)
        · exact Or.inl hthrow
        · exact Or.inr ⟨he, v', overflowAt_cons haccess hoverflow, hs'⟩
    -- The first request overflows.
    · rintro e s' (hthrow | ⟨he, leaf, v', hoverflow, hs'⟩)
      · exact Or.inl hthrow
      · rw [opOf_eq] at hoverflow
        exact Or.inr ⟨he, v', ⟨[], _, _, [], leaf, v, rfl, .nil v, hoverflow⟩, hs'⟩

/-- The locations of the paths of all requests. -/
theorem prefetch_spec (hc : c.Valid) (hpm : pm.Implements c.blocks bound R mayThrow)
    (hv : v.Valid c) {requests : List Block}
    (hrequests : ∀ request ∈ requests, request.1 < c.blocks) {locations : List ℕ}
    (hs : Shows c R v s) {Q : List ℕ → ORAM M → Prop} {E : Exception → ORAM M → Prop}
    (hQ : ∀ locations' s', Shows c R v s' →
      (∀ b, b ∈ locations' ↔ b ∈ locations ∨ b ∈ prefetched c v requests) → Q locations' s')
    (hE : ∀ e s', mayThrow → E e s') :
    wp (requests.foldlM (fun locations request => do
      let leaf ← zoom mapLens (pm.get request.1)
      readPath c leaf locations false) locations) Q E s := by
  induction requests generalizing locations s with
  | nil => exact wp_pure (hQ locations s hs (by simp [prefetched]))
  | cons request requests ih =>
    have hid : request.1 < c.blocks := hrequests request List.mem_cons_self
    -- The leaf of each request is looked up, but not remapped.
    obtain ⟨leaf, hleaf, hpos⟩ := hv.pos request.1 hid
    rw [List.foldlM_cons]
    refine wp_bind (wp_bind (wp_mapGet hpm hs.pos hid hpos (fun m hR => ?_) hE))
    refine wp_pure (ih (fun r hr => hrequests r (List.mem_cons_of_mem _ hr))
      (shows_map hs hR) ?_)
    intro locations' s' hs' hmem
    refine hQ locations' s' hs' fun b => ?_
    rw [hmem, mem_pathLocations hc hleaf, prefetched, Finset.mem_union, hpos, Option.getD_some,
      Config.mem_path, or_assoc]

/-! ### Calls -/

/-- A call, with an empty response buffer. -/
def exec (c : Config) (pm : AbsPositionMapAdapter M) : Call → OramM M (List Bytes)
  | .get block => (fun response => [response]) <$> getBlock c pm block []
  | .put block data => (fun _ => []) <$> putBlock c pm block data
  | .multiple requests => multiple c pm requests []

/-- The upload at the end of a call whose operations were all served. -/
theorem sync_spec (hc : c.Valid) (call : Call) (fine : ¬call.TooMany c) {answers : List Bytes}
    {v₁ : View} (served : Accesses c (v.prefetch c call) call.ops answers v₁)
    (hv : v₁.Valid c) (hs : Shows c R v₁ s) :
    wp (syncCache c)
      (fun _ s' => ∃ v', call.Done c v (call.report answers) v' ∧ Shows c R v' s')
      (fun e s' => mayThrow ∨ ∃ v', call.Failed c v e v' ∧ Shows c R v' s') s := by
  refine wp_mono (syncCache_spec hc hv hs) ?_ ?_
  · rintro _ s' ⟨v', hsynced, hs'⟩
    exact ⟨v', ⟨fine, v₁, answers, served, rfl, hsynced⟩, hs'⟩
  · rintro e s' ⟨v', hfailed, hs'⟩
    exact Or.inr ⟨v', .sync fine served hfailed, hs'⟩

/-- A single access followed by the upload. -/
theorem single_spec (hc : c.Valid) (hpm : pm.Implements c.blocks bound R mayThrow)
    (hbound : 2 ^ (c.height - 1) ≤ bound) (hv : v.Valid c) (hs : Shows c R v s) (call : Call)
    (read : Bool) {block : ℕ} (hblock : block < c.blocks) (data : Bytes)
    (fine : ¬call.TooMany c) (hprefetch : v.prefetch c call = v)
    (hops : call.ops = [opOfAccess read block data]) :
    wp (access c pm read block data [])
      (fun response => wp (syncCache c)
        (fun _ s' => ∃ v', call.Done c v (call.report [response]) v' ∧ Shows c R v' s')
        (fun e s' => mayThrow ∨ ∃ v', call.Failed c v e v' ∧ Shows c R v' s'))
      (fun e s' => mayThrow ∨ ∃ v', call.Failed c v e v' ∧ Shows c R v' s') s := by
  refine wp_mono (access_spec hc hpm hbound hv hs read hblock data) ?_ ?_
  -- The access returned, and the upload follows.
  · rintro response s₁ ⟨leaf, stash, v₁, haccess, hs₁⟩
    refine sync_spec hc call fine ?_ (hv.access (by rwa [block_opOfAccess]) haccess) hs₁
    rw [hops, hprefetch]
    exact .cons haccess (.nil v₁)
  -- The access threw, so there is no upload.
  · rintro e s' (hthrow | ⟨rfl, leaf, v', hoverflow, hs'⟩)
    · exact Or.inl hthrow
    · refine Or.inr ⟨v', .overflow fine ?_, hs'⟩
      rw [hops, hprefetch]
      exact ⟨[], _, [], [], leaf, v, rfl, .nil v, hoverflow⟩

/-- The ghost counters are not part of the view. -/
theorem shows_counted (hs : Shows c R v s) (gets puts : ℕ) :
    Shows c R v { s with gets := gets, puts := puts } :=
  ⟨hs.pos, hs.tree, hs.stash, hs.coins, hs.cached, hs.touched, hs.readable⟩

theorem getBlock_spec (hc : c.Valid) (hpm : pm.Implements c.blocks bound R mayThrow)
    (hbound : 2 ^ (c.height - 1) ≤ bound) (hv : v.Valid c) (hs : Shows c R v s) {block : ℕ}
    (hblock : block < c.blocks) :
    wp (getBlock c pm block [])
      (fun response s' => ∃ v', (Call.get block).Done c v [response] v' ∧ Shows c R v' s')
      (fun e s' => mayThrow ∨ ∃ v', (Call.get block).Failed c v e v' ∧ Shows c R v' s') s := by
  have hs := shows_counted hs (s.gets + 1) s.puts
  refine wp_bind (wp_modify (wp_bind (wp_mono (single_spec hc hpm hbound hv hs (.get block) true
    hblock [] not_false rfl rfl) ?_ (fun _ _ h => h))))
  exact fun response s₁ h => wp_bind (wp_mono h (fun _ s' h => wp_pure h) (fun _ _ h => h))

theorem putBlock_spec (hc : c.Valid) (hpm : pm.Implements c.blocks bound R mayThrow)
    (hbound : 2 ^ (c.height - 1) ≤ bound) (hv : v.Valid c) (hs : Shows c R v s) {block : ℕ}
    (hblock : block < c.blocks) (data : Bytes) :
    wp (putBlock c pm block data)
      (fun _ s' => ∃ v', (Call.put block data).Done c v [] v' ∧ Shows c R v' s')
      (fun e s' => mayThrow ∨ ∃ v', (Call.put block data).Failed c v e v' ∧ Shows c R v' s')
      s := by
  have hs := shows_counted hs s.gets (s.puts + 1)
  exact wp_bind (wp_modify (wp_bind (single_spec hc hpm hbound hv hs (.put block data) false
    hblock data not_false rfl rfl)))

/-- **The refinement theorem.** A call on the code is a call of the protocol: it returns
what a completed call reports, or throws as a failed call does. -/
theorem exec_spec (hc : c.Valid) (hpm : pm.Implements c.blocks bound R mayThrow)
    (hbound : 2 ^ (c.height - 1) ≤ bound) (hv : v.Valid c) (hs : Shows c R v s) {call : Call}
    (hcall : call.InRange c) :
    wp (exec c pm call)
      (fun responses s' => ∃ v', call.Done c v responses v' ∧ Shows c R v' s')
      (fun e s' => mayThrow ∨ ∃ v', call.Failed c v e v' ∧ Shows c R v' s') s := by
  cases call with
  | get block =>
    exact wp_map (getBlock_spec hc hpm hbound hv hs (hcall (.read block) List.mem_cons_self))
  | put block data =>
    exact wp_map (putBlock_spec hc hpm hbound hv hs
      (hcall (.write block data) List.mem_cons_self) data)
  | multiple requests =>
    have hrequests : ∀ request ∈ requests, request.1 < c.blocks := fun request h => by
      rw [← Call.block_opOf request]
      exact hcall (Call.opOf request) (List.mem_map_of_mem h)
    change wp (multiple c pm requests []) _ _ s
    unfold multiple
    -- Too many requests are refused before anything is done.
    by_cases hmany : c.batchSize < requests.length
    · rw [if_pos hmany]
      exact wp_bind (wp_throw (Or.inr ⟨v, .tooMany rfl hmany, hs⟩))
    rw [if_neg hmany]
    refine wp_bind (prefetch_spec hc hpm hv hrequests hs ?_ fun e s' h => Or.inl h)
    intro locations s₁ hs₁ hmem
    -- The download ahead takes the paths that the requests have at this moment.
    have hlocations : locations.toFinset = prefetched c v requests := by
      ext b
      rw [List.mem_toFinset, hmem]
      simp
    have hin : ∀ b ∈ locations, InTree c.height b := fun b hb =>
      inTree_of_prefetched hv hrequests b (hlocations ▸ List.mem_toFinset.mpr hb)
    refine wp_bind (getCache_spec hc hs₁ hin true fun _ s₂ hs₂ _ => ?_)
    rw [hlocations] at hs₂
    have hv₂ : (v.fetch (prefetched c v requests)).Valid c :=
      hv.fetch (inTree_of_prefetched hv hrequests)
    -- The accesses find their paths in the cache, except where an ID occurs twice.
    refine wp_bind (wp_mono (accessAll_spec hc hpm hbound hrequests ?_ hv₂ hs₂) ?_ ?_)
    · intro response hresponse
      rw [List.takeD_nil] at hresponse
      exact List.eq_of_mem_replicate hresponse
    · rintro answers s₃ ⟨v₃, haccesses, hv₃, hs₃⟩
      exact wp_bind (wp_mono (sync_spec hc (.multiple requests) hmany haccesses hv₃ hs₃)
        (fun _ s' h => wp_pure h) (fun _ _ h => h))
    · rintro e s' (hthrow | ⟨rfl, v', hoverflow, hs'⟩)
      · exact Or.inl hthrow
      · exact Or.inr ⟨v', .overflow hmany hoverflow, hs'⟩

/-! ### Construction -/

/-- The constructor has drawn the leaves of the IDs below `k`, which `f` holds. It started
with the coins `draws` and has left the storage `filled`. -/
structure Mapped (c : Config) (R : (ℕ → Option ℕ) → M → Prop) (filled : Storage)
    (draws : Stream' ℕ) (k : ℕ) (f : ℕ → Option ℕ) (s : ORAM M) : Prop where
  map : R f s.map
  storage : s.storage = filled
  stash : s.stash = ∅
  cache : s.cache = ∅
  coins : s.random.ulongs = draws.drop k
  pos : ∀ id < k, f id = some (draws.get id % 2 ^ (c.height - 1))

section Construction

variable {filled : Storage} {draws : Stream' ℕ} {k : ℕ} {f : ℕ → Option ℕ}

/-- One iteration draws the leaf of the next ID. -/
theorem Mapped.step (hc : c.Valid) (hpm : pm.Implements c.blocks bound R mayThrow)
    (hbound : 2 ^ (c.height - 1) ≤ bound) (hk : k < c.blocks)
    (h : Mapped c R filled draws k f s) :
    wp (withRandom (Random.getRandomULong (intShl (c.height - 1))) >>= fun leaf =>
        zoom mapLens (pm.set k leaf))
      (fun _ s' => ∃ f', Mapped c R filled draws (k + 1) f' s') (fun _ _ => mayThrow) s := by
  have hdraw : (Random.getRandomULong (intShl (c.height - 1)) s.random).1 =
      draws.get k % 2 ^ (c.height - 1) := by
    rw [hc.intShl_height, ← Stream'.head_drop, ← h.coins]
    rfl
  refine wp_bind (wp_withRandom (wp_mapSet hpm (by exact h.map) hk ?_ ?_ (fun _ _ h => h)))
  · rw [hdraw]
    exact (Nat.mod_lt _ (Nat.two_pow_pos _)).trans_le hbound
  · intro m hR
    rw [hdraw] at hR
    refine ⟨_, hR, h.storage, h.stash, h.cache, ?_, fun id hid => ?_⟩
    · change s.random.ulongs.tail = _
      rw [h.coins, Stream'.tail_drop', Nat.add_comm]
    · -- The leaves drawn before are not changed.
      by_cases heq : id = k
      · rw [heq, Function.update_self]
      · rw [Function.update_of_ne heq]
        exact h.pos id (by omega)

/-- Once all leaves are drawn, the state shows a fresh view. -/
theorem Mapped.fresh (hc : c.Valid) (h : Mapped c R filled draws c.blocks f s)
    (hdecode : ∀ location < c.storage.capacity,
      decodeBucket c.storage c.crypto (filled.blocks location) =
        .ok (List.replicate c.storage.Z (emptyBlock c.storage))) :
    ∃ v, v.Fresh c draws ∧ Shows c R v s := by
  have hcontent : ∀ b, InTree c.height b →
      decodeBucket c.storage c.crypto (s.storage.blocks b) =
        .ok (List.replicate c.storage.Z (emptyBlock c.storage)) := fun b hb => by
    rw [h.storage]
    exact hdecode b (hc.lt_capacity hb)
  refine ⟨⟨f, content c.storage c.crypto s.storage, s.stash, s.random.ulongs, ∅,
    s.storage.calls.map StorageCall.touch⟩, ⟨h.pos, fun b hb => ?_, h.stash, rfl, h.coins⟩,
    ⟨h.map, fun b => ?_, rfl, rfl, fun b => ?_, rfl, fun b hb =>
      readable_of_decodeBucket (hcontent b hb)⟩⟩
  · rw [← hc.Z_eq]
    exact content_of_decodeBucket (hcontent b hb)
  · -- Nothing is cached, so the tree is what is stored.
    rw [h.cache, AList.lookup_empty]
    rfl
  · rw [h.cache]
    exact iff_of_false (Finset.notMem_empty b) (AList.notMem_empty b)

/-- The body of the constructor leaves a fresh view, whatever way it fills the storage with
empty blocks. -/
theorem initialize_spec (hc : c.Valid) (hpm : pm.Implements c.blocks bound R mayThrow)
    (hbound : 2 ^ (c.height - 1) ≤ bound) (hR : R f s.map) (hstash : s.stash = ∅)
    (hcache : s.cache = ∅) {fill : Storage → Random → SetResult}
    (hfill : Blank c.storage c.crypto s.random (fill s.storage s.random)) :
    wp (storageSet fill (fun _ s => s) >>= fun _ => (List.range c.blocks).forM fun i =>
        withRandom (Random.getRandomULong (intShl (c.height - 1))) >>= fun leaf =>
          zoom mapLens (pm.set i leaf))
      (fun _ s' => ∃ v, v.Fresh c s.random.ulongs ∧ Shows c R v s') (fun _ _ => mayThrow) s := by
  refine wp_bind (wp_storageSet (fun _ => ?_)
    (fun e he => absurd (hfill.ok.symm.trans he) (by simp)))
  -- The invariant of the loop: the IDs below `k` have their leaves, the others are to come.
  refine wp_mono (wp_forM (fun rest s' => ∃ k g, rest = (List.range c.blocks).drop k ∧
    k ≤ c.blocks ∧ Mapped c R (fill s.storage s.random).storage s.random.ulongs k g s') ?_ _ _
    ⟨0, f, rfl, Nat.zero_le _, hR, rfl, hstash, hcache, hfill.ulongs, by simp⟩) ?_
    (fun _ _ h => h)
  · rintro id rest s₁ ⟨k, g, hrest, hk, hmapped⟩
    have hlt : k < c.blocks := by
      by_contra hge
      rw [List.drop_eq_nil_of_le (by rw [List.length_range]; omega)] at hrest
      exact absurd hrest (by simp)
    rw [List.drop_eq_getElem_cons (by rwa [List.length_range]), List.getElem_range,
      List.cons.injEq] at hrest
    obtain ⟨rfl, rfl⟩ := hrest
    refine wp_mono (hmapped.step hc hpm hbound hlt) ?_ (fun _ _ h => h)
    rintro _ s' ⟨g', hmapped'⟩
    exact ⟨id + 1, g', rfl, hlt, hmapped'⟩
  · rintro _ s' ⟨k, g, hrest, hk, hmapped⟩
    -- Nothing is left to draw, so `k` has reached the number of blocks.
    obtain rfl : k = c.blocks := by
      have hlen := congrArg List.length hrest
      rw [List.length_drop, List.length_range, List.length_nil] at hlen
      omega
    exact hmapped.fresh hc hfill.decode

/-- **Construction leaves a fresh view**: every bucket is empty and every ID has a leaf. -/
theorem new_spec (hc : c.Valid) (hpm : pm.Implements c.blocks bound R mayThrow)
    (hbound : 2 ^ (c.height - 1) ≤ bound) (hR : R f s.map)
    (hstash : s.stash = ∅) (hcache : s.cache = ∅) :
    wp (new c pm true) (fun _ s' => ∃ v, v.Fresh c s.random.ulongs ∧ Shows c R v s')
      (fun _ _ => mayThrow) s := by
  unfold new
  rw [if_pos rfl]
  exact initialize_spec hc hpm hbound hR hstash hcache
    (fillWithZeroes_spec hc.crypto_lawful s.storage s.random)

end Construction

end ORAM

end PathORAM
