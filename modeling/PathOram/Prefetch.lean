import PathOram.Batches
import PathOram.Load
import PathOram.Work

/-!
# A batch of different IDs is served from the cache

`multiple` downloads the paths of all its IDs before it remaps the first of them. If the IDs
are different, no access of the batch needs anything else: an access remaps only its own ID,
and neither the eviction nor the stash changes what is cached.

* `Accesses.covered` — accesses whose paths are cached ask for nothing.
* `asks_once_multiple` — no call to the storage adapter names a location twice.
* `multiple_prefetches` — in every reachable state, a batch of different IDs is one download
  and one upload of the union of the paths.
-/

namespace PathORAM

open Hoare HeapTree AbsStorageAdapter

/-! ### The protocol -/

section Protocol

variable {c : Config} {v v' : View} {ops : List Op} {answers : List Bytes}
  {requests : List Block}

/-- **Accesses to different IDs whose paths are cached** ask the storage for nothing. -/
theorem Accesses.covered (h : Accesses c v ops answers v')
    (hdistinct : (ops.map Op.block).Nodup)
    (hcovered : ∀ op ∈ ops, ∀ leaf, v.pos op.block = some leaf → c.path leaf ⊆ v.cached) :
    v'.cached = v.cached ∧ v'.touched = v.touched := by
  induction h with
  | nil v => exact ⟨rfl, rfl⟩
  | @cons v v₁ v' op ops leaf stash response responses head tail ih =>
    have hpath : c.path leaf ⊆ v.cached := hcovered op List.mem_cons_self leaf head.pos
    have hcached : v₁.cached = v.cached :=
      head.cached'.trans (Finset.union_eq_left.mpr hpath)
    have htouched : v₁.touched = v.touched := by
      rw [head.touched', View.fetch, Finset.sdiff_eq_empty_iff_subset.mpr hpath]
      exact List.append_nil _
    rw [List.map_cons, List.nodup_cons] at hdistinct
    -- the later operations are about other IDs, whose leaves are as before
    have hlater : ∀ op' ∈ ops, ∀ leaf', v₁.pos op'.block = some leaf' →
        c.path leaf' ⊆ v₁.cached := by
      intro op' hop' leaf' hleaf'
      have hne : op'.block ≠ op.block := fun heq =>
        hdistinct.1 (heq ▸ List.mem_map_of_mem hop')
      have hkept : v₁.pos op'.block = v.pos op'.block := by
        rw [head.pos']
        exact Function.update_of_ne hne _ _
      rw [hkept] at hleaf'
      rw [hcached]
      exact hcovered op' (List.mem_cons_of_mem _ hop') leaf' hleaf'
    obtain ⟨hcached', htouched'⟩ := ih hdistinct.2 hlater
    exact ⟨hcached'.trans hcached, htouched'.trans htouched⟩

/-- The locations downloaded ahead contain the paths of all IDs of the batch. -/
theorem mem_prefetched {b : ℕ} :
    b ∈ prefetched c v requests ↔
      ∃ request ∈ requests, b ∈ c.path ((v.pos request.1).getD 0) := by
  induction requests with
  | nil => simp [prefetched]
  | cons request requests ih => rw [prefetched, Finset.mem_union, ih, List.exists_mem_cons_iff]

theorem prefetched_ne_empty (hpos : 1 ≤ c.height) (hne : requests ≠ []) :
    prefetched c v requests ≠ ∅ := by
  obtain ⟨request, rest, rfl⟩ := List.exists_cons_of_ne_nil hne
  exact Finset.ne_empty_of_mem (mem_prefetched.mpr ⟨request, List.mem_cons_self,
    Config.mem_path.mpr (node_mem_path hpos)⟩)

/-- **A batch of different IDs** asks for the locations downloaded ahead, and uploads them. -/
theorem Call.Done.prefetches {responses : List Bytes}
    (h : (Call.multiple requests).Done c v responses v') (hpos : 1 ≤ c.height)
    (hcached : v.cached = ∅) (hne : requests ≠ []) (hdistinct : (requests.map Prod.fst).Nodup) :
    v'.touched = v.touched ++
      [.read (prefetched c v requests), .write (prefetched c v requests)] := by
  obtain ⟨v₁, answers, hserved, -, hsynced⟩ := h.served
  -- nothing was cached before, so the cache is what was downloaded ahead
  have hahead : (v.prefetch c (.multiple requests)).cached = prefetched c v requests := by
    change v.cached ∪ _ = _
    rw [hcached, Finset.empty_union]
  -- the IDs are different, so each access stays on the path of its first leaf
  obtain ⟨hcached₁, htouched₁⟩ := hserved.covered
    (by rwa [Call.map_block_ops]) fun op hop leaf hleaf => by
      obtain ⟨request, hrequest, rfl⟩ := List.mem_map.mp hop
      rw [Call.block_opOf] at hleaf
      intro b hb
      rw [hahead, mem_prefetched]
      refine ⟨request, hrequest, ?_⟩
      change v.pos request.1 = some leaf at hleaf
      rwa [hleaf]
  have hreads : Touch.reads (prefetched c v requests \ v.cached) =
      [.read (prefetched c v requests)] := by
    rw [hcached, Finset.sdiff_empty, Touch.reads, if_neg (prefetched_ne_empty hpos hne)]
  calc v'.touched
      = v₁.touched ++ [.write v₁.cached] := hsynced.touched'
    _ = (v.prefetch c (.multiple requests)).touched ++ [.write (prefetched c v requests)] := by
        rw [htouched₁, hcached₁, hahead]
    _ = (v.touched ++ [.read (prefetched c v requests)]) ++
          [.write (prefetched c v requests)] := by
        rw [← hreads]
        rfl
    _ = _ := List.append_assoc _ _ _

end Protocol

/-! ### No location is asked for twice -/

/-- The locations of a call to the storage adapter, in order. -/
def StorageCall.locations : StorageCall → List ℕ
  | .get locations => locations
  | .set locations => locations

namespace ORAM

variable {c : Config} {M : Type} {pm : AbsPositionMapAdapter M} {before : List StorageCall}

/-- Since the calls `before`, no call to the storage adapter named a location twice. -/
def AskedOnce (before : List StorageCall) (s : ORAM M) : Prop :=
  ∃ calls, s.storage.calls = before ++ calls ∧ ∀ call ∈ calls, call.locations.Nodup

theorem AskedOnce.record {s s' : ORAM M} (h : s.AskedOnce before) {call : StorageCall}
    (hcall : call.locations.Nodup) (hcalls : s'.storage.calls = s.storage.calls ++ [call]) :
    s'.AskedOnce before := by
  obtain ⟨calls, heq, hnodup⟩ := h
  refine ⟨calls ++ [call], by rw [hcalls, heq, List.append_assoc], fun call' h => ?_⟩
  rcases List.mem_append.mp h with h | h
  · exact hnodup call' h
  · rw [List.mem_singleton.mp h]
    exact hcall

/-- The invariant `AskedOnce`, for a program whose results satisfy `P`. -/
abbrev AsksOnce {α : Type} (before : List StorageCall) (P : α → Prop) (x : OramM M α) : Prop :=
  Preserves (AskedOnce before) P (fun _ => True) x

theorem asks_once_of_keeps {α : Type} {x : OramM M α} (h : Keeps (fun s => s.storage.calls) x) :
    AsksOnce before (fun _ => True) x := by
  rintro s ⟨calls, heq, hnodup⟩
  refine wp_mono (h s) (fun _ s' hkept => ?_) fun _ s' hkept => ?_
  · exact ⟨trivial, calls, hkept.trans heq, hnodup⟩
  · exact ⟨trivial, calls, hkept.trans heq, hnodup⟩

theorem ignoresMemory_calls : IgnoresMemory (fun s : ORAM M => s.storage.calls) :=
  fun _ _ _ _ => rfl

/-- A download notes one call, also when it throws. -/
theorem get_records (storage : StorageConfig) (crypto : Crypto) (locations : List ℕ)
    (s : Storage) :
    wp (AbsStorageAdapter.get storage crypto locations)
      (fun _ s' => s'.calls = s.calls ++ [.get locations])
      (fun _ s' => s'.calls = s.calls ++ [.get locations]) s := by
  unfold AbsStorageAdapter.get
  refine wp_bind (wp_modify (wp_bind (wp_mono (wp_forM
    (fun _ (s' : Storage) => s'.calls = s.calls ++ [.get locations]) ?_ _ _ rfl)
    (fun _ s' hs' => ?_) fun _ _ h => h)))
  -- the record is written before the locations are checked
  · intro location rest s' hs'
    unfold checkCapacity
    split
    · exact wp_throw hs'
    · exact wp_pure hs'
  · refine wp_bind (wp_get (wp_foldlM
      (fun _ _ (s' : Storage) => s'.calls = s.calls ++ [.get locations])
      (fun raw rest response s' hs' => ?_) _ _ _ hs'))
    cases hdecode : decodeBucket storage crypto raw with
    -- and it stays when a bucket cannot be decoded
    | error e => exact wp_bind (wp_liftExcept_error rfl hs')
    | ok blocks => exact wp_bind (wp_liftExcept_ok rfl (wp_pure hs'))

theorem asks_once_getCache {locations : List ℕ} (hnodup : locations.Nodup)
    (response : List Block) (dryRun : Bool) :
    AsksOnce before (fun _ => True)
      (getCache c locations response dryRun : OramM M (List Block)) := by
  intro s hs
  unfold getCache
  refine wp_bind (wp_withRandom (wp_bind (wp_get ?_)))
  set visited := (Random.iterate locations s.random).1
  have hvisited : visited.Nodup :=
    (Random.perm_iterate locations s.random).nodup_iff.mpr hnodup
  -- the locations that are not cached are some of those asked for
  have htoGet : (lookupCache s.cache dryRun visited [] response).1.Nodup := by
    rw [lookupCache_fst, List.nil_append]
    exact hvisited.filter _
  generalize lookupCache s.cache dryRun visited [] response = found at *
  obtain ⟨toGet, response⟩ := found
  change wp (if toGet.length > 0 then _ else _) _ _ _
  split
  · have hcall : (StorageCall.get toGet).locations.Nodup := htoGet
    refine wp_bind (wp_zoom (wp_mono (get_records c.storage c.crypto toGet s.storage)
      (fun downloaded t ht => ?_) fun _ t ht => ⟨trivial, hs.record hcall ht⟩))
    exact wp_bind (wp_modify (wp_pure ⟨trivial, hs.record hcall ht⟩))
  · exact wp_pure ⟨trivial, hs⟩

theorem nodup_pathLocations (leaf : ℕ) {path : List ℕ} (h : path.Nodup) :
    (pathLocations c leaf path).Nodup := by
  unfold pathLocations
  generalize List.range c.height = levels
  induction levels generalizing path with
  | nil => exact h
  | cons level levels ih => exact ih h.insert

theorem asks_once_readPath (leaf : ℕ) {path : List ℕ} (h : path.Nodup) (putInStash : Bool) :
    AsksOnce before List.Nodup (readPath c leaf path putInStash : OramM M (List ℕ)) := by
  have hpath := nodup_pathLocations (c := c) leaf h
  unfold readPath
  cases putInStash with
  | true =>
    exact preserves_bind (asks_once_getCache hpath _ _) fun blocks _ =>
      preserves_bind (asks_once_of_keeps (keeps_addToStash ignoresMemory_calls blocks))
        fun _ _ => preserves_pure hpath
  | false => exact preserves_pure hpath

/-- The upload goes through the cache, which has a place for each location once. -/
theorem asks_once_syncCache : AsksOnce before (fun _ => True) (syncCache c : OramM M Unit) := by
  intro s hs
  unfold syncCache
  refine wp_bind (wp_get (wp_bind (wp_withRandom ?_)))
  set entries := (Random.iterate s.cache.toList s.random).1 with hentries
  -- the cache has one bucket for each location
  have hcall : (StorageCall.set (entries.map Prod.fst)).locations.Nodup := by
    refine ((Random.perm_iterate s.cache.toList s.random).map Prod.fst).nodup_iff.mpr ?_
    exact s.cache.nodup_keys_toList
  have hcalls : ∀ storage r,
      (AbsStorageAdapter.set c.storage c.crypto entries storage r).storage.calls =
        storage.calls ++ [.set (entries.map Prod.fst)] := fun storage r => by
    unfold AbsStorageAdapter.set
    dsimp only
    split <;> rfl
  refine wp_bind (wp_storageSet (fun _ => ?_) fun _ _ => ⟨trivial, hs.record hcall (hcalls _ _)⟩)
  exact wp_modify ⟨trivial, hs.record hcall (hcalls _ _)⟩

theorem asks_once_access (read : Bool) (block : ℕ) (data response : Bytes) :
    AsksOnce before (fun _ => True) (access c pm read block data response) := by
  have hmemory := ignoresMemory_calls (M := M)
  have hmap : IgnoresMap (fun s : ORAM M => s.storage.calls) := fun _ _ => rfl
  unfold access
  refine preserves_bind (asks_once_of_keeps (keeps_zoom (fun t s => hmap s t) _))
    fun previousPosition _ => preserves_bind (asks_once_of_keeps (keeps_withRandom hmemory _))
      fun leaf _ => preserves_bind (asks_once_of_keeps (keeps_zoom (fun t s => hmap s t) _))
        fun _ _ => preserves_bind (asks_once_readPath _ List.nodup_nil true) fun _ _ => ?_
  -- the eviction works on the cache
  have hwrite : AsksOnce before (fun _ => True) (do
      let s ← get
      let response := InMemoryStashAdapter.get s.stash block response
      writePath c pm previousPosition
      return response) :=
    asks_once_of_keeps (keeps_bind keeps_get fun s =>
      keeps_bind (keeps_writePath hmemory hmap _) fun _ => keeps_pure _)
  cases read with
  | true => exact hwrite
  | false =>
    exact preserves_bind (asks_once_of_keeps
      (keeps_zoom (fun t s => hmemory s t s.cache s.random) _)) fun _ _ => hwrite

theorem asks_once_accessAll (requests : List Block) (responses : List Bytes) :
    AsksOnce before (fun _ => True) (accessAll c pm requests responses) := by
  induction requests generalizing responses with
  | nil => exact preserves_pure trivial
  | cons request requests ih =>
    rw [accessAll]
    exact preserves_bind (asks_once_access _ _ _ _) fun _ _ =>
      preserves_bind (ih _) fun _ _ => preserves_pure trivial

/-- **No call of a batch to the storage adapter names a location twice.** -/
theorem asks_once_multiple (requests : List Block) (response : List Bytes) :
    AsksOnce before (fun _ => True) (multiple c pm requests response) := by
  have hmap : IgnoresMap (fun s : ORAM M => s.storage.calls) := fun _ _ => rfl
  have hrest : AsksOnce before (fun _ => True) (do
      let locations ← requests.foldlM (fun locations request => do
        let leaf ← zoom mapLens (pm.get request.1)
        readPath c leaf locations false) []
      let _ ← getCache c locations [] true
      let response ← accessAll c pm requests (response.takeD requests.length [])
      syncCache c
      return response) := by
    -- the locations of the paths are collected without repetition
    have hahead : AsksOnce before List.Nodup (requests.foldlM (fun locations request => do
        let leaf ← zoom mapLens (pm.get request.1)
        readPath c leaf locations false) []) :=
      preserves_foldlM List.nodup_nil fun locations request _ hlocations =>
        preserves_bind (asks_once_of_keeps (keeps_zoom (fun t s => hmap s t) _)) fun leaf _ =>
          asks_once_readPath leaf hlocations false
    exact preserves_bind hahead fun locations hlocations =>
      preserves_bind (asks_once_getCache hlocations _ _) fun _ _ =>
        preserves_bind (asks_once_accessAll _ _) fun _ _ =>
          preserves_bind asks_once_syncCache fun _ _ => preserves_pure trivial
  unfold multiple
  split
  · exact preserves_bind (R := fun _ => True) (preserves_throw trivial) fun _ _ => hrest
  · exact hrest

/-! ### Response buffers that are not empty -/

theorem get_response (stash : InMemoryStashAdapter) (block : ℕ) (response : Bytes) :
    InMemoryStashAdapter.get stash block response =
      InMemoryStashAdapter.get stash block [] ++ response := by
  unfold InMemoryStashAdapter.get
  cases stash.lookup block with
  | none => rfl
  | some data =>
    change data ++ response = (data ++ []) ++ response
    rw [List.append_nil]

/-- What a response buffer holds is only appended to the answer. -/
theorem access_response (read : Bool) (block : ℕ) (data response : Bytes) :
    access c pm read block data response =
      (· ++ response) <$> access c pm read block data [] := by
  unfold access
  cases read <;> simp only [get_response _ _ response, map_bind, map_pure, Bool.not_true,
    Bool.not_false, Bool.false_eq_true, if_false, if_true]

theorem exists_accessAll_response (c : Config) (pm : AbsPositionMapAdapter M)
    (requests : List Block) (responses : List Bytes) :
    ∃ g : List Bytes → List Bytes,
      accessAll c pm requests responses = g <$> accessAll c pm requests [] := by
  induction requests generalizing responses with
  | nil => exact ⟨id, rfl⟩
  | cons request requests ih =>
    obtain ⟨g, hg⟩ := ih responses.tail
    refine ⟨fun answers => (answers.headD [] ++ responses.headD []) :: g answers.tail, ?_⟩
    rw [accessAll, accessAll, access_response, hg]
    simp only [List.headD_nil, List.tail_nil, bind_map_left, map_bind, map_pure]
    rfl

theorem accessAll_replicate (requests : List Block) (n : ℕ) :
    accessAll c pm requests (List.replicate n []) = accessAll c pm requests [] := by
  induction requests generalizing n with
  | nil => rfl
  | cons request requests ih =>
    have hhead : (List.replicate n ([] : Bytes)).headD [] = [] := by cases n <;> rfl
    rw [accessAll, accessAll, hhead, List.tail_replicate, ih]
    rfl

/-- The buffers make no difference to what a batch does. -/
theorem exists_multiple_response (c : Config) (pm : AbsPositionMapAdapter M)
    (requests : List Block) (response : List Bytes) :
    ∃ g : List Bytes → List Bytes,
      multiple c pm requests response = g <$> multiple c pm requests [] := by
  obtain ⟨g, hg⟩ :=
    exists_accessAll_response c pm requests (response.takeD requests.length [])
  refine ⟨g, ?_⟩
  unfold multiple
  rw [hg, List.takeD_nil, accessAll_replicate]
  split <;> simp only [bind_map_left, map_bind, map_pure]

/-! ### Between calls -/

/-- The states between the calls of an ORAM over a position map array, constructed from `s₀`:
after the constructor or a bulk load, and after any call that returned. -/
inductive Reachable (c : Config) (s₀ : ORAM InMemoryPositionMapAdapter) :
    ORAM InMemoryPositionMapAdapter → Prop
  | built {s : ORAM InMemoryPositionMapAdapter}
      (hnew : new c InMemoryPositionMapAdapter.adapter true s₀ = .ok () s) : Reachable c s₀ s
  | loaded {s s' : ORAM InMemoryPositionMapAdapter} {data : List Block}
      (hnew : new c InMemoryPositionMapAdapter.adapter true s₀ = .ok () s)
      (hheight : c.height ≤ 30) (hnodup : (data.map Prod.fst).Nodup)
      (hids : ∀ record ∈ data, record.1 < c.blocks)
      (hfits : ∀ record ∈ data, record.2.length ≤ c.dataSize)
      (hload : load c InMemoryPositionMapAdapter.adapter data s = .ok () s') : Reachable c s₀ s'
  | returned {s s' : ORAM InMemoryPositionMapAdapter} {call : Call} {responses : List Bytes}
      (hs : Reachable c s₀ s) (hcall : call.InRange c)
      (hexec : exec c InMemoryPositionMapAdapter.adapter call s = .ok responses s') :
      Reachable c s₀ s'

theorem exists_ok_of_map {α β : Type} {f : α → β} {x : OramM M α} {s s' : ORAM M} {b : β}
    (h : (f <$> x) s = .ok b s') : ∃ a, x s = .ok a s' := by
  cases hx : x s with
  | ok a t =>
    obtain rfl : s' = t := (wp_map (R := fun _ s' => s' = t) (E := fun _ _ => True)
      (wp_of_ok hx rfl)).ok h
    exact ⟨a, rfl⟩
  | error e t =>
    exact ((wp_map (R := fun _ _ => False) (E := fun _ _ => True)
      (wp_of_error hx trivial)).ok h).elim

/-- One download and one upload, in the calls as the adapter sees them. -/
theorem exists_of_map_touch {calls : List StorageCall} {read write : Finset ℕ}
    (h : calls.map StorageCall.touch = [.read read, .write write]) :
    ∃ down up, calls = [.get down, .set up] ∧ down.toFinset = read ∧ up.toFinset = write := by
  match calls, h with
  | [.get down, .set up], h =>
    injection h with hread h
    injection h with hwrite
    exact ⟨down, up, rfl, Touch.read.inj hread, Touch.write.inj hwrite⟩

section Reach

variable {s₀ s : ORAM InMemoryPositionMapAdapter}

/-- Between calls the state shows a valid view, and nothing is cached. -/
theorem Reachable.exists_view (hc : c.Valid) (hcapacity : c.blocks ≤ s₀.map.capacity)
    (hstash : s₀.stash = ∅) (hcache : s₀.cache = ∅) (h : Reachable c s₀ s) :
    ∃ v, Shows c (InMemoryPositionMapAdapter.Holds c.blocks) v s ∧ v.Valid c ∧ v.cached = ∅ := by
  have hpm := InMemoryPositionMapAdapter.implements c.blocks (2 ^ (c.height - 1))
  have hfresh : ∀ s, new c InMemoryPositionMapAdapter.adapter true s₀ = .ok () s →
      ∃ v, v.Fresh c s₀.random.ulongs ∧
        Shows c (InMemoryPositionMapAdapter.Holds c.blocks) v s := fun s hnew =>
    (new_spec hc hpm le_rfl ⟨rfl, hcapacity⟩ hstash hcache).ok hnew
  induction h with
  | built hnew =>
    obtain ⟨v, hv, hs⟩ := hfresh _ hnew
    exact ⟨v, hs, hv.valid hc, hv.cached⟩
  | loaded hnew hheight hnodup hids hfits hload =>
    obtain ⟨v, hv, hs⟩ := hfresh _ hnew
    -- a load that needs the last location does not return
    have hlen := le_of_load hc hheight hpm le_rfl hv hs hnodup hids hload
    obtain ⟨requests, v', hloaded, hs', -⟩ :=
      (load_spec hc hheight hpm le_rfl hv hs hnodup hids hfits hlen).ok hload
    exact ⟨v', hs', hloaded.valid hc hv hids hfits, hloaded.cached'.trans hv.cached⟩
  | returned _ hcall hexec ih =>
    obtain ⟨v, hs, hv, hcached⟩ := ih
    obtain ⟨v', hdone, hs'⟩ := (exec_spec hc hpm le_rfl hv hs hcall).ok hexec
    obtain ⟨v₁, answers, -, -, hsynced⟩ := hdone.served
    exact ⟨v', hs', hv.done hc hcall hdone, hsynced.cached'⟩

/-- **A batch of different IDs is served by one download and one upload**, whatever its
requests and the random source are: of the union of the paths to the leaves that the IDs had
before, each location once. -/
theorem multiple_prefetches (hc : c.Valid) (hcapacity : c.blocks ≤ s₀.map.capacity)
    (hstash : s₀.stash = ∅) (hcache : s₀.cache = ∅) (hs : Reachable c s₀ s)
    {requests : List Block} (hne : requests ≠ []) (hdistinct : (requests.map Prod.fst).Nodup)
    (hids : ∀ request ∈ requests, request.1 < c.blocks) {response responses : List Bytes}
    {s' : ORAM InMemoryPositionMapAdapter}
    (hok : multiple c InMemoryPositionMapAdapter.adapter requests response s =
      .ok responses s') :
    ∃ down up, s'.storage.calls = s.storage.calls ++ [.get down, .set up] ∧
      down.Nodup ∧ up.Nodup ∧ (∀ b, b ∈ up ↔ b ∈ down) ∧
      ∀ b, b ∈ down ↔ ∃ request ∈ requests, ∃ leaf, s.map.map request.1 = some leaf ∧
        ∃ level < c.height, b = bucketForLevelLeaf c.height level leaf := by
  obtain ⟨v, hshows, hv, hcached⟩ := hs.exists_view hc hcapacity hstash hcache
  have hpm := InMemoryPositionMapAdapter.implements c.blocks (2 ^ (c.height - 1))
  -- the buffers do not matter, so the batch is one of the calls of the protocol
  obtain ⟨answers, hmultiple⟩ : ∃ answers,
      exec c InMemoryPositionMapAdapter.adapter (.multiple requests) s = .ok answers s' := by
    obtain ⟨g, hg⟩ :=
      exists_multiple_response c InMemoryPositionMapAdapter.adapter requests response
    rw [hg] at hok
    exact exists_ok_of_map hok
  obtain ⟨v', hdone, hshows'⟩ :=
    (exec_spec hc hpm le_rfl hv hshows (Call.inRange_multiple hids)).ok hmultiple
  have htouched := hdone.prefetches hc.height_pos hcached hne hdistinct
  have hasks : s.AskedOnce s.storage.calls :=
    ⟨[], (List.append_nil _).symm, fun _ h => absurd h List.not_mem_nil⟩
  obtain ⟨-, calls, hcalls, hnodup⟩ := (asks_once_multiple requests response).ok hasks hok
  -- the calls are a download and an upload of the same set
  have htouches : calls.map StorageCall.touch =
      [.read (prefetched c v requests), .write (prefetched c v requests)] := by
    have heq : s.storage.calls.map StorageCall.touch ++ calls.map StorageCall.touch =
        s.storage.calls.map StorageCall.touch ++
          [.read (prefetched c v requests), .write (prefetched c v requests)] := by
      rw [← List.map_append, ← hcalls, ← hshows'.touched, htouched, hshows.touched]
    exact List.append_cancel_left heq
  obtain ⟨down, up, rfl, hdown, hup⟩ := exists_of_map_touch htouches
  have hmem : ∀ b, b ∈ down ↔ b ∈ prefetched c v requests := fun b => by
    rw [← hdown, List.mem_toFinset]
  refine ⟨down, up, hcalls, hnodup (.get down) List.mem_cons_self,
    hnodup (.set up) (List.mem_cons_of_mem _ List.mem_cons_self), fun b => ?_, fun b => ?_⟩
  · rw [hmem, ← hup, List.mem_toFinset]
  · rw [hmem, mem_prefetched]
    refine exists_congr fun request => and_congr_right fun hrequest => ?_
    obtain ⟨leaf, hleaf, hpos⟩ := hv.pos request.1 (hids request hrequest)
    have hmap : s.map.map request.1 = some leaf := (congrFun hshows.pos.1 _).trans hpos
    rw [hpos, Option.getD_some, hmap, Config.mem_path, HeapTree.mem_path]
    simp only [Option.some.injEq, exists_eq_left']
    refine exists_congr fun level => and_congr_right fun _ => ?_
    rw [bucketForLevelLeaf_eq hc.height_pos hc.height_le hleaf]
    exact eq_comm

end Reach

theorem five_lt_two_pow : 5 < 2 ^ 64 := by norm_num

/-- An ORAM of four IDs before its constructor ran. It draws both leaves in turn. -/
def alternating : ORAM InMemoryPositionMapAdapter :=
  unbuilt (.allocate 5 five_lt_two_pow 0) (Random.ofLeaves Stream'.nats)

/-- The same ORAM after it. -/
def alternated : ORAM InMemoryPositionMapAdapter :=
  built (Config.tiny 2 4) InMemoryPositionMapAdapter.adapter alternating

theorem reachable_alternated : Reachable (Config.tiny 2 4) alternating alternated :=
  .built (new_eq_built (Config.tiny_valid (by decide) (by decide) 4)
    (InMemoryPositionMapAdapter.implements 4 2) le_rfl ⟨rfl, (by decide : 4 ≤ 5)⟩ rfl rfl)

theorem multiple_alternated :
    multiple (Config.tiny 2 4) InMemoryPositionMapAdapter.adapter [(0, [7]), (3, [])] []
        alternated =
      .ok [[7], []] (leaves (multiple (Config.tiny 2 4) InMemoryPositionMapAdapter.adapter
        [(0, [7]), (3, [])] []) alternated) :=
  eq_ok_of_returned (by decide +kernel)

theorem multiple_prefetches_alternated :
    ∃ down up, (leaves (multiple (Config.tiny 2 4) InMemoryPositionMapAdapter.adapter
        [(0, [7]), (3, [])] []) alternated).storage.calls =
      alternated.storage.calls ++ [.get down, .set up] ∧
      down.Nodup ∧ up.Nodup ∧ (∀ b, b ∈ up ↔ b ∈ down) ∧
      ∀ b, b ∈ down ↔ ∃ request ∈ ([(0, [7]), (3, [])] : List Block), ∃ leaf,
        alternated.map.map request.1 = some leaf ∧
        ∃ level < 2, b = bucketForLevelLeaf 2 level leaf :=
  multiple_prefetches (Config.tiny_valid (by decide) (by decide) 4) (by exact (by decide : 4 ≤ 5))
    rfl rfl
    reachable_alternated (List.cons_ne_nil _ _) (by decide) (by decide) multiple_alternated

end ORAM

end PathORAM
