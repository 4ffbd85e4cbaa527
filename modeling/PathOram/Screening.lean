import PathOram.Correctness

/-!
# Which position map entries are used

Three bounds decide what happens to an ID: the position map throws from its `capacity` on,
the constructor writes the entries below `2 ^ height * Z`, and a leaf is a leaf of the tree
below `2 ^ (height - 1)`. An ID between the first two passes the check of the position map
and reads an entry that was never written.

* `View.StaysInTree` — the protocol asks the storage for nodes of the tree only.
* `implements_leaves` — an in-memory map that was initialised reads entries that were
  written, and hold a leaf of the tree, for every ID of the ORAM.
* `exec_inRange`, `exec_rejected` — a call on IDs of the ORAM uses such entries only; a call
  on an ID from the capacity on throws and changes nothing.
* `ids_are_screened` — both along any run that requests no ID of the gap.
-/

namespace PathORAM

open Hoare HeapTree

variable {c : Config}

/-! ### The locations of the protocol -/

/-- The locations the storage adapter is asked for. -/
def Touch.locations : Touch → Finset ℕ
  | .read locations => locations
  | .write locations => locations

/-- All that the storage was asked for after `start` are nodes of the tree. -/
def View.StaysInTree (c : Config) (start : List Touch) (v : View) : Prop :=
  ∃ touches, v.touched = start ++ touches ∧
    ∀ touch ∈ touches, ∀ b ∈ touch.locations, InTree c.height b

namespace View.StaysInTree

variable {start : List Touch} {v v' : View} {call : Call}

theorem refl (v : View) : v.StaysInTree c v.touched :=
  ⟨[], (List.append_nil _).symm, fun _ h => absurd h List.not_mem_nil⟩

/-- A step that asks for nodes of the tree. -/
theorem step (hv : v.StaysInTree c start) {touches : List Touch}
    (hstep : v'.touched = v.touched ++ touches)
    (htouches : ∀ touch ∈ touches, ∀ b ∈ touch.locations, InTree c.height b) :
    v'.StaysInTree c start := by
  obtain ⟨before, heq, hbefore⟩ := hv
  refine ⟨before ++ touches, by rw [hstep, heq, List.append_assoc], fun touch htouch => ?_⟩
  exact (List.mem_append.mp htouch).elim (hbefore touch) (htouches touch)

/-- Downloading nodes of the tree. -/
theorem reads (hv : v.StaysInTree c start) {locations : Finset ℕ}
    (hlocations : ∀ b ∈ locations, InTree c.height b)
    (hstep : v'.touched = v.touched ++ Touch.reads (locations \ v.cached)) :
    v'.StaysInTree c start := by
  refine hv.step hstep fun touch htouch b hb => ?_
  unfold Touch.reads at htouch
  split at htouch
  · exact absurd htouch List.not_mem_nil
  · obtain rfl := List.mem_singleton.mp htouch
    exact hlocations b (Finset.mem_sdiff.mp hb).1

theorem accesses (hvalid : v.Valid c) {ops : List Op} {answers : List Bytes}
    (hops : ∀ op ∈ ops, op.block < c.blocks) (hv : v.StaysInTree c start)
    (h : Accesses c v ops answers v') : v'.StaysInTree c start := by
  induction h with
  | nil v => exact hv
  | cons head _ ih =>
    have hop := hops _ List.mem_cons_self
    have hleaf := hvalid.leaf_lt hop head.pos
    exact ih (hvalid.access hop head) (fun op h => hops op (List.mem_cons_of_mem _ h))
      (hv.reads (fun b hb => Config.inTree_of_mem_path hleaf hb) head.touched')

/-- Uploading the cache. -/
theorem sync (hvalid : v.Valid c) (hv : v.StaysInTree c start) (h : Sync c v v') :
    v'.StaysInTree c start := by
  refine hv.step h.touched' fun touch htouch b hb => ?_
  obtain rfl := List.mem_singleton.mp htouch
  exact hvalid.cached b hb

theorem prefetch (hvalid : v.Valid c) (hcall : call.InRange c) (hv : v.StaysInTree c start) :
    (v.prefetch c call).StaysInTree c start := by
  cases call with
  | get _ => exact hv
  | put _ _ => exact hv
  | multiple requests =>
    exact hv.reads (inTree_of_prefetched hvalid hcall.requests) rfl

theorem overflowAt (hvalid : v.Valid c) {ops : List Op}
    (hops : ∀ op ∈ ops, op.block < c.blocks) (hv : v.StaysInTree c start)
    (h : OverflowAt c v ops v') : v'.StaysInTree c start := by
  obtain ⟨done, op, rest, answers, leaf, v₁, rfl, hserved, hoverflow⟩ := h
  have hdone : ∀ op ∈ done, op.block < c.blocks := fun op hop =>
    hops op (List.mem_append_left _ hop)
  have hop : op.block < c.blocks := hops op (List.mem_append_right _ List.mem_cons_self)
  have hleaf := (hvalid.accesses hdone hserved).leaf_lt hop hoverflow.pos
  exact (hv.accesses hvalid hdone hserved).reads
    (fun b hb => Config.inTree_of_mem_path hleaf hb) hoverflow.touched'

/-- **A completed call asks for nodes of the tree only.** -/
theorem done (hvalid : v.Valid c) (hcall : call.InRange c) {responses : List Bytes}
    (h : call.Done c v responses v') : v'.StaysInTree c v.touched := by
  obtain ⟨v₁, answers, hserved, -, hsynced⟩ := h.served
  have hvalid₀ := hvalid.prefetch hcall
  have hv₀ := (refl v).prefetch hvalid hcall
  exact (hv₀.accesses hvalid₀ hcall hserved).sync (hvalid₀.accesses hcall hserved) hsynced.toSync

/-- **So does a failed one.** -/
theorem failed (hvalid : v.Valid c) (hcall : call.InRange c) {e : Exception}
    (h : call.Failed c v e v') : v'.StaysInTree c v.touched := by
  have hvalid₀ := hvalid.prefetch hcall
  have hv₀ := (refl v).prefetch hvalid hcall
  cases h with
  | tooMany _ _ => exact refl v
  | overflow _ h => exact hv₀.overflowAt hvalid₀ hcall h
  | sync _ hserved h =>
    exact (hv₀.accesses hvalid₀ hcall hserved).sync (hvalid₀.accesses hcall hserved) h.toSync

end View.StaysInTree

/-! ### The entries that are read -/

namespace InMemoryPositionMapAdapter

variable {n bound capacity : ℕ} {start : List (ℕ × Option ℕ)}

/-- The array of `capacity` entries holds `f`. -/
structure HoldsArray (capacity : ℕ) (f : ℕ → Option ℕ) (m : InMemoryPositionMapAdapter) :
    Prop where
  map : m.map = f
  capacity_eq : m.capacity = capacity

/-- In addition all IDs below `n` have a leaf below `bound`, and the entries read after
`start` had been written and held such a leaf. -/
structure HoldsLeaves (n bound capacity : ℕ) (start : List (ℕ × Option ℕ))
    (f : ℕ → Option ℕ) (m : InMemoryPositionMapAdapter) : Prop
    extends HoldsArray capacity f m where
  leaves : ∀ id < n, ∃ leaf < bound, f id = some leaf
  reads : ∃ reads, m.reads = start ++ reads ∧
    ∀ entry ∈ reads, ∃ leaf < bound, entry.2 = some leaf

theorem implements_array (hn : n ≤ capacity) :
    adapter.Implements n bound (HoldsArray capacity) False where
  get_spec f m block hm hblock := by
    obtain ⟨rfl, rfl⟩ := hm
    refine wp_bind (wp_checkCapacity (fun _ => ?_) (fun h => by omega))
    refine wp_bind (wp_get (wp_bind (wp_modify (wp_pure ⟨fun leaf hleaf => ?_, rfl, rfl⟩))))
    rw [hleaf]
    rfl
  set_spec f m block leaf hm hblock _ := by
    obtain ⟨rfl, rfl⟩ := hm
    refine wp_bind (wp_checkCapacity (fun _ => ?_) (fun h => by omega))
    exact wp_modify ⟨rfl, rfl⟩

/-- **An initialised array reads written entries only.** -/
theorem implements_leaves (hn : n ≤ capacity) :
    adapter.Implements n bound (HoldsLeaves n bound capacity start) False where
  get_spec f m block hm hblock := by
    obtain ⟨⟨rfl, rfl⟩, hleaves, reads, hreads, hwritten⟩ := hm
    obtain ⟨leaf, hlt, hleaf⟩ := hleaves block hblock
    refine wp_bind (wp_checkCapacity (fun _ => ?_) (fun h => by omega))
    refine wp_bind (wp_get (wp_bind (wp_modify (wp_pure ⟨fun l hl => ?_, ⟨⟨rfl, rfl⟩, hleaves,
      reads ++ [(block, m.map block)], ?_, ?_⟩⟩))))
    · rw [hl]
      rfl
    · show m.reads ++ [(block, m.map block)] = _
      rw [hreads, List.append_assoc]
    -- the record of the reads grows by this one, which had a leaf
    · intro entry hentry
      rcases List.mem_append.mp hentry with hentry | hentry
      · exact hwritten entry hentry
      · obtain rfl := List.mem_singleton.mp hentry
        exact ⟨leaf, hlt, hleaf⟩
  set_spec f m block leaf hm hblock hlt := by
    obtain ⟨⟨rfl, rfl⟩, hleaves, hreads⟩ := hm
    refine wp_bind (wp_checkCapacity (fun _ => ?_) (fun h => by omega))
    -- a `set` leaves a leaf below the bound, and is not recorded
    refine wp_modify ⟨⟨rfl, rfl⟩, fun id hid => ?_, hreads⟩
    by_cases heq : id = block
    · exact ⟨leaf, hlt, by rw [heq, Function.update_self]⟩
    · rw [Function.update_of_ne heq]
      exact hleaves id hid

end InMemoryPositionMapAdapter

open InMemoryPositionMapAdapter (HoldsArray HoldsLeaves)

/-- **A call is screened.** It threw and changed nothing, or it used only position map
entries that had been written and held a leaf of the tree, and touched only nodes of the
tree. -/
inductive ORAM.Screened (c : Config) (s : ORAM InMemoryPositionMapAdapter)
    (o : Except Exception (List Bytes)) (s' : ORAM InMemoryPositionMapAdapter) : Prop
  | rejected {e : Exception} (ho : o = .error e) (map : s'.map.map = s.map.map)
      (stash : s'.stash = s.stash) (cache : s'.cache = s.cache)
      (storage : s'.storage = s.storage) : Screened c s o s'
  | used
      (reads : ∃ reads, s'.map.reads = s.map.reads ++ reads ∧
        ∀ entry ∈ reads, ∃ leaf < 2 ^ (c.height - 1), entry.2 = some leaf)
      (locations : ∀ call ∈ s'.storage.calls.drop s.storage.calls.length,
        ∀ b ∈ call.touch.locations, InTree c.height b) : Screened c s o s'

/-- No requested ID is between the entries that are initialised and the capacity of the
position map. -/
def Call.AvoidsGap (c : Config) (capacity : ℕ) (call : Call) : Prop :=
  ∀ op ∈ call.ops, op.block < 2 ^ c.height * c.Z ∨ capacity ≤ op.block

instance (c : Config) (capacity : ℕ) (call : Call) : Decidable (call.AvoidsGap c capacity) :=
  inferInstanceAs (Decidable (∀ op ∈ call.ops, _ ∨ _))

namespace ORAM

variable {s : ORAM InMemoryPositionMapAdapter} {capacity : ℕ}

/-- Between two calls the state shows a valid view. -/
def Sound (c : Config) (capacity : ℕ) (s : ORAM InMemoryPositionMapAdapter) : Prop :=
  ∃ v, View.Valid c v ∧ Shows c (HoldsArray capacity) v s

/-- What the storage was asked for since `s`. -/
theorem locations_of_staysInTree {v v' : View}
    {R R' : (ℕ → Option ℕ) → InMemoryPositionMapAdapter → Prop}
    {s' : ORAM InMemoryPositionMapAdapter} (hs : Shows c R v s) (hs' : Shows c R' v' s')
    (h : v'.StaysInTree c v.touched) :
    ∀ call ∈ s'.storage.calls.drop s.storage.calls.length,
      ∀ b ∈ call.touch.locations, InTree c.height b := by
  obtain ⟨touches, htouched, hinTree⟩ := h
  have hdrop : (s'.storage.calls.drop s.storage.calls.length).map StorageCall.touch = touches := by
    rw [List.map_drop, ← hs'.touched, htouched, hs.touched]
    exact List.drop_left' (List.length_map _)
  intro call hcall
  exact hinTree call.touch (hdrop ▸ List.mem_map_of_mem hcall)

/-- **A call on IDs of the ORAM** uses written entries only. -/
theorem exec_inRange (hc : c.Valid) (hcapacity : c.blocks ≤ capacity) (hs : s.Sound c capacity)
    {call : Call} (hcall : call.InRange c) :
    wp (exec c InMemoryPositionMapAdapter.adapter call)
      (fun responses s' => s.Screened c (.ok responses) s' ∧ s'.Sound c capacity)
      (fun e s' => s.Screened c (.error e) s' ∧ s'.Sound c capacity) s := by
  obtain ⟨v, hv, hshows⟩ := hs
  -- at the start of the call no entry was read yet
  have hpos : HoldsLeaves c.blocks (2 ^ (c.height - 1)) capacity s.map.reads v.pos s.map :=
    ⟨hshows.pos, hv.pos, [], (List.append_nil _).symm, fun _ h => absurd h List.not_mem_nil⟩
  have hscreened : ∀ o v' s', v'.StaysInTree c v.touched →
      Shows c (HoldsLeaves c.blocks (2 ^ (c.height - 1)) capacity s.map.reads) v' s' →
      v'.Valid c → s.Screened c o s' ∧ s'.Sound c capacity := by
    intro o v' s' hstays hs' hv'
    exact ⟨.used hs'.pos.reads (locations_of_staysInTree hshows hs' hstays), v', hv',
      { hs' with pos := hs'.pos.toHoldsArray }⟩
  refine wp_mono (exec_spec hc (InMemoryPositionMapAdapter.implements_leaves hcapacity) le_rfl
    hv { hshows with pos := hpos } hcall) ?_ ?_
  · rintro responses s' ⟨v', hdone, hs'⟩
    exact hscreened _ v' s' (.done hv hcall hdone) hs' (hv.done hc hcall hdone)
  · rintro e s' (hthrow | ⟨v', hfailed, hs'⟩)
    · exact hthrow.elim
    · exact hscreened _ v' s' (.failed hv hcall hfailed) hs' (hv.failed hc hcall hfailed)

/-- `s'` differs from `s` in what the ghosts noted only. -/
def SameButGhosts (s s' : ORAM InMemoryPositionMapAdapter) : Prop :=
  ∃ reads gets puts,
    s' = { s with map := { s.map with reads := reads }, gets := gets, puts := puts }

theorem SameButGhosts.refl (s : ORAM InMemoryPositionMapAdapter) : SameButGhosts s s :=
  ⟨s.map.reads, s.gets, s.puts, rfl⟩

theorem SameButGhosts.screened {s' : ORAM InMemoryPositionMapAdapter} (h : SameButGhosts s s')
    (hs : s.Sound c capacity) (e : Exception) :
    s.Screened c (.error e) s' ∧ s'.Sound c capacity := by
  obtain ⟨reads, gets, puts, rfl⟩ := h
  obtain ⟨v, hv, hshows⟩ := hs
  exact ⟨.rejected rfl rfl rfl rfl rfl, v, hv,
    { hshows with pos := ⟨hshows.pos.map, hshows.pos.capacity_eq⟩ }⟩

theorem wp_mapGet_inMemory {block : ℕ} {Q : ℕ → ORAM InMemoryPositionMapAdapter → Prop}
    {E : Exception → ORAM InMemoryPositionMapAdapter → Prop}
    (hok : block < s.map.capacity → ∀ leaf s', SameButGhosts s s' → Q leaf s')
    (herr : s.map.capacity ≤ block → ∀ e, E e s) :
    wp (zoom mapLens (InMemoryPositionMapAdapter.adapter.get block)) Q E s := by
  refine wp_zoom (wp_bind (InMemoryPositionMapAdapter.wp_checkCapacity (fun h => ?_)
    fun h => herr h _))
  exact wp_bind (wp_get (wp_bind (wp_modify (wp_pure (hok h _ _ ⟨_, s.gets, s.puts, rfl⟩)))))

/-- The download ahead of a batch throws at the first ID from the capacity on. -/
theorem prefetch_rejected {requests : List Block}
    (hrequests : ∃ request ∈ requests, s.map.capacity ≤ request.1) (locations : List ℕ) :
    wp (requests.foldlM (fun locations request => do
      let leaf ← zoom mapLens (InMemoryPositionMapAdapter.adapter.get request.1)
      readPath c leaf locations false) locations)
      (fun _ _ => False) (fun _ s' => SameButGhosts s s') s := by
  -- on the requests: the IDs in range are looked up, the first one out of range throws
  induction requests generalizing locations s with
  | nil =>
    obtain ⟨request, hrequest, -⟩ := hrequests
    exact absurd hrequest List.not_mem_nil
  | cons request requests ih =>
    rw [List.foldlM_cons]
    refine wp_bind (wp_bind (wp_mapGet_inMemory (fun hlt leaf s₁ hs₁ => ?_)
      fun _ _ => .refl s))
    obtain ⟨reads, gets, puts, rfl⟩ := hs₁
    -- this one is in range, so the culprit is among the rest
    have hrest : ∃ request ∈ requests, s.map.capacity ≤ request.1 := by
      obtain ⟨request', hmem, hle⟩ := hrequests
      rcases List.mem_cons.mp hmem with rfl | hmem
      · exact absurd hle (not_le.mpr hlt)
      · exact ⟨request', hmem, hle⟩
    have hih := ih
      (s := { s with map := { s.map with reads := reads }, gets := gets, puts := puts }) hrest
      (pathLocations c leaf locations)
    refine wp_pure (wp_mono hih (fun _ _ h => h) ?_)
    rintro e s' ⟨reads', gets', puts', rfl⟩
    exact ⟨reads', gets', puts', rfl⟩

/-- **A call on an ID from the capacity on** throws and changes nothing. -/
theorem exec_rejected {call : Call} (hcall : ∃ op ∈ call.ops, s.map.capacity ≤ op.block) :
    wp (exec c InMemoryPositionMapAdapter.adapter call) (fun _ _ => False)
      (fun _ s' => SameButGhosts s s') s := by
  obtain ⟨op, hop, hle⟩ := hcall
  cases call with
  | get block =>
    obtain rfl := List.mem_singleton.mp hop
    exact wp_map (wp_bind (wp_modify (wp_bind (wp_bind (wp_mapGet_inMemory
      (fun hlt => absurd hle (not_le.mpr hlt)) fun _ _ => ⟨s.map.reads, _, _, rfl⟩)))))
  | put block data =>
    obtain rfl := List.mem_singleton.mp hop
    exact wp_map (wp_bind (wp_modify (wp_bind (wp_bind (wp_mapGet_inMemory
      (fun hlt => absurd hle (not_le.mpr hlt)) fun _ _ => ⟨s.map.reads, _, _, rfl⟩)))))
  | multiple requests =>
    obtain ⟨request, hrequest, rfl⟩ := List.mem_map.mp hop
    rw [Call.block_opOf] at hle
    show wp (multiple c _ requests []) _ _ s
    unfold multiple
    -- a batch that is too large is rejected before the position map is asked
    by_cases hmany : c.batchSize < requests.length
    · rw [if_pos hmany]
      exact wp_bind (wp_throw (.refl s))
    · rw [if_neg hmany]
      exact wp_bind (wp_mono (prefetch_rejected ⟨request, hrequest, hle⟩ []) (fun _ _ h => h.elim)
        fun _ _ h => h)

/-- **A call that avoids the gap is screened.** -/
theorem exec_screened (hc : c.Valid) (hcapacity : c.blocks ≤ capacity)
    (hs : s.Sound c capacity) {call : Call} (hcall : call.AvoidsGap c capacity) :
    wp (exec c InMemoryPositionMapAdapter.adapter call)
      (fun responses s' => s.Screened c (.ok responses) s' ∧ s'.Sound c capacity)
      (fun e s' => s.Screened c (.error e) s' ∧ s'.Sound c capacity) s := by
  have hcap : s.map.capacity = capacity := by
    obtain ⟨v, -, hshows⟩ := hs
    exact hshows.pos.capacity_eq
  -- either some ID is beyond the position map, or all are among the initialised entries
  by_cases hout : ∃ op ∈ call.ops, capacity ≤ op.block
  · exact wp_mono (exec_rejected (hcap ▸ hout)) (fun _ _ h => h.elim)
      fun e _ h => h.screened hs e
  · refine exec_inRange hc hcapacity hs fun op hop => ?_
    rw [hc.blocks_eq]
    exact (hcall op hop).resolve_right fun hle => hout ⟨op, hop, hle⟩

/-- **IDs are screened**, along any run that requests no ID between the initialised entries
and the capacity of the position map. `s₀` is the ORAM before its constructor ran, over a
position map of any capacity from `2 ^ height * Z` on and with arbitrary contents. -/
theorem ids_are_screened (hc : c.Matching) (s₀ : ORAM InMemoryPositionMapAdapter)
    (hcapacity : 2 ^ c.height * c.Z ≤ s₀.map.capacity) (hstash : s₀.stash = ∅)
    (hcache : s₀.cache = ∅) {s₁ : ORAM InMemoryPositionMapAdapter}
    (hnew : new c InMemoryPositionMapAdapter.adapter true s₀ = .ok () s₁) {before : List Call}
    (hbefore : ∀ call ∈ before, call.AvoidsGap c s₀.map.capacity) {call : Call}
    (hcall : call.AvoidsGap c s₀.map.capacity) {s : ORAM InMemoryPositionMapAdapter}
    (hs : (runCatching (exec c InMemoryPositionMapAdapter.adapter) before s₁).2 = s) :
    wp (exec c InMemoryPositionMapAdapter.adapter call)
      (fun responses s' => s.Screened c (.ok responses) s')
      (fun e s' => s.Screened c (.error e) s') s := by
  have hc : c.Valid := ⟨hc, hcapacity.trans_lt s₀.map.capacity_lt⟩
  have hblocks : c.blocks ≤ s₀.map.capacity := hc.blocks_eq ▸ hcapacity
  have hpm : InMemoryPositionMapAdapter.adapter.Implements c.blocks (2 ^ (c.height - 1))
      (HoldsArray s₀.map.capacity) False := InMemoryPositionMapAdapter.implements_array hblocks
  obtain ⟨v, hfresh, hshows⟩ := (new_spec hc hpm le_rfl ⟨rfl, rfl⟩ hstash hcache).ok hnew
  -- every state of the run is sound
  obtain ⟨-, -, hsound⟩ := runCatching_spec (J := fun _ _ _ _ => True)
    (I := fun (_ : Unit) s => s.Sound c s₀.map.capacity)
    (A := fun call => call.AvoidsGap c s₀.map.capacity)
    (fun _ call s hs hcall => wp_mono (exec_screened hc hblocks hs hcall)
      (fun _ _ h => ⟨(), trivial, h.2⟩) fun _ _ h => ⟨(), trivial, h.2⟩)
    before () s₁ ⟨v, hfresh.valid hc, hshows⟩ hbefore
  rw [hs] at hsound
  exact wp_mono (exec_screened hc hblocks hsound hcall) (fun _ _ h => h.1) fun _ _ h => h.1

/-- An ORAM of two IDs over a position map of three entries, as the shorthand constructor
allocates it. The third entry is never written and happens to contain 5. -/
def withGap : ORAM InMemoryPositionMapAdapter :=
  built (Config.tiny 1 2) InMemoryPositionMapAdapter.adapter
    (unbuilt (.allocate 3 (by decide) 5) (Random.ofLeaves (Stream'.const 0)))

theorem new_withGap :
    new (Config.tiny 1 2) InMemoryPositionMapAdapter.adapter true
      (unbuilt (.allocate 3 (by decide) 5) (Random.ofLeaves (Stream'.const 0))) =
        .ok () withGap := by
  have hc := Config.tiny_valid le_rfl (by norm_num) 2
  exact new_eq_built hc (InMemoryPositionMapAdapter.implements_array (by decide : _ ≤ 3))
    le_rfl ⟨rfl, rfl⟩ rfl rfl

theorem ids_are_screened_tiny :
    wp (exec (Config.tiny 1 2) InMemoryPositionMapAdapter.adapter (.multiple [(1, []), (3, [])]))
      (fun responses s' => (runCatching (exec (Config.tiny 1 2)
        InMemoryPositionMapAdapter.adapter) [.put 0 [7], .get 3] withGap).2.Screened
          (Config.tiny 1 2) (.ok responses) s')
      (fun e s' => (runCatching (exec (Config.tiny 1 2)
        InMemoryPositionMapAdapter.adapter) [.put 0 [7], .get 3] withGap).2.Screened
          (Config.tiny 1 2) (.error e) s')
      (runCatching (exec (Config.tiny 1 2) InMemoryPositionMapAdapter.adapter)
        [.put 0 [7], .get 3] withGap).2 := by
  exact ids_are_screened (Config.tiny_matching le_rfl (by norm_num) 2)
    (unbuilt (.allocate 3 (by decide) 5) (Random.ofLeaves (Stream'.const 0))) (by decide) rfl rfl
    new_withGap (by decide) (by decide) rfl

/-- ID 2 is below the capacity of the position map and above the IDs of the ORAM: a `get` uses
the entry that was never written, and then writes it. -/
theorem gap_id_not_screened :
    ¬wp (exec (Config.tiny 1 2) InMemoryPositionMapAdapter.adapter (.get 2))
      (fun responses s' => withGap.Screened (Config.tiny 1 2) (.ok responses) s')
      (fun e s' => withGap.Screened (Config.tiny 1 2) (.error e) s') withGap := by
  -- the entry 2 is read without ever having been written
  have hfacts : (runCatching (exec (Config.tiny 1 2) InMemoryPositionMapAdapter.adapter)
        [.get 2] withGap).2.map.map 2 = some 0 ∧ withGap.map.map 2 = none ∧
      (runCatching (exec (Config.tiny 1 2) InMemoryPositionMapAdapter.adapter)
        [.get 2] withGap).2.map.reads = [(2, none)] ∧ withGap.map.reads = [] := by
    decide +kernel
  have hnot : ∀ o s', s'.map.map 2 = some 0 → s'.map.reads = [(2, none)] →
      ¬withGap.Screened (Config.tiny 1 2) o s' := by
    rintro o s' hmap hreads (⟨-, hunchanged, -⟩ | ⟨⟨reads, heq, hwritten⟩, -⟩)
    · rw [hunchanged, hfacts.2.1] at hmap
      exact absurd hmap (by decide)
    · rw [hreads, hfacts.2.2.2, List.nil_append] at heq
      obtain ⟨leaf, -, hleaf⟩ := hwritten (2, none) (heq ▸ List.mem_cons_self)
      exact absurd hleaf (by simp)
  intro h
  obtain ⟨hmap, -, hreads, -⟩ := hfacts
  cases hexec : exec (Config.tiny 1 2) InMemoryPositionMapAdapter.adapter (.get 2) withGap with
  | ok responses s' =>
    rw [runCatching_cons_ok hexec] at hmap hreads
    exact hnot _ s' hmap hreads (h.ok hexec)
  | error e s' =>
    rw [runCatching_cons_error hexec] at hmap hreads
    exact hnot _ s' hmap hreads (h.error hexec)

end ORAM

end PathORAM
