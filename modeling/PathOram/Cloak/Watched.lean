import PathOram.Cloak.Server
import PathOram.Obliviousness

/-!
# What the storage of a server learns

A server answers by putting and reading containers. The storage is not trusted: it sees which
buckets are asked for. A server that verifies what it reads asks for no more than one that does
not, so each call shows the path of one leaf, whatever the container is.

* `Watched` — the invariant between calls: the view is packed, and the leaf of every ID is a
  draw of its own.
* `ContainerCall.run_watched` — one call shows the path of the draw of its ID.
* `server_oblivious` — two sequences of `n` calls produce a trace for the same number of tapes.
-/

namespace CloakQueryPathORAM

open PathORAM Hoare HeapTree

namespace ORAMTestSSS

/-! ### Calls and their traces -/

namespace ContainerCall

variable {M : Type} (c : Config) (pm : AbsPositionMapAdapter M)

/-- What a call asks the storage adapter for. -/
def touches (call : ContainerCall) (s : ORAM M) : List Touch :=
  ((runCatching (run c pm) [call] s).2.storage.calls.drop s.storage.calls.length).map
    StorageCall.touch

/-- The trace of a run: what each call reads and writes. A call that throws does not end it. -/
def trace : List ContainerCall → ORAM M → List (Finset ℕ × Finset ℕ)
  | [], _ => []
  | call :: calls, s =>
    pattern (touches c pm call s) :: trace calls (runCatching (run c pm) [call] s).2

end ContainerCall

/-! ### Runs -/

section Runs

variable {secretSharesSize : ℕ} {c : Config} {v : View}
  {R : (ℕ → Option ℕ) → InMemoryPositionMapAdapter → Prop} {coins : Stream' ℕ} {σ : ℕ → ℕ} {k : ℕ}
  {s : ORAM InMemoryPositionMapAdapter}

/-- Between two calls: the state is verified, its view is packed with nothing cached, and its leaves
are draws. -/
def Watched (c : Config) (R : (ℕ → Option ℕ) → InMemoryPositionMapAdapter → Prop)
    (coins : Stream' ℕ) (σ : ℕ → ℕ) (k : ℕ) (s : ORAM InMemoryPositionMapAdapter) : Prop :=
  ∃ v, Verified c R v s ∧ View.Packed c (fun _ => True) v ∧ v.Drawn c.toConfig coins σ k ∧
    v.cached = ∅

/-- **A call is an access**, with the verification as without it. -/
theorem ContainerCall.run_spec (hc : Configured secretSharesSize c)
    (hpm : InMemoryPositionMapAdapter.adapter.Implements c.blocks (2 ^ (c.height - 1)) R False)
    (hroom : c.blocks ≤ c.stashCapacity) (hs : Verified c R v s) (hsound : View.Sound c v)
    {call : ContainerCall} (hblock : call.block < c.blocks) :
    wp (call.run c InMemoryPositionMapAdapter.adapter)
      (fun _ s' => ∃ op leaf stash response v₁ v', op.block = call.block ∧
        Access c v op leaf stash response v₁ ∧ Synced c.toConfig v₁ v' ∧ Verified c R v' s')
      (fun _ _ => False) s := by
  cases call with
  | put block container =>
    refine wp_mono (hs.putContainer hc hpm hroom hsound hblock container) ?_ fun _ _ h => h
    rintro _ s' ⟨leaf, stash, response, v₁, v', haccess, hsynced, hs', -⟩
    exact ⟨_, leaf, stash, response, v₁, v', rfl, haccess, hsynced, hs'⟩
  | get block =>
    refine wp_map (wp_mono (hs.getContainer hc hpm hroom hsound hblock) ?_ fun _ _ h => h)
    rintro _ s' ⟨leaf, stash, response, v₁, v', haccess, hsynced, hs', -, -⟩
    exact ⟨_, leaf, stash, response, v₁, v', rfl, haccess, hsynced, hs'⟩

/-- **What a call shows** is the path of the draw of its ID, which is drawn again. -/
theorem ContainerCall.run_watched (hc : Configured secretSharesSize c)
    (hpm : InMemoryPositionMapAdapter.adapter.Implements c.blocks (2 ^ (c.height - 1)) R False)
    (hroom : c.blocks ≤ c.stashCapacity) (hs : Watched c R coins σ k s) {call : ContainerCall}
    (hblock : call.block < c.blocks) :
    pattern (call.touches c InMemoryPositionMapAdapter.adapter s) =
        c.toConfig.visit (c.toConfig.leafAt coins (σ call.block)) ∧
      Watched c R coins (Function.update σ call.block k) (k + 1)
        (runCatching (run c InMemoryPositionMapAdapter.adapter) [call] s).2 := by
  obtain ⟨v, hverified, hv, hdrawn, hcached⟩ := hs
  have hle := hc.blocks_le
  obtain ⟨_, s', hrun, op, leaf, stash, response, v₁, v', hop, haccess, hsynced, hs'⟩ :=
    (run_spec hc hpm hroom hverified hv.sound hblock).exists_ok
  have hafter : (runCatching (run c InMemoryPositionMapAdapter.adapter) [call] s).2 = s' := by
    rw [runCatching_cons_ok hrun]
    rfl
  rw [← hop] at hblock ⊢
  -- In a packed view the access is one of the protocol, of the operation that is padded.
  obtain ⟨hbase, -, -⟩ := hv.base hc.valid hblock haccess
  have hpadded : (Op.padded c op).block = op.block := Op.block_padded
  obtain ⟨hdrawn', hcached', new, htouched, hpattern⟩ :=
    hdrawn.visited hcached (hpadded.trans_lt hblock) hbase hsynced
  rw [hpadded] at hdrawn' hpattern
  -- The new calls of the storage are what the view records.
  have htouches : call.touches c InMemoryPositionMapAdapter.adapter s = new := by
    have hbefore : v.touched = s.storage.calls.map StorageCall.touch := hverified.shows.touched
    have hlength : s.storage.calls.length = v.touched.length := by
      rw [hbefore, List.length_map]
    have hnow : v'.touched = s'.storage.calls.map StorageCall.touch := hs'.shows.touched
    rw [touches, hafter, List.map_drop, ← hnow, htouched, hlength, List.drop_left]
  rw [htouches, hafter]
  have hv₁ := hv.access hc.valid (by omega) hblock (by omega) (fun _ _ => trivial) haccess
  exact ⟨hpattern, v', hs', hv₁.synced hc.valid hsynced, hdrawn', hcached'⟩

/-- **The trace of a run** is the list of the paths of the draws that are revealed. -/
theorem ContainerCall.trace_eq (hc : Configured secretSharesSize c)
    (hpm : InMemoryPositionMapAdapter.adapter.Implements c.blocks (2 ^ (c.height - 1)) R False)
    (hroom : c.blocks ≤ c.stashCapacity) {calls : List ContainerCall}
    (hcalls : ∀ call ∈ calls, call.block < c.blocks) (hs : Watched c R coins σ k s) :
    trace c InMemoryPositionMapAdapter.adapter calls s =
      (Tape.reveal σ k (calls.map block)).map fun draw =>
        c.toConfig.visit (c.toConfig.leafAt coins draw) := by
  induction calls generalizing s σ k with
  | nil => rfl
  | cons call calls ih =>
    obtain ⟨hpattern, hs'⟩ :=
      run_watched hc hpm hroom hs (hcalls call List.mem_cons_self)
    rw [trace, hpattern, List.map_cons, Tape.reveal, List.map_cons,
      ih (fun call' h => hcalls call' (List.mem_cons_of_mem _ h)) hs']

end Runs

/-! ### Tapes -/

section Tapes

variable {secretSharesSize n : ℕ} {crypto : Crypto} {hmac : Bytes → Bytes → Bytes} {key : Bytes}
  {r : Random} {c : Config} {τ : c.toConfig.Tape n} {s : ORAM InMemoryPositionMapAdapter}

/-- `s` is a server after its set-up, whose leaf draws are those of the tape. What is drawn for
other purposes, and what the storage held before, is arbitrary. -/
def Draws (secretSharesSize : ℕ) (c : Config) (τ : c.toConfig.Tape n)
    (s : ORAM InMemoryPositionMapAdapter) : Prop :=
  ∃ s₀, Unbuilt secretSharesSize s₀ ∧ s₀.macMap = ∅ ∧
    (do
      setUp secretSharesSize c
      ORAM.computeAndStoreAllBucketMACs c) s₀ = .ok () s ∧
    ∀ i : Fin (c.blocks + n), c.toConfig.leafAt s₀.random.ulongs i = τ i

/-- A server is watched after its set-up. -/
theorem Draws.watched (hc : Configured secretSharesSize c)
    (hpos : 1 ≤ LOG_CAPACITY secretSharesSize) (hle : LOG_CAPACITY secretSharesSize ≤ 30)
    (hs : Draws secretSharesSize c τ s) :
    ∃ coins, Watched c (InMemoryPositionMapAdapter.Holds c.blocks) coins id c.blocks s ∧
      ∀ i : Fin (c.blocks + n), c.toConfig.leafAt coins i = τ i := by
  obtain ⟨s₀, hunbuilt, hmacs, hrun, hdraws⟩ := hs
  have hpm := InMemoryPositionMapAdapter.implements c.blocks (2 ^ (c.height - 1))
  obtain ⟨v, hverified, hpopulated, -⟩ :=
    (setUp_verified (f := s₀.map.map) hc hpos hle hpm ⟨rfl, hunbuilt.blocks_le hc⟩ hunbuilt
      hmacs).ok hrun
  exact ⟨s₀.random.ulongs, ⟨v, hverified, (hpopulated.stocked hc trivial).packed,
    ⟨hpopulated.pos, hpopulated.coins⟩, hpopulated.cached⟩, hdraws⟩

/-- The trace of some calls, as a function of the values in some cells of the tape. -/
theorem Draws.trace_eq (hc : Configured secretSharesSize c)
    (hpos : 1 ≤ LOG_CAPACITY secretSharesSize) (hle : LOG_CAPACITY secretSharesSize ≤ 30)
    (hroom : c.blocks ≤ c.stashCapacity) {calls : List ContainerCall}
    (hcalls : ∀ call ∈ calls, call.block < c.blocks) {cells : List (Fin (c.blocks + n))}
    (hcells : cells.map Fin.val = Tape.reveal id c.blocks (calls.map ContainerCall.block))
    (hs : Draws secretSharesSize c τ s) :
    ContainerCall.trace c InMemoryPositionMapAdapter.adapter calls s =
      (cells.map τ).map fun leaf => c.toConfig.visit leaf.val := by
  obtain ⟨coins, hwatched, hdraws⟩ := hs.watched hc hpos hle
  have hpm := InMemoryPositionMapAdapter.implements c.blocks (2 ^ (c.height - 1))
  calc ContainerCall.trace c InMemoryPositionMapAdapter.adapter calls s
      = (Tape.reveal id c.blocks (calls.map ContainerCall.block)).map fun draw =>
          c.toConfig.visit (c.toConfig.leafAt coins draw) :=
        ContainerCall.trace_eq hc hpm hroom hcalls hwatched
    _ = cells.map fun cell => c.toConfig.visit (c.toConfig.leafAt coins cell.val) := by
        rw [← hcells, List.map_map]
        rfl
    _ = (cells.map τ).map fun leaf => c.toConfig.visit leaf.val := by
        rw [List.map_map]
        refine List.map_congr_left fun cell _ => ?_
        show _ = c.toConfig.visit (τ cell).val
        rw [hdraws]

/-- **A server is oblivious.** Two sequences of `n` calls produce a trace for the same number of
tapes, whatever IDs and containers they are about. `start τ` and `start' τ` are servers after their
set-up with the leaf draws `τ`; whatever else is random is arbitrary, in each of them. -/
theorem server_oblivious (hcrypto : crypto.Lawful) (hpos : 1 ≤ LOG_CAPACITY secretSharesSize)
    (hle : LOG_CAPACITY secretSharesSize ≤ 30)
    (hc : config secretSharesSize crypto hmac key r = .ok c)
    (hroom : CAPACITY secretSharesSize * Z ≤ totalBlocks secretSharesSize + 10)
    {calls calls' : List ContainerCall} (hlength : calls.length = n)
    (hlength' : calls'.length = n) (hcalls : ∀ call ∈ calls, call.block < c.blocks)
    (hcalls' : ∀ call ∈ calls', call.block < c.blocks)
    {start start' : c.toConfig.Tape n → ORAM InMemoryPositionMapAdapter}
    (hstart : ∀ τ, Draws secretSharesSize c τ (start τ))
    (hstart' : ∀ τ, Draws secretSharesSize c τ (start' τ)) (t : List (Finset ℕ × Finset ℕ)) :
    Tape.count (fun τ =>
        ContainerCall.trace c InMemoryPositionMapAdapter.adapter calls (start τ) = t) =
      Tape.count (fun τ =>
        ContainerCall.trace c InMemoryPositionMapAdapter.adapter calls' (start' τ) = t) := by
  have hconfigured := config_spec hcrypto hpos hle hc
  have hstash : c.blocks ≤ c.stashCapacity := by
    rw [hconfigured.blocks_eq hle, hconfigured.stashCapacity]
    exact hroom
  have hids : ∀ calls : List ContainerCall, (∀ call ∈ calls, call.block < c.blocks) →
      ∀ id ∈ calls.map ContainerCall.block, id < c.blocks := by
    intro calls hcalls id hid
    obtain ⟨call, hcall, rfl⟩ := List.mem_map.mp hid
    exact hcalls call hcall
  obtain ⟨cells, hcells, hnodup, hcount⟩ :=
    PathORAM.Config.exists_cells (hids calls hcalls) ((List.length_map _).trans hlength)
  obtain ⟨cells', hcells', hnodup', hcount'⟩ :=
    PathORAM.Config.exists_cells (hids calls' hcalls') ((List.length_map _).trans hlength')
  calc Tape.count (fun τ =>
        ContainerCall.trace c InMemoryPositionMapAdapter.adapter calls (start τ) = t)
      = Tape.count (fun τ : c.toConfig.Tape n =>
          (cells.map τ).map (fun leaf => c.toConfig.visit leaf.val) = t) :=
        Tape.count_congr fun τ => by
          rw [(hstart τ).trace_eq hconfigured hpos hle hstash hcalls hcells]
    _ = Tape.count (fun τ : c.toConfig.Tape n =>
          (cells'.map τ).map (fun leaf => c.toConfig.visit leaf.val) = t) :=
        Tape.count_map_eq (P := fun w : List (Fin (2 ^ (c.height - 1))) =>
          w.map (fun leaf => c.toConfig.visit leaf.val) = t) hnodup hnodup'
          (hcount.trans hcount'.symm)
    _ = Tape.count (fun τ =>
        ContainerCall.trace c InMemoryPositionMapAdapter.adapter calls' (start' τ) = t) :=
        Tape.count_congr fun τ => by
          rw [(hstart' τ).trace_eq hconfigured hpos hle hstash hcalls' hcells']

/-- There is a server for every tape. -/
theorem exists_draws (hc : Configured 2000 c) (τ : c.toConfig.Tape n) :
    ∃ s, Draws 2000 c τ s := by
  obtain ⟨hpos, hle, -⟩ := roomy_of_le (le_refl 2000) (by norm_num)
  let s₀ : ORAM InMemoryPositionMapAdapter :=
    .unbuilt (.allocate 12 twelve_lt_two_pow 0) (Random.ofTape τ)
  have hunbuilt : Unbuilt 2000 s₀ := unbuilt_allocate twelve_lt_two_pow rfl _
  have hpm := InMemoryPositionMapAdapter.implements c.blocks (2 ^ (c.height - 1))
  obtain ⟨_, s, hrun, -⟩ := (setUp_verified (f := s₀.map.map) hc hpos (by omega) hpm
    ⟨rfl, hunbuilt.blocks_le hc⟩ hunbuilt rfl).exists_ok
  -- the draws of the set-up are those of the tape
  refine ⟨s, s₀, hunbuilt, rfl, hrun, fun i => ?_⟩
  show (if h : i.val < _ then (τ ⟨i.val, h⟩).val else 0) % _ = (τ i).val
  rw [dif_pos i.isLt]
  exact Nat.mod_eq_of_lt (τ i).isLt

/-- A container that is put and read again, and two reads of another one. -/
theorem server_oblivious_sevens : ∃ c, ∃ start : c.toConfig.Tape 2 → _,
    config 2000 .none digest drawnKey (Random.ofLeaves (Stream'.const 0)) = .ok c ∧
      (∀ τ, Draws 2000 c τ (start τ)) ∧ ∀ t,
      Tape.count (fun τ => ContainerCall.trace c InMemoryPositionMapAdapter.adapter
          [ContainerCall.put 0 (tuplesOf sevens 0), .get 0] (start τ) = t) =
        Tape.count (fun τ => ContainerCall.trace c InMemoryPositionMapAdapter.adapter
          [.get 1, .get 1] (start τ) = t) := by
  obtain ⟨hpos, hle, hroom⟩ := roomy_of_le (le_refl 2000) (by norm_num)
  have hlawful : Crypto.none.Lawful := fun h => absurd rfl h
  obtain ⟨c, hc⟩ := config_ok 2000 .none digest drawnKey (Random.ofLeaves (Stream'.const 0))
  have hconfigured := config_spec hlawful hpos (by omega) hc
  have hblocks : 2 < c.blocks := by
    rw [hconfigured.valid.blocks_eq, hconfigured.Z_eq]
    have hbuckets : 0 < 2 ^ c.height := Nat.two_pow_pos _
    unfold Z
    omega
  have hsome : ∀ call ∈ [ContainerCall.put 0 (tuplesOf sevens 0), .get 0],
      call.block < c.blocks := by
    intro call hcall
    rcases List.mem_cons.mp hcall with rfl | hcall
    · exact (by omega : 0 < c.blocks)
    · rw [List.mem_singleton.mp hcall]
      exact (by omega : 0 < c.blocks)
  have hothers : ∀ call ∈ [ContainerCall.get 1, .get 1], call.block < c.blocks := by
    intro call hcall
    rw [List.eq_of_mem_replicate (n := 2) hcall]
    exact (by omega : 1 < c.blocks)
  choose start hstart using exists_draws (n := 2) hconfigured
  exact ⟨c, start, hc, hstart, fun t => server_oblivious hlawful hpos (by omega) hc hroom
    (by rfl) (by rfl) hsome hothers hstart hstart t⟩

end Tapes

end ORAMTestSSS

end CloakQueryPathORAM
