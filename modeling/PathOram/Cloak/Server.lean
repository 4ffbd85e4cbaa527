import PathOram.Cloak.Crowded
import PathOram.Cloak.Locations
import PathOram.Cloak.Restore

/-!
# A table of shares on a server

The tests `PutContainerServerORAM2` and `GetContainerServerORAM2` of `test-sss.cpp` are the life of
one server: the first stores its table of shares, 1000 tuples under each ID, and backs it up; the
second restores the ORAM and reads the table. The ORAM has the MACs of all buckets before the first
tuple is put, so it verifies all that it reads.

* `Verified` — the state has all MACs, and the view is what it would show without the verification.
* `Verified.call` — one call. The verification changes nothing, and there is room for all IDs.
* `Stocked` — the invariant between calls: the view is stocked.
* `shares_kept` — after the first test every ID returns its tuples, in whatever order and however
  often the IDs are read.
* `shares_restored` — the second test reads the table that the first one stored.

Both ask that an ID beyond the root's is `Rooted`, so that its first put leaves no stale block, and
that the stash has room for all IDs. A table of 2000 to 6000 tuples meets both (`roomy_of_le`).
-/

namespace CloakQueryPathORAM

open PathORAM Hoare HeapTree

/-- The leaves and the stash of one view, and the tree of another. -/
theorem View.Sound.graft {c : Config} {v w : View} (hv : View.Sound c v) (hw : View.Sound c w) :
    View.Sound c { v with tree := w.tree } where
  valid := ⟨hv.valid.pos, hw.valid.length, hw.valid.dummy, hw.valid.tree_id, hv.valid.stash_id,
    hv.valid.cached⟩
  ids := ⟨hw.ids.tree, hv.ids.stash⟩
  sized := hw.sized

theorem View.Carries.graft {c : Config} {P : Bytes → Prop} {v w : View} (hv : View.Carries c P v)
    (hw : View.Carries c P w) : View.Carries c P { v with tree := w.tree } :=
  ⟨hv.sound.graft hw.sound, hv.full, hw.tree, hv.stash⟩

/-! Views of the same blocks are stocked alike. -/

theorem View.Carries.of_sameBlocks {c : Config} {P : Bytes → Prop} {v v' : View}
    (hv : View.Carries c P v) (h : v.SameBlocks c.toConfig v') : View.Carries c P v' where
  sound := hv.sound.of_sameBlocks h
  full id d hd := hv.full id d ((h.stash id).symm.trans hd)
  tree b hb e he hreal := hv.tree b hb e ((h.mem_tree hb).mp he) hreal
  stash id d hd := hv.stash id d ((h.stash id).symm.trans hd)

theorem View.Stocked.of_sameBlocks {c : Config} {P : Bytes → Prop} {T : Set ℕ} {kv : Store}
    {v v' : View} (hv : View.Stocked c P T kv v) (h : v.SameBlocks c.toConfig v') :
    View.Stocked c P T kv v' where
  follows := hv.follows.of_sameBlocks h
  packed := ⟨hv.packed.toCarries.of_sameBlocks h, fun id hZ hlt =>
    (hv.packed.crowded id hZ hlt).imp (h.mem_stash id).mpr
      fun ⟨b, hb, e, he, heq⟩ => ⟨b, hb, e, (h.mem_tree hb).mpr he, heq⟩⟩
  tidy id hT hlt leaf hpos b hb e he heq :=
    hv.tidy id hT hlt leaf ((h.pos id hlt).symm.trans hpos) b hb e ((h.mem_tree hb).mp he) heq

namespace ORAMTestSSS

/-! ### The tests -/

section Code

variable {M : Type} (c : Config) (pm : AbsPositionMapAdapter M)

/-- The loop of `PutContainerServerORAM2`. -/
def putShares (secretShares : Container) (currentIndex blockID : ℕ) : OramM M Unit :=
  if hcurrent : currentIndex < secretShares.length then do
    -- The next chunk of secret shares.
    let secretSharesPerBlock :=
      (secretShares.take (min (currentIndex + 1000) secretShares.length)).drop currentIndex
    ORAM.putContainer c pm blockID secretSharesPerBlock
    putShares secretShares (currentIndex + 1000) (blockID + 1)
  else
    return
termination_by secretShares.length - currentIndex
decreasing_by omega

/-- The loop of `GetContainerServerORAM2`. `none` stands for a read behind the end of a block. -/
def getShares : List ℕ → Container → OramM M (Option Container)
  | [], retrievedShares => return some retrievedShares
  | id :: ids, retrievedShares => do
    match ← ORAM.getContainer c pm id with
    | none => return none
    | some blockShares => getShares ids (retrievedShares ++ blockShares)

end Code

/-- `PutContainerServerORAM2`, up to the backup. -/
def PutContainerServerORAM2 (c : Config) (secretShares : Container) :
    OramM InMemoryPositionMapAdapter Unit := do
  setUp secretShares.length c
  -- The MACs of the buckets as they are populated.
  ORAM.computeAndStoreAllBucketMACs c
  putShares c InMemoryPositionMapAdapter.adapter secretShares 0 0
  ORAM.syncCache c

/-- What `GetContainerServerORAM2` and `loadORAMAndShares` do: restore the ORAM, and read the IDs in
use in their order. `none` stands for a read behind the end of a file, or of a block. The second
component is the raw array of the storage afterwards. -/
def retrieve (commonSecretShareSize : ℕ) (crypto : Crypto) (hmac : Bytes → Bytes → Bytes)
    (key : Bytes) (files : Backup) (blocks : ℕ → Bytes) (map : InMemoryPositionMapAdapter)
    (r : Random) : Except Exception (Option Container) × (ℕ → Bytes) :=
  match initializeFromBackup commonSecretShareSize crypto hmac key files blocks map r with
  | .error e => (.error e, blocks)
  | .ok (c, s) =>
    match loadUsedBlockIDs files.usedBlockIDs, ORAM.loadMacMap files.macMap s.macMap with
    | some usedBlockIDs, some macMap =>
      match getShares c InMemoryPositionMapAdapter.adapter (usedBlockIDs.sort (· ≤ ·)) []
          { s with macMap := macMap } with
      | .ok retrievedShares s' => (.ok retrievedShares, s'.storage.blocks)
      | .error e s' => (.error e, s'.storage.blocks)
    | _, _ => (.ok none, s.storage.blocks)

/-- `GetContainerServerORAM2`, up to the comparison with the shares that were stored. -/
def GetContainerServerORAM2 (commonSecretShareSize : ℕ) (crypto : Crypto)
    (hmac : Bytes → Bytes → Bytes) (key : Bytes) (files : Backup) (blocks : ℕ → Bytes)
    (map : InMemoryPositionMapAdapter) (r : Random) : Except Exception (Option Container) :=
  (retrieve commonSecretShareSize crypto hmac key files blocks map r).1

/-! ### What is stored -/

section Store

variable {secretShares : Container} {id k : ℕ}

/-- The tuples that are put under an ID. -/
def tuplesOf (secretShares : Container) (id : ℕ) : Container :=
  Records.record 1000 id secretShares

theorem chunk_eq (secretShares : Container) (id : ℕ) :
    (secretShares.take (min (id * 1000 + 1000) secretShares.length)).drop (id * 1000) =
      tuplesOf secretShares id := by
  have htake : secretShares.take (min (id * 1000 + 1000) secretShares.length) =
      secretShares.take (id * 1000 + 1000) := by
    rw [← List.take_take, List.take_length]
  rw [htake, List.drop_take, Nat.add_sub_cancel_left]
  rfl

/-- The payload of a container in a block. -/
def payloadOf (container : Container) : Bytes :=
  InMemoryStashAdapter.resize BLOCK_SIZE (dataWithSize container)

/-- The store with the first `k` chunks. -/
def storeOf (secretShares : Container) (k : ℕ) : Store := fun id =>
  if id < k then some (payloadOf (tuplesOf secretShares id)) else none

theorem storeOf_zero (secretShares : Container) : storeOf secretShares 0 = Store.empty :=
  funext fun id => if_neg (Nat.not_lt_zero id)

theorem storeOf_succ (secretShares : Container) (k : ℕ) :
    (Op.write k (payloadOf (tuplesOf secretShares k))).apply (storeOf secretShares k) =
      storeOf secretShares (k + 1) := by
  funext id
  by_cases hid : id = k
  · rw [hid, Op.apply_write_self, storeOf, if_pos (Nat.lt_succ_self k)]
  · rw [Op.apply_of_ne (.write k _) hid]
    unfold storeOf
    have hiff : id < k ↔ id < k + 1 := by omega
    rw [if_congr hiff rfl rfl]

/-- **A container that fits in a block comes back from it.** -/
theorem containerOf_payloadOf {container : Container} (htuples : ∀ tuple ∈ container,
    tuple.length = 16) (hlength : container.length ≤ 1000) :
    containerOf (payloadOf container) = some container := by
  -- sixteen shares of eight bytes each
  have hsize : (serialize container).length = container.length * (16 * 8) := by
    refine Records.length_flatMap fun tuple htuple => ?_
    rw [Records.length_flatMap fun _ _ => LittleEndian.length_encode 8 _, htuples tuple htuple]
  -- at most 1000 tuples of 128 bytes, so the container and its size fit the block
  have hfits : (dataWithSize container).length ≤ BLOCK_SIZE := by
    rw [length_dataWithSize, hsize]
    unfold BLOCK_SIZE
    omega
  have hlt : (serialize container).length < 2 ^ 64 := by omega
  rw [payloadOf, InMemoryStashAdapter.resize_eq_append hfits, containerOf_append hlt,
    deserialize_serialize htuples]

theorem containerOf_payloadOf_tuplesOf (htuples : ∀ tuple ∈ secretShares, tuple.length = 16)
    (id : ℕ) : containerOf (payloadOf (tuplesOf secretShares id)) =
      some (tuplesOf secretShares id) := by
  refine containerOf_payloadOf (fun tuple htuple => ?_) (List.length_take_le _ _)
  exact htuples tuple (List.mem_of_mem_drop (List.mem_of_mem_take htuple))

/-- `getContainer` does not read behind the end of the data. -/
def Legible (data : Bytes) : Prop := ∃ container, containerOf data = some container

theorem legible_tuplesOf (htuples : ∀ tuple ∈ secretShares, tuple.length = 16) (id : ℕ) :
    Legible (payloadOf (tuplesOf secretShares id)) :=
  ⟨_, containerOf_payloadOf_tuplesOf htuples id⟩

/-- A block that was populated is read as an empty container. -/
theorem legible_populated : Legible (List.replicate BLOCK_SIZE 0) := by
  have htake : (List.replicate BLOCK_SIZE (0 : UInt8)).take 8 = List.replicate 8 0 := by
    rw [List.take_replicate]
    rfl
  have hdecode : LittleEndian.decode (List.replicate 8 0) = 0 := by decide
  unfold Legible containerOf
  rw [List.length_replicate, if_neg (by unfold BLOCK_SIZE; omega), htake, hdecode,
    if_neg (by unfold BLOCK_SIZE; omega)]
  exact ⟨_, rfl⟩

end Store

/-! ### The invariants -/

/-- The state verifies what it reads, for which it has all MACs. Without the verification it would
show the view. -/
structure Verified (c : Config) (R : (ℕ → Option ℕ) → InMemoryPositionMapAdapter → Prop) (v : View)
    (s : ORAM InMemoryPositionMapAdapter) : Prop where
  shows : ORAM.Shows c R v { s with isInitializing := true }
  verifies : s.isInitializing = false
  locations : ∀ b, b ∈ s.macMap ↔ b < 2 ^ c.height
  macs : ∀ b mac, s.macMap.lookup b = some mac → ∃ data, mac = c.hmac c.key data

/-- Between two calls: the state is verified, and its view is stocked with the store `kv`. -/
def Stocked (c : Config) (R : (ℕ → Option ℕ) → InMemoryPositionMapAdapter → Prop)
    (P : Bytes → Prop) (T : Set ℕ) (kv : Store) (s : ORAM InMemoryPositionMapAdapter) : Prop :=
  ∃ v, Verified c R v s ∧ View.Stocked c P T kv v ∧ v.cached = ∅

/-- The state is verified, and all it has to offer are payloads with the property `P`. -/
def Carrying (c : Config) (R : (ℕ → Option ℕ) → InMemoryPositionMapAdapter → Prop)
    (P : Bytes → Prop) (s : ORAM InMemoryPositionMapAdapter) : Prop :=
  ∃ v, Verified c R v s ∧ View.Carries c P v ∧ v.cached = ∅

theorem Stocked.carrying {c : Config} {R : (ℕ → Option ℕ) → InMemoryPositionMapAdapter → Prop}
    {P : Bytes → Prop} {T : Set ℕ} {kv : Store} {s : ORAM InMemoryPositionMapAdapter}
    (hs : Stocked c R P T kv s) : Carrying c R P s := by
  obtain ⟨v, hverified, hv, hcached⟩ := hs
  exact ⟨v, hverified, hv.packed.toCarries, hcached⟩

section Calls

variable {secretSharesSize : ℕ} {c : Config} {P : Bytes → Prop} {T : Set ℕ} {kv : Store} {v : View}
  {R : (ℕ → Option ℕ) → InMemoryPositionMapAdapter → Prop} {secretShares : Container}
  {s s' : ORAM InMemoryPositionMapAdapter}

theorem Verified.verifiable (hc : c.Valid) (hs : Verified c R v s) {leaf : ℕ}
    (hleaf : leaf < 2 ^ (c.height - 1)) : ORAM.Verifiable c leaf s := by
  intro b hb
  have hlt := (Config.inTree_of_mem_path hleaf hb).2
  exact ⟨(hs.locations b).mpr hlt,
    (hs.locations _).mpr (ORAM.searchBucket_lt hc.height_pos hc.height_le hlt)⟩

/-- **One call.** From the state without the verification it is an access of the protocol; with
all MACs in place the verification changes nothing, and with room for all IDs nothing overflows. -/
theorem Verified.call (hc : Configured secretSharesSize c)
    (hpm : InMemoryPositionMapAdapter.adapter.Implements c.blocks (2 ^ (c.height - 1)) R False)
    (hroom : c.blocks ≤ c.stashCapacity) (hs : Verified c R v s) (hsound : View.Sound c v) (op : Op)
    (hblock : op.block < c.blocks) {α : Type} {x : OramM InMemoryPositionMapAdapter α}
    {P : α → Bytes → Prop}
    (hspec : wp x
      (fun a t => ∃ leaf stash response v₁ v', Access c v op leaf stash response v₁ ∧
        Synced c.toConfig v₁ v' ∧ ORAM.Shows c R v' t ∧ P a response)
      (fun e _ => False ∨ e = .overCapacity c.stashCapacity ∧ ∃ leaf,
        v.pos op.block = some leaf ∧ Overflow c v op leaf) { s with isInitializing := true })
    (hverifying : ∀ (leaf : ℕ) (t : ORAM InMemoryPositionMapAdapter), leaf < 2 ^ (c.height - 1) →
      ORAM.Lenient c leaf t →
      returned (InMemoryPositionMapAdapter.adapter.get op.block) t.map = some leaf →
      MirrorsAt ORAM.verifying (ORAM.Lenient c leaf) (fun _ => True) x t)
    (hsealed : ∀ leaf, leaf < 2 ^ (c.height - 1) →
      returned (InMemoryPositionMapAdapter.adapter.get op.block) s.map = some leaf →
      wp x (fun _ s' => ORAM.Sealed c (· ∈ c.path leaf) s s') (fun _ _ => True) s) :
    wp x
      (fun a s' => ∃ leaf stash response v₁ v', Access c v op leaf stash response v₁ ∧
        Synced c.toConfig v₁ v' ∧ Verified c R v' s' ∧ P a response ∧
        s'.usedBlockIDs = s.usedBlockIDs)
      (fun _ _ => False) s := by
  obtain ⟨leaf, hleaf, hpos⟩ := hsound.valid.pos op.block hblock
  have hreturned : returned (InMemoryPositionMapAdapter.adapter.get op.block) s.map = some leaf :=
    ORAM.returned_get hpm hs.shows.pos hblock hpos
  -- The run without the verification.
  have hwithin : v.Within c.toConfig (· ∈ Finset.range c.blocks) :=
    ⟨fun b hb e he hreal => Finset.mem_range.mpr (hsound.valid.within.tree b hb e he hreal),
      fun id hid => Finset.mem_range.mpr (hsound.valid.within.stash id hid)⟩
  have hfree : ∀ leaf', v.pos op.block = some leaf' → ¬Overflow c v op leaf' := by
    intro leaf' hpos'
    refine hsound.not_overflow hwithin hblock ?_ (by rwa [Finset.card_range]) hpos'
    intro id data hwrite
    rw [hwrite] at hblock
    exact Finset.mem_range.mpr hblock
  obtain ⟨a, t, hrun, leaf', stash, response, v₁, v', haccess, hsynced, hs', hP⟩ :=
    (wp_mono hspec (fun _ _ h => h) fun e _ h => h.elim id
      fun ⟨_, leaf', hpos', hover⟩ => hfree leaf' hpos' hover).exists_ok
  -- The run with it.
  have hlenient : ORAM.Lenient c leaf { s with isInitializing := true } :=
    ⟨rfl, hs.verifiable hc.valid hleaf⟩
  have hself : ORAM.verifying { s with isInitializing := true } = s := by
    have hverifies := hs.verifies
    cases s
    cases hverifies
    rfl
  obtain ⟨-, -, hmirror⟩ := (hverifying leaf _ hleaf hlenient hreturned).ok hrun
  rw [hself] at hmirror
  have hmacs := (hsealed leaf hleaf hreturned).ok hmirror
  have hback : { ORAM.verifying t with isInitializing := true } = t := by
    have hinit := hs'.isInitializing
    cases t
    cases hinit
    rfl
  refine wp_of_ok hmirror ⟨leaf', stash, response, v₁, v', haccess, hsynced, ⟨hback.symm ▸ hs',
    rfl, fun b => ?_, fun b mac hmac => ?_⟩, hP, hmacs.used⟩
  · rw [hmacs.mem, hs.locations]
    exact or_iff_left_of_imp fun hb => (Config.inTree_of_mem_path hleaf hb).2
  · exact (hmacs.lookup b mac hmac).elim (hs.macs b mac) id

/-- **A container is put.** -/
theorem Verified.putContainer (hc : Configured secretSharesSize c)
    (hpm : InMemoryPositionMapAdapter.adapter.Implements c.blocks (2 ^ (c.height - 1)) R False)
    (hroom : c.blocks ≤ c.stashCapacity) (hs : Verified c R v s) (hsound : View.Sound c v)
    {block : ℕ} (hblock : block < c.blocks) (container : Container) :
    wp (ORAM.putContainer c InMemoryPositionMapAdapter.adapter block container)
      (fun _ s' => ∃ leaf stash response v₁ v',
        Access c v (.write block (dataWithSize container)) leaf stash response v₁ ∧
          Synced c.toConfig v₁ v' ∧ Verified c R v' s' ∧
          s'.usedBlockIDs = insert block s.usedBlockIDs) (fun _ _ => False) s := by
  have hle := hc.blocks_le
  refine wp_bind (wp_mono (hs.call hc hpm hroom hsound
    (.write block (dataWithSize container)) hblock (P := fun _ _ => True) ?_ ?_ ?_) ?_
    fun _ _ h => h)
  · refine wp_mono (ORAM.putBlock_spec hc.valid hpm le_rfl hsound hs.shows hblock (by omega) _) ?_
      fun _ _ h => h
    rintro _ t ⟨leaf, stash, response, v₁, v', haccess, hsynced, ht⟩
    exact ⟨leaf, stash, response, v₁, v', haccess, hsynced, ht, trivial⟩
  · exact fun leaf t hleaf ht hreturned =>
      ORAM.putBlock_verifying hc.valid hleaf ht hreturned (dataWithSize container)
  · exact fun leaf hleaf hreturned =>
      ORAM.putBlock_sealed hc.valid hleaf hreturned (dataWithSize container)
  · rintro _ s' ⟨leaf, stash, response, v₁, v', haccess, hsynced, hs', -, hused⟩
    -- The ID is noted; nothing else changes.
    exact wp_modify ⟨leaf, stash, response, v₁, v', haccess, hsynced,
      ⟨⟨hs'.shows.toShows, hs'.shows.isInitializing⟩, hs'.verifies, hs'.locations, hs'.macs⟩,
      congrArg (insert block) hused⟩

/-- **A container is read.** -/
theorem Verified.getContainer (hc : Configured secretSharesSize c)
    (hpm : InMemoryPositionMapAdapter.adapter.Implements c.blocks (2 ^ (c.height - 1)) R False)
    (hroom : c.blocks ≤ c.stashCapacity) (hs : Verified c R v s) (hsound : View.Sound c v)
    {block : ℕ} (hblock : block < c.blocks) :
    wp (ORAM.getContainer c InMemoryPositionMapAdapter.adapter block)
      (fun container s' => ∃ leaf stash response v₁ v',
        Access c v (.read block) leaf stash response v₁ ∧ Synced c.toConfig v₁ v' ∧
          Verified c R v' s' ∧ container = containerOf response ∧
          s'.usedBlockIDs = s.usedBlockIDs) (fun _ _ => False) s := by
  have hle := hc.blocks_le
  -- the verified call follows the unverified one: its spec, then the two frames on the MACs
  refine wp_bind (wp_mono (hs.call hc hpm hroom hsound (.read block) hblock (P := Eq)
    ?_ ?_ ?_) ?_ fun _ _ h => h)
  · refine wp_mono (ORAM.getBlock_spec hc.valid hpm le_rfl hsound hs.shows hblock (by omega)) ?_
      fun _ _ h => h
    rintro response t ⟨leaf, stash, v₁, v', haccess, hsynced, ht⟩
    exact ⟨leaf, stash, response, v₁, v', haccess, hsynced, ht, rfl⟩
  · exact fun leaf t hleaf ht hreturned => ORAM.getBlock_verifying hc.valid hleaf ht hreturned []
  · exact fun leaf hleaf hreturned => ORAM.getBlock_sealed hc.valid hleaf hreturned []
  · rintro _ s' ⟨leaf, stash, response, v₁, v', haccess, hsynced, hs', rfl, hused⟩
    exact wp_pure ⟨leaf, stash, _, v₁, v', haccess, hsynced, hs', rfl, hused⟩

/-- A stocked server that puts a container has it in its store. -/
theorem Stocked.putContainer (hc : Configured secretSharesSize c)
    (hpm : InMemoryPositionMapAdapter.adapter.Implements c.blocks (2 ^ (c.height - 1)) R False)
    (hroom : c.blocks ≤ c.stashCapacity) (hs : Stocked c R P T kv s) {block : ℕ}
    (hblock : block < c.blocks) (hT : block ∈ T) {container : Container}
    (hP : P (payloadOf container)) :
    wp (ORAM.putContainer c InMemoryPositionMapAdapter.adapter block container)
      (fun _ s' => Stocked c R P T ((Op.write block (payloadOf container)).apply kv) s' ∧
        s'.usedBlockIDs = insert block s.usedBlockIDs) (fun _ _ => False) s := by
  obtain ⟨v, hverified, hv, -⟩ := hs
  have hle := hc.blocks_le
  refine wp_mono (hverified.putContainer hc hpm hroom hv.follows.sound hblock container) ?_
    fun _ _ h => h
  rintro _ s' ⟨leaf, stash, response, v₁, v', haccess, hsynced, hs', hused⟩
  have hop : (Op.write block (dataWithSize container)).block < c.blocks := hblock
  -- the stash stores the container padded to the block size
  have hpayload : InMemoryStashAdapter.resize c.dataSize (dataWithSize container) =
      payloadOf container := by
    rw [hc.dataSize_eq]
    rfl
  have hv₁ := hv.access hc.valid (by omega) hop (hop.le.trans (by omega)) (fun _ _ _ => hT)
    (fun data hwrite => by
      obtain ⟨-, rfl⟩ := Op.write.inj hwrite
      exact hpayload.symm ▸ hP) haccess
  rw [Op.padded, hpayload] at hv₁
  exact ⟨⟨v', hs', hv₁.synced hc.valid hsynced, hsynced.cached'⟩, hused⟩

/-- It returns the container that was put last. -/
theorem Stocked.getContainer (hc : Configured secretSharesSize c)
    (hpm : InMemoryPositionMapAdapter.adapter.Implements c.blocks (2 ^ (c.height - 1)) R False)
    (hroom : c.blocks ≤ c.stashCapacity) (hs : Stocked c R P T kv s) {block : ℕ}
    (hblock : block < c.blocks) {p : Bytes} (hp : kv block = some p) :
    wp (ORAM.getContainer c InMemoryPositionMapAdapter.adapter block)
      (fun container s' => container = containerOf p ∧ Stocked c R P T kv s')
      (fun _ _ => False) s := by
  obtain ⟨v, hverified, hv, -⟩ := hs
  have hle := hc.blocks_le
  refine wp_mono (hverified.getContainer hc hpm hroom hv.follows.sound hblock) ?_ fun _ _ h => h
  rintro _ s' ⟨leaf, stash, response, v₁, v', haccess, hsynced, hs', rfl, -⟩
  have hop : (Op.read block).block < c.blocks := hblock
  have hv₁ := hv.access hc.valid (by omega) hop (hop.le.trans (by omega))
    (fun _ hwrite => by cases hwrite) (fun _ hwrite => by cases hwrite) haccess
  -- the view follows the store, so the response is the payload at the ID
  exact ⟨congrArg containerOf (hv.follows.answered hblock haccess.pos_eq hp haccess),
    v', hs', hv₁.synced hc.valid hsynced, hsynced.cached'⟩

/-- Uploading an empty cache. -/
theorem Stocked.syncCache (hc : Configured secretSharesSize c) (hs : Stocked c R P T kv s) :
    wp (ORAM.syncCache c) (fun _ s' => Stocked c R P T kv s' ∧ s'.usedBlockIDs = s.usedBlockIDs)
      (fun _ _ => False) s := by
  obtain ⟨v, hverified, hv, hcached⟩ := hs
  refine wp_zoom (wp_mono (PathORAM.ORAM.syncCache_spec hc.valid hv.follows.sound.valid
    hverified.shows.toShows) ?_ ?_)
  · rintro _ t ⟨v', hsynced, ht⟩
    exact ⟨⟨v', ⟨⟨ht, rfl⟩, hverified.verifies, hverified.locations, hverified.macs⟩,
      hv.synced hc.valid hsynced, hsynced.cached'⟩, rfl⟩
  · rintro e t ⟨v', hfailed, -⟩
    -- every block of the cache has the block size, so the upload cannot fail
    exact hv.follows.sound.not_syncFailed hfailed

end Calls

/-! ### The loops -/

section Loops

variable {secretSharesSize : ℕ} {c : Config} {P : Bytes → Prop} {T : Set ℕ}
  {R : (ℕ → Option ℕ) → InMemoryPositionMapAdapter → Prop} {secretShares : Container}
  {s : ORAM InMemoryPositionMapAdapter}

/-- The number of IDs that a table takes. -/
def containers (secretShares : Container) : ℕ := (secretShares.length + 999) / 1000

theorem lt_containers {id : ℕ} :
    id < containers secretShares ↔ id * 1000 < secretShares.length := by
  unfold containers
  omega

/-- **The loop that stores the table**, from chunk `k` on. -/
theorem putShares_spec (hc : Configured secretSharesSize c)
    (hpm : InMemoryPositionMapAdapter.adapter.Implements c.blocks (2 ^ (c.height - 1)) R False)
    (hroom : c.blocks ≤ c.stashCapacity) (hblocks : containers secretShares ≤ c.blocks)
    (hT : ∀ id < containers secretShares, id ∈ T)
    (hP : ∀ id < containers secretShares, P (payloadOf (tuplesOf secretShares id))) {k : ℕ}
    (hk : k ≤ containers secretShares)
    (hs : Stocked c R P T (storeOf secretShares k) s) (hused : s.usedBlockIDs = Finset.range k) :
    wp (putShares c InMemoryPositionMapAdapter.adapter secretShares (k * 1000) k)
      (fun _ s' => Stocked c R P T (storeOf secretShares (containers secretShares)) s' ∧
        s'.usedBlockIDs = Finset.range (containers secretShares)) (fun _ _ => False) s := by
  -- By induction on the number of chunks that are left.
  obtain ⟨left, hleft⟩ := Nat.exists_eq_add_of_le hk
  induction left generalizing k s with
  | zero =>
    have heq : k = containers secretShares := hleft.symm
    have hend : ¬k * 1000 < secretShares.length := fun hlt =>
      absurd (lt_containers.mpr hlt) (by omega)
    rw [putShares, dif_neg hend]
    exact wp_pure ⟨heq ▸ hs, heq ▸ hused⟩
  | succ left ih =>
    have hlt : k < containers secretShares := by omega
    rw [putShares, dif_pos (lt_containers.mp hlt)]
    rw [chunk_eq]
    refine wp_bind (wp_mono (hs.putContainer hc hpm hroom (by omega) (hT k hlt) (hP k hlt)) ?_
      fun _ _ h => h)
    rintro _ s' ⟨hs', hused'⟩
    rw [storeOf_succ] at hs'
    rw [hused, ← Finset.range_add_one] at hused'
    have hnext : k * 1000 + 1000 = (k + 1) * 1000 := by ring
    rw [hnext]
    exact ih hlt hs' hused' (by omega)

/-- **The loop that reads the table**, in the order of the IDs that it is given. -/
theorem getShares_spec (hc : Configured secretSharesSize c)
    (hpm : InMemoryPositionMapAdapter.adapter.Implements c.blocks (2 ^ (c.height - 1)) R False)
    (hroom : c.blocks ≤ c.stashCapacity) (hblocks : containers secretShares ≤ c.blocks)
    (htuples : ∀ tuple ∈ secretShares, tuple.length = 16) {ids : List ℕ}
    (hids : ∀ id ∈ ids, id < containers secretShares)
    (hs : Stocked c R P T (storeOf secretShares (containers secretShares)) s)
    (retrievedShares : Container) :
    wp (getShares c InMemoryPositionMapAdapter.adapter ids retrievedShares)
      (fun retrieved s' =>
        retrieved = some (retrievedShares ++ ids.flatMap (tuplesOf secretShares)) ∧
          Stocked c R P T (storeOf secretShares (containers secretShares)) s')
      (fun _ _ => False) s := by
  -- one container per ID: each get leaves the store unchanged for the rest
  induction ids generalizing s retrievedShares with
  | nil =>
    rw [List.flatMap_nil, List.append_nil]
    exact wp_pure ⟨rfl, hs⟩
  | cons id ids ih =>
    have hid := hids id List.mem_cons_self
    have hp : storeOf secretShares (containers secretShares) id =
        some (payloadOf (tuplesOf secretShares id)) := if_pos hid
    rw [getShares]
    refine wp_bind (wp_mono (hs.getContainer hc hpm hroom (by omega) hp) ?_ fun _ _ h => h)
    rintro container s' ⟨hcontainer, hs'⟩
    -- what is read back is the container that was put under the ID
    rw [containerOf_payloadOf_tuplesOf htuples] at hcontainer
    subst hcontainer
    rw [List.flatMap_cons, ← List.append_assoc]
    exact ih (fun id hid => hids id (List.mem_cons_of_mem _ hid)) hs' _

/-- **The loop returns** whatever the state is: it may not find what was put, but all that it finds
is legible. -/
theorem getShares_legible (hc : Configured secretSharesSize c)
    (hpm : InMemoryPositionMapAdapter.adapter.Implements c.blocks (2 ^ (c.height - 1)) R False)
    (hroom : c.blocks ≤ c.stashCapacity) {ids : List ℕ} (hids : ∀ id ∈ ids, id < c.blocks)
    (hs : Carrying c R Legible s) (retrievedShares : Container) :
    wp (getShares c InMemoryPositionMapAdapter.adapter ids retrievedShares)
      (fun retrieved s' => retrieved.isSome ∧ Carrying c R Legible s') (fun _ _ => False) s := by
  induction ids generalizing s retrievedShares with
  | nil => exact wp_pure ⟨rfl, hs⟩
  | cons id ids ih =>
    obtain ⟨v, hverified, hv, -⟩ := hs
    have hid := hids id List.mem_cons_self
    have hle := hc.blocks_le
    rw [getShares]
    refine wp_bind (wp_mono (hverified.getContainer hc hpm hroom hv.sound hid) ?_ fun _ _ h => h)
    rintro _ s' ⟨leaf, stash, response, v₁, v', haccess, hsynced, hs', rfl, -⟩
    have hv₁ := hv.access (Op.full_read id _) hid (hid.le.trans (by omega))
      (fun _ hwrite => by cases hwrite) haccess
    -- an ID whose block is lost is answered with no bytes, which is the empty container
    have hlegible : Legible response := by
      rcases hv.answered hid haccess with rfl | hlegible
      · exact ⟨[], rfl⟩
      · exact hlegible
    obtain ⟨container, hcontainer⟩ := hlegible
    rw [hcontainer]
    exact ih (fun id hid => hids id (List.mem_cons_of_mem _ hid))
      ⟨v', hs', hv₁.synced hc.valid hsynced, hsynced.cached'⟩ _

/-- The chunks make up the table. -/
theorem flatMap_tuplesOf (secretShares : Container) :
    (List.range (containers secretShares)).flatMap (tuplesOf secretShares) = secretShares := by
  have hflat := Records.flatMap_record 1000 (containers secretShares) secretShares
  have hall : secretShares.length ≤ containers secretShares * 1000 := by
    unfold containers
    omega
  rw [List.take_of_length_le hall] at hflat
  exact hflat

end Loops

/-! ### The first test -/

section Put

variable {secretSharesSize : ℕ} {c : Config}
  {R : (ℕ → Option ℕ) → InMemoryPositionMapAdapter → Prop} {secretShares : Container}
  {s : ORAM InMemoryPositionMapAdapter}

/-- The set-up stores no MAC and puts no container. -/
theorem keeps_setUp : Hoare.Keeps ORAM.seals (setUp secretSharesSize c) :=
  keeps_bind (keeps_new _ true) fun _ =>
    keeps_forM (fun _ => keeps_zoom (fun _ _ => rfl) _) _

/-- **The set-up with all MACs** populates a view, and leaves it verified. -/
theorem setUp_verified (hc : Configured secretSharesSize c)
    (hpos : 1 ≤ LOG_CAPACITY secretSharesSize) (hle : LOG_CAPACITY secretSharesSize ≤ 30)
    (hpm : InMemoryPositionMapAdapter.adapter.Implements c.blocks (2 ^ (c.height - 1)) R False)
    {f : ℕ → Option ℕ} (hR : R f s.map) (hs : Unbuilt secretSharesSize s) (hmacs : s.macMap = ∅) :
    wp (do
        setUp secretSharesSize c
        ORAM.computeAndStoreAllBucketMACs c)
      (fun _ s' => ∃ v, Verified c R v s' ∧ View.Populated c s.random.ulongs v ∧
        s'.usedBlockIDs = s.usedBlockIDs) (fun _ _ => False) s := by
  refine wp_bind (wp_mono (wp_and (ORAM.setUp_shows hc hpos hle hpm hR hs.stash hs.cache)
    (keeps_setUp s)) ?_ fun _ _ h => h.1)
  rintro _ s₁ ⟨⟨v, hpopulated, hs₁, hdecode⟩, hseals⟩
  obtain ⟨hmacs₁, hused₁⟩ := Prod.mk.inj hseals
  have hcache : s₁.cache = ∅ := hs₁.cache_eq_empty hpopulated.cached
  have hwalkable : ORAM.Walkable c s₁ := by
    refine ⟨hc.valid.Z_eq, ?_, fun b hb => ?_, fun b hb e he => ?_⟩
    · have hbuckets := two_pow_LOG_CAPACITY_le hpos
      rw [hc.height, hc.capacity]
      omega
    · exact AbsStorageAdapter.readable_of_decodeBucket (hdecode b hb)
    · rw [AbsStorageAdapter.content_of_decodeBucket (hdecode b hb)] at he
      rw [(length_of_mem_populatedBucket he).2, hc.valid.dataSize_eq, hc.dataSize_eq]
  refine wp_mono (wp_and (ORAM.computeAndStoreAllBucketMACs_content hc.valid.crypto_lawful
    hc.valid.height_pos (hc.height ▸ hle) hwalkable hs₁.isInitializing hcache (hmacs₁.trans hmacs))
    (ORAM.keeps_computeAndStoreAllBucketMACs s₁)) ?_ fun _ _ h => h.1
  rintro _ s₂ ⟨⟨hinit, hcache₂, hulongs, hcontent, hlookup⟩, hkept⟩
  obtain ⟨hmap, hrest⟩ := Prod.mk.inj hkept
  obtain ⟨hstash, hused⟩ := Prod.mk.inj hrest
  -- The buckets are those that were populated.
  let v' : View := { v with touched := s₂.storage.calls.map StorageCall.touch }
  have htree : ∀ b, v.tree b = AbsStorageAdapter.content c.storage c.crypto s₂.storage b := by
    intro b
    rw [hs₁.tree b, hcache, AList.lookup_empty, (hcontent b).1]
    rfl
  have hshows : ORAM.Shows c R v' { s₂ with isInitializing := true } := by
    refine ⟨⟨?_, fun b => ?_, hs₁.stash.trans hstash.symm, hs₁.coins.trans hulongs.symm,
      fun b => ?_, rfl, fun b hb => (hcontent b).2 (hs₁.readable b hb)⟩, rfl⟩
    · exact hmap.symm ▸ hs₁.pos
    · show v.tree b = (s₂.cache.lookup b).getD _
      rw [htree b, hcache₂, AList.lookup_empty]
      rfl
    · show b ∈ v.cached ↔ b ∈ s₂.cache
      rw [hpopulated.cached, hcache₂]
      exact ⟨fun h => absurd h (Finset.notMem_empty b), fun h => absurd h (AList.notMem_empty b)⟩
  refine ⟨v', ⟨hshows, hinit, fun b => ?_, fun b mac hmac => ?_⟩, ⟨hpopulated.pos,
    hpopulated.tree, hpopulated.stash, hpopulated.cached, hpopulated.coins⟩, hused.trans hused₁⟩
  · rw [← AList.lookup_isSome, hlookup b]
    split
    next hb => exact iff_of_true rfl hb
    next hb => exact iff_of_false (by simp) hb
  · rw [hlookup b] at hmac
    split at hmac
    · exact ⟨_, (Option.some.inj hmac).symm⟩
    · cases hmac

/-- The table needs no more IDs than there are. -/
theorem containers_le (hc : Configured secretShares.length c)
    (hle : LOG_CAPACITY secretShares.length ≤ 30) : containers secretShares ≤ c.blocks := by
  have hbuckets : totalBuckets secretShares.length ≤ 2 ^ LOG_CAPACITY secretShares.length :=
    Nat.le_pow_clog one_lt_two _
  rw [hc.blocks_eq hle, CAPACITY_eq hle]
  unfold totalBuckets totalBlocks Z at hbuckets
  unfold containers Z
  omega

/-- **The first test** leaves a server that is stocked with the table. -/
theorem PutContainerServerORAM2_spec (hc : Configured secretShares.length c)
    (hpos : 1 ≤ LOG_CAPACITY secretShares.length) (hle : LOG_CAPACITY secretShares.length ≤ 30)
    (hpm : InMemoryPositionMapAdapter.adapter.Implements c.blocks (2 ^ (c.height - 1)) R False)
    (hroom : c.blocks ≤ c.stashCapacity) {f : ℕ → Option ℕ} (hR : R f s.map)
    (hs : Unbuilt secretShares.length s) (hmacs : s.macMap = ∅) (hused : s.usedBlockIDs = ∅)
    (hrooted : ∀ id < containers secretShares, id ∈ Rooted c s.random.ulongs)
    (htuples : ∀ tuple ∈ secretShares, tuple.length = 16) :
    wp (PutContainerServerORAM2 c secretShares)
      (fun _ s' => Stocked c R Legible (Rooted c s.random.ulongs)
          (storeOf secretShares (containers secretShares)) s' ∧
        s'.usedBlockIDs = Finset.range (containers secretShares)) (fun _ _ => False) s := by
  have hsetUp := setUp_verified hc hpos hle hpm hR hs hmacs
  unfold PutContainerServerORAM2
  rw [← bind_assoc]
  refine wp_bind (wp_mono hsetUp ?_ fun _ _ h => h)
  rintro _ s₁ ⟨v, hverified, hpopulated, hused₁⟩
  -- after the set-up the ORAM holds no table yet
  have hs₁ : Stocked c R Legible (Rooted c s.random.ulongs) (storeOf secretShares 0) s₁ := by
    rw [storeOf_zero]
    exact ⟨v, hverified, hpopulated.stocked hc legible_populated, hpopulated.cached⟩
  -- then one put per container
  have hputs := putShares_spec hc hpm hroom (containers_le hc hle) hrooted
    (fun id _ => legible_tuplesOf htuples id) (Nat.zero_le _) hs₁
    (hused₁.trans (hused.trans Finset.range_zero.symm))
  rw [Nat.zero_mul] at hputs
  refine wp_bind (wp_mono hputs ?_ fun _ _ h => h)
  rintro _ s₂ ⟨hs₂, hused₂⟩
  -- and the upload of the cache, which keeps the store
  refine wp_mono (hs₂.syncCache hc) ?_ fun _ _ h => h
  rintro _ s₃ ⟨hs₃, hused₃⟩
  exact ⟨hs₃, hused₃.trans hused₂⟩

/-- **Tables of 2000 to 6000 tuples** leave room in the stash for all IDs. -/
theorem roomy_of_le {n : ℕ} (h : 2000 ≤ n) (h' : n ≤ 6000) :
    1 ≤ LOG_CAPACITY n ∧ LOG_CAPACITY n ≤ 2 ∧ CAPACITY n * Z ≤ totalBlocks n + 10 := by
  obtain ⟨q, hq⟩ : ∃ q, n / 1000 = q := ⟨_, rfl⟩
  have hlow : 2 ≤ q := by omega
  have hhigh : q ≤ 6 := by omega
  unfold CAPACITY LOG_CAPACITY totalBuckets totalBlocks
  rw [hq]
  interval_cases q <;> decide

/-- Their IDs are those of bucket 0 and of the root. -/
theorem rooted_of_le (hc : Configured secretSharesSize c) {n : ℕ} (h : n ≤ 6000)
    {coins : Stream' ℕ} {id : ℕ} (hid : id * 1000 < n) : id ∈ Rooted c coins := by
  refine mem_Rooted_of_lt hc.valid ?_
  rw [hc.Z_eq]
  unfold Z
  omega

/-- **The table is kept.** After the first test every ID that was used returns its tuples, in
whatever order and however often the IDs are read. The containers are put under rooted IDs, whose
populated blocks lie on the path that the position map names first. -/
theorem shares_kept {crypto : Crypto} {hmac : Bytes → Bytes → Bytes} {key : Bytes} {r : Random}
    (hcrypto : crypto.Lawful) (htuples : ∀ tuple ∈ secretShares, tuple.length = 16)
    (hpos : 1 ≤ LOG_CAPACITY secretShares.length) (hle : LOG_CAPACITY secretShares.length ≤ 30)
    (hc : config secretShares.length crypto hmac key r = .ok c)
    (hroom : CAPACITY secretShares.length * Z ≤ totalBlocks secretShares.length + 10)
    (hs : Unbuilt secretShares.length s) (hmacs : s.macMap = ∅) (hused : s.usedBlockIDs = ∅)
    (hrooted : ∀ id, id * 1000 < secretShares.length → id ∈ Rooted c s.random.ulongs) :
    ∃ s', PutContainerServerORAM2 c secretShares s = .ok () s' ∧
      s'.usedBlockIDs = Finset.range (containers secretShares) ∧
      ∀ ids : List ℕ, (∀ id ∈ ids, id < containers secretShares) →
        ∃ s'', getShares c InMemoryPositionMapAdapter.adapter ids [] s' =
          .ok (some (ids.flatMap (tuplesOf secretShares))) s'' := by
  have hconfigured := config_spec hcrypto hpos hle hc
  -- every block fits the stash at once, so no call can overflow it
  have hstash : c.blocks ≤ c.stashCapacity := by
    rw [hconfigured.blocks_eq hle, hconfigured.stashCapacity]
    exact hroom
  have hpm := InMemoryPositionMapAdapter.implements c.blocks (2 ^ (c.height - 1))
  obtain ⟨_, s', hrun, hs', hused'⟩ := (PutContainerServerORAM2_spec hconfigured hpos hle hpm hstash
    (f := s.map.map) ⟨rfl, hs.blocks_le hconfigured⟩ hs hmacs hused
    (fun id hid => hrooted id (lt_containers.mp hid)) htuples).exists_ok
  refine ⟨s', hrun, hused', fun ids hids => ?_⟩
  obtain ⟨_, s'', hget, rfl, -⟩ := (getShares_spec hconfigured hpm hstash
    (containers_le hconfigured hle) htuples hids hs' []).exists_ok
  exact ⟨s'', hget⟩

/-- 2000 tuples of sixteen values 7. -/
def sevens : Container := List.replicate 2000 (List.replicate 16 7)

theorem length_sevens : sevens.length = 2000 := List.length_replicate

theorem length_of_mem_sevens (tuple : List (BitVec 64)) (h : tuple ∈ sevens) :
    tuple.length = 16 := by
  rw [List.eq_of_mem_replicate h]
  rfl

theorem twelve_lt_two_pow : 12 < 2 ^ 64 := by norm_num

/-- A server before its construction. All leaves that it draws are 0. -/
def freshServer : ORAM InMemoryPositionMapAdapter :=
  .unbuilt (.allocate 12 twelve_lt_two_pow 0) (Random.ofLeaves (Stream'.const 0))

theorem unbuilt_freshServer : Unbuilt sevens.length freshServer := by
  rw [length_sevens]
  exact unbuilt_allocate twelve_lt_two_pow rfl _

/-- The second chunk, the first one, and the second one again. -/
theorem shares_kept_sevens :
    ∃ c s' s'', config sevens.length .none digest drawnKey (Random.ofLeaves (Stream'.const 0)) =
        .ok c ∧
      PutContainerServerORAM2 c sevens freshServer = .ok () s' ∧
      getShares c InMemoryPositionMapAdapter.adapter [1, 0, 1] [] s' =
        .ok (some ([1, 0, 1].flatMap (tuplesOf sevens))) s'' := by
  obtain ⟨hpos, hle, hroom⟩ := roomy_of_le length_sevens.ge (by rw [length_sevens]; norm_num)
  have hlawful : Crypto.none.Lawful := fun h => absurd rfl h
  obtain ⟨c, hc⟩ := config_ok sevens.length .none digest drawnKey
    (Random.ofLeaves (Stream'.const 0))
  have hconfigured := config_spec hlawful hpos (by omega) hc
  obtain ⟨s', hrun, -, hget⟩ := shares_kept hlawful length_of_mem_sevens hpos (by omega) hc hroom
    unbuilt_freshServer rfl rfl fun id hid => rooted_of_le hconfigured
      (by rw [length_sevens]; norm_num) hid
  obtain ⟨s'', hget⟩ := hget [1, 0, 1] fun id hid => by
    rw [lt_containers, length_sevens]
    simp only [List.mem_cons, List.not_mem_nil, or_false] at hid
    omega
  exact ⟨c, s', s'', hc, hrun, hget⟩

end Put

/-! ### The second test -/

section Get

variable {secretSharesSize capacity : ℕ} {crypto : Crypto} {hmac : Bytes → Bytes → Bytes}
  {key : Bytes} {r : Random} {c : Config} {v w : View} {secretShares : Container}
  {s : ORAM InMemoryPositionMapAdapter} {files : Backup}

/-- A verified state is `Restorable` if the keys are the same and its stash file is not too long. -/
theorem Verified.restorable (hc : Configured secretSharesSize c)
    (hs : Verified c (Allocated c.blocks capacity) v s) (hsound : View.Sound c v)
    (hfull : View.Full c v) (hkey : c.key = c.storage.key)
    (hused : ∀ id ∈ s.usedBlockIDs, id < c.blocks) (hsize : c.blocks * (8 + BLOCK_SIZE) < 2 ^ 31) :
    Restorable c s := by
  have hpayloads : ∀ entry ∈ s.stash.toList, entry.2.length = BLOCK_SIZE := by
    intro entry he
    rw [← hc.dataSize_eq]
    refine hfull entry.1 entry.2 ?_
    rw [hs.shows.stash]
    exact UnorderedMap.mem_toList.mp he
  refine ⟨hkey, hpayloads, ?_, fun id hid leaf hleaf => ?_⟩
  -- The stash has no more entries than there are IDs.
  · have hsub : (s.stash.toList.map Prod.fst).toFinset ⊆ Finset.range c.blocks := by
      intro id hid
      obtain ⟨e, he, rfl⟩ := List.mem_map.mp (List.mem_toFinset.mp hid)
      have hmem : e.1 ∈ v.stash := by
        rw [hs.shows.stash]
        exact mem_of_lookup (UnorderedMap.mem_toList.mp he)
      exact Finset.mem_range.mpr (hsound.valid.stash_id e.1 hmem)
    have hcard := Finset.card_le_card hsub
    rw [List.toFinset_card_of_nodup (UnorderedMap.nodup_keys_toList s.stash), List.length_map,
      Finset.card_range] at hcard
    exact (Nat.mul_le_mul_right _ hcard).trans_lt hsize
  · obtain ⟨leaf', hlt, hpos⟩ := hsound.valid.pos id (hused id hid)
    have hreturned := ORAM.returned_get
      (implements_allocated c.blocks (2 ^ (c.height - 1)) capacity) hs.shows.pos (hused id hid) hpos
    obtain rfl : leaf' = leaf := Option.some.inj (hreturned.symm.trans hleaf)
    exact hs.verifiable hc.valid hlt

/-- The files of one state and the storage of another one are those of a third. -/
theorem Verified.graft {R R' : (ℕ → Option ℕ) → InMemoryPositionMapAdapter → Prop}
    {t : ORAM InMemoryPositionMapAdapter} (hs : Verified c R v s) (hv : v.cached = ∅)
    (ht : Verified c R' w t) (hw : w.cached = ∅) :
    Verified c R { v with tree := w.tree }
      { s with storage := { s.storage with blocks := t.storage.blocks } } := by
  -- both caches are empty, so the buckets are those of the storage
  have hcache : s.cache = ∅ := hs.shows.cache_eq_empty hv
  have hcache' : t.cache = ∅ := ht.shows.cache_eq_empty hw
  refine ⟨⟨⟨hs.shows.pos, fun b => ?_, hs.shows.stash, hs.shows.coins, hs.shows.cached,
    hs.shows.touched, fun b hb => (ht.shows.readable b hb).congr rfl⟩, rfl⟩, hs.verifies,
    hs.locations, hs.macs⟩
  show w.tree b = (s.cache.lookup b).getD _
  rw [ht.shows.tree b, hcache, AList.lookup_empty]
  show (t.cache.lookup b).getD _ = _
  rw [hcache', AList.lookup_empty]
  exact AbsStorageAdapter.content_congr rfl

/-- **What is built of the files of a verified server** has its blocks. -/
theorem Verified.of_files (hc : Configured secretSharesSize c)
    (hs : Verified c (Allocated c.blocks capacity) v s) (hcached : v.cached = ∅)
    (hsound : View.Sound c v) (hr : Restorable c s) (hsaved : Saved c s files)
    {macMap : UnorderedMap Bytes} (hlookup : ∀ b, macMap.lookup b = s.macMap.lookup b)
    {map : InMemoryPositionMapAdapter} (hmap : map.capacity = capacity) (r : Random) :
    ∃ v', Verified c (InMemoryPositionMapAdapter.Holds c.blocks) v'
        { ORAM.verifying (loaded files s.storage.blocks map r) with macMap := macMap } ∧
      v.SameBlocks c.toConfig v' := by
  -- the files give back map, stash and buckets; the MACs come from `macMap`
  have hsame := hsaved.sameContent hc.valid hs.shows.toShows hcached hsound hr hmap r
  obtain ⟨v', hs', hblocks⟩ := hsame.exists_shows
    { hs.shows.toShows with pos := hs.shows.pos.1 } hcached
  refine ⟨v', ⟨⟨⟨hs'.pos, hs'.tree, hs'.stash, hs'.coins, hs'.cached, hs'.touched, hs'.readable⟩,
    rfl⟩, rfl, fun b => ?_, fun b mac hmac => ?_⟩, hblocks⟩
  · rw [← hs.locations b, ← AList.lookup_isSome, ← AList.lookup_isSome]
    exact iff_of_eq (congrArg (fun mac : Option Bytes => mac.isSome = true) (hlookup b))
  · exact hs.macs b mac ((hlookup b).symm.trans hmac)

/-- **A server is restored**, if the storage has the key that is saved. The storage may have been
used since: what is built has the leaves and the stash that were saved, and the tree of now. -/
theorem Verified.restored (hc : Configured secretSharesSize c)
    (hconfig : config secretSharesSize crypto hmac key r = .ok c) (hkey : c.key = c.storage.key)
    (hhmac : ∀ data, (hmac key data).length < 2 ^ 64) (hsize : c.blocks * (8 + BLOCK_SIZE) < 2 ^ 31)
    (hs : Verified c (Allocated c.blocks capacity) v s) (hcached : v.cached = ∅)
    (hsound : View.Sound c v) (hfull : View.Full c v)
    (hused : ∀ id ∈ s.usedBlockIDs, id < c.blocks) (r₁ : Random) :
    ∃ files, backupGenerator c s r₁ = .ok files ∧
      loadUsedBlockIDs files.usedBlockIDs = some s.usedBlockIDs ∧
      ∀ {R : (ℕ → Option ℕ) → InMemoryPositionMapAdapter → Prop} {w : View}
        {t : ORAM InMemoryPositionMapAdapter}, Verified c R w t → w.cached = ∅ → View.Sound c w →
      ∀ (map : InMemoryPositionMapAdapter) (r₂ : Random), map.capacity = capacity → ∃ s' macMap v',
        initializeFromBackup secretSharesSize crypto hmac key files t.storage.blocks map r₂ =
          .ok (c, s') ∧
        ORAM.loadMacMap files.macMap s'.macMap = some macMap ∧
        Verified c (InMemoryPositionMapAdapter.Holds c.blocks) v' { s' with macMap := macMap } ∧
        View.SameBlocks c.toConfig { v with tree := w.tree } v' := by
  have hr := hs.restorable hc hsound hfull hkey hused hsize
  have hblocks := hc.blocks_le
  obtain ⟨heq, -⟩ := config_eq hconfig
  obtain rfl : c.crypto = crypto := congrArg (fun c : Config => c.crypto) heq
  obtain rfl : c.hmac = hmac := congrArg Config.hmac heq
  obtain rfl : c.key = key := congrArg Config.key heq
  -- The files are written.
  have huniform : InMemoryStashAdapter.Uniform s.stash BLOCK_SIZE := fun id d hd =>
    hr.payloads (id, d) (UnorderedMap.mem_toList.mpr hd)
  obtain ⟨files, hfiles⟩ := exists_backup (c := c) huniform r₁
  have hsaved := backupGenerator_ok hfiles
  obtain ⟨macMap, hmacMap, hlookup⟩ :=
    hsaved.loadMacMap hc (fun b hb => (hs.locations b).mp hb) hs.macs hhmac
  have hcard : s.usedBlockIDs.card ≤ c.blocks := by
    rw [← Finset.card_range c.blocks]
    exact Finset.card_le_card fun id hid => Finset.mem_range.mpr (hused id hid)
  refine ⟨files, hfiles, hsaved.loadUsedBlockIDs (fun id hid => ?_) (by omega),
    fun ht hw hsound' map r₂ hmap => ?_⟩
  · have := hused id hid
    omega
  -- They are read again, over the storage of the other state.
  · have hgraft := hs.graft hcached ht hw
    have hsound₁ := hsound.graft hsound'
    have hr₁ := hgraft.restorable hc hsound₁ hfull hkey hused hsize
    obtain ⟨v', hv', hblocks'⟩ := hgraft.of_files hc hcached hsound₁ hr₁
      ⟨hsaved.usedBlockIDs, hsaved.key, hsaved.positionMap, hsaved.stash, hsaved.macMap⟩ hlookup
      hmap r₂
    refine ⟨ORAM.verifying (loaded files _ map r₂), macMap, v', ?_, hmacMap, hv', hblocks'⟩
    rw [initializeFromBackup_eq (hsaved.storage_eq hconfig hkey r₂), configOver_self hconfig]

/-- **The restored server is read.** If all IDs that were in use are read without an exception
from whatever is restored, that is what `retrieve` does. -/
theorem retrieve_eq {blocks : ℕ → Bytes} {map : InMemoryPositionMapAdapter}
    {usedBlockIDs : Finset ℕ} {s' t : ORAM InMemoryPositionMapAdapter} {macMap : UnorderedMap Bytes}
    {retrieved : Option Container}
    (hbuilt : initializeFromBackup secretSharesSize crypto hmac key files blocks map r =
      .ok (c, s'))
    (hloaded : loadUsedBlockIDs files.usedBlockIDs = some usedBlockIDs)
    (hmacMap : ORAM.loadMacMap files.macMap s'.macMap = some macMap)
    (hget : getShares c InMemoryPositionMapAdapter.adapter (usedBlockIDs.sort (· ≤ ·)) []
      { s' with macMap := macMap } = .ok retrieved t) :
    retrieve secretSharesSize crypto hmac key files blocks map r =
      (.ok retrieved, t.storage.blocks) := by
  unfold retrieve
  rw [hbuilt]
  simp only [hloaded, hmacMap, hget]

/-- What the two tests ask of the table, the adapters and the keys. -/
structure Storable (secretShares : Container) (crypto : Crypto) (hmac : Bytes → Bytes → Bytes)
    (key : Bytes) (r : Random) (c : Config) (s : ORAM InMemoryPositionMapAdapter) : Prop where
  lawful : crypto.Lawful
  digests : ∀ data, (hmac key data).length < 2 ^ 64
  tuples : ∀ tuple ∈ secretShares, tuple.length = 16
  pos : 1 ≤ LOG_CAPACITY secretShares.length
  le : LOG_CAPACITY secretShares.length ≤ 12
  configured_eq : config secretShares.length crypto hmac key r = .ok c
  /-- The storage has the key that is saved. -/
  key_eq : c.key = c.storage.key
  /-- The stash has room for all IDs. -/
  room : CAPACITY secretShares.length * Z ≤ totalBlocks secretShares.length + 10
  unbuilt : Unbuilt secretShares.length s
  macMap : s.macMap = ∅
  usedBlockIDs : s.usedBlockIDs = ∅
  rooted : ∀ id, id * 1000 < secretShares.length → id ∈ Rooted c s.random.ulongs

namespace Storable

variable (h : Storable secretShares crypto hmac key r c s)

include h

theorem configured : Configured secretShares.length c :=
  config_spec h.lawful h.pos (by have := h.le; omega) h.configured_eq

theorem containers_le : containers secretShares ≤ c.blocks :=
  ORAMTestSSS.containers_le h.configured (by have := h.le; omega)

theorem blocks_le : c.blocks ≤ c.stashCapacity := by
  have hle := h.le
  rw [h.configured.blocks_eq (by omega), h.configured.stashCapacity]
  exact h.room

theorem stash_lt : c.blocks * (8 + BLOCK_SIZE) < 2 ^ 31 := by
  have hle := h.le
  have hsmall : 2 ^ LOG_CAPACITY secretShares.length ≤ 2 ^ 12 :=
    Nat.pow_le_pow_right Nat.two_pos hle
  rw [h.configured.blocks_eq (by omega), CAPACITY_eq (by omega)]
  unfold BLOCK_SIZE Z
  omega

/-- **The first test stores the table**, and its backup is written. A storage that was used since
can be put in the place of its own. -/
theorem stored (r₁ : Random) : ∃ s' v files, PutContainerServerORAM2 c secretShares s = .ok () s' ∧
    backupGenerator c s' r₁ = .ok files ∧
    loadUsedBlockIDs files.usedBlockIDs = some (Finset.range (containers secretShares)) ∧
    Verified c (Allocated c.blocks (totalBlocks secretShares.length * Z + Z)) v s' ∧
    View.Stocked c Legible (Rooted c s.random.ulongs)
      (storeOf secretShares (containers secretShares)) v ∧ v.cached = ∅ ∧
    ∀ {R : (ℕ → Option ℕ) → InMemoryPositionMapAdapter → Prop} {w : View}
      {t : ORAM InMemoryPositionMapAdapter}, Verified c R w t → w.cached = ∅ → View.Sound c w →
    ∀ (map : InMemoryPositionMapAdapter) (r₂ : Random),
      map.capacity = totalBlocks secretShares.length * Z + Z → ∃ t' macMap v',
      initializeFromBackup secretShares.length crypto hmac key files t.storage.blocks map r₂ =
        .ok (c, t') ∧
      ORAM.loadMacMap files.macMap t'.macMap = some macMap ∧
      Verified c (InMemoryPositionMapAdapter.Holds c.blocks) v' { t' with macMap := macMap } ∧
      View.SameBlocks c.toConfig { v with tree := w.tree } v' := by
  have hconfigured := h.configured
  have hcontainers := h.containers_le
  have hle := h.le
  obtain ⟨_, s', hrun, ⟨v, hverified, hv, hcached⟩, hused'⟩ :=
    (PutContainerServerORAM2_spec hconfigured h.pos (by omega)
      (implements_allocated c.blocks (2 ^ (c.height - 1)) (totalBlocks secretShares.length * Z + Z))
      h.blocks_le (f := s.map.map) ⟨⟨rfl, h.unbuilt.blocks_le hconfigured⟩, h.unbuilt.capacity⟩
      h.unbuilt h.macMap h.usedBlockIDs (fun id hid => h.rooted id (lt_containers.mp hid))
      h.tuples).exists_ok
  -- the used IDs are the containers, all of them blocks of the ORAM
  have hids : ∀ id ∈ s'.usedBlockIDs, id < c.blocks := by
    intro id hid
    rw [hused'] at hid
    exact (Finset.mem_range.mp hid).trans_le hcontainers
  obtain ⟨files, hfiles, hloaded, hrestored⟩ := hverified.restored hconfigured h.configured_eq
    h.key_eq h.digests h.stash_lt hcached hv.follows.sound hv.follows.full hids r₁
  exact ⟨s', v, files, hrun, hfiles, hused' ▸ hloaded, hverified, hv, hcached, hrestored⟩

end Storable

/-- A server that is restored and shows the blocks of the table returns them. -/
theorem Storable.retrieve_table (h : Storable secretShares crypto hmac key r c s)
    {blocks : ℕ → Bytes} {map : InMemoryPositionMapAdapter} {r₂ : Random}
    {t : ORAM InMemoryPositionMapAdapter} {macMap : UnorderedMap Bytes} {T : Set ℕ}
    (hbuilt : initializeFromBackup secretShares.length crypto hmac key files blocks map r₂ =
      .ok (c, t))
    (hloaded : loadUsedBlockIDs files.usedBlockIDs = some (Finset.range (containers secretShares)))
    (hmacMap : ORAM.loadMacMap files.macMap t.macMap = some macMap)
    (hs : Stocked c (InMemoryPositionMapAdapter.Holds c.blocks) Legible T
      (storeOf secretShares (containers secretShares)) { t with macMap := macMap }) :
    ∃ t', retrieve secretShares.length crypto hmac key files blocks map r₂ =
        (.ok (some secretShares), t'.storage.blocks) ∧
      Stocked c (InMemoryPositionMapAdapter.Holds c.blocks) Legible T
        (storeOf secretShares (containers secretShares)) t' := by
  -- The IDs are read in their order.
  have hids : ∀ id ∈ (Finset.range (containers secretShares)).sort (· ≤ ·),
      id < containers secretShares := fun id hid =>
    Finset.mem_range.mp ((Finset.mem_sort _).mp hid)
  obtain ⟨_, t', hget, rfl, ht'⟩ := (getShares_spec h.configured
    (InMemoryPositionMapAdapter.implements c.blocks (2 ^ (c.height - 1))) h.blocks_le
    h.containers_le h.tuples hids hs []).exists_ok
  refine ⟨t', ?_, ht'⟩
  rw [retrieve_eq hbuilt hloaded hmacMap hget, Finset.sort_range, List.nil_append,
    flatMap_tuplesOf]

/-- **The table is restored.** The second test reads from the files what the first one stored: the
position map, the stash, the used IDs and the keys come from the files, the buckets from the
storage that outlived the first test. -/
theorem shares_restored (h : Storable secretShares crypto hmac key r c s) (r₁ : Random) :
    ∃ s' files, PutContainerServerORAM2 c secretShares s = .ok () s' ∧
      backupGenerator c s' r₁ = .ok files ∧ ∀ (map : InMemoryPositionMapAdapter) (r₂ : Random),
        map.capacity = totalBlocks secretShares.length * Z + Z →
        GetContainerServerORAM2 secretShares.length crypto hmac key files s'.storage.blocks map r₂ =
          .ok (some secretShares) := by
  obtain ⟨s', v, files, hrun, hfiles, hloaded, hverified, hv, hcached, hrestored⟩ := h.stored r₁
  refine ⟨s', files, hrun, hfiles, fun map r₂ hmap => ?_⟩
  -- the restored ORAM stands on the buckets that were uploaded
  obtain ⟨t, macMap, v', hbuilt, hmacMap, hv', hblocks⟩ :=
    hrestored hverified hcached hv.follows.sound map r₂ hmap
  obtain ⟨t', hretrieve, -⟩ := h.retrieve_table hbuilt hloaded hmacMap
    ⟨v', hv', hv.of_sameBlocks hblocks, hblocks.cached⟩
  unfold GetContainerServerORAM2
  rw [hretrieve]

theorem storable_sevens {c : Config}
    (hc : config sevens.length .none digest drawnKey (Random.ofLeaves (Stream'.const 0)) = .ok c) :
    Storable sevens .none digest drawnKey (Random.ofLeaves (Stream'.const 0)) c freshServer := by
  obtain ⟨hpos, hle, hroom⟩ := roomy_of_le length_sevens.ge (by rw [length_sevens]; norm_num)
  have hlawful : Crypto.none.Lawful := fun h => absurd rfl h
  have hconfigured := config_spec hlawful hpos (by omega) hc
  have hkey : c.key = c.storage.key := by
    obtain ⟨heq, hstorage⟩ := config_eq hc
    rw [StorageConfig.key_of_new (Random.length_getRandomBlock _ _) hstorage, heq]
    rfl
  exact ⟨hlawful, length_digest_lt drawnKey, length_of_mem_sevens, hpos, by omega, hc, hkey, hroom,
    unbuilt_freshServer, rfl, rfl, fun id hid => rooted_of_le hconfigured
      (by rw [length_sevens]; norm_num) hid⟩

/-- The key of the MACs is that of the storage. -/
theorem shares_restored_sevens :
    ∃ c s' files, config sevens.length .none digest drawnKey (Random.ofLeaves (Stream'.const 0)) =
        .ok c ∧
      PutContainerServerORAM2 c sevens freshServer = .ok () s' ∧
      backupGenerator c s' (Random.ofLeaves (Stream'.const 0)) = .ok files ∧
      GetContainerServerORAM2 sevens.length .none digest drawnKey files s'.storage.blocks
        (.allocate 12 twelve_lt_two_pow 0) (Random.ofLeaves (Stream'.const 0)) =
          .ok (some sevens) := by
  obtain ⟨c, hc⟩ := config_ok sevens.length .none digest drawnKey
    (Random.ofLeaves (Stream'.const 0))
  obtain ⟨s', files, hrun, hfiles, hget⟩ :=
    shares_restored (storable_sevens hc) (Random.ofLeaves (Stream'.const 0))
  refine ⟨c, s', files, hc, hrun, hfiles, hget _ _ ?_⟩
  rw [length_sevens]
  rfl

end Get

end ORAMTestSSS

end CloakQueryPathORAM
