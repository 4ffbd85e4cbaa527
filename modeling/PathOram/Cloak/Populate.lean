import PathOram.Agreement
import PathOram.Backends
import PathOram.Cloak.Store
import PathOram.Failure
import Mathlib.Data.Nat.Log

/-!
# Populated storage

The fixture of `test-sss.cpp` builds an ORAM for one server (`initialize`) and fills its
buckets with blocks behind its back (`populateStorage`): bucket `i` holds the IDs from
`i * Z` on, wherever the position map has them. So a block may lie off the path of its
leaf, and a put of its ID leaves it there as a stale copy, which a later access may take
for the block that was put.

* `View.Populated` — the view after both.
* `View.Follows` — the invariant: whatever was put is as `View.Tracks` says, or pinned to
  the stash if the conversion to `int` changes its ID. Nothing is said about other IDs.
* `populated_run_follows` — it holds in every run that puts no ID for the first time while
  one of its blocks is off its path.
* `stale_block_returned` — a run that does so.
-/

namespace CloakQueryPathORAM

open PathORAM Hoare HeapTree AbsStorageAdapter

namespace ORAMTestSSS

/-- Number of blocks per bucket. -/
def Z : ℕ := 3

def BLOCK_SIZE : ℕ := 140800

/-- Number of requests to process at a time. -/
def BATCH_SIZE : ℕ := 10

def totalBlocks (secretSharesSize : ℕ) : ℕ := secretSharesSize / 1000 + 1

def totalBuckets (secretSharesSize : ℕ) : ℕ := totalBlocks secretSharesSize / Z + 1

/-- `ceil(log2(totalBuckets))`, with the logarithm taken exactly. -/
def LOG_CAPACITY (secretSharesSize : ℕ) : ℕ := Nat.clog 2 (totalBuckets secretSharesSize)

def CAPACITY (secretSharesSize : ℕ) : ℕ := intShl (LOG_CAPACITY secretSharesSize)

/-- The const members that `initialize` sets, given the static members. The key of the
storage is drawn. -/
def config (secretSharesSize : ℕ) (crypto : Crypto) (hmac : Bytes → Bytes → Bytes)
    (key : Bytes) (r : Random) : Except Exception Config := do
  let (KEY, r) := r.getRandomBlock KEYSIZE
  let storage ← StorageConfig.new (totalBlocks secretSharesSize + 10) BLOCK_SIZE KEY Z 0 r
  return {
    dataSize := BLOCK_SIZE
    Z := Z
    height := LOG_CAPACITY secretSharesSize
    batchSize := BATCH_SIZE
    storage := storage
    stashCapacity := totalBlocks secretSharesSize + 10
    crypto := crypto
    hmac := hmac
    key := key }

/-- The const members that the fixture sets, given the storage adapter. -/
def configOver (secretSharesSize : ℕ) (crypto : Crypto) (hmac : Bytes → Bytes → Bytes)
    (key : Bytes) (storage : StorageConfig) : Config where
  dataSize := BLOCK_SIZE
  Z := Z
  height := LOG_CAPACITY secretSharesSize
  batchSize := BATCH_SIZE
  storage := storage
  stashCapacity := totalBlocks secretSharesSize + 10
  crypto := crypto
  hmac := hmac
  key := key

/-- The bucket that `populateStorage` writes to a location. -/
def populatedBucket (i : ℕ) : Bucket :=
  (List.range Z).map (fun j => ((i * Z + j) % 2 ^ 64, List.replicate BLOCK_SIZE 0))

/-- Write real IDs directly to the storage. -/
def populateStorage {M : Type} (secretSharesSize : ℕ) (c : Config) : OramM M Unit :=
  (List.range ((CAPACITY secretSharesSize + Z) % 2 ^ 64)).forM fun i =>
    zoom ORAM.baseLens (PathORAM.ORAM.storageSet
      (AbsStorageAdapter.set c.storage c.crypto [(i, populatedBucket i)]) (fun _ s => s))

/-- The set-up of a test: the constructor of the ORAM and `populateStorage`. -/
def setUp (secretSharesSize : ℕ) (c : Config) : OramM InMemoryPositionMapAdapter Unit := do
  ORAM.new c InMemoryPositionMapAdapter.adapter true
  populateStorage secretSharesSize c

/-- The adapters as `initialize` hands them to the constructor of the ORAM. -/
structure Unbuilt (secretSharesSize : ℕ) (s : ORAM InMemoryPositionMapAdapter) : Prop where
  capacity : s.map.capacity = totalBlocks secretSharesSize * Z + Z
  stash : s.stash = ∅
  cache : s.cache = ∅

section Sizes

variable {secretSharesSize : ℕ}

/-- The tree has at most as many buckets as there are blocks to be stored. -/
theorem two_pow_LOG_CAPACITY_le (h : 1 ≤ LOG_CAPACITY secretSharesSize) :
    2 ^ LOG_CAPACITY secretSharesSize ≤ totalBlocks secretSharesSize := by
  -- Half of them are fewer than `totalBuckets`.
  have hhalf : 2 ^ (LOG_CAPACITY secretSharesSize - 1) < totalBuckets secretSharesSize :=
    Nat.pow_lt_of_lt_clog (Nat.sub_one_lt_of_le h le_rfl)
  have htwice : 2 ^ LOG_CAPACITY secretSharesSize =
      2 ^ (LOG_CAPACITY secretSharesSize - 1) * 2 := by
    rw [← pow_succ, Nat.sub_add_cancel h]
  have hbuckets : totalBuckets secretSharesSize = totalBlocks secretSharesSize / 3 + 1 := rfl
  omega

theorem CAPACITY_eq (h : LOG_CAPACITY secretSharesSize ≤ 30) :
    CAPACITY secretSharesSize = 2 ^ LOG_CAPACITY secretSharesSize :=
  intShl_eq (Nat.lt_succ_of_le h)

end Sizes

section Config

variable {secretSharesSize : ℕ} {crypto : Crypto} {hmac : Bytes → Bytes → Bytes} {key : Bytes}
  {r : Random} {c : Config}

/-- What is used of the members that `initialize` sets. -/
structure Configured (secretSharesSize : ℕ) (c : Config) : Prop where
  valid : c.Valid
  height : c.height = LOG_CAPACITY secretSharesSize
  Z_eq : c.Z = Z
  dataSize_eq : c.dataSize = BLOCK_SIZE
  capacity : c.storage.capacity = totalBlocks secretSharesSize + 10
  stashCapacity : c.stashCapacity = totalBlocks secretSharesSize + 10
  blocks_le : c.blocks ≤ 3 * 2 ^ 30

/-- The parameters of the storage suit the adapter, whatever the key. -/
theorem exists_storage (secretSharesSize : ℕ) (KEY : Bytes) (r : Random) : ∃ storage,
    StorageConfig.new (totalBlocks secretSharesSize + 10) BLOCK_SIZE KEY Z 0 r = .ok storage := by
  have hsmall : ¬BLOCK_SIZE < 2 * AES_BLOCK_SIZE := by decide
  have hmod : ¬BLOCK_SIZE % AES_BLOCK_SIZE ≠ 0 := by decide
  have hZ : ¬Z = 0 := by decide
  unfold StorageConfig.new
  simp only [dif_neg hsmall, dif_neg hmod, dif_neg hZ]
  exact ⟨_, rfl⟩

/-- The members of the fixture suit the adapters. -/
theorem config_ok (secretSharesSize : ℕ) (crypto : Crypto) (hmac : Bytes → Bytes → Bytes)
    (key : Bytes) (r : Random) : ∃ c, config secretSharesSize crypto hmac key r = .ok c := by
  obtain ⟨storage, hstorage⟩ :=
    exists_storage secretSharesSize (r.getRandomBlock KEYSIZE).1 (r.getRandomBlock KEYSIZE).2
  unfold config
  simp only [hstorage]
  exact ⟨_, rfl⟩

/-- What `initialize` sets it sets over a storage adapter with these parameters. -/
theorem config_eq (hc : config secretSharesSize crypto hmac key r = .ok c) :
    c = configOver secretSharesSize crypto hmac key c.storage ∧
      StorageConfig.new (totalBlocks secretSharesSize + 10) BLOCK_SIZE
        (r.getRandomBlock KEYSIZE).1 Z 0 (r.getRandomBlock KEYSIZE).2 = .ok c.storage := by
  obtain ⟨storage, hstorage⟩ :=
    exists_storage secretSharesSize (r.getRandomBlock KEYSIZE).1 (r.getRandomBlock KEYSIZE).2
  unfold config at hc
  simp only [hstorage] at hc
  cases hc
  exact ⟨rfl, hstorage⟩

/-- Over such an adapter the members are as they are used. -/
theorem configured_configOver (hcrypto : crypto.Lawful) (hpos : 1 ≤ LOG_CAPACITY secretSharesSize)
    (hle : LOG_CAPACITY secretSharesSize ≤ 30) {storage : StorageConfig} {KEY : Bytes}
    (hnew : StorageConfig.new (totalBlocks secretSharesSize + 10) BLOCK_SIZE KEY Z 0 r =
      .ok storage) :
    Configured secretSharesSize (configOver secretSharesSize crypto hmac key storage) := by
  obtain ⟨hcapacity, hsize, hZ, -⟩ := StorageConfig.of_new hnew
  have hroom := two_pow_LOG_CAPACITY_le hpos
  have htwo : 2 ^ LOG_CAPACITY secretSharesSize ≤ 2 ^ 30 :=
    Nat.pow_le_pow_right Nat.two_pos hle
  -- three blocks a bucket, in at most `2 ^ 30` buckets
  have hblocks : 2 ^ LOG_CAPACITY secretSharesSize * Z ≤ 3 * 2 ^ 30 := by
    rw [mul_comm]
    exact Nat.mul_le_mul_left 3 htwo
  refine ⟨⟨⟨hpos, hle.trans (by norm_num), hZ, hsize, ?_, hcrypto⟩, ?_⟩, rfl, rfl, rfl, hcapacity,
    rfl, (Nat.mod_le _ _).trans hblocks⟩
  -- the tree fits into the storage, with ten locations left
  · show 2 ^ LOG_CAPACITY secretSharesSize ≤ storage.capacity
    rw [hcapacity]
    exact hroom.trans (Nat.le_add_right _ 10)
  · exact hblocks.trans_lt (by norm_num)

theorem config_spec (hcrypto : crypto.Lawful) (hpos : 1 ≤ LOG_CAPACITY secretSharesSize)
    (hle : LOG_CAPACITY secretSharesSize ≤ 30)
    (hc : config secretSharesSize crypto hmac key r = .ok c) : Configured secretSharesSize c := by
  obtain ⟨heq, hnew⟩ := config_eq hc
  rw [heq]
  exact configured_configOver hcrypto hpos hle hnew

/-- The IDs in range. -/
theorem Configured.blocks_eq (hc : Configured secretSharesSize c)
    (hle : LOG_CAPACITY secretSharesSize ≤ 30) : c.blocks = CAPACITY secretSharesSize * Z := by
  rw [hc.valid.blocks_eq, hc.height, hc.Z_eq, CAPACITY_eq hle]

/-- The position map has room for them. -/
theorem Unbuilt.blocks_le {s : ORAM InMemoryPositionMapAdapter} (hs : Unbuilt secretSharesSize s)
    (hc : Configured secretSharesSize c) : c.blocks ≤ s.map.capacity := by
  have hpos : 1 ≤ LOG_CAPACITY secretSharesSize := hc.height ▸ hc.valid.height_pos
  rw [hs.capacity, hc.valid.blocks_eq, hc.height, hc.Z_eq]
  exact (Nat.mul_le_mul_right Z (two_pow_LOG_CAPACITY_le hpos)).trans (Nat.le_add_right _ _)

end Config

end ORAMTestSSS

open ORAMTestSSS

/-! ### The set-up -/

/-- All buckets hold real IDs with zeros. The rest is as after the construction. -/
structure View.Populated (c : Config) (coins : Stream' ℕ) (v : View) : Prop where
  pos : ∀ id < c.blocks, v.pos id = some (coins.get id % 2 ^ (c.height - 1))
  tree : ∀ b, InTree c.height b → v.tree b = populatedBucket b
  stash : v.stash = ∅
  cached : v.cached = ∅
  coins : v.coins = coins.drop c.blocks

theorem mem_populatedBucket {b : ℕ} {e : Block} (hb : b < 2 ^ 62) :
    e ∈ populatedBucket b ↔ ∃ j < Z, e = (b * Z + j, List.replicate BLOCK_SIZE 0) := by
  -- the IDs are products in 64 bits, which do not overflow here
  have hmod : ∀ j < Z, (b * Z + j) % 2 ^ 64 = b * Z + j := fun j hj => by
    refine Nat.mod_eq_of_lt ?_
    unfold Z at *
    omega
  unfold populatedBucket
  rw [List.mem_map]
  constructor
  · rintro ⟨j, hj, rfl⟩
    exact ⟨j, List.mem_range.mp hj, by rw [hmod j (List.mem_range.mp hj)]⟩
  · rintro ⟨j, hj, rfl⟩
    exact ⟨j, List.mem_range.mpr hj, by rw [hmod j hj]⟩

theorem length_populatedBucket (b : ℕ) : (populatedBucket b).length = Z := by
  rw [populatedBucket, List.length_map, List.length_range]

theorem length_of_mem_populatedBucket {b : ℕ} {e : Block} (he : e ∈ populatedBucket b) :
    e.1 < 2 ^ 64 ∧ e.2.length = BLOCK_SIZE := by
  obtain ⟨j, -, rfl⟩ := List.mem_map.mp he
  exact ⟨Nat.mod_lt _ (Nat.two_pow_pos 64), List.length_replicate⟩

namespace ORAM

section SetUp

variable {secretSharesSize : ℕ} {c : Config} {M : Type}

/-- The storage of `s'` is that of `s` with some buckets populated. -/
structure Populates (c : Config) (s s' : ORAM M) : Prop where
  rest : ∃ storage random, random.ulongs = s.random.ulongs ∧
    s' = { s with storage := storage, random := random }
  decode : ∀ b, decodeBucket c.storage c.crypto (s'.storage.blocks b) =
      decodeBucket c.storage c.crypto (s.storage.blocks b) ∨
    decodeBucket c.storage c.crypto (s'.storage.blocks b) = .ok (populatedBucket b)

theorem Populates.refl (s : ORAM M) : Populates c s s :=
  ⟨⟨s.storage, s.random, rfl, rfl⟩, fun _ => .inl rfl⟩

theorem Populates.trans {s s' s'' : ORAM M} (h : Populates c s s') (h' : Populates c s' s'') :
    Populates c s s'' := by
  obtain ⟨⟨storage, random, hulongs, rfl⟩, hdecode⟩ := h
  obtain ⟨⟨storage', random', hulongs', rfl⟩, hdecode'⟩ := h'
  refine ⟨⟨storage', random', hulongs'.trans hulongs, rfl⟩, fun b => ?_⟩
  rcases hdecode' b with heq | hok
  · exact (hdecode b).imp heq.trans heq.trans
  · exact .inr hok

/-- One pass of the loop of `populateStorage`. The bucket that is written is read back as it is,
since its three blocks are full, and every other location is as it was. -/
theorem populateBucket_spec (hc : Configured secretSharesSize c) {i : ℕ}
    (hi : i < c.storage.capacity) (s : ORAM M) :
    wp (zoom baseLens (PathORAM.ORAM.storageSet
        (AbsStorageAdapter.set c.storage c.crypto [(i, populatedBucket i)]) (fun _ s => s)))
      (fun _ s' => decodeBucket c.storage c.crypto (s'.storage.blocks i) =
        .ok (populatedBucket i) ∧ Populates c s s') (fun _ _ => False) s := by
  have hsize : ∀ e ∈ populatedBucket i, e.2.length = c.storage.userBlockSize := fun e he => by
    rw [hc.valid.dataSize_eq, hc.dataSize_eq]
    exact (length_of_mem_populatedBucket he).2
  have hids : ∀ request ∈ [(i, populatedBucket i)], ∀ e ∈ request.2, e.1 < 2 ^ 64 :=
    fun request hrequest e he => by
      rw [List.mem_singleton.mp hrequest] at he
      exact (length_of_mem_populatedBucket he).1
  -- the adapter takes a bucket of three full blocks
  obtain ⟨hok, hulongs, hstored⟩ := set_accepted (c := c.storage) hc.valid.crypto_lawful hids
    (fun request hrequest => by
      rw [List.mem_singleton.mp hrequest]
      refine ⟨hi, ?_, fun e he => (hsize e he).le⟩
      rw [length_populatedBucket, hc.valid.Z_eq, hc.Z_eq]) s.storage s.random
  have hwritten := hstored.written (List.nodup_singleton i) (i, populatedBucket i)
    (List.mem_singleton_self _)
  rw [padded_eq_self hsize] at hwritten
  refine wp_zoom (PathORAM.ORAM.wp_storageSet (fun _ => ?_) fun e he => ?_)
  -- no other location is touched
  · refine ⟨hwritten, ⟨_, _, hulongs, rfl⟩, fun b => ?_⟩
    by_cases hb : b = i
    · rw [hb]
      exact .inr hwritten
    · refine .inl (congrArg _ (hstored.other b ?_))
      rwa [List.map_singleton, List.mem_singleton]
  · have hno := hok.symm.trans he
    cases hno

theorem populateStorage_spec (hc : Configured secretSharesSize c)
    (hpos : 1 ≤ LOG_CAPACITY secretSharesSize) (hle : LOG_CAPACITY secretSharesSize ≤ 30)
    (s : ORAM M) :
    wp (populateStorage secretSharesSize c)
      (fun _ s' => (∀ b < 2 ^ c.height,
        decodeBucket c.storage c.crypto (s'.storage.blocks b) = .ok (populatedBucket b)) ∧
        Populates c s s') (fun _ _ => False) s := by
  have hroom := two_pow_LOG_CAPACITY_le hpos
  have htwo : 2 ^ LOG_CAPACITY secretSharesSize ≤ 2 ^ 30 := Nat.pow_le_pow_right Nat.two_pos hle
  have hbound : (CAPACITY secretSharesSize + Z) % 2 ^ 64 =
      2 ^ LOG_CAPACITY secretSharesSize + 3 := by
    rw [CAPACITY_eq hle]
    refine Nat.mod_eq_of_lt ?_
    unfold Z
    omega
  have hcapacity := hc.capacity
  unfold populateStorage
  rw [hbound]
  refine wp_mono (wp_forM (fun rest s' => ∃ done,
    List.range (2 ^ LOG_CAPACITY secretSharesSize + 3) = done ++ rest ∧
      (∀ b ∈ done, decodeBucket c.storage c.crypto (s'.storage.blocks b) =
        .ok (populatedBucket b)) ∧ Populates c s s') ?_ _ _
    ⟨[], rfl, fun b hb => absurd hb List.not_mem_nil, Populates.refl s⟩) ?_ fun _ _ h => h
  · rintro i rest s' ⟨done, hrange, hdone, hs'⟩
    have hi : i < 2 ^ LOG_CAPACITY secretSharesSize + 3 := by
      rw [← List.mem_range, hrange]
      exact List.mem_append_right done List.mem_cons_self
    refine wp_mono (populateBucket_spec hc (by omega) s') ?_ fun _ _ h => h
    rintro _ s'' ⟨hwritten, hs''⟩
    refine ⟨done ++ [i], by rw [hrange, List.append_assoc]; rfl, fun b hb => ?_, hs'.trans hs''⟩
    rcases List.mem_append.mp hb with hb | hb
    -- What was written stays as it is, or is written again.
    · rcases hs''.decode b with heq | hok
      · exact heq.trans (hdone b hb)
      · exact hok
    · rw [List.mem_singleton.mp hb]
      exact hwritten
  · rintro _ s' ⟨done, hrange, hdone, hs'⟩
    refine ⟨fun b hb => hdone b ?_, hs'⟩
    rw [List.append_nil] at hrange
    rw [← hrange, List.mem_range]
    rw [hc.height] at hb
    omega

/-- **The set-up leaves a populated view**, whatever is known of the position map: the constructor
leaves an ORAM without blocks, and `populateStorage` writes past it into the storage, so that the
blocks lie where no leaf of the position map had a say. -/
theorem setUp_shows (hc : Configured secretSharesSize c)
    (hpos : 1 ≤ LOG_CAPACITY secretSharesSize) (hle : LOG_CAPACITY secretSharesSize ≤ 30)
    {R : (ℕ → Option ℕ) → InMemoryPositionMapAdapter → Prop}
    (hpm : InMemoryPositionMapAdapter.adapter.Implements c.blocks (2 ^ (c.height - 1)) R False)
    {f : ℕ → Option ℕ} {s : ORAM InMemoryPositionMapAdapter} (hR : R f s.map)
    (hstash : s.stash = ∅) (hcache : s.cache = ∅) :
    wp (setUp secretSharesSize c)
      (fun _ s' => ∃ v, View.Populated c s.random.ulongs v ∧ Shows c R v s' ∧
        ∀ b < 2 ^ c.height,
          decodeBucket c.storage c.crypto (s'.storage.blocks b) = .ok (populatedBucket b))
      (fun _ _ => False) s := by
  unfold setUp
  -- the constructor first, whose empty buckets are then overwritten
  refine wp_bind (wp_mono (new_spec hc.valid hpm le_rfl hR hstash hcache) ?_ fun _ _ h => h)
  rintro _ s₁ ⟨v, hfresh, hs₁⟩
  refine wp_mono (populateStorage_spec hc hpos hle s₁) ?_ fun _ _ h => h
  rintro _ s₂ ⟨hdecode, ⟨storage, random, hulongs, rfl⟩, -⟩
  -- nothing is cached, so the tree is what the storage holds
  have hnone : ∀ b, s₁.cache.lookup b = none := fun b =>
    AList.lookup_eq_none.mpr fun hb =>
      Finset.notMem_empty b (hfresh.cached ▸ (hs₁.cached b).mpr hb)
  refine ⟨{ v with
      tree := fun b => content c.storage c.crypto storage b
      touched := storage.calls.map StorageCall.touch },
    ⟨hfresh.pos, fun b hb => content_of_decodeBucket (hdecode b hb.2), hfresh.stash,
      hfresh.cached, hfresh.coins⟩,
    ⟨⟨hs₁.pos, fun b => ?_, hs₁.stash, hs₁.coins.trans hulongs.symm, hs₁.cached, rfl,
      fun b hb => readable_of_decodeBucket (hdecode b hb.2)⟩, hs₁.isInitializing⟩, hdecode⟩
  show content c.storage c.crypto storage b =
    (s₁.cache.lookup b).getD (content c.storage c.crypto storage b)
  rw [hnone b]
  rfl

theorem setUp_spec (hc : Configured secretSharesSize c) (hpos : 1 ≤ LOG_CAPACITY secretSharesSize)
    (hle : LOG_CAPACITY secretSharesSize ≤ 30) {s : ORAM InMemoryPositionMapAdapter}
    (hs : Unbuilt secretSharesSize s) :
    wp (setUp secretSharesSize c)
      (fun _ s' => ∃ v, View.Populated c s.random.ulongs v ∧
        Shows c (InMemoryPositionMapAdapter.Holds c.blocks) v s') (fun _ _ => False) s := by
  refine wp_mono (setUp_shows hc hpos hle (InMemoryPositionMapAdapter.implements _ _)
    (f := s.map.map) ⟨rfl, hs.blocks_le hc⟩ hs.stash hs.cache) ?_ fun _ _ h => h
  rintro _ s' ⟨v, hv, hs', -⟩
  exact ⟨v, hv, hs'⟩

end SetUp

end ORAM

/-! ### Accesses with full payloads -/

/-- All payloads in the stash have the block size. -/
def View.Full (c : Config) (v : View) : Prop :=
  ∀ id d, v.stash.lookup id = some d → d.length = c.dataSize

section Full

variable {c : Config} {v v' v₁ : View} {op op₁ : Op} {leaf size : ℕ}
  {stash : InMemoryStashAdapter} {response : Bytes}

theorem View.Full.fitting (hfull : View.Full c v) (h : View.Fitting c v size) :
    size = c.dataSize := by
  rcases h with ⟨id, d, hd, rfl⟩ | ⟨-, rfl⟩
  · exact hfull id d hd
  · rfl

/-- Nothing is trimmed. -/
theorem Trimmed.eq_of_full (hv : View.Sound c v) (hfull : View.Full c v)
    (hleaf : leaf < 2 ^ (c.height - 1)) (h : Trimmed c v leaf v₁) : v₁ = v := by
  have htree : v₁.tree = v.tree := funext fun b => by
    have hsame : List.Forall₂ (· = ·) (v.tree b) (v₁.tree b) := by
      refine List.forall₂_iff_get.mpr ⟨(h.tree b).length_eq, fun i hi hi' => ?_⟩
      -- a block that was cut was cut at its own length
      have htrim := (List.forall₂_iff_get.mp (h.tree b)).2 i hi hi'
      refine Prod.ext htrim.1.symm ?_
      rcases htrim.2 with heq | ⟨hpath, -, -, size, hsize, heq⟩
      · exact heq.symm
      · have hlength := hv.sized b (Config.inTree_of_mem_path hleaf hpath) _
          (List.get_mem (v.tree b) ⟨i, hi⟩)
        rw [heq, hfull.fitting hsize, ← hlength, InMemoryStashAdapter.resize_length]
    exact (List.forall₂_eq_eq_eq ▸ hsame : v.tree b = v₁.tree b).symm
  rw [h.rest, htree]

theorem FittedOp.eq_of_full (hfull : View.Full c v) (hop : op.Full c.dataSize)
    (h : FittedOp c v leaf op op₁) : op₁ = op := by
  cases h with
  | read block => rfl
  | @write size block data hsize =>
    have heq : size = data.length := by
      rcases hsize with ⟨-, rfl⟩ | ⟨-, hfitting⟩
      · rfl
      · exact (hfull.fitting hfitting).trans hop.symm
    rw [heq, InMemoryStashAdapter.resize_length]

/-- **With full payloads an access is one of the protocol.** -/
theorem Access.of_full (hv : View.Sound c v) (hfull : View.Full c v) (hop : op.Full c.dataSize)
    (hblock : op.block < c.blocks) (hpos : v.pos op.block = some leaf)
    (h : Access c v op leaf stash response v') :
    PathORAM.Access c.toConfig v op leaf stash response v' ∧
      Evicts c v'.pos leaf (op.serve stash) v.tree v' ∧
      ∀ id d, stash.lookup id = some d → d.length = c.dataSize := by
  have hleaf := hv.valid.leaf_lt hblock hpos
  obtain ⟨htrimmed, hfitted, hbase, hevicts, hfitting, -⟩ := h
  obtain rfl := htrimmed.eq_of_full hv hfull hleaf
  obtain rfl := hfitted.eq_of_full hfull hop
  exact ⟨hbase, hevicts, fun id d hd => hfull.fitting (hfitting id d hd)⟩

/-- All payloads that are served have the block size. -/
theorem Op.Full.serve (hop : op.Full c.dataSize)
    (hlength : ∀ id d, stash.lookup id = some d → d.length = c.dataSize) (id : ℕ) (d : Bytes)
    (hd : (op.serve stash).lookup id = some d) : d.length = c.dataSize := by
  rcases Op.lookup_serve_cases hd with rfl | ⟨hd, -⟩
  · exact hop
  · exact hlength id d hd

theorem View.Full.access (hop : op.Full c.dataSize)
    (hlength : ∀ id d, stash.lookup id = some d → d.length = c.dataSize)
    (hevicts : Evicts c v'.pos leaf (op.serve stash) v.tree v') : View.Full c v' :=
  fun id d hd => Op.Full.serve hop hlength id d (hevicts.kept id d hd)

end Full

/-! ### The invariant -/

/-- The IDs that nothing is said about: those that were not put, and those that are pinned to
the stash. -/
def Exempt (kv : Store) : Set ℕ := {id | kv id = none ∨ id ∈ Wrapped}

/-- The view follows the store `kv` on the IDs that were put. An ID that was not put is exempt,
since its populated block may lie off its path; the pinned IDs stay in the stash and are followed
there. -/
structure View.Follows (c : Config) (kv : Store) (v : View) : Prop where
  sound : View.Sound c v
  full : View.Full c v
  sized : kv.Full c.dataSize
  tracks : v.Tracks c.toConfig kv (Exempt kv)
  pinned : ∀ id p, kv id = some p → id ∈ Wrapped → v.stash.lookup id = some p

/-- No block of the ID is off the path of the leaf. -/
def View.Settled (c : Config) (v : View) (id leaf : ℕ) : Prop :=
  ∀ b, InTree c.height b → ∀ e ∈ v.tree b, e.1 = id → b ∈ c.path leaf

section Follows

variable {c : Config} {kv : Store} {v v' : View} {op : Op} {leaf : ℕ}
  {stash : InMemoryStashAdapter} {response : Bytes}

/-- Of IDs below `2 ^ 32`, the conversion to `int` makes none another one. -/
theorem eq_of_ofInt_toInt {id id' : ℕ} (hid : id < 2 ^ 32) (hid' : id' < 2 ^ 32)
    (h : ofInt (toInt id) = id') : id = id' := by
  rw [ofInt_eq, toInt, BitVec.toNat_ofNat, Nat.mod_eq_of_lt hid] at h
  split at h
  · omega
  · omega

/-- What is lost from the stash was placed, and is not pinned. -/
theorem Evicts.placed {pos : ℕ → Option ℕ} {tree : ℕ → Bucket}
    (h : Evicts c pos leaf stash tree v') (hsmall : ∀ id ∈ stash, id < 2 ^ 32) {id : ℕ}
    (hid : id ∈ stash) (hlost : id ∉ v'.stash) :
    id ∉ Wrapped ∧ ∃ b ∈ c.path leaf, ∃ e ∈ v'.tree b, e.1 = id := by
  obtain ⟨b, hb, e, he, hreal, heq⟩ := h.lost id hid hlost
  have hmem : e.1 ∈ stash := mem_of_lookup (h.source b hb e he hreal)
  have hsame := eq_of_ofInt_toInt (hsmall e.1 hmem) (hsmall id hid) heq
  exact ⟨fun hT => hT (hsame ▸ heq), b, hb, e, he, hsame⟩

variable (hc : c.Valid) (hv : View.Follows c kv v) (hblock : op.block < c.blocks)
  (hpos : v.pos op.block = some leaf)
  (hnew : ∀ data, op = .write op.block data → kv op.block = none →
    View.Settled c v op.block leaf)

include hc hv hblock hpos in
/-- An ID that was put before has no block off its path. -/
theorem View.Follows.settled {p : Bytes} (hkv : kv op.block = some p)
    (hT : op.block ∉ Wrapped) : View.Settled c v op.block leaf := by
  intro b hb e he hid
  have hleaf := hv.sound.valid.leaf_lt hblock hpos
  have hreal : Block.Real e := by
    rw [Block.Real, hid]
    exact hc.ne_ULONG_MAX hblock
  refine hv.tracks.mem_path_of_block hpos hleaf ?_ hb he hreal hid
  -- the ID is not exempt: it was put, and it is not pinned
  rintro (hnone | hwrapped)
  · rw [hkv] at hnone
    cases hnone
  · exact hT hwrapped

include hc hv hblock hpos hnew in
/-- What is put is at the right place and nowhere else. A read moves blocks only. A put replaces
all blocks of its ID, if all of them were on the path; a first put has to assume this, a later one
knows it from the view. -/
theorem View.Follows.tracks_access (hsmall : c.blocks ≤ 2 ^ 32)
    (hbase : PathORAM.Access c.toConfig v op leaf stash response v')
    (hevicts : Evicts c v'.pos leaf (op.serve stash) v.tree v') :
    v'.Tracks c.toConfig (op.apply kv) (Exempt (op.apply kv)) := by
  have hleaf := hv.sound.valid.leaf_lt hblock hpos
  have hinRange : ∀ id ∈ op.serve stash, id < c.blocks :=
    View.Within.serve (hv.sound.valid.within.absorbs hleaf hbase.absorbs.toAbsorbs)
      (Op.forall_write hblock)
  -- what the stash served is in the stash or on the path afterwards
  have hpresent : ∀ id ∈ op.serve stash, id ∉ v'.stash →
      id ∉ Wrapped ∧ ∃ b ∈ c.path leaf, ∃ e ∈ v'.tree b, e.1 = id := fun id hid =>
    hevicts.placed (fun id hid => (hinRange id hid).trans_le hsmall) hid
  have htracks := View.Tracks.access_of_present hc hv.sound.valid hv.tracks hblock hbase
    fun id hid _ => or_iff_not_imp_left.mpr fun hlost => (hpresent id hid hlost).2
  -- a read puts nothing, so the protocol's own lemma is enough
  cases op with
  | read block => exact htracks
  | write block data =>
    have hself := Op.apply_write_self block data kv
    have hother : ∀ {id}, id ≠ block → id ∈ Exempt kv →
        id ∈ Exempt ((Op.write block data).apply kv) := fun hne hid => by
      refine hid.imp_left fun hnone => ?_
      rwa [Op.apply_of_ne (.write block data) hne]
    -- a pinned ID stays exempt
    by_cases hT : block ∈ Wrapped
    · refine htracks.mono fun id hid => ?_
      by_cases hne : id = block
      · exact .inr (hne ▸ hT)
      · exact hother hne hid
    · -- All blocks of the ID were on the path, so they have been replaced.
      have hsettled : View.Settled c v block leaf := by
        cases hkv : kv block with
        | none => exact hnew data rfl hkv
        | some p => exact View.Follows.settled hc hv hblock hpos hkv hT
      have hserve : ((Op.write block data).serve stash).lookup block = some data :=
        AList.lookup_insert _
      refine (htracks.diff_singleton hself (fun b hb e he hid => ?_) (fun d hd => ?_) ?_).mono
        fun id hid => hother hid.2 hid.1
      -- a block of the ID in the tree comes from the stash, which serves the new payload
      · have hreal : Block.Real e := by
          rw [Block.Real, hid]
          exact hc.ne_ULONG_MAX hblock
        have hpath : b ∈ c.path leaf := by
          by_contra hoff
          rw [hevicts.off_path b hoff] at he
          exact hoff (hsettled b hb e he hid)
        have hsource := hevicts.source b hpath e he hreal
        rw [hid, hserve] at hsource
        exact ⟨hid ▸ hevicts.fits b hpath e he hreal, (Option.some.inj hsource).symm⟩
      · have hkept := hevicts.kept block d hd
        rw [hserve] at hkept
        exact (Option.some.inj hkept).symm
      -- and one such block is in the stash or in the tree
      · by_cases hmem : block ∈ v'.stash
        · exact .inl hmem
        · obtain ⟨-, b, hb, e, he, hid⟩ := hpresent block (mem_of_lookup hserve) hmem
          refine .inr ⟨b, Config.inTree_of_mem_path hleaf hb, e, he, ?_, hid⟩
          rw [Block.Real, hid]
          exact hc.ne_ULONG_MAX hblock

include hc hv hblock hpos hnew in
/-- **An access follows the store**, unless it puts an ID for the first time that has a block off
the path of its leaf. Such a block would survive the put, and come back when its own path is read.
-/
theorem View.Follows.access (hsmall : c.blocks ≤ 2 ^ 32) (hid : op.block ≤ 10 ^ 12)
    (hop : op.Full c.dataSize) (h : Access c v op leaf stash response v') :
    View.Follows c (op.apply kv) v' := by
  have hsound := hv.sound.access hblock hid h
  obtain ⟨hbase, hevicts, hlength⟩ := h.of_full hv.sound hv.full hop hblock hpos
  have hleaf := hv.sound.valid.leaf_lt hblock hpos
  have hinRange : ∀ id ∈ op.serve stash, id < 2 ^ 32 := fun id hid =>
    (View.Within.serve (hv.sound.valid.within.absorbs hleaf hbase.absorbs.toAbsorbs)
      (Op.forall_write hblock) id hid).trans_le hsmall
  refine ⟨hsound, View.Full.access hop hlength hevicts, hv.sized.apply hop,
    View.Follows.tracks_access hc hv hblock hpos hnew hsmall hbase hevicts, fun id p hp hT => ?_⟩
  -- What is pinned is served from the stash, and stays there.
  have hserve : (op.serve stash).lookup id = some p := by
    by_cases hne : id = op.block
    · cases op with
      | read _ => exact hbase.absorbs.keep id p (hv.pinned id p hp hT)
      | write block data =>
        obtain rfl : id = block := hne
        rw [Op.apply_write_self] at hp
        exact (AList.lookup_insert _).trans hp
    · rw [Op.apply_of_ne op hne] at hp
      rw [Op.lookup_serve_of_ne op hne]
      exact hbase.absorbs.keep id p (hv.pinned id p hp hT)
  have hmem : id ∈ v'.stash := by
    by_contra hlost
    exact (hevicts.placed hinRange (mem_of_lookup hserve) hlost).1 hT
  obtain ⟨d, hd⟩ := exists_lookup hmem
  rw [hd, ← hevicts.kept id d hd, hserve]

/-- **A read returns what was put last.** -/
theorem View.Follows.answered (hv : View.Follows c kv v) {block : ℕ} (hblock : block < c.blocks)
    (hpos : v.pos block = some leaf) {p : Bytes} (hp : kv block = some p)
    (h : Access c v (.read block) leaf stash response v') : response = p := by
  obtain ⟨hbase, -, -⟩ := h.of_full hv.sound hv.full (Op.full_read block _) hblock hpos
  -- a pinned ID never leaves the stash; any other is tracked
  by_cases hT : block ∈ Wrapped
  · have hresponse : response = (stash.lookup block).getD [] := hbase.response_eq
    rw [hresponse, hbase.absorbs.keep block p (hv.pinned block p hp hT)]
    rfl
  · have hexempt : block ∉ Exempt kv := by
      rintro (hnone | hwrapped)
      · rw [hp] at hnone
        cases hnone
      · exact hT hwrapped
    have hop : (Op.read block).block < c.blocks := hblock
    have hanswer := hv.tracks.answered hv.sound.valid hop hexempt hbase
    exact ((Op.answered_read_some hp).mp hanswer).eq_of_length (hv.sized block p hp)

/-- The upload changes nothing. -/
theorem View.Follows.synced (hc : c.Valid) (hv : View.Follows c kv v)
    (h : Synced c.toConfig v v') : View.Follows c kv v' where
  sound := hv.sound.synced hc h
  full id d hd := hv.full id d (h.stash' ▸ hd)
  sized := hv.sized
  tracks := hv.tracks.sync hc h.toSync
  pinned id p hp hT := h.stash' ▸ hv.pinned id p hp hT

end Follows

section Populated

variable {c : Config} {v : View} {secretSharesSize : ℕ} {coins : Stream' ℕ}

theorem View.Populated.mem_tree (hc : Configured secretSharesSize c)
    (h : View.Populated c coins v) {b : ℕ} (hb : InTree c.height b) {e : Block} :
    e ∈ v.tree b ↔ ∃ j < Z, e = (b * Z + j, List.replicate BLOCK_SIZE 0) := by
  have hlt : b < 2 ^ 62 :=
    hb.2.trans_le (Nat.pow_le_pow_right Nat.two_pos (hc.valid.height_le.trans (by norm_num)))
  rw [h.tree b hb, mem_populatedBucket hlt]

theorem View.Populated.sound (hc : Configured secretSharesSize c)
    (h : View.Populated c coins v) : View.Sound c v := by
  have hblocks : c.blocks = 2 ^ c.height * 3 := hc.valid.blocks_eq.trans (by rw [hc.Z_eq]; rfl)
  -- the last bucket has the largest ID, `3 * 2 ^ height - 1`
  have hid : ∀ b, InTree c.height b → ∀ e ∈ v.tree b, e.1 < c.blocks := fun b hb e he => by
    obtain ⟨j, hj, rfl⟩ := (h.mem_tree hc hb).mp he
    have hlt := hb.2
    show b * 3 + j < c.blocks
    have hj3 : j < 3 := hj
    omega
  have hle := hc.blocks_le
  have hlength : ∀ b, InTree c.height b → ∀ e ∈ v.tree b, e.2.length = c.dataSize :=
    fun b hb e he => by
      obtain ⟨j, -, rfl⟩ := (h.mem_tree hc hb).mp he
      rw [hc.dataSize_eq, List.length_replicate]
  have hstash : ∀ id, id ∉ v.stash := fun id => by
    rw [h.stash]
    exact AList.notMem_empty id
  refine ⟨⟨fun id hid => ⟨_, Nat.mod_lt _ (Nat.two_pow_pos _), h.pos id hid⟩, fun b hb => ?_,
      fun b hb e he _ => (hlength b hb e he).le, fun b hb e he _ => hid b hb e he,
      fun id hmem => absurd hmem (hstash id), fun b hb => ?_⟩,
    ⟨fun b hb e he _ => ?_, fun id hmem => absurd hmem (hstash id)⟩, hlength⟩
  · rw [h.tree b hb, length_populatedBucket, hc.Z_eq]
  · rw [h.cached] at hb
    exact absurd hb (Finset.notMem_empty b)
  · have hlt := hid b hb e he
    show e.1 ≤ 10 ^ 12
    omega

/-- Before anything is put, the populated view follows the empty store. -/
theorem View.Populated.follows (hc : Configured secretSharesSize c)
    (h : View.Populated c coins v) : View.Follows c Store.empty v := by
  have hempty : ∀ id d, v.stash.lookup id ≠ some d := fun id d hd => by
    rw [h.stash] at hd
    cases hd
  -- nothing has been put, so every ID is exempt
  have hexempt : ∀ id, id ∈ Exempt Store.empty := fun id => .inl rfl
  refine ⟨h.sound hc, fun id d hd => absurd hd (hempty id d), fun id p hp => ?_, ⟨?_, ?_, ?_, ?_⟩,
    fun id p hp => ?_⟩
  · cases hp
  · exact fun b hb e he hreal hT => absurd (hexempt e.1) hT
  · exact fun b hb e he hreal hT => absurd (hexempt e.1) hT
  · exact fun id d hd => absurd hd (hempty id d)
  · exact fun id p hp hT => absurd (hexempt id) hT
  · cases hp

end Populated

/-! ### Runs -/

/-- A call is answered with the payload put last, if its ID was put. -/
def Call.ReturnsLast (kv : Store) (call : Call) (o : Except Exception (List Bytes))
    (kv' : Store) : Prop :=
  ∃ responses, o = .ok responses ∧ kv' = call.apply kv ∧
    ∀ block, call = .get block → ∀ p, kv block = some p → responses = [p]

namespace ORAM

variable {c : Config} {M : Type} {pm : AbsPositionMapAdapter M} {bound secretSharesSize : ℕ}
  {R : (ℕ → Option ℕ) → M → Prop} {s : ORAM M} {kv : Store} {call : Call}

/-- The calls: to `get` and `put`, with IDs in range and payloads of exactly the block size. -/
structure Whole (secretSharesSize : ℕ) (call : Call) : Prop where
  single : call.Single
  inRange : ∀ op ∈ call.ops, op.block < CAPACITY secretSharesSize * Z
  full : ∀ op ∈ call.ops, op.Full BLOCK_SIZE

/-- No call puts an ID for the first time that has a block off the path of its leaf. `kv` is
what was put. -/
def FirstPutSettled (c : Config) (pm : AbsPositionMapAdapter M) (kv : Store) (s : ORAM M)
    (call : Call) : Prop :=
  ∀ block data, call = .put block data → kv block = none →
    ∀ leaf, returned (pm.get block) s.map = some leaf → ∀ b, InTree c.height b →
      ∀ e ∈ content c.storage c.crypto s.storage b, e.1 = block → b ∈ c.path leaf

/-- The state of an ORAM between calls that follows the store `kv`. -/
def Follows (c : Config) (R : (ℕ → Option ℕ) → M → Prop) (kv : Store) (s : ORAM M) : Prop :=
  ∃ v, Shows c R v s ∧ View.Follows c kv v ∧ v.cached = ∅

/-- **One call** returns what was put last, or overflows the stash. The condition on the call is
about the state before it: a first put must find the blocks of its ID on the path that the position
map names. -/
theorem exec_follows (hc : Configured secretSharesSize c)
    (hle : LOG_CAPACITY secretSharesSize ≤ 30) (hpm : pm.Implements c.blocks bound R False)
    (hbound : 2 ^ (c.height - 1) ≤ bound) (hcall : Whole secretSharesSize call)
    (hs : Follows c R kv s) (hfirst : FirstPutSettled c pm kv s call) :
    wp (exec c pm call)
      (fun responses s' => (∀ block, call = .get block → ∀ p, kv block = some p →
        responses = [p]) ∧ Follows c R (call.apply kv) s')
      (fun e _ => e = .overCapacity c.stashCapacity) s := by
  obtain ⟨v, hshows, hv, hcached⟩ := hs
  obtain ⟨op, hops⟩ := hcall.single.exists_ops
  have hmem : op ∈ call.ops := hops ▸ List.mem_singleton_self op
  have hop : op.block < c.blocks := (hc.blocks_eq hle).symm ▸ hcall.inRange op hmem
  have hfull : op.Full c.dataSize := hc.dataSize_eq ▸ hcall.full op hmem
  have hblocks_le := hc.blocks_le
  have hid : op.block ≤ 10 ^ 12 := by omega
  refine wp_mono (exec_spec hc.valid hpm hbound hv.sound hshows hops hcall.single hop hid) ?_ ?_
  · rintro _ s' ⟨leaf, stash, response, v₁, v', haccess, hsynced, hs', rfl⟩
    have hpos : v.pos op.block = some leaf := haccess.pos_eq
    -- the first put of an ID: the assumption is about the tree of the state, which is that of the
    -- view
    have hnew : ∀ data, op = .write op.block data → kv op.block = none →
        View.Settled c v op.block leaf := by
      intro data hwrite hnone b hb e he
      have hput : call = .put op.block data := by
        rw [hwrite] at hops
        cases call with
        | get _ => cases List.singleton_injective hops
        | put _ _ =>
          cases List.singleton_injective hops
          rfl
        | multiple _ => exact hcall.single.elim
      refine hfirst op.block data hput hnone leaf (returned_get hpm hshows.pos hop hpos) b hb e ?_
      rwa [← tree_of_cached_eq_empty hshows hcached]
    have hv₁ := View.Follows.access hc.valid hv hop hpos hnew (by omega) hid hfull haccess
    have happly : call.apply kv = op.apply kv := by
      rw [Call.apply, hops]
      rfl
    refine ⟨fun block hget p hp => ?_,
      v', hs', happly ▸ hv₁.synced hc.valid hsynced, hsynced.cached'⟩
    subst hget
    obtain rfl : op = .read block := (List.singleton_injective hops).symm
    exact congrArg (fun response => [response]) (hv.answered hop hpos hp haccess)
  -- the position map does not throw, so only the overflow is left
  · rintro e _ (hthrow | ⟨rfl, -⟩)
    · exact hthrow.elim
    · rfl

/-- **A populated ORAM follows the store**: in every run that does not overflow the stash and
puts no ID for the first time while one of its blocks is off its path, every `get` returns the
payload put last under its ID. -/
theorem populated_run_follows {crypto : Crypto} {hmac : Bytes → Bytes → Bytes} {key : Bytes}
    {r : Random} (hcrypto : crypto.Lawful) (hpos : 1 ≤ LOG_CAPACITY secretSharesSize)
    (hle : LOG_CAPACITY secretSharesSize ≤ 30)
    (hc : config secretSharesSize crypto hmac key r = .ok c)
    {s₀ : ORAM InMemoryPositionMapAdapter} (hs₀ : Unbuilt secretSharesSize s₀) :
    ∃ s₁, setUp secretSharesSize c s₀ = .ok () s₁ ∧ ∀ calls : List Call,
      (∀ call ∈ calls, Whole secretSharesSize call) →
      NoOverflow (runCatching (exec c InMemoryPositionMapAdapter.adapter) calls s₁).1 →
      Admitted (exec c InMemoryPositionMapAdapter.adapter)
        (FirstPutSettled c InMemoryPositionMapAdapter.adapter) Call.apply calls Store.empty s₁ →
      ∃ kv, Judged Call.ReturnsLast Store.empty calls
        (runCatching (exec c InMemoryPositionMapAdapter.adapter) calls s₁).1 kv := by
  have hconfigured := config_spec hcrypto hpos hle hc
  obtain ⟨_, s₁, hsetUp, v, hpopulated, hs₁⟩ := (setUp_spec hconfigured hpos hle hs₀).exists_ok
  refine ⟨s₁, hsetUp, fun calls hcalls hno hadmitted => ?_⟩
  have hfollows : Follows c (InMemoryPositionMapAdapter.Holds c.blocks) Store.empty s₁ :=
    ⟨v, hs₁, hpopulated.follows hconfigured, hpopulated.cached⟩
  -- the run, call by call, under the assumption on each state that it comes to
  refine (runCatching_admitted (fun kv call s hs hA => ?_) calls Store.empty s₁ hfollows
    ((hadmitted.and hcalls).and_errors (E := fun e => e ≠ .overCapacity c.stashCapacity)
      fun e he heq => hno _ he c.stashCapacity (congrArg _ heq))).imp fun _ h => h.1
  obtain ⟨⟨hfirst, hcall⟩, herrors⟩ := hA
  have hspec := exec_follows hconfigured hle (InMemoryPositionMapAdapter.implements _ _) le_rfl
    hcall hs hfirst
  cases hexec : exec c InMemoryPositionMapAdapter.adapter call s with
  | ok responses s' =>
    obtain ⟨hreturns, hs'⟩ := hspec.ok hexec
    exact wp_of_ok hexec ⟨⟨responses, rfl, rfl, hreturns⟩, hs'⟩
  -- an overflow is excluded by assumption
  | error e s' => exact absurd (hspec.error hexec) (herrors e s' hexec)

end ORAM

/-! ### A run with eight buckets -/

section Eight

variable {c : Config} {v v' : View} {leaf : ℕ} {coins : Stream' ℕ}
  {s : ORAM InMemoryPositionMapAdapter}

theorem height_eq (hc : Configured 11000 c) : c.height = 3 := hc.height.trans (by decide)

theorem blocks_eq (hc : Configured 11000 c) : c.blocks = 24 := by
  rw [hc.valid.blocks_eq, height_eq hc, hc.Z_eq]
  rfl

theorem inTree (hc : Configured 11000 c) {b : ℕ} (hb : 1 ≤ b ∧ b < 8) : InTree c.height b := by
  rw [height_eq hc]
  exact hb

theorem leaf_lt (hc : Configured 11000 c) (hleaf : leaf < 4) : leaf < 2 ^ (c.height - 1) := by
  rw [height_eq hc]
  exact hleaf

theorem mem_path_iff (hc : Configured 11000 c) (hleaf : leaf < 4) {b : ℕ} :
    b ∈ c.path leaf ↔ b = 1 ∨ b = 2 + leaf / 2 ∨ b = 4 + leaf := by
  have hpath : HeapTree.path 3 leaf = [1, 2 + leaf / 2, 4 + leaf] := by
    interval_cases leaf <;> rfl
  rw [Config.mem_path, height_eq hc, hpath, List.mem_cons, List.mem_cons, List.mem_singleton]

/-- A sound view in which the IDs of the tree are the only ones. -/
structure View.Confined (c : Config) (v : View) : Prop where
  sound : View.Sound c v
  within : v.Within c.toConfig (· ∈ Finset.Icc 3 23)

theorem View.Populated.confined (hc : Configured 11000 c) (h : View.Populated c coins v) :
    View.Confined c v := by
  refine ⟨h.sound hc, fun b hb e he _ => ?_, fun id hid => ?_⟩
  -- the buckets 1 to 7 hold the IDs 3 to 23
  · obtain ⟨j, hj, rfl⟩ := (h.mem_tree hc hb).mp he
    rw [height_eq hc] at hb
    obtain ⟨hpos, hlt⟩ := hb
    show b * 3 + j ∈ Finset.Icc 3 23
    have hj3 : j < 3 := hj
    rw [Finset.mem_Icc]
    omega
  · rw [h.stash] at hid
    exact absurd hid (AList.notMem_empty id)

/-- There are fewer IDs than entries of the stash, so no call throws. -/
theorem ORAM.exec_ok (hc : Configured 11000 c) (hv : View.Confined c v)
    (hs : Shows c (InMemoryPositionMapAdapter.Holds c.blocks) v s) (call : Call) {op : Op}
    (hops : call.ops = [op]) (hsingle : call.Single) (hop : op.block ∈ Finset.Icc 3 23) :
    ∃ leaf stash response v₁ v' s', v.pos op.block = some leaf ∧
      exec c InMemoryPositionMapAdapter.adapter call s = .ok (call.report [response]) s' ∧
      Access c v op leaf stash response v₁ ∧ Synced c.toConfig v₁ v' ∧ View.Confined c v' ∧
      Shows c (InMemoryPositionMapAdapter.Holds c.blocks) v' s' := by
  have hrange := Finset.mem_Icc.mp hop
  have hblock : op.block < c.blocks := by
    rw [blocks_eq hc]
    omega
  have hid : op.block ≤ 10 ^ 12 := by omega
  -- twenty-one IDs, and room for more in the stash
  have hcard : (Finset.Icc 3 23).card ≤ c.stashCapacity := by
    rw [hc.stashCapacity]
    decide
  have hspec := exec_spec hc.valid (InMemoryPositionMapAdapter.implements _ _) le_rfl hv.sound hs
    hops hsingle hblock hid
  obtain ⟨_, s', hexec, leaf, stash, response, v₁, v', haccess, hsynced, hs', rfl⟩ :=
    (wp_mono hspec (fun _ _ h => h) fun e s' h => h.elim id fun ⟨_, leaf, hpos, hoverflow⟩ =>
      hv.sound.not_overflow hv.within hblock (Op.forall_write hop) hcard hpos
        hoverflow).exists_ok
  -- an access brings no other ID into the view
  have hconfined : View.Confined c v' :=
    ⟨(hv.sound.access hblock hid haccess).synced hc.valid hsynced,
      (haccess.within hv.sound.valid hblock hv.within (Op.forall_write hop)).sync hsynced.toSync⟩
  exact ⟨leaf, stash, response, v₁, v', s', haccess.pos_eq, hexec, haccess, hsynced, hconfined, hs'⟩

/-- The payload that is put. -/
def ones : Bytes := List.replicate BLOCK_SIZE 1

theorem lt_two_pow : 39 < 2 ^ 64 := by norm_num

/-- The adapters for eight buckets, with the given draws of leaves. -/
def ORAM.unbuiltEight (draws : Stream' ℕ) : ORAM InMemoryPositionMapAdapter :=
  .unbuilt (.allocate 39 lt_two_pow 0) (Random.ofLeaves draws)

theorem ORAM.unbuilt_unbuiltEight (draws : Stream' ℕ) : Unbuilt 11000 (unbuiltEight draws) :=
  ⟨rfl, rfl, rfl⟩

theorem ORAM.whole_get {block : ℕ} (hblock : block < 24) : Whole 11000 (.get block) where
  single := trivial
  inRange op hop := by
    obtain rfl := List.mem_singleton.mp hop
    exact hblock
  full op hop := by
    obtain rfl := List.mem_singleton.mp hop
    trivial

theorem ORAM.whole_put {block : ℕ} (hblock : block < 24) : Whole 11000 (.put block ones) where
  single := trivial
  inRange op hop := by
    obtain rfl := List.mem_singleton.mp hop
    exact hblock
  full op hop := by
    obtain rfl := List.mem_singleton.mp hop
    exact List.length_replicate

/-- With the leaf 0 for all IDs the ID 6 is on its path, so it is settled when it is put. -/
theorem ORAM.settled_put_returned :
    ∃ c s₁, config 11000 .none (fun _ _ => []) [] (Random.ofLeaves (Stream'.const 0)) = .ok c ∧
      setUp 11000 c (unbuiltEight (Stream'.const 0)) = .ok () s₁ ∧
      ∃ kv, Judged Call.ReturnsLast Store.empty [.put 6 ones, .get 6]
        (runCatching (exec c InMemoryPositionMapAdapter.adapter) [.put 6 ones, .get 6] s₁).1
        kv := by
  obtain ⟨c, hc⟩ := config_ok 11000 .none (fun _ _ => []) [] (Random.ofLeaves (Stream'.const 0))
  have hlawful : Crypto.none.Lawful := fun h => absurd rfl h
  have hconfigured := config_spec hlawful (by decide) (by decide) hc
  obtain ⟨s₁, hsetUp, hfollows⟩ := populated_run_follows hlawful (by decide) (by decide) hc
    (unbuilt_unbuiltEight (Stream'.const 0))
  obtain ⟨v, hpopulated, hs₁⟩ := (setUp_spec hconfigured (by decide) (by decide)
    (unbuilt_unbuiltEight (Stream'.const 0))).ok hsetUp
  obtain ⟨_, _, _, _, v₂, s₂, -, hput, -, -, hv₂, hs₂⟩ := exec_ok hconfigured
    (hpopulated.confined hconfigured) hs₁ (.put 6 ones) rfl trivial (by decide)
  obtain ⟨_, _, _, _, _, s₃, -, hget, -, -, -, -⟩ := exec_ok hconfigured hv₂ hs₂
    (.get 6) rfl trivial (by decide)
  have hwhole : ∀ call ∈ [Call.put 6 ones, Call.get 6], Whole 11000 call := by
    simp only [List.forall_mem_cons, List.not_mem_nil, false_imp_iff, implies_true, and_true]
    exact ⟨whole_put (by decide), whole_get (by decide)⟩
  refine ⟨c, s₁, hc, hsetUp, hfollows _ hwhole ?_ ⟨?_, ?_, trivial⟩⟩
  -- neither call throws
  · rw [runCatching_cons_ok hput, runCatching_cons_ok hget, runCatching]
    intro o ho capacity heq
    subst heq
    simp at ho
  -- the block of the ID 6 is in the bucket 2, which is on the path of the leaf 0
  · rintro block data hcall - leaf hleaf b hb e he heq
    cases hcall
    have hblock : 6 < c.blocks := by
      rw [blocks_eq hconfigured]
      decide
    have hpos : v.pos 6 = some 0 := by
      rw [hpopulated.pos 6 hblock]
      exact congrArg some (Nat.zero_mod (2 ^ (c.height - 1)))
    obtain rfl : 0 = leaf := by
      rw [returned_get (InMemoryPositionMapAdapter.implements _ (2 ^ (c.height - 1))) hs₁.pos hblock
        hpos] at hleaf
      exact Option.some.inj hleaf
    rw [← tree_of_cached_eq_empty hs₁ hpopulated.cached,
      hpopulated.mem_tree hconfigured hb] at he
    obtain ⟨j, hj, rfl⟩ := he
    obtain rfl : b = 2 := by
      have hsix : b * 3 + j = 6 := heq
      have hj3 : j < 3 := hj
      omega
    exact (mem_path_iff hconfigured (by decide)).mpr (.inr (.inl rfl))
  · rintro block data hcall
    cases hcall

end Eight

/-! ### A run that returns a stale block

The IDs 6, 7, 8 and 12 are populated on the path of the leaf 0 and mapped to the leaves 3
and 2. They are put, and their blocks fill the buckets of these leaves. When the path of the
leaf 0 is read, their stale blocks enter the stash, and the root has no room for all of
them. One that stays is returned by the next `get` of its ID. -/

/-- The IDs that are put. -/
def exiled : Finset ℕ := {6, 7, 8, 12}

/-- The leaf of an ID, at first and whenever it is drawn again. -/
def exileLeaf (id : ℕ) : ℕ := if id = 12 then 2 else if id ∈ exiled then 3 else 0

/-- The draws: the leaves of all IDs, those of the four puts, and zeros. -/
def exileDraws : Stream' ℕ := fun i =>
  if i < 24 then exileLeaf i else if i < 27 then 3 else if i = 27 then 2 else 0

/-- The payload of a populated block. -/
def zeros : Bytes := List.replicate BLOCK_SIZE 0

/-- What holds after `n` puts: the buckets on the path of the leaf 0 are as populated, and
elsewhere an ID that is put occurs in the bucket of its leaf only. -/
structure View.Exile (c : Config) (n : ℕ) (v : View) : Prop extends View.Confined c v where
  full : View.Full c v
  pos : ∀ id < 24, v.pos id = some (exileLeaf id)
  coins : v.coins = exileDraws.drop (24 + n)
  stale : ∀ b ∈ ({2, 4} : Finset ℕ), v.tree b = populatedBucket b
  stash : ∀ id ∈ exiled, id ∉ v.stash
  tree : ∀ id ∈ exiled, ∀ b ∈ ({1, 3, 6, 7} : Finset ℕ), ∀ e ∈ v.tree b, e.1 = id →
    b = 4 + exileLeaf id

section Exile

variable {c : Config} {v v' : View} {op : Op} {leaf n k : ℕ} {stash : InMemoryStashAdapter}
  {response : Bytes}

theorem node_leaf (hc : Configured 11000 c) (hleaf : leaf < 4) :
    node c.height (c.height - 1) leaf = 4 + leaf := by
  rw [height_eq hc]
  interval_cases leaf <;> rfl

theorem View.Populated.exile (hc : Configured 11000 c)
    (h : View.Populated c exileDraws v) : View.Exile c 0 v := by
  have hheight := height_eq hc
  have hblocks := blocks_eq hc
  refine ⟨h.confined hc, fun id d hd => ?_, fun id hid => ?_, ?_,
    fun b hb => h.tree b (inTree hc ?_), fun id _ hid => ?_, fun id hid b hb e he heq => ?_⟩
  · rw [h.stash] at hd
    cases hd
  · rw [h.pos id (hblocks.symm ▸ hid), hheight]
    -- the first 24 draws are the leaves that `exileLeaf` names
    have hdraw : exileDraws.get id = exileLeaf id := if_pos hid
    rw [hdraw, Nat.mod_eq_of_lt]
    unfold exileLeaf
    split
    · decide
    · split
      · decide
      · decide
  · rw [h.coins, hblocks]
  · revert b
    decide
  · rw [h.stash] at hid
    exact AList.notMem_empty id hid
  · have hrange : ∀ b ∈ ({1, 3, 6, 7} : Finset ℕ), 1 ≤ b ∧ b < 8 := by decide
    obtain ⟨j, hj, rfl⟩ := (h.mem_tree hc (inTree hc (hrange b hb))).mp he
    -- the exiled IDs are in the buckets 2 and 4 only
    have hother : ∀ b ∈ ({1, 3, 6, 7} : Finset ℕ), ∀ j < Z, b * Z + j ∉ exiled := by decide
    subst heq
    exact absurd hid (hother b hb j hj)

theorem exileLeaf_mem {id : ℕ} (hid : id ∈ exiled) : exileLeaf id = 2 ∨ exileLeaf id = 3 := by
  revert id
  decide

section Put

variable (hc : Configured 11000 c) (hv : View.Exile c n v) (hk : k ∈ exiled)
  (hbase : PathORAM.Access c.toConfig v (.write k ones) (exileLeaf k) stash response v')
  (hevicts : Evicts c v'.pos (exileLeaf k) ((Op.write k ones).serve stash) v.tree v')

include hc hv hbase in
/-- An ID that is served has the leaf of the path. -/
theorem View.Exile.leaf_eq {id : ℕ} (hk : k ∈ exiled) (hid : id ∈ exiled)
    (hserve : id ∈ (Op.write k ones).serve stash) : exileLeaf id = exileLeaf k := by
  -- it was on the path, or it is the one that is put
  rcases Op.mem_serve.mp hserve with hmem | ⟨data, hwrite⟩
  · rcases hbase.absorbs.mem hmem with hstash | ⟨b, hb, e, he, -, heq⟩
    · exact absurd hstash (hv.stash id hid)
    · have hleaf := exileLeaf_mem hk
      have hleaf' := exileLeaf_mem hid
      have hpath := (mem_path_iff hc (by omega)).mp hb
      have hmem : b ∈ ({1, 3, 6, 7} : Finset ℕ) := by
        simp only [Finset.mem_insert, Finset.mem_singleton]
        omega
      have hb' := hv.tree id hid b hmem e he heq
      omega
  · cases hwrite
    rfl

include hc hv hk hbase hevicts in
/-- An ID that is served ends in the bucket of its leaf, and nowhere else on the path. -/
theorem View.Exile.placed (hpos : ∀ id < 24, v'.pos id = some (exileLeaf id))
    (hlength : ∀ id d, ((Op.write k ones).serve stash).lookup id = some d →
      d.length = c.dataSize) {id : ℕ} (hid : id ∈ exiled)
    (hserve : id ∈ (Op.write k ones).serve stash) :
    id ∉ v'.stash ∧ ∀ b ∈ c.path (exileLeaf k), ∀ e ∈ v'.tree b, e.1 = id →
      b = 4 + exileLeaf id := by
  have hleaf : exileLeaf k < 4 := by
    have hmem := exileLeaf_mem hk
    omega
  have hexiled : ∀ id ∈ exiled, id ∈ Finset.Icc 3 23 := by decide
  have hrange : ∀ id ∈ (Op.write k ones).serve stash, id ∈ Finset.Icc 3 23 :=
    View.Within.serve (hv.within.absorbs (leaf_lt hc hleaf) hbase.absorbs.toAbsorbs)
      (Op.forall_write (hexiled k hk))
  have hlow : ∀ id ∈ Finset.Icc 3 23, id < 24 ∧ id < 2 ^ 31 := by decide
  -- At most three IDs have the leaf, so its bucket takes them all.
  have hbucket : ∃ d, (id, d) ∈ v'.tree (4 + exileLeaf k) := by
    obtain ⟨d, hd⟩ := exists_lookup hserve
    have hcard : ∀ k ∈ exiled, (exiled.filter (exileLeaf · = exileLeaf k)).card ≤ 3 := by decide
    have honly : ∀ id < 24, ∀ k ∈ exiled, exileLeaf id = exileLeaf k → id ∈ exiled := by decide
    refine ⟨d, ?_⟩
    rw [← node_leaf hc hleaf]
    refine hevicts.leaf_bucket (exiled.filter (exileLeaf · = exileLeaf k))
      (hc.Z_eq.symm ▸ hcard k hk) (fun id' d' hd' hpos' => ?_) id d hd (hlength id d hd) ?_
    · have hid' := (hlow id' (hrange id' (mem_of_lookup hd'))).1
      rw [hpos id' hid', Option.some.injEq] at hpos'
      exact Finset.mem_filter.mpr ⟨honly id' hid' k hk hpos', hpos'⟩
    · rw [hpos id (hlow id (hexiled id hid)).1, hv.leaf_eq hc hbase hk hid hserve]
  obtain ⟨d, hd⟩ := hbucket
  have hpath : 4 + exileLeaf k ∈ c.path (exileLeaf k) :=
    (mem_path_iff hc hleaf).mpr (.inr (.inr rfl))
  have honce := hevicts.once (fun id hid => (hlow id (hrange id hid)).2) id hserve
  have hone : 1 ≤ ∑ b ∈ c.path (exileLeaf k), (v'.tree b).countP (·.1 = id) :=
    sum_countP_pos hpath hd
  refine ⟨fun hmem => ?_, fun b hb e he heq => ?_⟩
  · rw [if_pos hmem] at honce
    omega
  · rw [hv.leaf_eq hc hbase hk hid hserve]
    by_contra hne
    -- Two buckets would hold it.
    have hother := sum_countP_pos (Finset.mem_erase.mpr ⟨hne, hb⟩) he
    have hself : 0 < (v'.tree (4 + exileLeaf k)).countP (·.1 = id) :=
      List.countP_pos_iff.mpr ⟨(id, d), hd, decide_eq_true rfl⟩
    rw [heq] at hother
    rw [← Finset.add_sum_erase _ _ hpath] at honce
    omega

end Put

/-- **A put** leaves the other path as it was. -/
theorem View.Exile.put (hc : Configured 11000 c) (hv : View.Exile c n v) (hk : k ∈ exiled)
    (hdraw : exileDraws.get (24 + n) % 4 = exileLeaf k) (hpos : v.pos k = some leaf)
    (h : Access c v (.write k ones) leaf stash response v') : View.Exile c (n + 1) v' := by
  have hexiled : ∀ k ∈ exiled, k < 24 ∧ k ≤ 10 ^ 12 ∧ k ∈ Finset.Icc 3 23 ∧ k ≠ ULONG_MAX := by
    decide
  have hk' := hexiled k hk
  have hblock : (Op.write k ones).block < c.blocks := blocks_eq hc ▸ hk'.1
  have hop : (Op.write k ones).Full c.dataSize := hc.dataSize_eq.symm ▸ List.length_replicate
  -- the position map has not moved the ID
  obtain rfl : exileLeaf k = leaf := by
    rw [hv.pos k hk'.1] at hpos
    exact Option.some.inj hpos
  have hsound := hv.sound.access hblock hk'.2.1 h
  have hwithin := h.within hv.sound.valid hblock hv.within (Op.forall_write hk'.2.2.1)
  obtain ⟨hbase, hevicts, hlength⟩ := h.of_full hv.sound hv.full hop hblock hpos
  have hfull := View.Full.access hop hlength hevicts
  have hleaf : exileLeaf k < 4 := by
    have hmem := exileLeaf_mem hk
    omega
  -- nor does this put, since the draw is the leaf that the ID has
  have hpos' : ∀ id < 24, v'.pos id = some (exileLeaf id) := fun id hid => by
    rw [hbase.pos']
    by_cases heq : id = k
    · subst heq
      show (v.remap c.toConfig id).pos id = _
      rw [View.remap_pos_self, hv.coins, height_eq hc, Stream'.head_drop]
      exact congrArg some hdraw
    · show (v.remap c.toConfig k).pos id = _
      rw [View.remap_pos_of_ne heq]
      exact hv.pos id hid
  have hserved : ∀ id d, ((Op.write k ones).serve stash).lookup id = some d →
      d.length = c.dataSize := Op.Full.serve hop hlength
  -- what is served is placed at its leaf; what is not served is not on the path at all
  have hplaced : ∀ id ∈ exiled, id ∉ v'.stash ∧
      ∀ b ∈ c.path (exileLeaf k), ∀ e ∈ v'.tree b, e.1 = id → b = 4 + exileLeaf id := by
    intro id hid
    by_cases hserve : id ∈ (Op.write k ones).serve stash
    · exact hv.placed hc hk hbase hevicts hpos' hserved hid hserve
    · obtain ⟨-, hstash, hsum⟩ := hbase.not_served (hexiled id hid).2.2.2 hserve
      refine ⟨hstash, fun b hb e he heq => ?_⟩
      have hone := sum_countP_pos hb he
      rw [heq, hsum] at hone
      exact absurd hone (Nat.not_succ_le_zero 0)
  refine ⟨⟨hsound, hwithin⟩, hfull, hpos', ?_, fun b hb => ?_, fun id hid => (hplaced id hid).1,
    fun id hid b hb e he heq => ?_⟩
  · rw [hbase.coins']
    show v.coins.tail = _
    rw [hv.coins, Stream'.tail_drop', add_assoc]
  -- the buckets 2 and 4 are off the path, so their stale blocks survive
  · have hoff : b ∉ c.path (exileLeaf k) := fun hpath => by
      have hmem := exileLeaf_mem hk
      have hpath' := (mem_path_iff hc hleaf).mp hpath
      simp only [Finset.mem_insert, Finset.mem_singleton] at hb
      omega
    rw [hevicts.off_path b hoff, hv.stale b hb]
  · by_cases hpath : b ∈ c.path (exileLeaf k)
    · exact (hplaced id hid).2 b hpath e he heq
    · rw [hevicts.off_path b hpath] at he
      exact hv.tree id hid b hb e he heq

/-- The upload changes nothing. -/
theorem View.Exile.synced (hc : Configured 11000 c) (hv : View.Exile c n v)
    (h : Synced c.toConfig v v') : View.Exile c n v' := by
  -- the upload writes the cached buckets back, and the tree as seen is the same
  have htree : ∀ b, 1 ≤ b ∧ b < 8 → v'.tree b = v.tree b := fun b hb =>
    hv.sound.tree_sync hc.valid h.toSync (inTree hc hb)
  have hstale : ∀ b ∈ ({2, 4} : Finset ℕ), 1 ≤ b ∧ b < 8 := by decide
  have hrest : ∀ b ∈ ({1, 3, 6, 7} : Finset ℕ), 1 ≤ b ∧ b < 8 := by decide
  exact
    { sound := hv.sound.synced hc.valid h
      full := fun id d hd => hv.full id d (h.stash' ▸ hd)
      within := hv.within.sync h.toSync
      pos := fun id hid => h.pos' ▸ hv.pos id hid
      coins := h.coins'.trans hv.coins
      stale := fun b hb => (htree b (hstale b hb)).trans (hv.stale b hb)
      stash := fun id hid => h.stash' ▸ hv.stash id hid
      tree := fun id hid b hb e he => hv.tree id hid b hb e (htree b (hrest b hb) ▸ he) }

/-- **Reading the other path** leaves a stale block in the stash. -/
theorem View.Exile.reread (hc : Configured 11000 c) (hv : View.Exile c n v)
    (hpos : v.pos 9 = some leaf) (h : Access c v (.read 9) leaf stash response v') :
    ∃ k ∈ exiled, v'.stash.lookup k = some zeros := by
  obtain rfl : 0 = leaf := by
    rw [hv.pos 9 (by decide)] at hpos
    exact Option.some.inj hpos
  have hblock : 9 < c.blocks := blocks_eq hc ▸ by decide
  obtain ⟨hbase, hevicts, -⟩ := h.of_full hv.sound hv.full (Op.full_read 9 _) hblock hpos
  have hexiled : ∀ id ∈ exiled, id < 24 ∧ id ≠ ULONG_MAX := by decide
  have hpath : ∀ {b}, b ∈ c.path 0 ↔ b = 1 ∨ b = 2 ∨ b = 4 := fun {b} =>
    mem_path_iff hc (by decide)
  -- The stale blocks of all of them enter the stash.
  have hstale : ∀ id ∈ exiled, stash.lookup id = some zeros := fun id hid => by
    have hin : ∀ id ∈ exiled, ∃ b ∈ ({2, 4} : Finset ℕ), ∃ j < Z, id = b * Z + j := by decide
    obtain ⟨b, hb, j, hj, heq⟩ := hin id hid
    have hb' : b = 2 ∨ b = 4 := by
      rwa [Finset.mem_insert, Finset.mem_singleton] at hb
    have he : (id, zeros) ∈ v.tree b := by
      rw [hv.stale b hb, mem_populatedBucket (by omega)]
      exact ⟨j, hj, heq ▸ rfl⟩
    obtain ⟨d, hd⟩ := exists_lookup
      (hbase.absorbs.all b (hpath.mpr (.inr hb')) _ he (hexiled id hid).2)
    rw [hd]
    rcases hbase.absorbs.source id d hd with hstash | ⟨-, b, hb, he⟩
    · exact absurd (mem_of_lookup hstash) (hv.stash id hid)
    · rcases hpath.mp hb with rfl | hb
      · have hroot := hv.tree id hid 1 (by decide) _ he rfl
        omega
      · rw [hv.stale b (by rwa [Finset.mem_insert, Finset.mem_singleton]),
          mem_populatedBucket (by omega)] at he
        obtain ⟨_, -, heq'⟩ := he
        exact congrArg some (congrArg Prod.snd heq')
  by_contra hnone
  -- None of them stays there, so all have been placed, and only the root is on both paths.
  have hroot : ∀ id ∈ exiled, id ∈ ((v'.tree 1).map Prod.fst).toFinset := fun id hid => by
    have hmem := mem_of_lookup (hstale id hid)
    have hlost : id ∉ v'.stash := fun hkept => by
      obtain ⟨d, hd⟩ := exists_lookup hkept
      have hsame := hevicts.kept id d hd
      exact hnone ⟨id, hid, hd.trans (hsame.symm.trans (hstale id hid))⟩
    have hsmall : ∀ id ∈ (Op.read 9).serve stash, id < 2 ^ 32 := fun id hid =>
      (hv.sound.valid.within.absorbs (leaf_lt hc (by decide)) hbase.absorbs.toAbsorbs id
        hid).trans_le (by rw [blocks_eq hc]; decide)
    obtain ⟨-, b, hb, e, he, heq⟩ := hevicts.placed hsmall hmem hlost
    have hleaf := exileLeaf_mem hid
    have hreal : Block.Real e := by
      rw [Block.Real, heq]
      exact (hexiled id hid).2
    obtain ⟨l, hl, honpath⟩ := hevicts.fits b hb e he hreal
    have hpos' : v'.pos id = some (exileLeaf id) := by
      have hne : ∀ id ∈ exiled, id ≠ 9 := by decide
      rw [hbase.pos']
      show (v.remap c.toConfig 9).pos id = _
      rw [View.remap_pos_of_ne (hne id hid)]
      exact hv.pos id (hexiled id hid).1
    obtain rfl : exileLeaf id = l := by
      rw [heq, hpos'] at hl
      exact Option.some.inj hl
    rw [← Config.mem_path_iff_onPath (leaf_lt hc (by omega))
      (Config.inTree_of_mem_path (leaf_lt hc (by decide)) hb), mem_path_iff hc (by omega)]
      at honpath
    obtain rfl : b = 1 := by
      have hb' := hpath.mp hb
      omega
    exact List.mem_toFinset.mpr (List.mem_map.mpr ⟨e, he, heq⟩)
  have hcard := (Finset.card_le_card hroot).trans (List.toFinset_card_le _)
  rw [List.length_map, hevicts.length 1 (hpath.mpr (.inl rfl)), hc.Z_eq] at hcard
  exact absurd hcard (by decide)

end Exile

/-- What the stash has under an ID is what a read of it returns. -/
theorem Access.response_of_stash {c : Config} {v v' : View} {leaf k : ℕ}
    {stash : InMemoryStashAdapter} {response d : Bytes}
    (h : Access c v (.read k) leaf stash response v') (hd : v.stash.lookup k = some d) :
    response = d := by
  obtain ⟨htrimmed, hfitted, hbase, -, -, -⟩ := h
  cases hfitted
  have hresponse : response = (stash.lookup k).getD [] := hbase.response_eq
  rw [hresponse, hbase.absorbs.keep k d (htrimmed.stash ▸ hd)]
  rfl

namespace ORAM

section Stale

variable {c : Config} {v : View} {n : ℕ} {s : ORAM InMemoryPositionMapAdapter}

/-- A state that shows a view after `n` puts. -/
def Exile (c : Config) (n : ℕ) (s : ORAM InMemoryPositionMapAdapter) : Prop :=
  ∃ v, Shows c (InMemoryPositionMapAdapter.Holds c.blocks) v s ∧ View.Exile c n v

theorem Exile.put (hc : Configured 11000 c) (hs : Exile c n s) {k : ℕ} (hk : k ∈ exiled)
    (hdraw : exileDraws.get (24 + n) % 4 = exileLeaf k) :
    ∃ s', exec c InMemoryPositionMapAdapter.adapter (.put k ones) s = .ok [] s' ∧
      Exile c (n + 1) s' := by
  obtain ⟨v, hshows, hv⟩ := hs
  have hrange : ∀ k ∈ exiled, k ∈ Finset.Icc 3 23 := by decide
  obtain ⟨leaf, stash, response, v₁, v', s', hpos, hexec, haccess, hsynced, -, hs'⟩ :=
    exec_ok hc hv.toConfined hshows (.put k ones) rfl trivial (hrange k hk)
  exact ⟨s', hexec, v', hs', (hv.put hc hk hdraw hpos haccess).synced hc hsynced⟩

/-- After the path of the leaf 0 was read, a stale block is returned. -/
theorem Exile.stale (hc : Configured 11000 c) (hs : Exile c n s) :
    ∃ response s', exec c InMemoryPositionMapAdapter.adapter (.get 9) s = .ok [response] s' ∧
      ∃ k ∈ exiled, ∃ s'', exec c InMemoryPositionMapAdapter.adapter (.get k) s' =
        .ok [zeros] s'' := by
  obtain ⟨v, hshows, hv⟩ := hs
  have hrange : ∀ k ∈ exiled, k ∈ Finset.Icc 3 23 := by decide
  obtain ⟨leaf, stash, response, v₁, v', s', hpos, hexec, haccess, hsynced, hv', hs'⟩ :=
    exec_ok hc hv.toConfined hshows (.get 9) rfl trivial (by decide)
  -- reading the path of the leaf 0 brings the stale block of some `k` into the stash
  obtain ⟨k, hk, hstale⟩ := hv.reread hc hpos haccess
  obtain ⟨leaf', stash', response', v₂, v'', s'', hpos', hexec', haccess', -, -, -⟩ :=
    exec_ok hc hv' hs' (.get k) rfl trivial (hrange k hk)
  -- and what the stash has is what the next read returns
  have hresponse := haccess'.response_of_stash (hsynced.stash' ▸ hstale)
  exact ⟨response, s', hexec, k, hk, s'', hresponse ▸ hexec'⟩

/-- The calls: four puts, a `get` of the root of the other path, and a `get` of an ID that
was put. -/
def staleCalls (k : ℕ) : List Call :=
  [.put 6 ones, .put 7 ones, .put 8 ones, .put 12 ones, .get 9, .get k]

/-- Whatever the key and the encryption, one of the IDs comes back as it was populated. -/
theorem stale_run (hc : Configured 11000 c) (hs : Exile c 0 s) :
    ∃ k ∈ exiled, ∃ response, (runCatching (exec c InMemoryPositionMapAdapter.adapter)
      (staleCalls k) s).1 = [.ok [], .ok [], .ok [], .ok [], .ok [response], .ok [zeros]] := by
  obtain ⟨s₁, h₁, hs₁⟩ := hs.put hc (k := 6) (by decide) rfl
  obtain ⟨s₂, h₂, hs₂⟩ := hs₁.put hc (k := 7) (by decide) rfl
  obtain ⟨s₃, h₃, hs₃⟩ := hs₂.put hc (k := 8) (by decide) rfl
  obtain ⟨s₄, h₄, hs₄⟩ := hs₃.put hc (k := 12) (by decide) rfl
  obtain ⟨response, s₅, h₅, k, hk, s₆, h₆⟩ := hs₄.stale hc
  refine ⟨k, hk, response, ?_⟩
  rw [staleCalls, runCatching_cons_ok h₁, runCatching_cons_ok h₂, runCatching_cons_ok h₃,
    runCatching_cons_ok h₄, runCatching_cons_ok h₅, runCatching_cons_ok h₆, runCatching]

/-- **A stale block is returned**: after the set-up there are puts and gets that do not overflow
the stash, and one `get` returns the zeros of the set-up for an ID that was put with ones. -/
theorem stale_block_returned :
    ∃ c s₁, config 11000 .none (fun _ _ => []) [] (Random.ofLeaves exileDraws) = .ok c ∧
      Unbuilt 11000 (unbuiltEight exileDraws) ∧
      setUp 11000 c (unbuiltEight exileDraws) = .ok () s₁ ∧
      ∃ k ∈ exiled, (∀ call ∈ staleCalls k, Whole 11000 call) ∧
        NoOverflow (runCatching (exec c InMemoryPositionMapAdapter.adapter) (staleCalls k) s₁).1 ∧
        ¬∃ kv, Judged Call.ReturnsLast Store.empty (staleCalls k)
          (runCatching (exec c InMemoryPositionMapAdapter.adapter) (staleCalls k) s₁).1 kv := by
  obtain ⟨c, hc⟩ := config_ok 11000 .none (fun _ _ => []) [] (Random.ofLeaves exileDraws)
  have hlawful : Crypto.none.Lawful := fun h => absurd rfl h
  have hconfigured := config_spec hlawful (by decide) (by decide) hc
  obtain ⟨_, s₁, hsetUp, v, hpopulated, hs₁⟩ := (setUp_spec hconfigured (by decide) (by decide)
    (unbuilt_unbuiltEight exileDraws)).exists_ok
  obtain ⟨k, hk, response, hrun⟩ := stale_run hconfigured ⟨v, hs₁, hpopulated.exile hconfigured⟩
  refine ⟨c, s₁, hc, unbuilt_unbuiltEight exileDraws, hsetUp, k, hk, ?_, ?_, ?_⟩
  · have hlt : ∀ k ∈ exiled, k < 24 := by decide
    rw [staleCalls]
    simp only [List.forall_mem_cons, List.not_mem_nil, false_imp_iff, implies_true, and_true]
    exact ⟨whole_put (by decide), whole_put (by decide), whole_put (by decide),
      whole_put (by decide), whole_get (by decide), whole_get (hlt k hk)⟩
  -- no call throws
  · rw [hrun]
    intro o ho capacity heq
    subst heq
    simp at ho
  · rw [hrun]
    rintro ⟨kv, hjudged⟩
    obtain _ | ⟨⟨_, -, rfl, -⟩, hjudged⟩ := hjudged
    obtain _ | ⟨⟨_, -, rfl, -⟩, hjudged⟩ := hjudged
    obtain _ | ⟨⟨_, -, rfl, -⟩, hjudged⟩ := hjudged
    obtain _ | ⟨⟨_, -, rfl, -⟩, hjudged⟩ := hjudged
    obtain _ | ⟨⟨_, -, rfl, -⟩, hjudged⟩ := hjudged
    obtain _ | ⟨⟨_, hzeros, -, hreturns⟩, -⟩ := hjudged
    -- each of the exiled IDs has been put with ones
    have hput : ∀ k ∈ exiled, Call.apply (.get 9) (Call.apply (.put 12 ones) (Call.apply
        (.put 8 ones) (Call.apply (.put 7 ones) (Call.apply (.put 6 ones) Store.empty)))) k =
        some ones := by
      simp only [exiled, Finset.mem_insert, Finset.mem_singleton]
      rintro k (rfl | rfl | rfl | rfl)
      · rfl
      · rfl
      · rfl
      · rfl
    have hsame : [zeros] = [ones] := (Except.ok.inj hzeros).trans (hreturns k rfl ones (hput k hk))
    have hbytes := (List.replicate_inj.mp (List.singleton_injective hsame)).2
    exact absurd hbytes (by decide)

end Stale

end ORAM

end CloakQueryPathORAM
