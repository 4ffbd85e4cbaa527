import PathOram.Oram
import PathOram.KeyValue

/-!
# The Path ORAM with bucket MACs

The class `ORAM` of `path_oram_Cloak_Query`, a variant of the one of `PathOram.Oram` that
keeps a MAC of every bucket in memory and fits the payloads of the stash to one length.
The storage and position map adapters of the two variants are the same; the stash adapter
differs in `add` and `update`.

The state extends that of the other variant by the members that were added, so code that is
the same in both runs on the part `baseLens` of the state. The static `key` is a member of
`Config`, next to the HMAC of OpenSSL, which is outside the repository. Timings and the
access counter are left out: no other code reads them.

A `number` shifted by a count of 64 or more is undefined in C++ and taken as the hardware
does, modulo 64. The code does so on the level below the leaves.
-/

namespace CloakQueryPathORAM

open PathORAM Hoare

/-- The const members of an ORAM, and its static `key`. -/
structure Config extends PathORAM.Config where
  /-- `hmac` of `utility.cpp`, as a function of key and input. -/
  hmac : Bytes → Bytes → Bytes
  /-- The key of the MACs. -/
  key : Bytes

/-- The const members that the constructor with automatically created adapters sets, given the
static members. -/
def Config.shorthand (logCapacity blockSize Z : ℕ) (crypto : Crypto)
    (hmac : Bytes → Bytes → Bytes) (key : Bytes) (r : Random) : Except Exception Config := do
  let base ← PathORAM.Config.shorthand logCapacity blockSize Z crypto r
  return { base with hmac := hmac, key := key }

/-- The mutable state of an ORAM over a position map with state `M`. -/
structure ORAM (M : Type) extends PathORAM.ORAM M where
  /-- While set, no MAC is verified. -/
  isInitializing : Bool
  /-- The MAC of each bucket. -/
  macMap : UnorderedMap Bytes
  /-- The IDs that a container was put under. -/
  usedBlockIDs : Finset ℕ

/-- A program on an ORAM. -/
abbrev OramM (M : Type) := EStateM Exception (ORAM M)

/-! ### The stash adapter -/

namespace InMemoryStashAdapter

/-- `resize` of a payload: cut off at the end, or padded with zeros. -/
def resize (size : ℕ) (data : Bytes) : Bytes :=
  data.take size ++ List.replicate (size - data.length) 0

/-- The entry at `stash.begin()`; which one it is, is unspecified. -/
def beginEntry (stash : InMemoryStashAdapter) (r : Random) : Option Block × Random :=
  let (visited, r) := r.iterate stash.toList
  (visited.head?, r)

/-- The payload as it enters the stash, with the length of the entry that the stash
begins with. -/
def adjusted (first : Option Block) (data : Bytes) : Bytes :=
  match first with
  | some entry => resize entry.2.length data
  -- An empty stash takes the payload as it is.
  | none => data

/-- Put a block in the stash; will not override a block with the same ID. -/
def add (capacity : ℕ) (first : Option Block) (block : ℕ) (data : Bytes) :
    EStateM Exception InMemoryStashAdapter Unit := do
  PathORAM.InMemoryStashAdapter.checkOverflow capacity block
  -- Suspicious IDs are skipped.
  if ¬(block = ULONG_MAX ∨ 10 ^ 12 < block) then
    modify (fun stash =>
      if block ∈ stash then stash else stash.insert block (adjusted first data))

/-- Change a block in the stash; will add it if none exists. -/
def update (capacity : ℕ) (first : Option Block) (block : ℕ) (data : Bytes) :
    EStateM Exception InMemoryStashAdapter Unit := do
  PathORAM.InMemoryStashAdapter.checkOverflow capacity block
  modify (fun stash => AList.insert block (adjusted first data) stash)

end InMemoryStashAdapter

namespace ORAM

variable {M : Type}

/-! ### The components of the state -/

/-- The members that both variants have. -/
def baseLens : Lens (ORAM M) (PathORAM.ORAM M) where
  get s := s.toORAM
  set base s := { s with toORAM := base }
  get_set _ _ := rfl

/-- The storage adapter. -/
def storageLens : Lens (ORAM M) Storage where
  get s := s.storage
  set storage s := { s with storage := storage }
  get_set _ _ := rfl

/-- The position map adapter. -/
def mapLens : Lens (ORAM M) M where
  get s := s.map
  set map s := { s with map := map }
  get_set _ _ := rfl

/-- The stash adapter. -/
def stashLens : Lens (ORAM M) InMemoryStashAdapter where
  get s := s.stash
  set stash s := { s with stash := stash }
  get_set _ _ := rfl

/-- Use the random source. -/
def withRandom {α : Type} (f : Random → α × Random) : OramM M α :=
  modifyGet (fun s => ((f s.random).1, { s with random := (f s.random).2 }))

/-! ### Tree arithmetic -/

/-- `n >> count` of a `number`. -/
def shr (n count : ℕ) : ℕ := n >>> (count % 64)

/-- `n << count` of a `number`. -/
def shl (n count : ℕ) : ℕ := (n <<< (count % 64)) % 2 ^ 64

/-- The location of the bucket of a path on a level. -/
def bucketForLevelLeaf (height level leaf : ℕ) : ℕ :=
  -- On the level `height` the difference wraps around.
  shr ((leaf + intShl (height - 1)) % 2 ^ 64) ((height + 2 ^ 64 - 1 - level) % 2 ^ 64)

/-- Whether two paths share the bucket of a level. -/
def canInclude (height pathLeaf blockPosition level : ℕ) : Bool :=
  bucketForLevelLeaf height level pathLeaf == bucketForLevelLeaf height level blockPosition

/-- The loop of `getCache` that looks for a level and a leaf whose bucket is `bucketId`. It
makes at most `fuel` steps, which the height bounds. -/
def searchBucket (height bucketId : ℕ) : ℕ → ℕ → ℕ → ℕ × ℕ
  | 0, level, leaf => (level, leaf)
  | fuel + 1, level, leaf =>
    -- The ID takes the place of the leaf here.
    if bucketForLevelLeaf height level bucketId ≠ bucketId ∧ level < height then
      searchBucket height bucketId fuel (level + 1)
        (shl bucketId ((height + 2 ^ 64 - (level + 1) - 1) % 2 ^ 64))
    else
      (level, leaf)

/-- The loop of `readPath` that looks for the level of a bucket of a path. -/
def searchLevel (height bucketId leaf : ℕ) : ℕ → ℕ → ℕ
  | 0, level => level
  | fuel + 1, level =>
    if bucketForLevelLeaf height level leaf ≠ bucketId ∧ level < height then
      searchLevel height bucketId leaf fuel (level + 1)
    else
      level

section Operations

variable (c : Config)

/-! ### The stash -/

/-- `add` of the stash adapter. -/
def stashAdd (block : ℕ) (data : Bytes) : OramM M Unit := do
  let s ← get
  let first ← withRandom (InMemoryStashAdapter.beginEntry s.stash)
  zoom stashLens (InMemoryStashAdapter.add c.stashCapacity first block data)

/-- `update` of the stash adapter. -/
def stashUpdate (block : ℕ) (data : Bytes) : OramM M Unit := do
  let s ← get
  let first ← withRandom (InMemoryStashAdapter.beginEntry s.stash)
  zoom stashLens (InMemoryStashAdapter.update c.stashCapacity first block data)

/-! ### Bucket MACs -/

/-- The MAC of the first `Z` payloads of a bucket. -/
def bucketMAC (bucketData : Bucket) : Bytes :=
  c.hmac c.key ((bucketData.take c.Z).flatMap Prod.snd)

/-- Compute the MAC of a bucket and store it in the map. -/
def computeAndStoreBucketMAC (level leaf : ℕ) (bucketData : Bucket) : OramM M Unit :=
  modify (fun s => { s with
    macMap := s.macMap.insert (bucketForLevelLeaf c.height level leaf) (bucketMAC c bucketData) })

/-- Verify the MAC of a bucket. -/
def verifyBucketMAC (level leaf : ℕ) (bucketData : Bucket) : OramM M Bool := do
  let bucketId := bucketForLevelLeaf c.height level leaf
  let s ← get
  -- During initialization the verification is skipped.
  if s.isInitializing then
    return true
  match s.macMap.lookup bucketId with
  | none => throw (.macNotFound bucketId)
  | some _storedMAC =>
    let computedMAC := bucketMAC c bucketData
    -- The code compares the computed MAC with itself.
    if computedMAC ≠ computedMAC then
      throw .macMismatch
    return true

/-- Verify a bucket, and throw if it fails. -/
def checkBucket (bucketId level leaf : ℕ) (bucketData : Bucket) : OramM M Unit := do
  let ok ← verifyBucketMAC c level leaf bucketData
  if !ok then
    throw (.bucketCheckFailed bucketId)

/-! ### The cache -/

/-- Cut the downloaded blocks to buckets of `Z`, verify each and add it to the cache. -/
def addToCache (toGet : List ℕ) : List Block → ℕ → Bucket → OramM M Unit
  | [], _, _ => return
  | block :: rest, i, bucket => do
    -- The bucket is complete with this block.
    if i % c.Z = c.Z - 1 then
      let bucketId := toGet.getD (i / c.Z) 0
      let (level, leaf) := searchBucket c.height bucketId c.height 0 0
      checkBucket c bucketId level leaf (bucket ++ [block])
      modify (fun s => { s with cache := s.cache.insert bucketId (bucket ++ [block]) })
      addToCache toGet rest (i + 1) []
    else
      addToCache toGet rest (i + 1) (bucket ++ [block])

/-- GET requests through the cache: on a miss the bucket is downloaded, verified and
cached. -/
def getCache (locations : List ℕ) (response : List Block) (dryRun : Bool) :
    OramM M (List Block) := do
  let visited ← withRandom (Random.iterate locations)
  let s ← get
  let (toGet, response) := PathORAM.ORAM.lookupCache s.cache dryRun visited [] response
  if toGet.length > 0 then
    let downloaded ← zoom storageLens (AbsStorageAdapter.get c.storage c.crypto toGet)
    addToCache c toGet downloaded 0 []
    return if dryRun then response else response ++ downloaded
  else
    return response

/-- SET requests to the cache. -/
def setCache (requests : List (ℕ × Bucket)) : OramM M Unit :=
  zoom baseLens (PathORAM.ORAM.setCache requests)

/-- Upload all cache content to the storage and empty the cache. -/
def syncCache : OramM M Unit :=
  zoom baseLens (PathORAM.ORAM.syncCache c.toConfig)

/-! ### Paths -/

/-- The locations of a path, inserted to the set `path`. -/
def pathLocations (leaf : ℕ) (path : List ℕ) : List ℕ :=
  (List.range c.height).foldl
    (fun path level => path.insert (bucketForLevelLeaf c.height level leaf)) path

/-- Put blocks in the stash, skipping the "empty" ones. -/
def addToStash : List Block → OramM M Unit
  | [] => return
  | block :: rest => do
    if block.1 ≠ ULONG_MAX then
      stashAdd c block.1 block.2
    addToStash rest

/-- Verify the buckets of a path in the cache. -/
def verifyPath (leaf : ℕ) : List ℕ → OramM M Unit
  | [] => return
  | bucketId :: rest => do
    -- `cache[bucketId]` adds an empty bucket where there is none.
    modify (fun s => { s with
      cache := if bucketId ∈ s.cache then s.cache else s.cache.insert bucketId [] })
    let s ← get
    let bucketData := (s.cache.lookup bucketId).getD []
    checkBucket c bucketId (searchLevel c.height bucketId leaf c.height 0) leaf bucketData
    verifyPath leaf rest

/-- Collect the locations of a path and, if `putInStash`, put its blocks in the stash and
verify its buckets. -/
def readPath (leaf : ℕ) (path : List ℕ) (putInStash : Bool) : OramM M (List ℕ) := do
  let path := pathLocations c leaf path
  if putInStash then
    let blocks ← getCache c path [] false
    addToStash c blocks
    let visited ← withRandom (Random.iterate path)
    verifyPath c leaf visited
  return path

section Eviction

variable (pm : AbsPositionMapAdapter M)

/-- Select the blocks of the current stash that fit in the bucket of `level`. -/
def selectBlocks (leaf level : ℕ) : List Block → ℕ → PathORAM.ORAM.Selection →
    OramM M PathORAM.ORAM.Selection
  | [], _, sel => return sel
  | entry :: rest, i, sel => do
    -- Empty blocks and blocks of another size stay in the stash.
    if entry.1 = ULONG_MAX ∨ entry.2.length ≠ c.dataSize then
      selectBlocks leaf level rest (i + 1) sel
    else
      let entryLeaf ← zoom mapLens (pm.get entry.1)
      if canInclude c.height entryLeaf leaf level then
        let sel : PathORAM.ORAM.Selection :=
          ⟨sel.toInsert ++ [entry], sel.toDelete ++ [toInt entry.1], sel.toDeleteLocal ++ [i]⟩
        if sel.toInsert.length = c.Z then
          return sel
        else
          selectBlocks leaf level rest (i + 1) sel
      else
        selectBlocks leaf level rest (i + 1) sel

/-- The loop from level `levels - 1` to the root. Returns the SET requests and the
records to delete. -/
def evictLevels (leaf : ℕ) : ℕ → List Block → List (BitVec 32) → List (ℕ × Bucket) →
    OramM M (List (ℕ × Bucket) × List (BitVec 32))
  | 0, _, toDelete, requests => return (requests, toDelete)
  | level + 1, currentStash, toDelete, requests => do
    let sel ← selectBlocks c pm leaf level currentStash 0 ⟨[], toDelete, []⟩
    let currentStash := (sel.toDeleteLocal.mergeSort (· ≥ ·)).foldl List.eraseIdx currentStash
    let bucketId := bucketForLevelLeaf c.height level leaf
    let bucketData ← zoom baseLens (PathORAM.ORAM.fillBucket c.toConfig c.Z sel.toInsert)
    computeAndStoreBucketMAC c level leaf bucketData
    -- Verify the bucket before it is written back.
    checkBucket c bucketId level leaf bucketData
    evictLevels leaf level currentStash sel.toDelete (requests ++ [(bucketId, bucketData)])

/-- Write a path using the blocks from the stash. -/
def writePath (leaf : ℕ) : OramM M Unit := do
  let s ← get
  let currentStash ← withRandom (PathORAM.InMemoryStashAdapter.getAll s.stash [])
  let (requests, toDelete) ← evictLevels c pm leaf c.height currentStash [] []
  setCache requests
  modify (fun s => { s with
    stash := toDelete.foldl (fun stash removed =>
      PathORAM.InMemoryStashAdapter.deleteBlock (ofInt removed) stash) s.stash })

/-! ### Public interface -/

/-- Perform a single access, read or write. -/
def access (read : Bool) (block : ℕ) (data response : Bytes) : OramM M Bytes := do
  -- Remap the block.
  let previousPosition ← zoom mapLens (pm.get block)
  let leaf ← withRandom (Random.getRandomULong (intShl (c.height - 1)))
  zoom mapLens (pm.set block leaf)
  -- Read the path to the stash.
  let _ ← readPath c previousPosition [] true
  -- A write replaces what was read.
  if !read then
    stashUpdate c block data
  let s ← get
  let response := PathORAM.InMemoryStashAdapter.get s.stash block response
  writePath c pm previousPosition
  return response

/-- Retrieve a block. -/
def getBlock (block : ℕ) (response : Bytes) : OramM M Bytes := do
  let response ← access c pm true block [] response
  syncCache c
  return response

/-- Put a block. -/
def putBlock (block : ℕ) (data : Bytes) : OramM M Unit := do
  let _ ← access c pm false block data []
  syncCache c

/-- Run the protocol for every request. -/
def accessAll : List Block → List Bytes → OramM M (List Bytes)
  | [], _ => return []
  | request :: requests, responses => do
    let response ← access c pm (request.2.length == 0) request.1 request.2
      (responses.headD [])
    let rest ← accessAll requests responses.tail
    return response :: rest

/-- Process multiple requests at a time. -/
def multiple (requests : List Block) (response : List Bytes) : OramM M (List Bytes) := do
  if c.batchSize < requests.length then
    throw (.tooManyRequests requests.length c.batchSize)
  -- Populate cache.
  let locations ← requests.foldlM (fun locations request => do
    let leaf ← zoom mapLens (pm.get request.1)
    readPath c leaf locations false) []
  let _ ← getCache c locations [] true
  -- Run ORAM protocol (will use cache).
  let response ← accessAll c pm requests (response.takeD requests.length [])
  -- Upload resulting new data.
  syncCache c
  return response

/-- A call, with an empty response buffer. -/
def exec : Call → OramM M (List Bytes)
  | .get block => (fun response => [response]) <$> getBlock c pm block []
  | .put block data => (fun _ => []) <$> putBlock c pm block data
  | .multiple requests => multiple c pm requests []

/-! ### Construction -/

/-- Set all available locations to `Z` empty blocks of zeros. -/
def fillWithZeroes (s : Storage) (r : Random) : AbsStorageAdapter.SetResult :=
  AbsStorageAdapter.set c.storage c.crypto ((List.range c.storage.capacity).map
    (fun i => (i, List.replicate c.storage.Z
      (ULONG_MAX, List.replicate c.storage.userBlockSize 0)))) s r

/-- The constructor `ORAM::ORAM`. -/
def new (init : Bool) : OramM M Unit := do
  modify (fun s => { s with isInitializing := init })
  if init then
    -- Fill all blocks with zeros, marks them as "empty".
    zoom baseLens (PathORAM.ORAM.storageSet (fillWithZeroes c) (fun _ s => s))
    -- Generate random position map.
    (List.range c.blocks).forM (fun i => do
      let leaf ← withRandom (Random.getRandomULong (intShl (c.height - 1)))
      zoom mapLens (pm.set i leaf))

end Eviction

/-- Compute and store the MAC of one bucket. -/
def computeAndStoreMAC (level bucketIndex : ℕ) : OramM M Unit := do
  let leaf := shl bucketIndex ((c.height + 2 ^ 64 - level - 1) % 2 ^ 64)
  let bucketId := bucketForLevelLeaf c.height level leaf
  let bucketBlocks ← getCache c [bucketId] [] false
  computeAndStoreBucketMAC c level leaf bucketBlocks
  setCache [(bucketId, bucketBlocks)]

/-- Compute and store the MACs of all buckets. The loop over the levels goes one level
below the leaves. -/
def computeAndStoreAllBucketMACs : OramM M Unit := do
  (List.range (c.height + 1)).forM (fun level =>
    (List.range (intShl level)).forM (computeAndStoreMAC c level))
  syncCache c
  modify (fun s => { s with isInitializing := false })

end Operations

end ORAM

/-! ### The ORAM-backed position map -/

/-- A position map kept in the ORAM `c` over the position map `pm`. -/
def ORAMPositionMapAdapter.adapter {M : Type} (c : Config) (pm : AbsPositionMapAdapter M) :
    AbsPositionMapAdapter (ORAM M) where
  get block := do
    let returned ← ORAM.getBlock c pm block []
    -- The buffer is read as a number, however many bytes it has.
    let garbage ← ORAM.withRandom (Random.getRandomBlock 8)
    return PathORAM.ORAMPositionMapAdapter.readLeaf returned garbage
  set block leaf := ORAM.putBlock c pm block (PathORAM.ORAMPositionMapAdapter.leafBytes leaf)

end CloakQueryPathORAM
