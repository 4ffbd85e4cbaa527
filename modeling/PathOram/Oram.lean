import PathOram.StorageAdapter
import PathOram.StashAdapter
import PathOram.PositionMapAdapter

/-!
# The Path ORAM

The class `ORAM` of `oram.cpp` and the position map that is itself backed by an ORAM.

The const members of the class and of its adapters are the `Config`, the parameter `c`
of every operation; the mutable members are the state `ORAM M`, generic in the state
`M` of the position map `pm`. An operation is a program of `OramM M`, so the state it
leaves behind when it throws is part of its meaning.

Loops are recursions over the list or the range they run through, in the order of the
source. The loop over the requests of `multiple` has a 32-bit counter in the source;
request vectors are taken to be shorter than that. `load` computes `step` as the exact
rational and the base-2 logarithm as its exact floor.
-/

namespace PathORAM

open Hoare

/-- The const members of an ORAM and of its storage and stash adapters. -/
structure Config where
  /-- Size of the usable portion of the block in bytes. -/
  dataSize : ℕ
  /-- Number of blocks per bucket. -/
  Z : ℕ
  /-- Number of tree levels. -/
  height : ℕ
  /-- A max number of requests to process at a time. -/
  batchSize : ℕ
  /-- The storage adapter. -/
  storage : StorageConfig
  /-- The capacity of the stash adapter. -/
  stashCapacity : ℕ
  /-- The cipher. -/
  crypto : Crypto

/-- Total number of blocks. -/
def Config.blocks (c : Config) : ℕ := 2 ^ c.height * c.Z % 2 ^ 64

/-- The const members that the constructor with automatically created adapters sets. No key
is given, so the storage adapter draws one. -/
def Config.shorthand (logCapacity blockSize Z : ℕ) (crypto : Crypto) (r : Random) :
    Except Exception Config := do
  let storage ← StorageConfig.new (intShl logCapacity) blockSize [] Z 0 r
  return {
    dataSize := blockSize
    Z := Z
    height := logCapacity
    batchSize := 1
    storage := storage
    stashCapacity := 3 * logCapacity * Z % 2 ^ 64
    crypto := crypto }

/-- The mutable state of an ORAM over a position map with state `M`. -/
structure ORAM (M : Type) where
  storage : Storage
  map : M
  stash : InMemoryStashAdapter
  /-- Buckets held in memory and unencrypted. -/
  cache : UnorderedMap Bucket
  random : Random
  /-- Ghost: how often `get` was called. -/
  gets : ℕ
  /-- Ghost: how often `put` was called. -/
  puts : ℕ

/-- A program on an ORAM. -/
abbrev OramM (M : Type) := EStateM Exception (ORAM M)

namespace ORAM

variable {M : Type}

/-! ### The components of the state -/

/-- The storage adapter. -/
def storageLens : Lens (ORAM M) Storage where
  get s := s.storage
  set storage s := { s with storage := storage }
  get_set _ _ := rfl

/-- The position map adapter. -/
def mapLens : Lens (ORAM M) M where
  get s := s.map
  set map s := { s with map := map }
  get_set _ _ := rfl

/-- The stash adapter. -/
def stashLens : Lens (ORAM M) InMemoryStashAdapter where
  get s := s.stash
  set stash s := { s with stash := stash }
  get_set _ _ := rfl

/-- Use the random source. -/
def withRandom {α : Type} (f : Random → α × Random) : OramM M α :=
  modifyGet (fun s => ((f s.random).1, { s with random := (f s.random).2 }))

/-- A batch `set` on the storage adapter. `put` stores the range that the adapter
iterated, and padded, back to where it came from. -/
def storageSet (f : Storage → Random → AbsStorageAdapter.SetResult)
    (put : List (ℕ × Bucket) → ORAM M → ORAM M) : OramM M Unit := fun s =>
  let r := f s.storage s.random
  -- The range, the storage and the random source are left as they are at the throw.
  let s := put r.requests { s with storage := r.storage, random := r.random }
  match r.result with
  | .ok () => .ok () s
  | .error e => .error e s

/-! ### Tree arithmetic -/

/-- The location of the bucket of a path on a level. -/
def bucketForLevelLeaf (height level leaf : ℕ) : ℕ :=
  ((leaf + intShl (height - 1)) % 2 ^ 64) >>> (height - 1 - level)

/-- Whether two paths share the bucket of a level. -/
def canInclude (height pathLeaf blockPosition level : ℕ) : Bool :=
  bucketForLevelLeaf height level pathLeaf == bucketForLevelLeaf height level blockPosition

/-- The inclusive range of leaves whose path runs through a location. -/
def leavesForLocation (height location : ℕ) : Except Exception (ℕ × ℕ) :=
  let level := Nat.log2 location
  -- The difference of two unsigned numbers, and then a shift of an `int`.
  let toLeaves := (height + 2 ^ 64 - level - 1) % 2 ^ 64
  if 32 ≤ toLeaves then .error (.outOfRangeShift toLeaves)
  else .ok
    ((location * intShl toLeaves + 2 ^ 64 - intShl (height - 1)) % 2 ^ 64,
      ((location + 1) * intShl toLeaves + 2 ^ 64 - 1 - intShl (height - 1)) % 2 ^ 64)

/-! ### The cache -/

section Operations

variable (c : Config)

/-- Split the locations to those missing from the cache and the blocks of those
present, which go to the beginning of the response. -/
def lookupCache (cache : UnorderedMap Bucket) (dryRun : Bool) :
    List ℕ → List ℕ → List Block → List ℕ × List Block
  | [], toGet, response => (toGet, response)
  | location :: rest, toGet, response =>
    match cache.lookup location with
    | none => lookupCache cache dryRun rest (toGet ++ [location]) response
    | some bucket =>
      lookupCache cache dryRun rest toGet (if dryRun then response else bucket ++ response)

/-- Cut the downloaded blocks to buckets of `Z` and add them to the cache. -/
def addToCache (toGet : List ℕ) :
    List Block → ℕ → Bucket → UnorderedMap Bucket → UnorderedMap Bucket
  | [], _, _, cache => cache
  | block :: rest, i, bucket, cache =>
    -- The bucket is complete with this block.
    if i % c.Z = c.Z - 1 then
      addToCache toGet rest (i + 1) [] (cache.insert (toGet.getD (i / c.Z) 0) (bucket ++ [block]))
    else
      addToCache toGet rest (i + 1) (bucket ++ [block]) cache

/-- GET requests through the cache: on a miss the bucket is downloaded and cached. -/
def getCache (locations : List ℕ) (response : List Block) (dryRun : Bool) :
    OramM M (List Block) := do
  -- The locations are an `unordered_set`, visited in its own order.
  let visited ← withRandom (Random.iterate locations)
  let s ← get
  let (toGet, response) := lookupCache s.cache dryRun visited [] response
  -- The storage is asked only for what is missing.
  if toGet.length > 0 then
    let downloaded ← zoom storageLens (AbsStorageAdapter.get c.storage c.crypto toGet)
    modify (fun s => { s with cache := addToCache c toGet downloaded 0 [] s.cache })
    return if dryRun then response else response ++ downloaded
  else
    return response

/-- SET requests to the cache. -/
def setCache (requests : List (ℕ × Bucket)) : OramM M Unit :=
  modify (fun s => { s with cache := UnorderedMap.assignAll requests s.cache })

/-- Upload all cache content to the storage and empty the cache. -/
def syncCache : OramM M Unit := do
  let s ← get
  -- All of the cache is uploaded, in the order of the map.
  let entries ← withRandom (Random.iterate s.cache.toList)
  storageSet (AbsStorageAdapter.set c.storage c.crypto entries)
    (fun range s => { s with cache := UnorderedMap.assignAll range s.cache })
  modify (fun s => { s with cache := ∅ })

/-! ### Paths -/

/-- The locations of a path, inserted to the set `path`. -/
def pathLocations (leaf : ℕ) (path : List ℕ) : List ℕ :=
  (List.range c.height).foldl
    (fun path level => path.insert (bucketForLevelLeaf c.height level leaf)) path

/-- Put blocks in the stash, skipping the "empty" ones. -/
def addToStash : List Block → OramM M Unit
  | [] => pure ()
  | block :: rest => do
    -- Skip "empty" buckets.
    if block.1 ≠ ULONG_MAX then
      zoom stashLens (InMemoryStashAdapter.add c.stashCapacity block.1 block.2)
    addToStash rest

/-- Collect the locations of a path and, if `putInStash`, put its blocks in the
stash. -/
def readPath (leaf : ℕ) (path : List ℕ) (putInStash : Bool) : OramM M (List ℕ) := do
  let path := pathLocations c leaf path
  if putInStash then
    let blocks ← getCache c path [] false
    addToStash c blocks
  return path

section Eviction

variable (pm : AbsPositionMapAdapter M)

/-- What the loop over the stash selects for one bucket. -/
structure Selection where
  /-- Blocks to be inserted in the bucket, up to `Z`. -/
  toInsert : List Block
  /-- The records to be deleted from the stash; a `vector<int>`. -/
  toDelete : List (BitVec 32)
  /-- The same blocks as indices in the current stash. -/
  toDeleteLocal : List ℕ

/-- Select the blocks of the current stash that fit in the bucket of `level`. -/
def selectBlocks (leaf level : ℕ) : List Block → ℕ → Selection → OramM M Selection
  | [], _, sel => return sel
  | entry :: rest, i, sel => do
    -- The position map is read again for each block and each level.
    let entryLeaf ← zoom mapLens (pm.get entry.1)
    if canInclude c.height entryLeaf leaf level then
      let sel : Selection :=
        ⟨sel.toInsert ++ [entry], sel.toDelete ++ [toInt entry.1], sel.toDeleteLocal ++ [i]⟩
      if sel.toInsert.length = c.Z then
        return sel
      else
        selectBlocks leaf level rest (i + 1) sel
    else
      selectBlocks leaf level rest (i + 1) sel

/-- Write a bucket: the selected blocks, last one first, then dummies. -/
def fillBucket : ℕ → List Block → OramM M Bucket
  | 0, _ => return []
  | n + 1, toInsert =>
    match toInsert.getLast? with
    | some block => do
      let rest ← fillBucket n toInsert.dropLast
      return block :: rest
    | none => do
      let dummy ← withRandom (Random.getRandomBlock c.dataSize)
      let rest ← fillBucket n []
      return (ULONG_MAX, dummy) :: rest

/-- The loop from level `levels - 1` to the root. Returns the SET requests and the
records to delete. -/
def evictLevels (leaf : ℕ) : ℕ → List Block → List (BitVec 32) → List (ℕ × Bucket) →
    OramM M (List (ℕ × Bucket) × List (BitVec 32))
  | 0, _, toDelete, requests => return (requests, toDelete)
  | level + 1, currentStash, toDelete, requests => do
    let sel ← selectBlocks c pm leaf level currentStash 0 ⟨[], toDelete, []⟩
    -- Largest index first, so that the others stay valid.
    let currentStash := (sel.toDeleteLocal.mergeSort (· ≥ ·)).foldl List.eraseIdx currentStash
    let bucket ← fillBucket c c.Z sel.toInsert
    evictLevels leaf level currentStash sel.toDelete
      (requests ++ [(bucketForLevelLeaf c.height level leaf, bucket)])

/-- Write a path using the blocks from the stash. -/
def writePath (leaf : ℕ) : OramM M Unit := do
  let s ← get
  let currentStash ← withRandom (InMemoryStashAdapter.getAll s.stash [])
  let (requests, toDelete) ← evictLevels c pm leaf c.height currentStash [] []
  setCache requests
  modify (fun s => { s with
    stash := toDelete.foldl (fun stash removed =>
      InMemoryStashAdapter.deleteBlock (ofInt removed) stash) s.stash })

/-! ### Public interface -/

/-- Perform a single access, read or write. -/
def access (read : Bool) (block : ℕ) (data response : Bytes) : OramM M Bytes := do
  -- Remap the block.
  let previousPosition ← zoom mapLens (pm.get block)
  let leaf ← withRandom (Random.getRandomULong (intShl (c.height - 1)))
  zoom mapLens (pm.set block leaf)
  -- Read the path to the stash.
  let _ ← readPath c previousPosition [] true
  -- A write replaces what was read.
  if !read then
    zoom stashLens (InMemoryStashAdapter.update c.stashCapacity block data)
  let s ← get
  let response := InMemoryStashAdapter.get s.stash block response
  writePath c pm previousPosition
  return response

/-- Retrieve a block. -/
def getBlock (block : ℕ) (response : Bytes) : OramM M Bytes := do
  modify (fun s => { s with gets := s.gets + 1 })
  let response ← access c pm true block [] response
  syncCache c
  return response

/-- Put a block. -/
def putBlock (block : ℕ) (data : Bytes) : OramM M Unit := do
  modify (fun s => { s with puts := s.puts + 1 })
  let _ ← access c pm false block data []
  syncCache c

/-- Run the protocol for every request. -/
def accessAll : List Block → List Bytes → OramM M (List Bytes)
  | [], _ => return []
  | request :: requests, responses => do
    let response ← access c pm (request.2.length == 0) request.1 request.2
      (responses.headD [])
    let rest ← accessAll requests responses.tail
    return response :: rest

/-- Process multiple requests at a time. -/
def multiple (requests : List Block) (response : List Bytes) : OramM M (List Bytes) := do
  if c.batchSize < requests.length then
    throw (.tooManyRequests requests.length c.batchSize)
  -- Populate cache.
  let locations ← requests.foldlM (fun locations request => do
    let leaf ← zoom mapLens (pm.get request.1)
    readPath c leaf locations false) []
  let _ ← getCache c locations [] true
  -- Run ORAM protocol (will use cache).
  let response ← accessAll c pm requests (response.takeD requests.length [])
  -- Upload resulting new data.
  syncCache c
  return response

end Eviction

/-! ### Bulk load and construction -/

/-- The loop that pads the last bucket. The bound `bucket.size() - Z` is unsigned. -/
def padBucket : ℕ → ℕ → Bucket → Except Exception Bucket
  | 0, _, _ => .error .endlessLoop
  | fuel + 1, i, bucket =>
    if i < (bucket.length + 2 ^ 64 - c.Z) % 2 ^ 64 then
      padBucket fuel ((i + 1) % 2 ^ 32) (bucket ++ [(ULONG_MAX, [])])
    else
      .ok bucket

/-- The location of the `iteration`-th of `bucketCount` buckets. -/
def loadLocation (bucketCount iteration : ℕ) : ℕ :=
  1 + iteration * intShl c.height / bucketCount

/-- The state of the loop over the records. -/
structure LoadState where
  iteration : ℕ
  bucket : Bucket
  writeRequests : List (ℕ × Bucket)

/-- The body of the loop over the records: draw a leaf below the current location, and put
the record in the current bucket. -/
def loadRecord (pm : AbsPositionMapAdapter M) (bucketCount : ℕ) (l : LoadState)
    (record : Block) : OramM M LoadState := do
  -- To disperse locations evenly from 1 to `maxLocation`.
  let location := loadLocation c bucketCount l.iteration
  let (lo, hi) ← liftExcept (leavesForLocation c.height location)
  -- A leaf below the current location, both bounds included.
  let leaf ← withRandom (Random.getRandomULong ((hi + 2 ^ 64 - lo + 1) % 2 ^ 64))
  zoom mapLens (pm.set record.1 ((leaf + lo) % 2 ^ 64))
  let bucket := if l.bucket.length < c.Z then l.bucket ++ [record] else l.bucket
  if bucket.length = c.Z then
    return ⟨l.iteration + 1, [], l.writeRequests ++ [(location, bucket)]⟩
  else
    return ⟨l.iteration, bucket, l.writeRequests⟩

/-- Bulk load the data bypassing the usual ORAM protocol. -/
def load (pm : AbsPositionMapAdapter M) (data : List Block) : OramM M Unit := do
  let maxLocation := intShl c.height
  let bucketCount := (data.length + c.Z - 1) / c.Z
  if maxLocation < bucketCount then
    throw .bulkLoadTooMuch
  -- Shuffle (such bulk load may leak in part the original order).
  let data ← withRandom (Random.shuffle (data.length % 2 ^ 32) data)
  let final ← data.foldlM (loadRecord c pm bucketCount) ⟨0, [], []⟩
  let location := loadLocation c bucketCount final.iteration
  -- The last bucket may be incomplete, and is padded.
  let writeRequests ← if final.bucket.length > 0 then do
      let bucket ← liftExcept (padBucket c (c.Z + 1) 0 final.bucket)
      pure (final.writeRequests ++ [(location, bucket)])
    else
      pure final.writeRequests
  storageSet (AbsStorageAdapter.set c.storage c.crypto writeRequests) (fun _ s => s)

/-- The constructor `ORAM::ORAM`. -/
def new (pm : AbsPositionMapAdapter M) (init : Bool) : OramM M Unit := do
  if init then
    -- Fill all blocks with random bits, marks them as "empty".
    storageSet (AbsStorageAdapter.fillWithZeroes c.storage c.crypto) (fun _ s => s)
    -- Generate random position map.
    (List.range c.blocks).forM (fun i => do
      let leaf ← withRandom (Random.getRandomULong (intShl (c.height - 1)))
      zoom mapLens (pm.set i leaf))

end Operations

end ORAM

/-! ### The ORAM-backed position map -/

namespace ORAMPositionMapAdapter

/-- The bytes of a leaf in memory. -/
def leafBytes (leaf : ℕ) : Bytes := LittleEndian.encode 8 leaf

/-- `((number *)buffer)[0]`. When fewer than 8 bytes were returned the rest of the
number is whatever follows the buffer in memory. -/
def readLeaf (returned garbage : Bytes) : ℕ :=
  LittleEndian.decode ((returned ++ garbage).take 8)

/-- A position map kept in the ORAM `c` over the position map `pm`. -/
def adapter {M : Type} (c : Config) (pm : AbsPositionMapAdapter M) :
    AbsPositionMapAdapter (ORAM M) where
  get block := do
    let returned ← ORAM.getBlock c pm block []
    -- The buffer is read as a number, however many bytes it has.
    let garbage ← ORAM.withRandom (Random.getRandomBlock 8)
    return readLeaf returned garbage
  set block leaf := ORAM.putBlock c pm block (leafBytes leaf)

end ORAMPositionMapAdapter

end PathORAM
