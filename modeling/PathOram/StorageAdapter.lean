import PathOram.Utility

/-!
# The storage adapter

`AbsStorageAdapter` of `storage-adapter.cpp`: an array of encrypted buckets behind a
batch `get` and a batch `set`.

The const members of the class are the `StorageConfig`, whose proof fields are what
the constructor checks, so a configuration with an unusable key or block size cannot
be built. The mutable part is the `Storage`: the raw bytes of every location and, as a
ghost, the calls made to the adapter. The in-memory and the file-system backends both
hold `blockSize` bytes for each location, so one raw array stands for either.

`set` pads the payloads of the range it iterates in place. It does so also on the way
to an exception, so the range it leaves is part of the result (`SetResult`).

`content` is what a `get` of one location returns. The adapter is an array of buckets
in the sense of `get_spec` and `set_spec`.
-/

namespace PathORAM

open Hoare

/-! ### Definitions -/

/-- The const members of a storage adapter. -/
structure StorageConfig where
  /-- AES key. -/
  key : Bytes
  /-- Number of blocks in a bucket. -/
  Z : ℕ
  /-- Maximum number of requests in a backend batch, 0 for no limit. -/
  batchLimit : ℕ
  /-- Number of buckets. -/
  capacity : ℕ
  /-- Number of bytes in the payload portion of a block. -/
  userBlockSize : ℕ
  key_size : key.length = KEYSIZE
  le_userBlockSize : 2 * AES_BLOCK_SIZE ≤ userBlockSize
  dvd_userBlockSize : AES_BLOCK_SIZE ∣ userBlockSize
  Z_pos : 0 < Z

/-- The constructor `AbsStorageAdapter::AbsStorageAdapter`. A key of the wrong size is
replaced by a random one. -/
def StorageConfig.new (capacity userBlockSize : ℕ) (key : Bytes) (Z batchLimit : ℕ)
    (r : Random) : Except Exception StorageConfig :=
  if hsmall : userBlockSize < 2 * AES_BLOCK_SIZE then
    .error (.blockSizeTooSmall userBlockSize)
  else if hmod : userBlockSize % AES_BLOCK_SIZE ≠ 0 then
    .error (.blockSizeNotMultiple userBlockSize)
  else if hZ : Z = 0 then
    .error (.zeroZ Z)
  else
    .ok {
      -- A key of another size is replaced, not refused.
      key := if key.length = KEYSIZE then key else (r.getRandomBlock KEYSIZE).1
      Z := Z
      batchLimit := batchLimit
      capacity := capacity
      userBlockSize := userBlockSize
      key_size := by split <;> simp [*]
      le_userBlockSize := not_lt.mp hsmall
      dvd_userBlockSize := Nat.dvd_of_mod_eq_zero (not_not.mp hmod)
      Z_pos := Nat.pos_of_ne_zero hZ }

/-- A call to the adapter, with the locations it was given. -/
inductive StorageCall where
  | get (locations : List ℕ)
  | set (locations : List ℕ)
  deriving DecidableEq, Repr

/-- The mutable state of a storage adapter. -/
structure Storage where
  /-- The raw bytes of a location: IV and ciphertext. -/
  blocks : ℕ → Bytes
  /-- Ghost: the calls made so far, oldest first. -/
  calls : List StorageCall

/-- Note a call. -/
def Storage.record (s : Storage) (call : StorageCall) : Storage :=
  { s with calls := s.calls ++ [call] }

/-- The consecutive batches of at most `limit` requests the backend receives. -/
def batchesOf {α : Type} (limit : ℕ) : ℕ → List α → List (List α)
  | 0, _ => []
  | fuel + 1, l =>
    if l.length = 0 then [] else l.take limit :: batchesOf limit fuel (l.drop limit)

/-- The batches of a request list: a single one when there is no limit or it is not
exceeded. -/
def StorageConfig.batches {α : Type} (c : StorageConfig) (l : List α) : List (List α) :=
  if l.length = 1 ∨ c.batchLimit = 0 ∨ l.length ≤ c.batchLimit then [l]
  else batchesOf c.batchLimit l.length l

namespace AbsStorageAdapter

section Definitions

variable (c : StorageConfig) (crypto : Crypto)

/-- Throws if a requested location is outside of capacity. -/
def checkCapacity {σ : Type} (location : ℕ) : EStateM Exception σ Unit :=
  if c.capacity ≤ location then throw (.idOutOfBound location c.capacity) else pure ()

/-- Block `i` of a decrypted bucket of blocks of `length` bytes. -/
def decodeBlock (decrypted : Bytes) (length i : ℕ) : Block :=
  -- The ID is the first number of the first AES block; the other 8 bytes of it are zeros.
  (LittleEndian.decode (((decrypted.drop (i * length)).take AES_BLOCK_SIZE).take 8),
    (decrypted.take ((i + 1) * length)).drop (i * length + AES_BLOCK_SIZE))

/-- Decrypt the raw bytes of a location and decompose them to `Z` blocks. -/
def decodeBucket (raw : Bytes) : Except Exception Bucket := do
  let decrypted ← encrypt crypto c.key (raw.take AES_BLOCK_SIZE) (raw.drop AES_BLOCK_SIZE)
    .DECRYPT
  return (List.range c.Z).map (decodeBlock decrypted (decrypted.length / c.Z))

/-- Retrieve the data in batch. -/
def get (locations : List ℕ) : EStateM Exception Storage (List Block) := do
  modify (·.record (.get locations))
  -- All locations are checked before anything is read.
  locations.forM (checkCapacity c)
  let storage ← MonadState.get
  let raws := (c.batches locations).flatMap (·.map storage.blocks)
  raws.foldlM (fun response raw => do
    let blocks ← liftExcept (decodeBucket c crypto raw)
    return response ++ blocks) []

/-- `bytes.resize(size, 0x00)` of a payload that is not longer. -/
def padTo (size : ℕ) (data : Bytes) : Bytes :=
  data ++ List.replicate (size - data.length) 0

/-- The bytes that represent an ID. -/
def idBytes (id : ℕ) : Bytes :=
  padTo AES_BLOCK_SIZE (LittleEndian.encode 8 id)

/-- The loop over the blocks of one request. Returns the blocks as it leaves them,
padded up to the one it throws at, and the bytes to encrypt. -/
def encodeBlocks : Bucket → Bytes → Bucket × Except Exception Bytes
  | [], toEncrypt => ([], .ok toEncrypt)
  | block :: rest, toEncrypt =>
    if c.userBlockSize < block.2.length then
      (block :: rest, .error (.dataTooLong block.2.length c.userBlockSize))
    else
      -- Pad if necessary, in place.
      let data := padTo c.userBlockSize block.2
      let (rest', result) := encodeBlocks rest (toEncrypt ++ idBytes block.1 ++ data)
      ((block.1, data) :: rest', result)

/-- The loop over the requests. Returns the range as it leaves it, the random source,
and the raw writes. -/
def encodeRequests : List (ℕ × Bucket) → Random →
    List (ℕ × Bucket) × Random × Except Exception (List (ℕ × Bytes))
  | [], r => ([], r, .ok [])
  | (location, blocks) :: rest, r =>
    -- The checks come before any byte of the request is encrypted.
    if c.capacity ≤ location then
      ((location, blocks) :: rest, r, .error (.idOutOfBound location c.capacity))
    else if blocks.length ≠ c.Z then
      ((location, blocks) :: rest, r, .error (.notZBlocks c.Z blocks.length))
    else
      match encodeBlocks c blocks [] with
      | (blocks', .error e) => ((location, blocks') :: rest, r, .error e)
      | (blocks', .ok toEncrypt) =>
        -- Every bucket has an IV of its own, which is stored in front of it.
        let (iv, r) := r.getRandomBlock AES_BLOCK_SIZE
        match encrypt crypto c.key iv toEncrypt .ENCRYPT with
        | .error e => ((location, blocks') :: rest, r, .error e)
        | .ok encrypted =>
          let (rest', r, result) := encodeRequests rest r
          ((location, blocks') :: rest', r,
            result.map ((location, iv ++ encrypted) :: ·))

/-- What a batch `set` leaves. -/
structure SetResult where
  storage : Storage
  random : Random
  /-- The range the requests came from, with the payloads padded in place. -/
  requests : List (ℕ × Bucket)
  result : Except Exception Unit

/-- Write the data in batch. -/
def set (requests : List (ℕ × Bucket)) (s : Storage) (r : Random) : SetResult :=
  let s := s.record (.set (requests.map Prod.fst))
  match encodeRequests c crypto requests r with
  | (requests', r, .error e) => ⟨s, r, requests', .error e⟩
  | (requests', r, .ok writes) =>
    -- Nothing is written before the loop has passed all requests.
    let blocks := (c.batches writes).foldl (fun blocks batch => updateAll batch blocks) s.blocks
    ⟨{ s with blocks := blocks }, r, requests', .ok ()⟩

/-- Set all available locations to `Z` empty blocks. -/
def fillWithZeroes (s : Storage) (r : Random) : SetResult :=
  set c crypto ((List.range c.capacity).map
    (fun i => (i, List.replicate c.Z (ULONG_MAX, [])))) s r

/-- What the adapter returns for one location. -/
def content (s : Storage) (location : ℕ) : Bucket :=
  match decodeBucket c crypto (s.blocks location) with
  | .ok blocks => blocks
  | .error _ => []

/-- The raw bytes of a location decode. -/
def Readable (s : Storage) (location : ℕ) : Prop :=
  decodeBucket c crypto (s.blocks location) = .ok (content c crypto s location)

end Definitions

/-! ### Batching -/

theorem flatten_batchesOf {α : Type} {limit : ℕ} (hlimit : 0 < limit) {fuel : ℕ} {l : List α}
    (hfuel : l.length ≤ fuel) : (batchesOf limit fuel l).flatten = l := by
  induction fuel generalizing l with
  | zero =>
    obtain rfl : l = [] := List.length_eq_zero_iff.mp (Nat.le_zero.mp hfuel)
    rfl
  | succ fuel ih =>
    rw [batchesOf]
    split
    · next h => rw [List.length_eq_zero_iff.mp h, List.flatten_nil]
    · next h =>
      have hdrop : (l.drop limit).length ≤ fuel := by
        rw [List.length_drop]
        omega
      rw [List.flatten_cons, ih hdrop, List.take_append_drop]

/-- The backend receives each request exactly once and in order. -/
theorem flatten_batches {α : Type} (c : StorageConfig) (l : List α) :
    (c.batches l).flatten = l := by
  unfold StorageConfig.batches
  split
  · simp
  · next h => exact flatten_batchesOf (by omega) le_rfl

/-- What is answered batch by batch is what is answered to the whole request. -/
theorem flatMap_batches {α β : Type} (c : StorageConfig) (l : List α) (f : α → β) :
    (c.batches l).flatMap (·.map f) = l.map f := by
  rw [List.flatMap_def, ← List.map_flatten, flatten_batches]

theorem foldl_updateAll {β : Type} (batches : List (List (ℕ × β))) (f : ℕ → β) :
    batches.foldl (fun f batch => updateAll batch f) f = updateAll batches.flatten f := by
  unfold updateAll
  rw [List.foldl_flatten]

/-! ### The codec of a bucket -/

section Codec

variable {c : StorageConfig} {crypto : Crypto}

/-- The payloads of a bucket, padded. -/
def padded (c : StorageConfig) (blocks : Bucket) : Bucket :=
  blocks.map (fun block => (block.1, padTo c.userBlockSize block.2))

/-- The plaintext of one block. -/
def blockBytes (c : StorageConfig) (block : Block) : Bytes :=
  idBytes block.1 ++ padTo c.userBlockSize block.2

theorem length_padTo {size : ℕ} {data : Bytes} (h : data.length ≤ size) :
    (padTo size data).length = size := by
  unfold padTo
  rw [List.length_append, List.length_replicate]
  omega

/-- A payload that fills its block is not padded. -/
theorem padTo_of_le {size : ℕ} {data : Bytes} (h : size ≤ data.length) :
    padTo size data = data := by
  rw [padTo, Nat.sub_eq_zero_of_le h, List.replicate_zero, List.append_nil]

/-- Nor is a bucket of such payloads. -/
theorem padded_eq_self {bucket : Bucket} (h : ∀ e ∈ bucket, e.2.length = c.userBlockSize) :
    padded c bucket = bucket := by
  refine (List.map_congr_left fun e he => ?_).trans (List.map_id bucket)
  rw [padTo_of_le (h e he).ge]
  rfl

@[simp] theorem length_idBytes (id : ℕ) : (idBytes id).length = AES_BLOCK_SIZE :=
  length_padTo (by rw [LittleEndian.length_encode]; decide)

theorem length_blockBytes {block : Block} (h : block.2.length ≤ c.userBlockSize) :
    (blockBytes c block).length = AES_BLOCK_SIZE + c.userBlockSize := by
  unfold blockBytes
  rw [List.length_append, length_idBytes, length_padTo h]

theorem length_flatMap_blockBytes {blocks : Bucket}
    (h : ∀ block ∈ blocks, block.2.length ≤ c.userBlockSize) :
    (blocks.flatMap (blockBytes c)).length =
      blocks.length * (AES_BLOCK_SIZE + c.userBlockSize) := by
  induction blocks with
  | nil => simp
  | cons block blocks ih =>
    rw [List.flatMap_cons, List.length_append, length_blockBytes (h _ List.mem_cons_self),
      ih (fun b hb => h b (List.mem_cons_of_mem _ hb)), List.length_cons, Nat.succ_mul,
      Nat.add_comm]

/-- Block `i` of a concatenation starts at `i` times the block length. -/
theorem drop_flatMap_blockBytes {blocks : Bucket}
    (h : ∀ block ∈ blocks, block.2.length ≤ c.userBlockSize) (i : ℕ) :
    (blocks.flatMap (blockBytes c)).drop (i * (AES_BLOCK_SIZE + c.userBlockSize)) =
      (blocks.drop i).flatMap (blockBytes c) := by
  induction i generalizing blocks with
  | zero => simp
  | succ i ih =>
    cases blocks with
    | nil => simp
    | cons block blocks =>
      have hlen := length_blockBytes (h block List.mem_cons_self)
      rw [List.flatMap_cons, Nat.succ_mul, Nat.add_comm, ← List.drop_drop,
        List.drop_left' hlen, List.drop_succ_cons]
      exact ih (fun b hb => h b (List.mem_cons_of_mem _ hb))

/-- **Decoding a block gives back its id and its padded payload.** -/
theorem decodeBlock_flatMap {blocks : Bucket}
    (h : ∀ block ∈ blocks, block.2.length ≤ c.userBlockSize) {i : ℕ} (hi : i < blocks.length)
    (hid : blocks[i].1 < 2 ^ 64) :
    decodeBlock (blocks.flatMap (blockBytes c)) (AES_BLOCK_SIZE + c.userBlockSize) i =
      (blocks[i].1, padTo c.userBlockSize blocks[i].2) := by
  -- The concatenation is cut in front of block `i`, where its ID stands.
  have hlen := h blocks[i] (List.getElem_mem hi)
  have hdrop := drop_flatMap_blockBytes h i
  rw [List.drop_eq_getElem_cons hi, List.flatMap_cons] at hdrop
  have hencode : (LittleEndian.encode 8 blocks[i].1).length = 8 :=
    LittleEndian.length_encode 8 _
  unfold decodeBlock
  refine Prod.ext ?_ ?_
  -- The ID is read from the first 8 of its 16 bytes, and zeros follow.
  · change LittleEndian.decode _ = _
    rw [List.take_take, hdrop]
    unfold blockBytes idBytes padTo
    rw [show min 8 AES_BLOCK_SIZE = 8 from rfl, List.append_assoc, List.append_assoc]
    exact LittleEndian.decode_take_encode_append (by norm_num; omega) _
  -- The payload is what stands between the ID and the next block.
  · change List.drop _ _ = _
    rw [List.drop_take, ← List.drop_drop, hdrop]
    unfold blockBytes
    rw [List.append_assoc, List.drop_left' (length_idBytes _), Nat.succ_mul]
    exact List.take_left' (by rw [length_padTo hlen]; omega)

/-- **The codec round trip**: what is encrypted for a bucket decodes to it, padded. -/
theorem decodeBucket_encrypt (hcrypto : crypto.Lawful) {blocks : Bucket} {iv : Bytes}
    (hlength : blocks.length = c.Z) (hids : ∀ block ∈ blocks, block.1 < 2 ^ 64)
    (hdata : ∀ block ∈ blocks, block.2.length ≤ c.userBlockSize)
    (hiv : iv.length = AES_BLOCK_SIZE) :
    ∃ encrypted, encrypt crypto c.key iv (blocks.flatMap (blockBytes c)) .ENCRYPT =
        .ok encrypted ∧
      decodeBucket c crypto (iv ++ encrypted) = .ok (padded c blocks) := by
  have hlen := length_flatMap_blockBytes hdata
  rw [hlength] at hlen
  -- The plaintext is a multiple of the AES block size, as both parts of a block are.
  have hpos : (blocks.flatMap (blockBytes c)).length ≠ 0 := by
    rw [hlen]
    exact (Nat.mul_pos c.Z_pos (by unfold AES_BLOCK_SIZE; omega)).ne'
  have hdvd : AES_BLOCK_SIZE ∣ (blocks.flatMap (blockBytes c)).length := by
    rw [hlen]
    exact (Nat.dvd_add (dvd_refl _) c.dvd_userBlockSize).mul_left _
  obtain ⟨encrypted, hencrypt, -, hdecrypt⟩ :=
    Crypto.decrypt_encrypt hcrypto c.key_size hiv hpos hdvd
  refine ⟨encrypted, hencrypt, ?_⟩
  unfold decodeBucket
  rw [List.take_left' hiv, List.drop_left' hiv, hdecrypt]
  change Except.ok _ = Except.ok _
  -- `get` finds the length of a block by division, which comes out even.
  rw [hlen, Nat.mul_div_cancel_left _ c.Z_pos]
  refine congrArg Except.ok (List.ext_getElem ?_ ?_)
  · simp [padded, hlength]
  · intro i hi _
    have hi' : i < blocks.length := by simpa [hlength] using hi
    have hblock := decodeBlock_flatMap hdata hi' (hids _ (List.getElem_mem hi'))
    simpa [padded] using hblock

/-- A decoded bucket has `Z` blocks, and their ids are 64-bit numbers. -/
theorem of_decodeBucket {raw : Bytes} {bucket : Bucket}
    (h : decodeBucket c crypto raw = .ok bucket) :
    bucket.length = c.Z ∧ ∀ block ∈ bucket, block.1 < 2 ^ 64 := by
  unfold decodeBucket at h
  cases hd : encrypt crypto c.key (raw.take AES_BLOCK_SIZE) (raw.drop AES_BLOCK_SIZE)
      .DECRYPT with
  | error e =>
    rw [hd] at h
    exact absurd h (by intro h; cases h)
  | ok decrypted =>
    rw [hd] at h
    obtain rfl := Except.ok.inj h
    -- An ID is read from at most 8 bytes.
    refine ⟨by simp, fun block hblock => ?_⟩
    obtain ⟨i, -, rfl⟩ := List.mem_map.mp hblock
    have hle : (((decrypted.drop (i * (decrypted.length / c.Z))).take AES_BLOCK_SIZE).take
        8).length ≤ 8 := List.length_take_le _ _
    calc (decodeBlock decrypted (decrypted.length / c.Z) i).1
        < 256 ^ _ := LittleEndian.decode_lt _
      _ ≤ 256 ^ 8 := Nat.pow_le_pow_right (by norm_num) hle
      _ = 2 ^ 64 := by norm_num

theorem Readable.length {s : Storage} {location : ℕ} (h : Readable c crypto s location) :
    (content c crypto s location).length = c.Z :=
  (of_decodeBucket h).1

theorem content_of_decodeBucket {s : Storage} {location : ℕ} {bucket : Bucket}
    (h : decodeBucket c crypto (s.blocks location) = .ok bucket) :
    content c crypto s location = bucket := by
  unfold content
  rw [h]

theorem readable_of_decodeBucket {s : Storage} {location : ℕ} {bucket : Bucket}
    (h : decodeBucket c crypto (s.blocks location) = .ok bucket) :
    Readable c crypto s location := by
  unfold Readable
  rw [content_of_decodeBucket h, h]

/-- What is read at a location depends on its raw bytes only. -/
theorem content_congr {s s' : Storage} {location : ℕ}
    (h : s'.blocks location = s.blocks location) :
    content c crypto s' location = content c crypto s location := by
  unfold content
  rw [h]

theorem Readable.congr {s s' : Storage} {location : ℕ} (hread : Readable c crypto s location)
    (h : s'.blocks location = s.blocks location) : Readable c crypto s' location := by
  unfold Readable at hread ⊢
  rw [content_congr h, h, hread]

end Codec

/-! ### What `get` does -/

section Get

variable {c : StorageConfig} {crypto : Crypto}

theorem wp_checkCapacity {σ : Type} {location : ℕ} {s : σ} {Q : Unit → σ → Prop}
    {E : Exception → σ → Prop} (h : location < c.capacity) (hQ : Q () s) :
    wp (checkCapacity c location) Q E s := by
  unfold checkCapacity
  rw [if_neg (not_le.mpr h)]
  exact wp_pure hQ

/-- **`get` returns the contents of the locations, in order**, and only notes the
call. -/
theorem get_spec {s : Storage} {locations : List ℕ} {Q : List Block → Storage → Prop}
    {E : Exception → Storage → Prop} (hread : ∀ location ∈ locations, Readable c crypto s location)
    (hlt : ∀ location ∈ locations, location < c.capacity)
    (hQ : Q (locations.flatMap (content c crypto s)) (s.record (.get locations))) :
    wp (get c crypto locations) Q E s := by
  unfold get
  refine wp_bind (wp_modify ?_)
  -- All locations are inside the capacity, so the checks pass and change nothing.
  have hchecks : wp (locations.forM (checkCapacity c))
      (fun _ s' => s' = s.record (.get locations)) E (s.record (.get locations)) := by
    refine wp_mono (wp_forM (E := E) (fun rest s' => s' = s.record (.get locations) ∧
      ∀ location ∈ rest, location < c.capacity) ?_ locations _ ⟨rfl, hlt⟩)
      (fun _ _ h => h.1) (fun _ _ h => h)
    rintro location rest s' ⟨rfl, hrest⟩
    exact wp_checkCapacity (hrest location List.mem_cons_self)
      ⟨rfl, fun l hl => hrest l (List.mem_cons_of_mem _ hl)⟩
  refine wp_bind (wp_mono hchecks ?_ (fun _ _ h => h))
  rintro ⟨⟩ _ rfl
  refine wp_bind (wp_get ?_)
  -- The batches together are the list of locations.
  have hraws : (c.batches locations).flatMap (·.map (s.record (.get locations)).blocks) =
      locations.map s.blocks := flatMap_batches c locations _
  rw [hraws]
  -- The invariant of the decoding loop: the rest of the locations is still to be appended.
  refine wp_mono (wp_foldlM (E := E) (fun raws response s' => s' = s.record (.get locations) ∧
    ∃ rest, raws = rest.map s.blocks ∧ (∀ location ∈ rest, Readable c crypto s location) ∧
      response ++ rest.flatMap (content c crypto s) =
        locations.flatMap (content c crypto s)) ?_ _ _ _
    ⟨rfl, locations, rfl, hread, List.nil_append _⟩) ?_ (fun _ _ h => h)
  -- One raw value is decoded, and its blocks are appended.
  · rintro raw raws response s' ⟨rfl, rest, hrest, hread', hresp⟩
    cases rest with
    | nil => exact absurd hrest (by simp)
    | cons location rest =>
      rw [List.map_cons, List.cons.injEq] at hrest
      obtain ⟨rfl, rfl⟩ := hrest
      refine wp_bind (wp_liftExcept_ok (hread' location List.mem_cons_self) ?_)
      refine wp_pure ⟨rfl, rest, rfl, fun l hl => hread' l (List.mem_cons_of_mem _ hl), ?_⟩
      rw [List.append_assoc, ← List.flatMap_cons, hresp]
  -- At the end no location is left to append.
  · rintro response s' ⟨rfl, rest, hrest, -, hresp⟩
    obtain rfl : rest = [] := List.map_eq_nil_iff.mp hrest.symm
    rw [List.flatMap_nil, List.append_nil] at hresp
    rw [hresp]
    exact hQ

/-- **What a `get` returned** are the contents of the locations, in order; all of them are
inside the capacity and decode. -/
theorem get_returned (locations : List ℕ) (s : Storage) :
    wp (get c crypto locations)
      (fun blocks s' => s' = s.record (.get locations) ∧
        blocks = locations.flatMap (content c crypto s) ∧
        ∀ location ∈ locations, location < c.capacity ∧ Readable c crypto s location)
      (fun _ _ => True) s := by
  unfold get
  refine wp_bind (wp_modify ?_)
  -- The checks that passed.
  refine wp_bind (wp_mono (wp_forM_goals (E := fun _ _ => True)
    (I := fun s' => s' = s.record (.get locations)) (G := fun location _ => location < c.capacity)
    (T := fun _ _ => True) (fun _ => trivial) (fun _ _ _ _ _ => trivial) (fun _ _ _ _ h => h)
    ?_ locations _ rfl) ?_ fun _ _ _ => trivial)
  · rintro location s' rfl
    unfold checkCapacity
    split
    · exact wp_throw trivial
    · next h => exact wp_pure ⟨rfl, not_le.mp h, trivial⟩
  rintro ⟨⟩ _ ⟨rfl, hlt, -⟩
  refine wp_bind (wp_get ?_)
  have hraws : (c.batches locations).flatMap (·.map (s.record (.get locations)).blocks) =
      locations.map s.blocks := flatMap_batches c locations _
  rw [hraws]
  -- The invariant of the decoding loop: what was decoded so far is in the response.
  refine wp_mono (wp_foldlM (E := fun _ _ => True) (fun raws response s' =>
    s' = s.record (.get locations) ∧ ∃ done rest, locations = done ++ rest ∧
      raws = rest.map s.blocks ∧ response = done.flatMap (content c crypto s) ∧
      ∀ location ∈ done, Readable c crypto s location) ?_ _ _ _
    ⟨rfl, [], locations, rfl, rfl, rfl, by simp⟩) ?_ fun _ _ h => h
  · rintro raw raws response s' ⟨rfl, done, rest, hlocations, hrest, hresponse, hread⟩
    cases rest with
    | nil => exact absurd hrest (by simp)
    | cons location rest =>
      rw [List.map_cons, List.cons.injEq] at hrest
      obtain ⟨rfl, rfl⟩ := hrest
      cases hdecode : decodeBucket c crypto (s.blocks location) with
      | error e => exact wp_bind (wp_liftExcept_error rfl trivial)
      | ok blocks =>
        refine wp_bind (wp_liftExcept_ok rfl
          (wp_pure ⟨rfl, done ++ [location], rest, ?_, rfl, ?_, ?_⟩))
        · rw [hlocations, List.append_assoc, List.singleton_append]
        · rw [hresponse, List.flatMap_append, List.flatMap_singleton,
            content_of_decodeBucket hdecode]
        · intro l hl
          rcases List.mem_append.mp hl with hl | hl
          · exact hread l hl
          · rw [List.mem_singleton.mp hl]
            exact readable_of_decodeBucket hdecode
  · rintro response s' ⟨rfl, done, rest, rfl, hrest, rfl, hread⟩
    obtain rfl : rest = [] := List.map_eq_nil_iff.mp hrest.symm
    rw [List.append_nil] at hlt ⊢
    exact ⟨rfl, rfl, fun l hl => ⟨hlt l hl, hread l hl⟩⟩

end Get

/-! ### What `set` does -/

section Set

variable {c : StorageConfig} {crypto : Crypto}

/-- `e'` is the block `e` as a `set` leaves it: unchanged, or padded in place. -/
def Touched (c : StorageConfig) (e e' : Block) : Prop :=
  e'.1 = e.1 ∧ (e'.2 = e.2 ∨
    e.2.length ≤ c.userBlockSize ∧ e'.2 = padTo c.userBlockSize e.2)

theorem Touched.refl (e : Block) : Touched c e e := ⟨rfl, Or.inl rfl⟩

theorem forall₂_touched_refl (blocks : Bucket) : List.Forall₂ (Touched c) blocks blocks :=
  List.forall₂_same.mpr fun e _ => Touched.refl e

theorem forall₂_touched_padded {blocks : Bucket}
    (h : ∀ block ∈ blocks, block.2.length ≤ c.userBlockSize) :
    List.Forall₂ (Touched c) blocks (padded c blocks) := by
  unfold padded
  rw [List.forall₂_map_right_iff]
  exact List.forall₂_same.mpr fun e he => ⟨rfl, Or.inr ⟨h e he, rfl⟩⟩

/-- A request the adapter accepts. -/
def Accepts (c : StorageConfig) (request : ℕ × Bucket) : Prop :=
  request.1 < c.capacity ∧ request.2.length = c.Z ∧
    ∀ block ∈ request.2, block.2.length ≤ c.userBlockSize

/-- The exception `e` names what is wrong with one of the requests. -/
def Rejects (c : StorageConfig) (requests : List (ℕ × Bucket)) (e : Exception) : Prop :=
  ∃ request ∈ requests,
    (c.capacity ≤ request.1 ∧ e = .idOutOfBound request.1 c.capacity) ∨
    (request.2.length ≠ c.Z ∧ e = .notZBlocks c.Z request.2.length) ∨
    ∃ block ∈ request.2, c.userBlockSize < block.2.length ∧
      e = .dataTooLong block.2.length c.userBlockSize

theorem Rejects.mono {requests requests' : List (ℕ × Bucket)} {e : Exception}
    (h : Rejects c requests e) (hsub : ∀ request ∈ requests, request ∈ requests') :
    Rejects c requests' e := by
  obtain ⟨request, hmem, h⟩ := h
  exact ⟨request, hsub request hmem, h⟩

/-- **The block loop.** Either every payload fits and the bytes of all blocks are
appended, or the first payload that does not fit is named. -/
theorem encodeBlocks_spec (blocks : Bucket) (toEncrypt : Bytes) :
    ((∀ block ∈ blocks, block.2.length ≤ c.userBlockSize) ∧
      encodeBlocks c blocks toEncrypt =
        (padded c blocks, .ok (toEncrypt ++ blocks.flatMap (blockBytes c)))) ∨
    ∃ blocks' e, encodeBlocks c blocks toEncrypt = (blocks', .error e) ∧
      List.Forall₂ (Touched c) blocks blocks' ∧
      ∃ block ∈ blocks, c.userBlockSize < block.2.length ∧
        e = .dataTooLong block.2.length c.userBlockSize := by
  induction blocks generalizing toEncrypt with
  | nil => exact Or.inl ⟨by simp, by simp [encodeBlocks, padded]⟩
  | cons block rest ih =>
    rw [encodeBlocks]
    by_cases hlong : c.userBlockSize < block.2.length
    -- The first payload that is too long stops the loop; the range is padded up to it.
    · rw [if_pos hlong]
      exact Or.inr ⟨_, _, rfl, forall₂_touched_refl _, block, List.mem_cons_self, hlong, rfl⟩
    · rw [if_neg hlong]
      -- This payload fits, so the rest of the bucket decides.
      have hfits : block.2.length ≤ c.userBlockSize := not_lt.mp hlong
      rcases ih (toEncrypt ++ idBytes block.1 ++ padTo c.userBlockSize block.2) with
        ⟨hrest, heq⟩ | ⟨blocks', e, heq, htouched, b, hb, hlen, he⟩
      · refine Or.inl ⟨List.forall_mem_cons.mpr ⟨hfits, hrest⟩, ?_⟩
        simp only [heq]
        simp [padded, blockBytes, List.append_assoc]
      · refine Or.inr ⟨(block.1, padTo c.userBlockSize block.2) :: blocks', e,
          by simp only [heq], ?_, b, List.mem_cons_of_mem _ hb, hlen, he⟩
        exact List.Forall₂.cons ⟨rfl, Or.inr ⟨hfits, rfl⟩⟩ htouched

/-- The range as a `set` leaves it. -/
def TouchedRequest (c : StorageConfig) (q q' : ℕ × Bucket) : Prop :=
  q'.1 = q.1 ∧ List.Forall₂ (Touched c) q.2 q'.2

theorem forall₂_touchedRequest_refl (requests : List (ℕ × Bucket)) :
    List.Forall₂ (TouchedRequest c) requests requests :=
  List.forall₂_same.mpr fun q _ => ⟨rfl, forall₂_touched_refl q.2⟩

/-- The raw write `w` holds the padded bucket of the request `q`. -/
def WriteOf (c : StorageConfig) (crypto : Crypto) (q : ℕ × Bucket) (w : ℕ × Bytes) : Prop :=
  w.1 = q.1 ∧ decodeBucket c crypto w.2 = .ok (padded c q.2)

/-- **The request loop.** Either every request is accepted and becomes a raw write that
decodes to it, or an offending request is named. The leaf draws are not touched. -/
theorem encodeRequests_spec (hcrypto : crypto.Lawful) (requests : List (ℕ × Bucket))
    (hids : ∀ request ∈ requests, ∀ block ∈ request.2, block.1 < 2 ^ 64) (r : Random) :
    ∃ requests' r' result, encodeRequests c crypto requests r = (requests', r', result) ∧
      r'.ulongs = r.ulongs ∧ List.Forall₂ (TouchedRequest c) requests requests' ∧
      ((∃ writes, result = .ok writes ∧ (∀ request ∈ requests, Accepts c request) ∧
          List.Forall₂ (WriteOf c crypto) requests writes) ∨
        ∃ e, result = .error e ∧ Rejects c requests e) := by
  induction requests generalizing r with
  | nil =>
    exact ⟨[], r, _, rfl, rfl, .nil, Or.inl ⟨[], rfl, by simp, .nil⟩⟩
  | cons request rest ih =>
    -- The checks in the order of the source: location, number of blocks, payloads.
    obtain ⟨location, blocks⟩ := request
    have hself : ((location, blocks) : ℕ × Bucket) ∈ (location, blocks) :: rest :=
      List.mem_cons_self
    rw [encodeRequests]
    by_cases hcap : c.capacity ≤ location
    · rw [if_pos hcap]
      exact ⟨_, _, _, rfl, rfl, forall₂_touchedRequest_refl _,
        Or.inr ⟨_, rfl, _, hself, Or.inl ⟨hcap, rfl⟩⟩⟩
    rw [if_neg hcap]
    by_cases hZ : blocks.length ≠ c.Z
    · rw [if_pos hZ]
      exact ⟨_, _, _, rfl, rfl, forall₂_touchedRequest_refl _,
        Or.inr ⟨_, rfl, _, hself, Or.inr (Or.inl ⟨hZ, rfl⟩)⟩⟩
    rw [if_neg hZ]
    rcases encodeBlocks_spec (c := c) blocks [] with
      ⟨hfits, heq⟩ | ⟨blocks', e, heq, htouched, b, hb, hlen, he⟩
    · rw [List.nil_append] at heq
      -- The request is encrypted, and the rest decides.
      have hiv : ((r.getRandomBlock AES_BLOCK_SIZE).1).length = AES_BLOCK_SIZE :=
        Random.length_getRandomBlock _ _
      obtain ⟨encrypted, hencrypt, hdecode⟩ := decodeBucket_encrypt (c := c) hcrypto
        (not_not.mp hZ) (hids _ hself) hfits hiv
      obtain ⟨rest', r', result, hrest, hulongs, htouched, hresult⟩ :=
        ih (fun q hq => hids q (List.mem_cons_of_mem _ hq))
          (r.getRandomBlock AES_BLOCK_SIZE).2
      simp only [heq, hencrypt, hrest]
      refine ⟨_, _, _, rfl, hulongs,
        .cons ⟨rfl, forall₂_touched_padded hfits⟩ htouched, ?_⟩
      -- A write is only kept when the rest is accepted too.
      rcases hresult with ⟨writes, rfl, haccepts, hwrites⟩ | ⟨e, rfl, hrejects⟩
      · refine Or.inl ⟨_, rfl, List.forall_mem_cons.mpr ⟨?_, haccepts⟩, ?_⟩
        · exact ⟨not_le.mp hcap, not_not.mp hZ, hfits⟩
        · exact .cons ⟨rfl, hdecode⟩ hwrites
      · exact Or.inr ⟨e, rfl, hrejects.mono fun q hq => List.mem_cons_of_mem _ hq⟩
    -- A payload is too long: the requests after this one are not touched.
    · simp only [heq]
      exact ⟨_, _, _, rfl, rfl, .cons ⟨rfl, htouched⟩ (forall₂_touchedRequest_refl _),
        Or.inr ⟨e, rfl, _, hself, Or.inr (Or.inr ⟨b, hb, hlen, he⟩)⟩⟩

/-- What a batch `set` from the storage `s` leaves when it succeeds: the padded buckets
at the locations of the requests, and everything else as it was. -/
structure Stored (c : StorageConfig) (crypto : Crypto) (requests : List (ℕ × Bucket))
    (s s' : Storage) : Prop where
  accepts : ∀ request ∈ requests, Accepts c request
  other : ∀ location ∉ requests.map Prod.fst, s'.blocks location = s.blocks location
  written : (requests.map Prod.fst).Nodup → ∀ request ∈ requests,
    decodeBucket c crypto (s'.blocks request.1) = .ok (padded c request.2)

/-- **`set` stores all requests or none.** The call is noted either way, and no leaf is
drawn. -/
theorem set_spec (hcrypto : crypto.Lawful) (requests : List (ℕ × Bucket))
    (hids : ∀ request ∈ requests, ∀ block ∈ request.2, block.1 < 2 ^ 64) (s : Storage)
    (r : Random) :
    (set c crypto requests s r).storage.calls = s.calls ++ [.set (requests.map Prod.fst)] ∧
    (set c crypto requests s r).random.ulongs = r.ulongs ∧
    List.Forall₂ (TouchedRequest c) requests (set c crypto requests s r).requests ∧
    (((set c crypto requests s r).result = .ok () ∧
        Stored c crypto requests s (set c crypto requests s r).storage) ∨
      ∃ e, (set c crypto requests s r).result = .error e ∧
        (set c crypto requests s r).storage.blocks = s.blocks ∧ Rejects c requests e) := by
  obtain ⟨requests', r', result, heq, hulongs, htouched, hresult⟩ :=
    encodeRequests_spec (c := c) hcrypto requests hids r
  -- Only the loop can throw, and it writes nothing.
  rcases hresult with ⟨writes, rfl, haccepts, hwrites⟩ | ⟨e, rfl, hrejects⟩
  · simp only [set, heq]
    refine ⟨rfl, hulongs, htouched, Or.inl ⟨trivial, haccepts, ?_, ?_⟩⟩
    all_goals
      rw [foldl_updateAll, flatten_batches]
      -- The batches together are the writes, one for each request.
      have hkeys : writes.map Prod.fst = requests.map Prod.fst :=
        map_eq_of_forall₂ (fun _ _ hw => hw.1) hwrites
    · intro location hnot
      exact updateAll_of_notMem (by rwa [hkeys]) s.blocks
    · intro hnodup request hmem
      obtain ⟨w, hw, hof⟩ := exists_right_of_forall₂ hwrites hmem
      have hblock := updateAll_of_mem (by rwa [hkeys]) hw s.blocks
      rw [hof.1] at hblock
      exact (congrArg (decodeBucket c crypto) hblock).trans hof.2
  · simp only [set, heq]
    exact ⟨rfl, hulongs, htouched, Or.inr ⟨e, rfl, rfl, hrejects⟩⟩

/-- Requests that the adapter accepts are stored. -/
theorem set_accepted (hcrypto : crypto.Lawful) {requests : List (ℕ × Bucket)}
    (hids : ∀ request ∈ requests, ∀ block ∈ request.2, block.1 < 2 ^ 64)
    (haccepts : ∀ request ∈ requests, Accepts c request) (s : Storage) (r : Random) :
    (set c crypto requests s r).result = .ok () ∧
    (set c crypto requests s r).random.ulongs = r.ulongs ∧
    Stored c crypto requests s (set c crypto requests s r).storage := by
  obtain ⟨-, hulongs, -, h⟩ := set_spec (c := c) hcrypto requests hids s r
  rcases h with ⟨hok, hstored⟩ | ⟨e, -, -, request, hrequest, hreject⟩
  · exact ⟨hok, hulongs, hstored⟩
  · -- No request is rejected.
    obtain ⟨hcap, hZ, hfits⟩ := haccepts request hrequest
    rcases hreject with ⟨hcap', -⟩ | ⟨hZ', -⟩ | ⟨block, hblock, hlong, -⟩
    · exact absurd hcap (not_lt.mpr hcap')
    · exact absurd hZ hZ'
    · exact absurd (hfits block hblock) (not_le.mpr hlong)

/-- An "empty" block as the adapter stores it. -/
def emptyBlock (c : StorageConfig) : Block := (ULONG_MAX, padTo c.userBlockSize [])

/-- The result `filled` of a `set` that left `Z` empty blocks at every location. -/
structure Blank (c : StorageConfig) (crypto : Crypto) (r : Random) (filled : SetResult) :
    Prop where
  ok : filled.result = .ok ()
  ulongs : filled.random.ulongs = r.ulongs
  decode : ∀ location < c.capacity, decodeBucket c crypto (filled.storage.blocks location) =
    .ok (List.replicate c.Z (emptyBlock c))

/-- Writing one payload under the ID of "empty" blocks everywhere succeeds, and leaves empty
blocks if the payload has only zeros. -/
theorem blank_of_zeros (hcrypto : crypto.Lawful) {zeros : ℕ} (hzeros : zeros ≤ c.userBlockSize)
    (s : Storage) (r : Random) :
    Blank c crypto r (set c crypto ((List.range c.capacity).map
      (fun i => (i, List.replicate c.Z (ULONG_MAX, List.replicate zeros 0)))) s r) := by
  have hrequest : ∀ request ∈ (List.range c.capacity).map
      (fun i => (i, List.replicate c.Z ((ULONG_MAX, List.replicate zeros 0) : Block))),
      request.1 < c.capacity ∧
        request.2 = List.replicate c.Z (ULONG_MAX, List.replicate zeros 0) := by
    intro request hrequest
    obtain ⟨i, hi, rfl⟩ := List.mem_map.mp hrequest
    exact ⟨List.mem_range.mp hi, rfl⟩
  have hkeys : ((List.range c.capacity).map (fun i => (i, List.replicate c.Z
      ((ULONG_MAX, List.replicate zeros 0) : Block)))).map Prod.fst = List.range c.capacity := by
    rw [List.map_map]
    exact List.map_id _
  obtain ⟨hok, hulongs, hstored⟩ := set_accepted (c := c) hcrypto (fun request hmem block hb => by
      rw [(hrequest request hmem).2] at hb
      rw [List.eq_of_mem_replicate hb]
      exact (by decide : ULONG_MAX < 2 ^ 64)) (fun request hmem => by
      obtain ⟨hlt, heq⟩ := hrequest request hmem
      refine ⟨hlt, by rw [heq, List.length_replicate], fun block hb => ?_⟩
      rw [heq] at hb
      rw [List.eq_of_mem_replicate hb, List.length_replicate]
      exact hzeros) s r
  refine ⟨hok, hulongs, fun location hlocation => ?_⟩
  have hwritten := hstored.written (by rw [hkeys]; exact List.nodup_range)
    (location, List.replicate c.Z (ULONG_MAX, List.replicate zeros 0))
    (List.mem_map.mpr ⟨location, List.mem_range.mpr hlocation, rfl⟩)
  -- Zeros are padded with zeros.
  have hpad : padTo c.userBlockSize (List.replicate zeros 0) = padTo c.userBlockSize [] := by
    rw [padTo, padTo, List.length_replicate, List.replicate_append_replicate,
      Nat.add_sub_of_le hzeros]
    rfl
  rw [padded, List.map_replicate, hpad] at hwritten
  exact hwritten

/-- **`fillWithZeroes` succeeds and leaves `Z` empty blocks at every location.** -/
theorem fillWithZeroes_spec (hcrypto : crypto.Lawful) (s : Storage) (r : Random) :
    Blank c crypto r (fillWithZeroes c crypto s r) :=
  blank_of_zeros hcrypto (Nat.zero_le _) s r

end Set

end AbsStorageAdapter

end PathORAM
