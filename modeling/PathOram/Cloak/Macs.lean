import PathOram.Cloak.Tree
import PathOram.Correctness

/-!
# Verifying buckets against their MACs

What the verification of the variant does with a storage that an adversary may change
between any two calls.

* `Exception.Integrity` — the exceptions the verification throws.
* `searchBucket_lt` — `getCache` looks the MAC of a bucket up under an ID that is always
  the ID of some bucket.
* `preserves_exec` — once every bucket has a MAC, no call throws an integrity exception.
-/

namespace PathORAM

open Hoare

/-- The exceptions of the MAC verification. -/
def Exception.Integrity : Exception → Prop
  | .macNotFound _ => True
  | .macMismatch => True
  | .bucketCheckFailed _ => True
  | _ => False

/-! ### The storage adapter does not verify -/

theorem encrypt_error {crypto : Crypto} {key iv input : Bytes} {mode : EncryptionMode}
    {e : Exception} (h : encrypt crypto key iv input mode = .error e) : ¬e.Integrity := by
  unfold encrypt at h
  -- The three checks throw exceptions of their own, and the routines throw none.
  split at h
  · exact Except.error.inj h ▸ id
  split at h
  · exact Except.error.inj h ▸ id
  split at h
  · exact Except.error.inj h ▸ id
  cases hmode : crypto.blockCipherMode <;> cases mode <;> rw [hmode] at h <;> cases h

namespace AbsStorageAdapter

variable {c : StorageConfig} {crypto : Crypto} {e : Exception}

theorem decodeBucket_error {raw : Bytes} (h : decodeBucket c crypto raw = .error e) :
    ¬e.Integrity := by
  unfold decodeBucket at h
  cases hd : encrypt crypto c.key (raw.take AES_BLOCK_SIZE) (raw.drop AES_BLOCK_SIZE)
      .DECRYPT with
  | error e' =>
    rw [hd] at h
    -- only the cipher can fail, and never with an integrity error
    obtain rfl := Except.error.inj h
    exact encrypt_error hd
  | ok decrypted =>
    rw [hd] at h
    cases h

/-- A download does not throw integrity exceptions, whatever the storage holds. -/
theorem get_error (locations : List ℕ) (s : Storage) :
    wp (get c crypto locations) (fun _ _ => True) (fun e _ => ¬e.Integrity) s := by
  unfold get
  refine wp_bind (wp_modify (wp_bind (wp_mono (wp_forM (fun _ _ => True) ?_ _ _ trivial) ?_
    fun _ _ h => h)))
  -- A location outside of capacity.
  · intro location _ s' _
    unfold checkCapacity
    split
    · exact wp_throw id
    · exact wp_pure trivial
  -- A raw value that does not decrypt.
  · rintro - s' -
    refine wp_bind (wp_get (wp_foldlM (fun _ _ _ => True) ?_ _ _ _ trivial))
    intro raw _ response s'' _
    cases hraw : decodeBucket c crypto raw with
    | error e => exact wp_bind (wp_liftExcept_error rfl (decodeBucket_error hraw))
    | ok blocks => exact wp_bind (wp_liftExcept_ok rfl (wp_pure trivial))

theorem encodeBlocks_error {blocks blocks' : Bucket} {toEncrypt : Bytes}
    (h : encodeBlocks c blocks toEncrypt = (blocks', .error e)) : ¬e.Integrity := by
  rcases encodeBlocks_spec (c := c) blocks toEncrypt with
    ⟨-, heq⟩ | ⟨_, _, heq, -, _, -, -, rfl⟩
  · rw [heq] at h
    cases h
  · rw [heq] at h
    obtain ⟨-, h⟩ := Prod.mk.inj h
    exact Except.error.inj h ▸ id

theorem encodeRequests_error {requests : List (ℕ × Bucket)} {r : Random}
    (h : (encodeRequests c crypto requests r).2.2 = .error e) : ¬e.Integrity := by
  induction requests generalizing r with
  | nil => cases h
  | cons request rest ih =>
    obtain ⟨location, blocks⟩ := request
    rw [encodeRequests] at h
    -- The checks come in the order of the source.
    split at h
    · exact Except.error.inj h ▸ id
    split at h
    · exact Except.error.inj h ▸ id
    cases hencode : encodeBlocks c blocks [] with
    | mk blocks' result =>
      rw [hencode] at h
      cases result with
      | error e' =>
        obtain rfl := Except.error.inj h
        exact encodeBlocks_error hencode
      | ok toEncrypt =>
        cases hencrypt : encrypt crypto c.key (r.getRandomBlock AES_BLOCK_SIZE).1 toEncrypt
            .ENCRYPT with
        | error e' =>
          simp only [hencrypt] at h
          obtain rfl := Except.error.inj h
          exact encrypt_error hencrypt
        | ok encrypted =>
          simp only [hencrypt] at h
          -- Nothing went wrong here, so the exception comes from a later request.
          refine ih (r := (r.getRandomBlock AES_BLOCK_SIZE).2) ?_
          cases hrest : (encodeRequests c crypto rest (r.getRandomBlock AES_BLOCK_SIZE).2).2.2 with
          | error e' =>
            rw [hrest] at h
            exact congrArg Except.error (Except.error.inj h)
          | ok writes =>
            rw [hrest] at h
            cases h

/-- An upload does not throw integrity exceptions, whatever is uploaded. -/
theorem set_error {requests : List (ℕ × Bucket)} {s : Storage} {r : Random}
    (h : (set c crypto requests s r).result = .error e) : ¬e.Integrity := by
  unfold set at h
  cases hencode : encodeRequests c crypto requests r with
  | mk requests' rest =>
    obtain ⟨r', result⟩ := rest
    simp only [hencode] at h
    cases result with
    | error e' =>
      -- encoding may fail in the cipher; the writes themselves cannot fail
      obtain rfl := Except.error.inj h
      exact encodeRequests_error (congrArg (·.2.2) hencode)
    | ok writes => cases h

end AbsStorageAdapter

namespace ORAM

variable {c : Config} {M : Type}

/-- A bucket is filled with blocks of `toInsert` and dummies of the block size. -/
theorem fillBucket_mem (size : ℕ) (toInsert : List Block) (s : ORAM M) :
    wp (fillBucket c size toInsert)
      (fun bucket s' => (∃ r, s' = { s with random := r }) ∧ bucket.length = size ∧
        ∀ e ∈ bucket, e ∈ toInsert ∨ e.1 = ULONG_MAX ∧ e.2.length = c.dataSize)
      (fun _ _ => False) s := by
  induction size generalizing toInsert s with
  | zero => exact wp_pure ⟨⟨s.random, rfl⟩, rfl, fun _ h => absurd h List.not_mem_nil⟩
  | succ size ih =>
    rw [fillBucket]
    cases hlast : toInsert.getLast? with
    -- The last block of what is left comes first.
    | some block =>
      refine wp_bind (wp_mono (ih toInsert.dropLast s) ?_ fun _ _ h => h)
      rintro bucket s' ⟨hs', hlength, hmem⟩
      refine wp_pure ⟨hs', by rw [List.length_cons, hlength], List.forall_mem_cons.mpr ⟨?_, ?_⟩⟩
      · exact Or.inl (List.mem_of_getLast? hlast)
      · exact fun e he => (hmem e he).imp_left List.mem_of_mem_dropLast
    | none =>
      refine wp_bind (wp_withRandom (wp_bind (wp_mono (ih [] _) ?_ fun _ _ h => h)))
      rintro bucket s' ⟨⟨r, hs'⟩, hlength, hmem⟩
      refine wp_pure ⟨⟨r, hs'⟩, by rw [List.length_cons, hlength],
        List.forall_mem_cons.mpr ⟨?_, ?_⟩⟩
      · exact Or.inr ⟨rfl, Random.length_getRandomBlock _ _⟩
      · exact fun e he => (hmem e he).imp_left fun h => absurd h List.not_mem_nil

/-- The upload leaves the position map alone, and does not throw integrity exceptions. -/
theorem syncCache_map (s : ORAM M) :
    wp (syncCache c) (fun _ s' => s'.map = s.map) (fun e s' => ¬e.Integrity ∧ s'.map = s.map)
      s := by
  unfold syncCache
  refine wp_bind (wp_get (wp_bind (wp_withRandom (wp_bind ?_))))
  exact wp_storageSet (fun _ => wp_modify rfl)
    fun e he => ⟨AbsStorageAdapter.set_error he, rfl⟩

end ORAM

end PathORAM

namespace CloakQueryPathORAM

open PathORAM Hoare HeapTree

/-- The position map gives every ID in range a leaf of the tree, as long as `P` holds of it,
and throws no integrity exception. -/
structure KeepsLeaves {M : Type} (c : Config) (pm : AbsPositionMapAdapter M) (P : M → Prop) :
    Prop where
  get : ∀ block, Preserves P (fun leaf => block < c.blocks → leaf < 2 ^ (c.height - 1))
    (fun e => ¬e.Integrity) (pm.get block)
  set : ∀ block leaf, leaf < 2 ^ (c.height - 1) →
    Preserves P (fun _ => True) (fun e => ¬e.Integrity) (pm.set block leaf)

/-- Every bucket has a MAC. -/
structure Guarded {M : Type} (c : Config) (P : M → Prop) (s : ORAM M) : Prop where
  macs : ∀ b < 2 ^ c.height, b ∈ s.macMap
  map : P s.map

namespace ORAM

variable {c : Config} {M : Type} {pm : AbsPositionMapAdapter M} {P : M → Prop}

/-- `x` keeps every bucket guarded and throws no integrity exception. -/
abbrev Safe (c : Config) (P : M → Prop) {α : Type} (x : OramM M α) : Prop :=
  Preserves (Guarded c P) (fun _ => True) (fun e => ¬e.Integrity) x

theorem safe_modify {f : ORAM M → ORAM M} (hmacs : ∀ s, ∀ b ∈ s.macMap, b ∈ (f s).macMap)
    (hmap : ∀ s, (f s).map = s.map) : Safe c P (modify f : OramM M Unit) :=
  preserves_modify fun s hI =>
    ⟨fun b hb => hmacs s b (hI.macs b hb), hmap s ▸ hI.map⟩

theorem safe_withRandom {α : Type} (f : Random → α × Random) :
    Safe c P (withRandom f : OramM M α) :=
  preserves_modifyGet fun _ hI => ⟨trivial, hI.macs, hI.map⟩

/-- The stash adapter throws nothing but overflows. -/
theorem safe_stash {x : Option Block → EStateM Exception InMemoryStashAdapter Unit}
    (hx : ∀ first t, wp (x first) (fun _ _ => True) (fun e _ => ¬e.Integrity) t) :
    Safe c P (do
      let s ← get
      let first ← withRandom (InMemoryStashAdapter.beginEntry s.stash)
      zoom stashLens (x first) : OramM M Unit) :=
  preserves_bind preserves_get fun _ _ => preserves_bind (safe_withRandom _) fun first _ =>
    preserves_zoom (fun _ _ hI => ⟨hI.macs, hI.map⟩) (hx first)

theorem safe_stashAdd (block : ℕ) (data : Bytes) :
    Safe c P (stashAdd c block data : OramM M Unit) := by
  refine safe_stash fun first t => ?_
  unfold InMemoryStashAdapter.add
  refine wp_bind (PathORAM.InMemoryStashAdapter.wp_checkOverflow (fun _ => ?_) fun _ _ => id)
  split
  · exact wp_modify trivial
  · exact wp_pure trivial

theorem safe_stashUpdate (block : ℕ) (data : Bytes) :
    Safe c P (stashUpdate c block data : OramM M Unit) :=
  safe_stash fun _ _ =>
    wp_bind (PathORAM.InMemoryStashAdapter.wp_checkOverflow (fun _ => wp_modify trivial)
      fun _ _ => id)

/-- **The verification never looks at the bucket.** It throws only where there is no MAC at
all, and otherwise accepts. -/
theorem checkBucket_spec (bucketId level leaf : ℕ) (bucketData : Bucket) (s : ORAM M) :
    wp (checkBucket c bucketId level leaf bucketData) (fun _ s' => s' = s)
      (fun e s' => s' = s ∧ s.isInitializing = false ∧
        bucketForLevelLeaf c.height level leaf ∉ s.macMap ∧
        e = .macNotFound (bucketForLevelLeaf c.height level leaf)) s := by
  unfold checkBucket verifyBucketMAC
  refine wp_bind (wp_bind (wp_get ?_))
  by_cases hinit : s.isInitializing = true
  · rw [if_pos hinit]
    exact wp_pure (wp_pure rfl)
  rw [if_neg hinit]
  cases hlookup : s.macMap.lookup (bucketForLevelLeaf c.height level leaf) with
  | none =>
    exact wp_throw ⟨rfl, Bool.eq_false_of_not_eq_true hinit, AList.lookup_eq_none.mp hlookup, rfl⟩
  | some storedMAC =>
    -- The computed MAC equals itself.
    have hsame : ¬(bucketMAC c bucketData ≠ bucketMAC c bucketData) := not_not.mpr rfl
    simp only [if_neg hsame]
    exact wp_pure (wp_pure rfl)

/-- The download is cut to buckets as in the other variant. It stops only at a bucket that
is verified. -/
theorem addToCache_spec (toGet : List ℕ) (blocks : List Block) (i : ℕ) (bucket : Bucket)
    (s : ORAM M) :
    wp (addToCache c toGet blocks i bucket)
      (fun _ s' => s' = { s with
        cache := PathORAM.ORAM.addToCache c.toConfig toGet blocks i bucket s.cache })
      (fun _ _ => s.isInitializing = false) s := by
  -- on the blocks: every `Z`-th one completes a bucket, which is checked and cached
  induction blocks generalizing i bucket s with
  | nil => exact wp_pure rfl
  | cons block rest ih =>
    rw [addToCache, PathORAM.ORAM.addToCache]
    split
    · refine wp_bind (wp_mono (checkBucket_spec _ _ _ _ s) ?_ fun _ _ h => h.2.1)
      rintro _ s' rfl
      exact wp_bind (wp_modify (ih _ _ _))
    · exact ih _ _ s

/-- The verification of a path changes nothing, since the path is cached. -/
theorem verifyPath_spec {leaf : ℕ} {visited : List ℕ} {s : ORAM M}
    (hvisited : ∀ b ∈ visited, b ∈ s.cache) :
    wp (verifyPath c leaf visited) (fun _ s' => s' = s) (fun _ _ => s.isInitializing = false)
      s := by
  induction visited with
  | nil => exact wp_pure rfl
  | cons bucketId rest ih =>
    rw [verifyPath]
    refine wp_bind (wp_modify (wp_bind (wp_get ?_)))
    -- a bucket of the path is in the cache, so the lookup does not insert an empty one
    rw [if_pos (hvisited bucketId List.mem_cons_self)]
    refine wp_bind (wp_mono (checkBucket_spec _ _ _ _ _) ?_ fun _ _ h => h.2.1)
    rintro _ s' rfl
    exact ih fun b hb => hvisited b (List.mem_cons_of_mem _ hb)

/-- A bucket that is verified against the MAC of a location of the tree passes. -/
theorem safe_checkBucket {bucketId level leaf : ℕ} {bucketData : Bucket}
    (h : bucketForLevelLeaf c.height level leaf < 2 ^ c.height) :
    Safe c P (checkBucket c bucketId level leaf bucketData) := fun s hI =>
  wp_mono (checkBucket_spec bucketId level leaf bucketData s)
    (fun _ _ hs' => ⟨trivial, hs' ▸ hI⟩)
    fun _ _ ⟨_, _, hnot, _⟩ => absurd (hI.macs _ h) hnot

/-! ### Reading -/

theorem safe_addToCache (hpos : 1 ≤ c.height) (hheight : c.height ≤ 31) {toGet : List ℕ}
    (htoGet : ∀ b ∈ toGet, b < 2 ^ c.height) (blocks : List Block) (i : ℕ) (bucket : Bucket) :
    Safe c P (addToCache c toGet blocks i bucket : OramM M Unit) := by
  induction blocks generalizing i bucket with
  | nil => exact preserves_pure trivial
  | cons block rest ih =>
    rw [addToCache]
    split
    · -- The bucket is complete; past the end of the list the code would read location 0.
      have hlt : toGet.getD (i / c.Z) 0 < 2 ^ c.height := by
        rw [List.getD_eq_getElem?_getD]
        cases hget : toGet[i / c.Z]? with
        | none => exact Nat.two_pow_pos _
        | some b => exact htoGet b (List.mem_of_getElem? hget)
      refine preserves_bind (safe_checkBucket (searchBucket_lt hpos hheight hlt)) fun _ _ => ?_
      exact preserves_bind (safe_modify (fun _ _ h => h) fun _ => rfl) fun _ _ => ih _ _
    · exact ih _ _

theorem safe_getCache (hpos : 1 ≤ c.height) (hheight : c.height ≤ 31) {locations : List ℕ}
    (hlocations : ∀ b ∈ locations, b < 2 ^ c.height) (response : List Block) (dryRun : Bool) :
    Safe c P (getCache c locations response dryRun : OramM M _) := by
  unfold getCache
  refine preserves_bind (R := fun visited => ∀ b ∈ visited, b < 2 ^ c.height)
    (preserves_modifyGet fun s hI => ⟨fun b hb => ?_, hI.macs, hI.map⟩) fun visited hvisited => ?_
  · exact hlocations b ((Random.perm_iterate locations s.random).mem_iff.mp hb)
  refine preserves_bind preserves_get fun s _ => ?_
  -- What is downloaded is among the locations.
  have hfst := PathORAM.ORAM.lookupCache_fst s.cache dryRun visited [] response
  generalize PathORAM.ORAM.lookupCache s.cache dryRun visited [] response = found at *
  obtain ⟨toGet, response⟩ := found
  have htoGet : ∀ b ∈ toGet, b < 2 ^ c.height := fun b hb => by
    rw [show toGet = _ from hfst, List.nil_append] at hb
    exact hvisited b (List.mem_of_mem_filter hb)
  change Safe c P (if toGet.length > 0 then _ else _)
  split
  · refine preserves_bind (preserves_zoom (fun _ _ hI => ⟨hI.macs, hI.map⟩)
      fun storage => AbsStorageAdapter.get_error toGet storage) fun downloaded _ => ?_
    exact preserves_bind (safe_addToCache hpos hheight htoGet _ _ _) fun _ _ =>
      preserves_pure trivial
  · exact preserves_pure trivial

theorem safe_addToStash (blocks : List Block) : Safe c P (addToStash c blocks : OramM M _) := by
  induction blocks with
  | nil => exact preserves_pure trivial
  | cons block rest ih =>
    rw [addToStash]
    split
    · exact preserves_bind (safe_stashAdd _ _) fun _ _ => ih
    · exact ih

theorem safe_verifyPath (hc : c.Valid) {leaf : ℕ} (hleaf : leaf < 2 ^ (c.height - 1))
    {visited : List ℕ} (hvisited : ∀ b ∈ visited, b ∈ HeapTree.path c.height leaf) :
    Safe c P (verifyPath c leaf visited : OramM M _) := by
  induction visited with
  | nil => exact preserves_pure trivial
  | cons bucketId rest ih =>
    have hmem := hvisited bucketId List.mem_cons_self
    rw [verifyPath]
    refine preserves_bind (safe_modify (fun _ _ h => h) fun _ => rfl) fun _ _ => ?_
    refine preserves_bind preserves_get fun s _ => ?_
    refine preserves_bind (safe_checkBucket ?_) fun _ _ =>
      ih fun b hb => hvisited b (List.mem_cons_of_mem _ hb)
    -- The search finds the level, so the bucket is verified against its own MAC.
    rw [searchLevel_of_mem_path hc hleaf hmem]
    exact (HeapTree.inTree_of_mem_path hleaf hmem).2

theorem mem_pathLocations (hc : c.Valid) {leaf : ℕ} (hleaf : leaf < 2 ^ (c.height - 1))
    {locations : List ℕ} {b : ℕ} : b ∈ pathLocations c leaf locations ↔
      b ∈ locations ∨ b ∈ HeapTree.path c.height leaf := by
  rw [pathLocations_base hc.height_le, PathORAM.ORAM.mem_pathLocations hc hleaf]

theorem safe_readPath (hc : c.Valid) {leaf : ℕ} (hleaf : leaf < 2 ^ (c.height - 1)) :
    Safe c P (readPath c leaf [] true : OramM M _) := by
  have hmem : ∀ b ∈ pathLocations c leaf [], b ∈ HeapTree.path c.height leaf := fun b hb =>
    ((mem_pathLocations hc hleaf).mp hb).resolve_left List.not_mem_nil
  unfold readPath
  refine preserves_bind (safe_getCache hc.height_pos hc.height_le (fun b hb =>
    (HeapTree.inTree_of_mem_path hleaf (hmem b hb)).2) _ _) fun blocks _ => ?_
  refine preserves_bind (safe_addToStash blocks) fun _ _ => ?_
  -- the visiting order changes which bucket comes next, not which buckets are on the path
  refine preserves_bind (R := fun visited => ∀ b ∈ visited, b ∈ HeapTree.path c.height leaf)
    (preserves_modifyGet fun s hI => ⟨fun b hb => ?_, hI.macs, hI.map⟩) fun visited hvisited => ?_
  · exact hmem b ((Random.perm_iterate _ s.random).mem_iff.mp hb)
  · exact preserves_bind (safe_verifyPath hc hleaf hvisited) fun _ _ => preserves_pure trivial

/-! ### Writing -/

/-- A bucket has a MAC by the time it is verified on its way back. -/
theorem safe_seal {α : Type} {x : OramM M α} {level leaf bucketId : ℕ} {bucketData : Bucket}
    (hx : Safe c P x) : Safe c P (do
      computeAndStoreBucketMAC c level leaf bucketData
      checkBucket c bucketId level leaf bucketData
      x) := by
  intro s hI
  unfold computeAndStoreBucketMAC
  refine wp_bind (wp_modify (wp_bind (wp_mono (checkBucket_spec _ _ _ _ _) ?_ ?_)))
  · rintro _ s' rfl
    exact hx _ ⟨fun b hb => AList.mem_insert _ |>.mpr (Or.inr (hI.macs b hb)), hI.map⟩
  -- the MAC was stored just before, so the check finds it
  · rintro e s' ⟨-, -, hnot, -⟩
    exact absurd (AList.mem_insert _ |>.mpr (Or.inl rfl)) hnot

theorem safe_syncCache : Safe c P (syncCache c : OramM M Unit) := fun s hI =>
  wp_zoom (wp_mono (PathORAM.ORAM.syncCache_map s.toORAM)
    (fun _ _ h => ⟨trivial, hI.macs, h ▸ hI.map⟩) fun _ _ h => ⟨h.1, hI.macs, h.2 ▸ hI.map⟩)

section Eviction

variable (hpm : KeepsLeaves c pm P)

include hpm

theorem safe_mapGet (block : ℕ) :
    Preserves (Guarded c P) (fun leaf => block < c.blocks → leaf < 2 ^ (c.height - 1))
      (fun e => ¬e.Integrity) (zoom mapLens (pm.get block) : OramM M ℕ) := fun s hI =>
  wp_zoom (wp_mono (hpm.get block s.map hI.map) (fun _ _ h => ⟨h.1, hI.macs, h.2⟩)
    fun _ _ h => ⟨h.1, hI.macs, h.2⟩)

theorem safe_mapSet (block : ℕ) {leaf : ℕ} (hleaf : leaf < 2 ^ (c.height - 1)) :
    Safe c P (zoom mapLens (pm.set block leaf) : OramM M Unit) := fun s hI =>
  wp_zoom (wp_mono (hpm.set block leaf hleaf s.map hI.map) (fun _ _ h => ⟨trivial, hI.macs, h.2⟩)
    fun _ _ h => ⟨h.1, hI.macs, h.2⟩)

theorem safe_selectBlocks (leaf level : ℕ) (l : List Block) (i : ℕ)
    (sel : PathORAM.ORAM.Selection) : Safe c P (selectBlocks c pm leaf level l i sel) := by
  -- on the entries of the stash that are left
  induction l generalizing i sel with
  | nil => exact preserves_pure trivial
  | cons entry rest ih =>
    rw [selectBlocks]
    split
    -- a deleted entry or one of another size is passed over
    · exact ih _ _
    · refine preserves_bind (safe_mapGet hpm _) fun entryLeaf _ => ?_
      split
      · change Safe c P (if (sel.toInsert ++ [entry]).length = c.Z then _ else _)
        split
        · exact preserves_pure trivial
        · exact ih _ _
      · exact ih _ _

theorem safe_evictLevels (leaf levels : ℕ) (l : List Block) (toDelete : List (BitVec 32))
    (requests : List (ℕ × Bucket)) :
    Safe c P (evictLevels c pm leaf levels l toDelete requests) := by
  -- from the leaf upwards, one bucket per level
  induction levels generalizing l toDelete requests with
  | zero => exact preserves_pure trivial
  | succ level ih =>
    rw [evictLevels]
    refine preserves_bind (safe_selectBlocks hpm _ _ _ _ _) fun sel _ => ?_
    refine preserves_bind (R := fun _ => True) (fun s hI => wp_zoom
      (wp_mono (PathORAM.ORAM.fillBucket_mem c.Z sel.toInsert s.toORAM) ?_ fun _ _ h => h.elim))
      fun bucketData _ => safe_seal (ih _ _ _)
    rintro bucket s' ⟨⟨r, rfl⟩, -⟩
    exact ⟨trivial, hI.macs, hI.map⟩

theorem safe_writePath (leaf : ℕ) : Safe c P (writePath c pm leaf) := by
  unfold writePath
  refine preserves_bind preserves_get fun s _ => preserves_bind (safe_withRandom _) fun l _ =>
    preserves_bind (safe_evictLevels hpm leaf c.height l [] []) fun result _ => ?_
  refine preserves_bind (R := fun _ => True) (fun s hI => ?_) fun _ _ =>
    safe_modify (fun _ _ h => h) fun _ => rfl
  exact wp_zoom (wp_modify ⟨trivial, hI.macs, hI.map⟩)

theorem safe_access (hc : c.Valid) (read : Bool) {block : ℕ} (hblock : block < c.blocks)
    (data response : Bytes) : Safe c P (access c pm read block data response) := by
  unfold access
  refine preserves_bind (safe_mapGet hpm block) fun previousPosition hprevious => ?_
  have hleaf := hprevious hblock
  refine preserves_bind (R := fun leaf => leaf < 2 ^ (c.height - 1))
    (preserves_modifyGet fun s hI => ⟨?_, hI.macs, hI.map⟩) fun leaf hnew => ?_
  · rw [hc.intShl_height]
    exact Nat.mod_lt _ (Nat.two_pow_pos _)
  refine preserves_bind (safe_mapSet hpm block hnew) fun _ _ => ?_
  refine preserves_bind (safe_readPath hc hleaf) fun _ _ => ?_
  -- both kinds of call end with the lookup in the stash and the path write
  have hwrite : Safe c P (do
      let s ← get
      let response := PathORAM.InMemoryStashAdapter.get s.stash block response
      writePath c pm previousPosition
      return response) :=
    preserves_bind preserves_get fun s _ => preserves_bind (safe_writePath hpm _) fun _ _ =>
      preserves_pure trivial
  cases read with
  | true => exact hwrite
  | false => exact preserves_bind (safe_stashUpdate _ _) fun _ _ => hwrite

theorem safe_accessAll (hc : c.Valid) {requests : List Block}
    (hrequests : ∀ request ∈ requests, request.1 < c.blocks) (responses : List Bytes) :
    Safe c P (accessAll c pm requests responses) := by
  induction requests generalizing responses with
  | nil => exact preserves_pure trivial
  | cons request requests ih =>
    rw [accessAll]
    refine preserves_bind
      (safe_access hpm hc _ (hrequests request List.mem_cons_self) _ _) fun response _ => ?_
    exact preserves_bind (ih (fun r hr => hrequests r (List.mem_cons_of_mem _ hr)) _)
      fun rest _ => preserves_pure trivial

/-- **No call throws an integrity exception**, whatever the storage returns, once every
bucket has a MAC. -/
theorem safe_exec (hc : c.Valid) {call : Call} (hcall : call.InRange c.toConfig) :
    Safe c P (exec c pm call) := by
  cases call with
  | get block =>
    have hblock : block < c.blocks := hcall (.read block) List.mem_cons_self
    exact preserves_map (preserves_bind (safe_access hpm hc true hblock _ _) fun response _ =>
      preserves_bind safe_syncCache fun _ _ => preserves_pure trivial) fun _ _ => trivial
  | put block data =>
    have hblock : block < c.blocks := hcall (.write block data) List.mem_cons_self
    exact preserves_map (preserves_bind (safe_access hpm hc false hblock _ _) fun _ _ =>
      safe_syncCache) fun _ _ => trivial
  | multiple requests =>
    have hrequests := hcall.requests
    change Safe c P (multiple c pm requests [])
    unfold multiple
    by_cases hmany : c.batchSize < requests.length
    · rw [if_pos hmany]
      exact preserves_bind (preserves_throw (R := fun _ => False) id) fun _ h => h.elim
    rw [if_neg hmany]
    -- The locations that are downloaded ahead are nodes of the tree.
    refine preserves_bind (R := fun locations => ∀ b ∈ locations, b < 2 ^ c.height)
      (preserves_foldlM (by simp) fun locations request hrequest hlocations => ?_)
      fun locations hlocations => ?_
    · refine preserves_bind (safe_mapGet hpm request.1) fun leaf hleaf =>
        preserves_pure fun b hb => ?_
      have hleaf := hleaf (hrequests request hrequest)
      rcases (mem_pathLocations hc hleaf).mp hb with hb | hb
      · exact hlocations b hb
      · exact (HeapTree.inTree_of_mem_path hleaf hb).2
    refine preserves_bind (safe_getCache hc.height_pos hc.height_le hlocations _ _) fun _ _ => ?_
    refine preserves_bind (safe_accessAll hpm hc hrequests _) fun response _ => ?_
    exact preserves_bind safe_syncCache fun _ _ => preserves_pure trivial

end Eviction

/-! ### Computing the MACs of all buckets -/

/-- `g` does not look at what a download changes. -/
structure IgnoresDownloads {γ : Type} (g : ORAM M → γ) : Prop where
  cache : ∀ s cache, g { s with cache := cache } = g s
  storage : ∀ s storage, g { s with storage := storage } = g s
  random : ∀ s random, g { s with random := random } = g s

section Downloads

variable {γ : Type} {g : ORAM M → γ}

/-- A verification changes nothing. -/
theorem keeps_checkBucket (bucketId level leaf : ℕ) (bucketData : Bucket) :
    Keeps g (checkBucket c bucketId level leaf bucketData) := fun s =>
  wp_mono (checkBucket_spec _ _ _ _ s) (fun _ _ h => by rw [h]) fun _ _ h => by rw [h.1]

theorem keeps_addToCache (hcache : ∀ s cache, g { s with cache := cache } = g s)
    (toGet : List ℕ) (blocks : List Block) (i : ℕ) (bucket : Bucket) :
    Keeps g (addToCache c toGet blocks i bucket) := by
  induction blocks generalizing i bucket with
  | nil => exact keeps_pure _
  | cons block rest ih =>
    rw [addToCache]
    split
    · exact keeps_bind (keeps_checkBucket _ _ _ _) fun _ =>
        keeps_bind (keeps_modify fun s => hcache s _) fun _ => ih _ _
    · exact ih _ _

/-- A download draws nothing but the order of the locations. -/
theorem keeps_download (hcache : ∀ s cache, g { s with cache := cache } = g s)
    (hstorage : ∀ s storage, g { s with storage := storage } = g s)
    (horders : ∀ s orders, g { s with random := { s.random with orders := orders } } = g s)
    (locations : List ℕ) (response : List Block) (dryRun : Bool) :
    Keeps g (getCache c locations response dryRun) := by
  unfold getCache
  refine keeps_bind (keeps_modifyGet fun s => horders s _) fun visited =>
    keeps_bind keeps_get fun s => ?_
  generalize PathORAM.ORAM.lookupCache s.cache dryRun visited [] response = found
  obtain ⟨toGet, response⟩ := found
  change Keeps _ (if toGet.length > 0 then _ else _)
  split
  · exact keeps_bind (keeps_zoom (fun t s => hstorage s t) _) fun downloaded =>
      keeps_bind (keeps_addToCache hcache _ _ _ _) fun _ => keeps_pure _
  · exact keeps_pure _

theorem keeps_getCache (hg : IgnoresDownloads g) (locations : List ℕ) (response : List Block)
    (dryRun : Bool) : Keeps g (getCache c locations response dryRun) :=
  keeps_download hg.cache hg.storage (fun s _ => hg.random s _) locations response dryRun

end Downloads

/-- The location whose MAC `computeAndStoreMAC` stores. -/
def macLocation (c : Config) (level bucketIndex : ℕ) : ℕ :=
  bucketForLevelLeaf c.height level (shl bucketIndex ((c.height + 2 ^ 64 - level - 1) % 2 ^ 64))

/-- The state `s'` has the position map of `s` and all of its MACs. -/
def Extends (s s' : ORAM M) : Prop := s'.map = s.map ∧ ∀ b ∈ s.macMap, b ∈ s'.macMap

theorem computeAndStoreMAC_spec (level bucketIndex : ℕ) (s : ORAM M) :
    wp (computeAndStoreMAC c level bucketIndex)
      (fun _ s' => macLocation c level bucketIndex ∈ s'.macMap ∧ Extends s s')
      (fun _ _ => True) s := by
  unfold computeAndStoreMAC
  refine wp_bind (wp_mono (keeps_getCache (g := fun s => (s.macMap, s.map))
    ⟨fun _ _ => rfl, fun _ _ => rfl, fun _ _ => rfl⟩ _ _ _ s) ?_ fun _ _ _ => trivial)
  intro bucketBlocks s₁ hs₁
  -- reading the bucket touches neither the MACs nor the position map
  obtain ⟨hmacs, hmap⟩ := Prod.mk.inj hs₁
  refine wp_bind (wp_modify (wp_zoom (wp_modify ⟨?_, hmap, fun b hb => ?_⟩)))
  · exact AList.mem_insert _ |>.mpr (Or.inl rfl)
  · exact AList.mem_insert _ |>.mpr (Or.inr (hmacs ▸ hb))

theorem intShl_pos {level : ℕ} (hlevel : level < 31) : 0 < intShl level := by
  rw [intShl_eq hlevel]
  exact Nat.two_pow_pos level

/-- On the level below the leaves the first location is 0. -/
theorem macLocation_last (hpos : 1 ≤ c.height) (hheight : c.height ≤ 31) :
    macLocation c c.height 0 = 0 := by
  have hpow : 2 ^ (c.height - 1) ≤ 2 ^ 30 := Nat.pow_le_pow_right (by norm_num) (by omega)
  have hpos' := Nat.two_pow_pos (c.height - 1)
  unfold macLocation bucketForLevelLeaf shr shl
  rw [shr_count_last, intShl_eq (by omega), Nat.zero_shiftLeft, Nat.shiftRight_eq_div_pow]
  omega

/-- Every location of the tree is reached on its level; location 0 on the level below the
leaves. -/
theorem exists_macLocation (hpos : 1 ≤ c.height) (hheight : c.height ≤ 31) {b : ℕ}
    (hb : b < 2 ^ c.height) :
    ∃ level < c.height + 1, ∃ bucketIndex < intShl level, macLocation c level bucketIndex = b := by
  have hshl : intShl (c.height - 1) = 2 ^ (c.height - 1) := intShl_eq (by omega)
  have hpow : 2 ^ (c.height - 1) ≤ 2 ^ 30 := Nat.pow_le_pow_right (by norm_num) (by omega)
  rcases Nat.eq_zero_or_pos b with rfl | hbpos
  -- location 0 is what the extra level gives
  · have hheight' : 0 < intShl c.height := by
      rcases Nat.lt_or_ge c.height 31 with hlt | hge
      · exact intShl_pos hlt
      · obtain heq : c.height = 31 := by omega
        rw [heq]
        decide
    exact ⟨c.height, Nat.lt_succ_self _, 0, hheight', macLocation_last hpos hheight⟩
  -- any other location is the node of its own level
  · have hlevel : Nat.log2 b < c.height := (Nat.log2_lt hbpos.ne').mpr hb
    have hbounds := (Nat.log2_eq_iff (k := Nat.log2 b) hbpos.ne').mp rfl
    set level := Nat.log2 b
    have hsplit : 2 ^ (c.height - 1) = 2 ^ level * 2 ^ (c.height - 1 - level) :=
      two_pow_split hlevel
    have hindex : b - 2 ^ level < 2 ^ level := by
      have := hbounds.2
      rw [pow_succ] at this
      omega
    have hlt : (b - 2 ^ level) * 2 ^ (c.height - 1 - level) < 2 ^ (c.height - 1) := by
      rw [hsplit]
      exact Nat.mul_lt_mul_of_pos_right hindex (Nat.two_pow_pos _)
    -- the shift of the code, in 64 bits
    have hcount : (c.height + 2 ^ 64 - level - 1) % 2 ^ 64 % 64 = c.height - 1 - level := by omega
    refine ⟨level, by omega, b - 2 ^ level, ?_, ?_⟩
    · rwa [intShl_eq (by omega)]
    · unfold macLocation shl
      rw [hcount, Nat.shiftLeft_eq, Nat.mod_eq_of_lt (by omega),
        bucketForLevelLeaf_node hlevel hheight (by omega), node, hsplit, ← Nat.add_mul,
        Nat.mul_div_cancel _ (Nat.two_pow_pos _)]
      have := hbounds.1
      omega

/-- **After `computeAndStoreAllBucketMACs` every bucket has a MAC.** -/
theorem computeAndStoreAllBucketMACs_spec (hpos : 1 ≤ c.height) (hheight : c.height ≤ 31)
    {s : ORAM M} (hP : P s.map) :
    wp (computeAndStoreAllBucketMACs c) (fun _ s' => Guarded c P s' ∧ s'.isInitializing = false)
      (fun _ _ => True) s := by
  have hrefl : ∀ s : ORAM M, Extends s s := fun s => ⟨rfl, fun _ h => h⟩
  have htrans : ∀ s s' s'' : ORAM M, Extends s s' → Extends s' s'' → Extends s s'' :=
    fun s s' s'' h h' => ⟨h'.1.trans h.1, fun b hb => h'.2 b (h.2 b hb)⟩
  unfold computeAndStoreAllBucketMACs
  -- The goal of a level are the MACs of its locations.
  refine wp_bind (wp_mono (wp_forM_goals (E := fun _ _ => True) (I := fun s' => s'.map = s.map)
    (G := fun level s' => ∀ i < intShl level, macLocation c level i ∈ s'.macMap) hrefl htrans
    (fun level s₁ s₂ h hG i hi => h.2 _ (hG i hi)) ?_ _ s rfl) ?_ fun _ _ _ => trivial)
  · intro level s₁ hs₁
    refine wp_mono (wp_forM_goals (E := fun _ _ => True) (I := fun s' => s'.map = s.map)
      (G := fun i s' => macLocation c level i ∈ s'.macMap) hrefl htrans
      (fun i s₁ s₂ h hG => h.2 _ hG) ?_ _ s₁ hs₁) ?_ fun _ _ _ => trivial
    · exact fun i s₂ hs₂ => wp_mono (computeAndStoreMAC_spec level i s₂)
        (fun _ s₃ h => ⟨h.2.1.trans hs₂, h⟩) fun _ _ _ => trivial
    · rintro _ s₂ ⟨hmap, hgoals, hext⟩
      exact ⟨hmap, fun i hi => hgoals i (List.mem_range.mpr hi), hext⟩
  · rintro _ s₁ ⟨hmap, hgoals, -⟩
    refine wp_bind (wp_zoom (wp_mono (PathORAM.ORAM.syncCache_map s₁.toORAM) ?_
      fun _ _ _ => trivial))
    rintro _ t ht
    refine wp_modify ⟨⟨fun b hb => ?_, ?_⟩, rfl⟩
    · obtain ⟨level, hlevel, i, hi, rfl⟩ := exists_macLocation hpos hheight hb
      exact hgoals level (List.mem_range.mpr hlevel) i hi
    · have hmap' : t.map = s.map := ht.trans hmap
      exact hmap' ▸ hP

/-! ### The in-memory position map -/

/-- The entry of an ID holds a leaf of the tree. -/
def HasLeaf (c : Config) (m : InMemoryPositionMapAdapter) (id : ℕ) : Prop :=
  ∃ leaf < 2 ^ (c.height - 1), m.map id = some leaf

/-- Every ID of the ORAM has an entry that holds a leaf of the tree. -/
def Initialized (c : Config) (m : InMemoryPositionMapAdapter) : Prop :=
  c.blocks ≤ m.capacity ∧ ∀ id < c.blocks, HasLeaf c m id

/-- Setting an entry to a leaf of the tree. -/
theorem mapSet_spec (block : ℕ) {leaf : ℕ} (hleaf : leaf < 2 ^ (c.height - 1))
    (m : InMemoryPositionMapAdapter) :
    wp (InMemoryPositionMapAdapter.adapter.set block leaf)
      (fun _ m' => m'.capacity = m.capacity ∧ HasLeaf c m' block ∧
        ∀ id, HasLeaf c m id → HasLeaf c m' id)
      (fun e m' => ¬e.Integrity ∧ m' = m) m := by
  have hself : HasLeaf c { m with map := Function.update m.map block (some leaf) } block :=
    ⟨leaf, hleaf, Function.update_self block (some leaf) m.map⟩
  refine wp_bind (InMemoryPositionMapAdapter.wp_checkCapacity (fun _ => ?_) fun _ => ⟨id, rfl⟩)
  -- the block gets the new leaf; the others keep theirs
  refine wp_modify ⟨rfl, hself, fun id hid => ?_⟩
  by_cases h : id = block
  · rwa [h]
  · obtain ⟨leaf', hleaf', heq⟩ := hid
    exact ⟨leaf', hleaf', (Function.update_of_ne h _ _).trans heq⟩

/-- **The in-memory map keeps leaves of the tree.** -/
theorem keepsLeaves (c : Config) :
    KeepsLeaves c InMemoryPositionMapAdapter.adapter (Initialized c) where
  get block m hm := by
    refine wp_bind (InMemoryPositionMapAdapter.wp_checkCapacity (fun _ => ?_) fun _ => ⟨id, hm⟩)
    refine wp_bind (wp_get (wp_bind (wp_modify (wp_pure ⟨fun hblock => ?_, hm⟩))))
    obtain ⟨leaf, hleaf, heq⟩ := hm.2 block hblock
    rwa [heq]
  set block leaf hleaf m hm := wp_mono (mapSet_spec block hleaf m)
    (fun _ _ h => ⟨trivial, h.1 ▸ hm.1, fun id hid => h.2.2 id (hm.2 id hid)⟩)
    fun _ _ h => ⟨h.1, h.2 ▸ hm⟩

/-- The constructor gives every ID an entry. -/
theorem new_initialized (hc : c.Valid) {s : ORAM InMemoryPositionMapAdapter}
    (hcapacity : c.blocks ≤ s.map.capacity) :
    wp (new c InMemoryPositionMapAdapter.adapter true) (fun _ s' => Initialized c s'.map)
      (fun _ _ => True) s := by
  unfold new
  refine wp_bind (wp_modify ?_)
  rw [if_pos rfl]
  refine wp_bind (wp_zoom (PathORAM.ORAM.wp_storageSet (fun _ => ?_) fun _ _ => trivial))
  -- The entries are written in the order of the IDs.
  have htrans : ∀ m m' m'' : InMemoryPositionMapAdapter,
      (∀ id, HasLeaf c m id → HasLeaf c m' id) → (∀ id, HasLeaf c m' id → HasLeaf c m'' id) →
        ∀ id, HasLeaf c m id → HasLeaf c m'' id := fun _ _ _ h h' id hid => h' id (h id hid)
  refine wp_mono (wp_forM_goals (I := fun s' => c.blocks ≤ s'.map.capacity)
    (G := fun id s' => HasLeaf c s'.map id)
    (T := fun s s' => ∀ id, HasLeaf c s.map id → HasLeaf c s'.map id)
    (fun _ _ h => h) (fun s s' s'' => htrans s.map s'.map s''.map) (fun id _ _ h hG => h id hG)
    ?_ _ _ (by exact hcapacity)) ?_ fun _ _ h => h
  · intro id s₁ hs₁
    have hdraw : (Random.getRandomULong (intShl (c.height - 1)) s₁.random).1 <
        2 ^ (c.height - 1) := by
      rw [hc.intShl_height]
      exact Nat.mod_lt _ (Nat.two_pow_pos _)
    refine wp_bind (wp_modifyGet (wp_zoom (wp_mono (mapSet_spec id hdraw _) ?_
      fun _ _ _ => trivial)))
    rintro _ m ⟨hm, hself, hkeep⟩
    refine ⟨?_, hself, hkeep⟩
    change c.blocks ≤ m.capacity
    exact hm ▸ hs₁
  · rintro _ s₁ ⟨hcapacity', hgoals, -⟩
    exact ⟨hcapacity', fun id hid => hgoals id (List.mem_range.mpr hid)⟩

/-! ### An untrusted storage -/

/-- The states between the calls of an ORAM that was constructed from the state `u` and has
the MACs of all buckets. Between any two calls the storage may be replaced, and a call may
throw. -/
inductive Reachable (c : Config) (pm : AbsPositionMapAdapter M) (u : ORAM M) : ORAM M → Prop
  | built {s₁ s₂ : ORAM M} (hnew : new c pm true u = .ok () s₁)
      (hmacs : computeAndStoreAllBucketMACs c s₁ = .ok () s₂) : Reachable c pm u s₂
  | tampered {s : ORAM M} (hs : Reachable c pm u s) (storage : Storage) :
      Reachable c pm u { s with storage := storage }
  | returned {s s' : ORAM M} {call : Call} {responses : List Bytes} (hs : Reachable c pm u s)
      (hcall : call.InRange c.toConfig) (h : exec c pm call s = .ok responses s') :
      Reachable c pm u s'
  | threw {s s' : ORAM M} {call : Call} {e : Exception} (hs : Reachable c pm u s)
      (hcall : call.InRange c.toConfig) (h : exec c pm call s = .error e s') :
      Reachable c pm u s'

/-- The call detects that the storage was tampered with: it throws an integrity
exception. -/
def Detects (c : Config) (pm : AbsPositionMapAdapter M) (call : Call) (s : ORAM M) : Prop :=
  ∃ e s', exec c pm call s = .error e s' ∧ e.Integrity

/-- The call downloads the bucket `b`. -/
def Downloads (c : Config) (pm : AbsPositionMapAdapter M) (call : Call) (s : ORAM M) (b : ℕ) :
    Prop :=
  ∃ s' locations, (∃ responses, exec c pm call s = .ok responses s' ∨
      ∃ e, exec c pm call s = .error e s') ∧
    StorageCall.get locations ∈ s'.storage.calls.drop s.storage.calls.length ∧ b ∈ locations

theorem Reachable.guarded (hc : c.Valid) {u s : ORAM InMemoryPositionMapAdapter}
    (hcapacity : c.blocks ≤ u.map.capacity)
    (hs : Reachable c InMemoryPositionMapAdapter.adapter u s) : Guarded c (Initialized c) s := by
  induction hs with
  | built hnew hmacs =>
    have hmap := (new_initialized hc hcapacity).ok hnew
    exact ((computeAndStoreAllBucketMACs_spec hc.height_pos hc.height_le hmap).ok hmacs).1
  | tampered _ storage ih => exact ⟨ih.macs, ih.map⟩
  | returned _ hcall h ih => exact ((safe_exec (keepsLeaves c) hc hcall).ok ih h).2
  | threw _ hcall h ih => exact ((safe_exec (keepsLeaves c) hc hcall).error ih h).2

/-- **Tampering is never detected.** In every reachable state, and whatever the storage is replaced
by, no call throws an integrity exception: the computed MAC is compared with itself. Other
exceptions may occur, since the replaced bytes need not be those of a bucket. -/
theorem tampering_undetected (hc : c.Valid) {u s : ORAM InMemoryPositionMapAdapter}
    (hcapacity : c.blocks ≤ u.map.capacity)
    (hs : Reachable c InMemoryPositionMapAdapter.adapter u s) (storage : Storage) {call : Call}
    (hcall : call.InRange c.toConfig) :
    ¬Detects c InMemoryPositionMapAdapter.adapter call { s with storage := storage } := by
  rintro ⟨e, s', herror, hintegrity⟩
  have hguarded := (hs.tampered storage).guarded hc hcapacity
  exact ((safe_exec (keepsLeaves c) hc hcall).error hguarded herror).1 hintegrity

/-! ### A forged bucket -/

end ORAM

/-- The small configuration, with a MAC that is injective for its key. -/
def Config.tiny (height stashCapacity : ℕ) : Config where
  toConfig := PathORAM.Config.tiny height stashCapacity
  hmac key input := key ++ input
  key := List.replicate 32 1

/-- An ORAM before its constructor ran. -/
def ORAM.unbuilt {M : Type} (map : M) (random : Random) : ORAM M where
  toORAM := PathORAM.ORAM.unbuilt map random
  isInitializing := true
  macMap := ∅
  usedBlockIDs := ∅

namespace ORAM

theorem two_lt_two_pow : 2 < 2 ^ 64 := by norm_num

/-- An ORAM of two IDs before its constructor ran. All leaves that it draws are 0. -/
def unbuiltTiny : ORAM InMemoryPositionMapAdapter :=
  .unbuilt (.allocate 2 two_lt_two_pow 0) (Random.ofLeaves (Stream'.const 0))

/-- The same ORAM when it has the MACs of all buckets. -/
def guardedTiny : ORAM InMemoryPositionMapAdapter :=
  leaves (computeAndStoreAllBucketMACs (Config.tiny 1 2))
    (leaves (new (Config.tiny 1 2) InMemoryPositionMapAdapter.adapter true) unbuiltTiny)

theorem reachable_guardedTiny :
    Reachable (Config.tiny 1 2) InMemoryPositionMapAdapter.adapter unbuiltTiny guardedTiny :=
  .built (eq_ok_of_returned (by decide +kernel)) (eq_ok_of_returned (by decide +kernel))

/-- The storage with a block of ID 0 written to the root by somebody else. -/
def forgedStorage : Storage :=
  { guardedTiny.storage with
    blocks := Function.update guardedTiny.storage.blocks 1
      (List.replicate 16 0 ++ AbsStorageAdapter.idBytes 0 ++ List.replicate 32 7) }

theorem tampering_undetected_tiny :
    ¬Detects (Config.tiny 1 2) InMemoryPositionMapAdapter.adapter (.get 0)
      { guardedTiny with storage := forgedStorage } :=
  tampering_undetected (PathORAM.Config.tiny_valid le_rfl (by norm_num) 2) (by decide)
    reachable_guardedTiny forgedStorage (Call.Addressable.inRange (by decide))

/-- A forged bucket is downloaded, and its block is returned. -/
theorem forged_block_accepted :
    ∃ (s : ORAM InMemoryPositionMapAdapter) (storage : Storage),
      Reachable (Config.tiny 1 2) InMemoryPositionMapAdapter.adapter unbuiltTiny s ∧
      Function.Injective ((Config.tiny 1 2).hmac (Config.tiny 1 2).key) ∧
      AbsStorageAdapter.content (Config.tiny 1 2).storage (Config.tiny 1 2).crypto storage 1 ≠
        AbsStorageAdapter.content (Config.tiny 1 2).storage (Config.tiny 1 2).crypto s.storage 1 ∧
      Downloads (Config.tiny 1 2) InMemoryPositionMapAdapter.adapter (.get 0)
        { s with storage := storage } 1 ∧
      ¬Detects (Config.tiny 1 2) InMemoryPositionMapAdapter.adapter (.get 0)
        { s with storage := storage } := by
  -- the get of the forged bucket returns a payload that was never put
  have hreturned : returned (exec (Config.tiny 1 2) InMemoryPositionMapAdapter.adapter (.get 0))
      { guardedTiny with storage := forgedStorage } = some [List.replicate 32 7] := by
    decide +kernel
  have hexec := eq_ok_of_returned hreturned
  refine ⟨guardedTiny, forgedStorage, reachable_guardedTiny, List.append_right_injective _,
    by decide +kernel,
    ⟨_, [1], ⟨_, Or.inl hexec⟩, by decide +kernel, List.mem_singleton_self 1⟩, ?_⟩
  rintro ⟨e, s', herror, -⟩
  rw [hexec] at herror
  cases herror

end ORAM

end CloakQueryPathORAM
