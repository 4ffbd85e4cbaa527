import PathOram.Cloak.Container
import PathOram.Cloak.Files
import PathOram.Cloak.Populate
import PathOram.Cloak.Reopened
import PathOram.Lib.Returns
import Mathlib.Data.Finset.Sort

/-!
# Backing up a share server

The fixture of `test-sss.cpp` writes an ORAM to files (`backupGenerator`): the IDs in use, a
key, the position map, the stash and the MACs. `initializeFromBackup` builds an ORAM of them
and of the storage file, and `loadMacMap` gives it the MACs.

* `Saved` — what is in the files.
* `initializeFromBackup_eq` — the ORAM that is built of them.
* `Lossless` — what a backup is for: the containers of the IDs in use come back.
* `Restorable` — what this rests on. The key that is saved is that of the MACs, and the storage
  is opened with it. The stash file is read in records of the block size. And the MACs are
  looked up of all buckets of a path, where only those that were written have one.
-/

namespace CloakQueryPathORAM

open PathORAM Hoare HeapTree

namespace ORAMTestSSS

/-! ### Writing the files -/

/-- The files of one server, without that of the storage. -/
structure Backup where
  usedBlockIDs : Bytes
  key : Bytes
  positionMap : Bytes
  stash : Bytes
  macMap : Bytes

/-- The file of the IDs in use, in the order in which they are visited. -/
def idFile (ids : List ℕ) : Bytes :=
  LittleEndian.encode 8 ids.length ++ ids.flatMap (LittleEndian.encode 8)

/-- `backupGenerator`. The order in which the containers are visited is drawn from `r`. -/
def backupGenerator (c : Config) (s : ORAM InMemoryPositionMapAdapter) (r : Random) :
    Except InMemoryStashAdapter.StoreException Backup := do
  let (ids, r) := r.iterate (s.usedBlockIDs.sort (· ≤ ·))
  let (stash, r) := InMemoryStashAdapter.storeToFile s.stash r
  let stash ← stash
  let (macMap, _) := ORAM.saveMacMap s.macMap r
  return {
    usedBlockIDs := idFile ids
    -- `getKey` returns the key of the MACs.
    key := storeKey c.key
    positionMap := s.map.storeToFile
    stash := stash
    macMap := macMap }

/-! ### Reading the files -/

/-- The loop of `loadUsedBlockIDs`. `none` stands for a read behind the end of the file, after
which the variable that was to be read is not assigned. -/
def loadIDs : ℕ → Bytes → Finset ℕ → Option (Finset ℕ)
  | 0, _, ids => some ids
  | count + 1, file, ids =>
    if file.length < 8 then none
    else loadIDs count (file.drop 8) (insert (LittleEndian.decode (file.take 8)) ids)

/-- `loadUsedBlockIDs`. -/
def loadUsedBlockIDs (file : Bytes) : Option (Finset ℕ) :=
  if file.length < 8 then none
  else loadIDs (LittleEndian.decode (file.take 8)) (file.drop 8) ∅

/-- The adapters of `initializeFromBackup`. The storage file is opened without `override`, which
leaves its raw array `blocks` as it is; `map` is the array that was allocated. -/
def loaded (files : Backup) (blocks : ℕ → Bytes) (map : InMemoryPositionMapAdapter) (r : Random) :
    ORAM InMemoryPositionMapAdapter :=
  { ORAM.unbuilt (map.loadFromFile files.positionMap) r with
    storage := ⟨blocks, []⟩
    -- An empty file is not loaded.
    stash := if 0 < files.stash.length then
        InMemoryStashAdapter.loadFromFile files.stash BLOCK_SIZE ∅
      else ∅ }

/-- `initializeFromBackup`. Returns the const members and the ORAM. -/
def initializeFromBackup (secretSharesSize : ℕ) (crypto : Crypto)
    (hmac : Bytes → Bytes → Bytes) (key : Bytes) (files : Backup) (blocks : ℕ → Bytes)
    (map : InMemoryPositionMapAdapter) (r : Random) :
    Except Exception (Config × ORAM InMemoryPositionMapAdapter) := do
  let KEY := loadKey files.key
  let storage ← StorageConfig.new (totalBlocks secretSharesSize + 10) BLOCK_SIZE KEY Z 0 r
  let c := configOver secretSharesSize crypto hmac key storage
  match ORAM.new c InMemoryPositionMapAdapter.adapter false (loaded files blocks map r) with
  | .ok _ s => return (c, s)
  | .error e _ => throw e

/-! ### What the files hold -/

section Files

variable {c : Config} {s : ORAM InMemoryPositionMapAdapter} {r : Random} {files : Backup}

/-- The files hold the state. The entries of each map come in some order. -/
structure Saved (c : Config) (s : ORAM InMemoryPositionMapAdapter) (files : Backup) : Prop where
  usedBlockIDs : ∃ ids : List ℕ, ids.Perm (s.usedBlockIDs.sort (· ≤ ·)) ∧
    files.usedBlockIDs = idFile ids
  key : files.key = storeKey c.key
  positionMap : files.positionMap = s.map.storeToFile
  stash : ∃ entries : List Block, entries.Perm s.stash.toList ∧
    InMemoryStashAdapter.fileOf entries = .ok files.stash
  macMap : ∃ entries : List (ℕ × Bytes), entries.Perm s.macMap.toList ∧
    files.macMap = ORAM.macFile entries

theorem backupGenerator_ok (h : backupGenerator c s r = .ok files) : Saved c s files := by
  obtain ⟨stash, hstash, hfiles⟩ := Returns.exists_of_bind_ok h
  cases hfiles
  exact ⟨⟨_, Random.perm_iterate _ _, rfl⟩, rfl, rfl, ⟨_, Random.perm_iterate _ _, hstash⟩,
    ⟨_, Random.perm_iterate _ _, rfl⟩⟩

/-- Payloads of one length are stored without an exception. -/
theorem exists_backup {size : ℕ} (hsize : InMemoryStashAdapter.Uniform s.stash size) (r : Random) :
    ∃ files, backupGenerator c s r = .ok files := by
  have hlength : ∀ r : Random, ∀ entry ∈ (r.iterate s.stash.toList).1, entry.2.length = size :=
    fun r entry he => hsize _ _
      (UnorderedMap.mem_toList.mp ((Random.perm_iterate _ r).mem_iff.mp he))
  unfold backupGenerator InMemoryStashAdapter.storeToFile
  simp only [InMemoryStashAdapter.fileOf_eq (hlength _)]
  exact ⟨_, rfl⟩

/-- The IDs are read one by one. -/
theorem loadIDs_flatMap {ids : List ℕ} (hids : ∀ id ∈ ids, id < 2 ^ 64) (loaded : Finset ℕ) :
    loadIDs ids.length (ids.flatMap (LittleEndian.encode 8)) loaded =
      some (ids.toFinset ∪ loaded) := by
  induction ids generalizing loaded with
  | nil => exact congrArg some (Finset.empty_union loaded).symm
  | cons id ids ih =>
    have h8 : (LittleEndian.encode 8 id).length = 8 := LittleEndian.length_encode 8 id
    have hid : LittleEndian.decode (((id :: ids).flatMap (LittleEndian.encode 8)).take 8) = id :=
      LittleEndian.decode_take_encode_append
        ((hids id List.mem_cons_self).trans_eq (by norm_num)) _
    -- eight bytes are left for the ID
    have hroom : ¬((id :: ids).flatMap (LittleEndian.encode 8)).length < 8 := by
      rw [List.flatMap_cons, List.length_append]
      omega
    rw [List.length_cons, loadIDs, if_neg hroom, hid, List.flatMap_cons, List.drop_left' h8,
      ih fun id' h => hids id' (List.mem_cons_of_mem _ h), List.toFinset_cons,
      Finset.union_insert, Finset.insert_union]

/-- **The IDs in use come back from their file.** -/
theorem Saved.loadUsedBlockIDs (h : Saved c s files) (hids : ∀ id ∈ s.usedBlockIDs, id < 2 ^ 64)
    (hcard : s.usedBlockIDs.card < 2 ^ 64) :
    loadUsedBlockIDs files.usedBlockIDs = some s.usedBlockIDs := by
  obtain ⟨ids, hperm, hfile⟩ := h.usedBlockIDs
  have hmem : ∀ {id}, id ∈ ids ↔ id ∈ s.usedBlockIDs := hperm.mem_iff.trans (Finset.mem_sort _)
  have hlength : ids.length = s.usedBlockIDs.card :=
    hperm.length_eq.trans (Finset.length_sort _)
  have hcount : LittleEndian.decode ((idFile ids).take 8) = ids.length :=
    LittleEndian.decode_take_encode_append ((hlength ▸ hcard).trans_eq (by norm_num)) _
  have h8 := LittleEndian.length_encode 8 ids.length
  rw [hfile, ORAMTestSSS.loadUsedBlockIDs,
    if_neg (by rw [idFile, List.length_append]; omega), hcount, idFile, List.drop_left' h8,
    loadIDs_flatMap fun id hid => hids id (hmem.mp hid), Finset.union_empty]
  refine congrArg some (Finset.ext fun id => ?_)
  rw [List.mem_toFinset, hmem]

end Files

/-! ### The ORAM that is built of them -/

section Build

variable {secretSharesSize : ℕ} {crypto : Crypto} {hmac : Bytes → Bytes → Bytes} {key : Bytes}
  {c : Config} {s : ORAM InMemoryPositionMapAdapter} {r : Random} {files : Backup}
  {blocks : ℕ → Bytes} {map : InMemoryPositionMapAdapter}

/-- `initializeFromBackup` does not throw. The ORAM it returns verifies what it reads. -/
theorem initializeFromBackup_eq {storage : StorageConfig}
    (hstorage : StorageConfig.new (totalBlocks secretSharesSize + 10) BLOCK_SIZE
      (loadKey files.key) Z 0 r = .ok storage) :
    initializeFromBackup secretSharesSize crypto hmac key files blocks map r =
      .ok (configOver secretSharesSize crypto hmac key storage,
        ORAM.verifying (loaded files blocks map r)) := by
  unfold initializeFromBackup
  simp only [hstorage]
  rfl

theorem configOver_self (hc : config secretSharesSize crypto hmac key r = .ok c) :
    configOver secretSharesSize c.crypto c.hmac c.key c.storage = c := by
  obtain ⟨heq, -⟩ := config_eq hc
  generalize c.storage = storage at heq
  subst heq
  rfl

/-- **With the key of the storage its adapter is built again.** -/
theorem Saved.storage_eq (h : Saved c s files)
    (hc : config secretSharesSize crypto hmac key r = .ok c) (hkey : c.key = c.storage.key)
    (r' : Random) : StorageConfig.new (totalBlocks secretSharesSize + 10) BLOCK_SIZE
      (loadKey files.key) Z 0 r' = .ok c.storage := by
  have hloaded : loadKey files.key = c.storage.key := by
    rw [h.key, loadKey, storeKey, List.take_take, Nat.min_self, hkey]
    exact List.take_of_length_le c.storage.key_size.le
  obtain ⟨-, hnew⟩ := config_eq hc
  obtain ⟨hcapacity, hsize, hZ, hlimit⟩ := StorageConfig.of_new hnew
  have hself := StorageConfig.new_self c.storage r'
  rw [hcapacity, hsize, hZ, hlimit] at hself
  rw [hloaded, hself]

end Build

/-! ### What a backup is for -/

/-- The array holds `f` for the IDs below `n`, and has the capacity that it was allocated with. -/
def Allocated (n capacity : ℕ) (f : ℕ → Option ℕ) (m : InMemoryPositionMapAdapter) : Prop :=
  InMemoryPositionMapAdapter.Holds n f m ∧ m.capacity = capacity

theorem implements_allocated (n bound capacity : ℕ) :
    InMemoryPositionMapAdapter.adapter.Implements n bound (Allocated n capacity) False where
  get_spec f m block hm hblock := by
    obtain ⟨⟨rfl, hn⟩, hcapacity⟩ := hm
    refine wp_bind (InMemoryPositionMapAdapter.wp_checkCapacity (fun _ => ?_) (fun h => by omega))
    refine wp_bind (wp_get (wp_bind (wp_modify (wp_pure
      ⟨fun leaf hleaf => ?_, ⟨rfl, hn⟩, hcapacity⟩))))
    rw [hleaf]
    rfl
  set_spec f m block leaf hm hblock _ := by
    obtain ⟨⟨rfl, hn⟩, hcapacity⟩ := hm
    refine wp_bind (InMemoryPositionMapAdapter.wp_checkCapacity (fun _ => ?_) (fun h => by omega))
    exact wp_modify ⟨⟨rfl, hn⟩, hcapacity⟩

/-- **The backup loses nothing**: from its files and the storage an ORAM is built that returns,
for every ID in use, the container that the ORAM would have returned. The two may draw whatever
they draw. -/
def Lossless (secretSharesSize : ℕ) (c : Config) (s : ORAM InMemoryPositionMapAdapter) : Prop :=
  ∀ r, ∃ files, backupGenerator c s r = .ok files ∧
    loadUsedBlockIDs files.usedBlockIDs = some s.usedBlockIDs ∧
    ∀ (map : InMemoryPositionMapAdapter) (r' : Random),
      map.capacity = totalBlocks secretSharesSize * Z + Z → ∃ c' s' macMap,
        initializeFromBackup secretSharesSize c.crypto c.hmac c.key files s.storage.blocks map r' =
          .ok (c', s') ∧
        ORAM.loadMacMap files.macMap s'.macMap = some macMap ∧
        ∀ id ∈ s.usedBlockIDs, ∀ (r₁ r₂ : Random) container t,
          ORAM.getContainer c InMemoryPositionMapAdapter.adapter id { s with random := r₁ } =
            .ok container t →
          ∃ t', ORAM.getContainer c' InMemoryPositionMapAdapter.adapter id
            { s' with macMap := macMap, random := r₂ } = .ok container t'

/-- What the backup rests on, and `backupGenerator` does not see to. -/
structure Restorable (c : Config) (s : ORAM InMemoryPositionMapAdapter) : Prop where
  /-- The key of the MACs is that of the storage. -/
  key : c.key = c.storage.key
  /-- The payloads in the stash have the length that its file is read with. -/
  payloads : ∀ entry ∈ s.stash.toList, entry.2.length = BLOCK_SIZE
  /-- The size of the stash file is an `int`. -/
  size : s.stash.toList.length * (8 + BLOCK_SIZE) < 2 ^ 31
  /-- The MACs are there that are looked up when an ID in use is read. -/
  macs : ∀ id ∈ s.usedBlockIDs, ∀ leaf,
    returned (InMemoryPositionMapAdapter.adapter.get id) s.map = some leaf →
      ORAM.Verifiable c leaf s

section Content

variable {c : Config} {s : ORAM InMemoryPositionMapAdapter} {files : Backup}
  {capacity : ℕ} {v : View}

/-- **The ORAM that is built has the content of the one that was saved.** -/
theorem Saved.sameContent (h : Saved c s files) (hc : c.Valid)
    (hs : PathORAM.Shows c.toConfig (Allocated c.blocks capacity) v s.toORAM)
    (hcached : v.cached = ∅) (hv : View.Sound c v) (hrestorable : Restorable c s)
    {map : InMemoryPositionMapAdapter} (hmap : map.capacity = capacity) (r : Random) :
    s.SameContent c.toConfig (loaded files s.storage.blocks map r).toORAM := by
  have hsize : InMemoryStashAdapter.Uniform s.stash BLOCK_SIZE := fun id d hd =>
    hrestorable.payloads _ (UnorderedMap.mem_toList.mpr hd)
  refine ⟨fun _ _ => rfl, fun id => ?_, fun id hid => ?_, ?_, ?_⟩
  · obtain ⟨entries, hperm, hstash⟩ := h.stash
    have hlength : ∀ entry ∈ entries, entry.2.length = BLOCK_SIZE := fun entry he =>
      hrestorable.payloads entry (hperm.mem_iff.mp he)
    rw [InMemoryStashAdapter.fileOf_eq hlength] at hstash
    have hfile := Except.ok.inj hstash
    have hids : ∀ id ∈ s.stash, id ≤ 10 ^ 12 := fun id hid => hv.ids.stash id (hs.stash ▸ hid)
    have hload := InMemoryStashAdapter.lookup_loadFromFile hsize hids hperm
      (by rw [PathORAM.InMemoryStashAdapter.length_flatMap_recordBytes hlength, hperm.length_eq]
          exact hrestorable.size) id
    rw [hfile] at hload
    -- The stash of an empty file is empty.
    have hempty : (loaded files s.storage.blocks map r).stash =
        InMemoryStashAdapter.loadFromFile files.stash BLOCK_SIZE ∅ := by
      change (if 0 < files.stash.length then _ else _) = _
      split
      · rfl
      · next hzero =>
        rw [List.eq_nil_of_length_eq_zero (Nat.eq_zero_of_not_pos hzero)]
        rfl
    rw [hempty, hload]
  · obtain ⟨leaf, hleaf, hpos⟩ := hv.valid.pos id hid
    have hmapped : s.map.map id = some leaf := (congrFun hs.pos.1.1 id).trans hpos
    rw [hmapped]
    change (map.loadFromFile files.positionMap).map id = some leaf
    rw [h.positionMap]
    exact InMemoryPositionMapAdapter.map_loadFromFile_storeToFile (hmap.trans hs.pos.2.symm)
      (hid.trans_le hs.pos.1.2) hmapped
      (hleaf.trans (Nat.pow_lt_pow_right (by norm_num) (by have := hc.height_le; omega)))
  · exact hmap.trans hs.pos.2.symm
  · exact (hs.cache_eq_empty hcached).symm

end Content

end ORAMTestSSS

end CloakQueryPathORAM
