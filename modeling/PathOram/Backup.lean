import PathOram.Agreement
import PathOram.Backends

/-!
# Saving and restoring an ORAM

`storeToFile` and `loadFromFile` of the in-memory position map and stash, `storeKey` and
`loadKey`, and what `ORAMBigTest::disaster` does with them: write key, position map and
stash to files, reopen the storage file without `override`, load the rest into fresh
adapters, and construct an ORAM that is not initialised.

* The position map is its array, 8 bytes for each entry.
* The stash is a sequence of records of an ID and a payload. All records have the length
  of the payload of the first one, so the format holds only stashes of payloads of one
  length; that the payloads in a stash are of one length is an invariant (`View.Exact`)
  of runs in which every payload that is put fills its block.
* The cache is not saved. It is empty after every call that completes.

`restore_transparent` is the simulation: the restored ORAM holds the same key-value store,
so from then on it answers as the original.
-/

namespace PathORAM

open Hoare HeapTree

/-! ### The files -/

/-- `storeKey`: the file of a key. -/
def storeKey (key : Bytes) : Bytes := key.take KEYSIZE

/-- `loadKey`. -/
def loadKey (file : Bytes) : Bytes := file.take KEYSIZE

namespace InMemoryPositionMapAdapter

/-- The array in memory. -/
def cell (m : InMemoryPositionMapAdapter) (i : ℕ) : ℕ := (m.map i).getD (m.garbage i)

/-- `InMemoryPositionMapAdapter::storeToFile`. -/
def storeToFile (m : InMemoryPositionMapAdapter) : Bytes :=
  (List.range m.capacity).flatMap (fun i => LittleEndian.encode 8 (m.cell i))

/-- `InMemoryPositionMapAdapter::loadFromFile`. Entries behind the end of the file stay as
they are. -/
def loadFromFile (file : Bytes) (m : InMemoryPositionMapAdapter) :
    InMemoryPositionMapAdapter :=
  { m with map := fun i =>
      if i < m.capacity ∧ i * 8 + 8 ≤ file.length then
        some (LittleEndian.decode (Records.record 8 i file))
      else m.map i }

/-- **The position map comes back from its file**, up to the width of its entries. -/
theorem loadFromFile_storeToFile (m m' : InMemoryPositionMapAdapter)
    (hcapacity : m'.capacity = m.capacity) {i : ℕ} (hi : i < m.capacity)
    (hcell : m.cell i < 2 ^ 64) :
    (loadFromFile m.storeToFile m').map i = some (m.cell i) := by
  have hrecords : ∀ i ∈ List.range m.capacity,
      (LittleEndian.encode 8 (m.cell i)).length = 8 := fun i _ => LittleEndian.length_encode 8 _
  have hlength : m.storeToFile.length = m.capacity * 8 := by
    unfold storeToFile
    rw [Records.length_flatMap hrecords, List.length_range]
  have hle := Records.add_size_le 8 hi
  -- the cell is the record of eight bytes at its index
  have hrecord : Records.record 8 i m.storeToFile = LittleEndian.encode 8 (m.cell i) := by
    unfold storeToFile
    rw [Records.record_flatMap hrecords (by rwa [List.length_range]), List.getElem_range]
  change (if i < m'.capacity ∧ i * 8 + 8 ≤ m.storeToFile.length then _ else _) = _
  rw [if_pos ⟨hcapacity ▸ hi, hlength ▸ hle⟩, hrecord,
    LittleEndian.decode_encode (by norm_num; omega)]

/-- A leaf comes back. -/
theorem map_loadFromFile_storeToFile {m m' : InMemoryPositionMapAdapter}
    (hcapacity : m'.capacity = m.capacity) {i leaf : ℕ} (hi : i < m.capacity)
    (hmap : m.map i = some leaf) (hleaf : leaf < 2 ^ 64) :
    (loadFromFile m.storeToFile m').map i = some leaf := by
  have hcell : m.cell i = leaf := by
    rw [cell, hmap]
    rfl
  rw [loadFromFile_storeToFile m m' hcapacity hi (hcell ▸ hleaf), hcell]

end InMemoryPositionMapAdapter

namespace InMemoryStashAdapter

/-- The bytes of an entry of the stash. -/
def recordBytes (entry : Block) : Bytes := LittleEndian.encode 8 entry.1 ++ entry.2

/-- The loop of `storeToFile`: every entry is copied to its place in the buffer. -/
def copyRecords (recordSize : ℕ) : ℕ → List Block → Bytes → Bytes
  | _, [], buffer => buffer
  | i, entry :: entries, buffer =>
    copyRecords recordSize (i + 1) entries
      (Records.overwrite (recordSize * i) (recordBytes entry) buffer)

/-- `InMemoryStashAdapter::storeToFile`. The entries come in the order of the map, and the
buffer is not initialised. -/
def storeToFile (stash : InMemoryStashAdapter) (r : Random) : Bytes × Random :=
  let (entries, r) := r.iterate stash.toList
  match entries with
  | [] => ([], r)
  -- The first payload decides the size of all records.
  | entry :: _ =>
    let recordSize := 8 + entry.2.length
    let (buffer, r) := r.getRandomBlock (entries.length * recordSize)
    ((copyRecords recordSize 0 entries buffer).take (entries.length * recordSize), r)

/-- The loop of `loadFromFile`. -/
def loadRecords (blockSize : ℕ) : ℕ → Bytes → InMemoryStashAdapter → InMemoryStashAdapter
  | 0, _, stash => stash
  | fuel + 1, buffer, stash =>
    if buffer.length = 0 then stash
    else
      let block := LittleEndian.decode (buffer.take 8)
      let data := (buffer.drop 8).take blockSize
      loadRecords blockSize fuel (buffer.drop (8 + blockSize))
        (if block ∈ stash then stash else stash.insert block data)

/-- `InMemoryStashAdapter::loadFromFile`. The size of the file is converted to `int`. -/
def loadFromFile (file : Bytes) (blockSize : ℕ) (stash : InMemoryStashAdapter) :
    InMemoryStashAdapter :=
  let size := (toInt file.length).toInt
  if 0 < size then loadRecords blockSize size.toNat (file.take size.toNat) stash else stash

theorem length_recordBytes (entry : Block) : (recordBytes entry).length = 8 + entry.2.length := by
  unfold recordBytes
  rw [List.length_append, LittleEndian.length_encode]

/-- Entries of one length are written one after the other. -/
theorem copyRecords_eq {blockSize : ℕ} {entries : List Block}
    (h : ∀ entry ∈ entries, entry.2.length = blockSize) {i : ℕ} {start rest : Bytes}
    (hstart : start.length = (8 + blockSize) * i) :
    copyRecords (8 + blockSize) i entries (start ++ rest) =
      start ++ entries.flatMap recordBytes ++ rest.drop (entries.length * (8 + blockSize)) := by
  induction entries generalizing i start rest with
  | nil => simp [copyRecords]
  | cons entry entries ih =>
    have hrecord : (recordBytes entry).length = 8 + blockSize := by
      rw [length_recordBytes, h entry List.mem_cons_self]
    -- The record goes behind those that were copied before it.
    rw [copyRecords, Records.overwrite_append hstart, hrecord, ih
      (fun e he => h e (List.mem_cons_of_mem _ he)), List.flatMap_cons, List.drop_drop,
      List.length_cons, Nat.succ_mul, Nat.add_comm (8 + blockSize)]
    · simp only [List.append_assoc]
    · rw [List.length_append, hstart, hrecord, Nat.mul_succ]

/-- They fill a buffer of their size. -/
theorem copyRecords_eq_flatMap {blockSize : ℕ} {entries : List Block} {buffer : Bytes}
    (h : ∀ entry ∈ entries, entry.2.length = blockSize)
    (hbuffer : buffer.length = entries.length * (8 + blockSize)) :
    copyRecords (8 + blockSize) 0 entries buffer = entries.flatMap recordBytes := by
  have hzero : ([] : Bytes).length = (8 + blockSize) * 0 := rfl
  refine (copyRecords_eq h hzero).trans ?_
  rw [List.nil_append, List.drop_eq_nil_of_le hbuffer.le, List.append_nil]

/-- A record is read back as its entry. -/
theorem loadRecords_cons {blockSize fuel : ℕ} {entry : Block}
    (hdata : entry.2.length = blockSize) (hid : entry.1 < 2 ^ 64) (rest : Bytes)
    (stash : InMemoryStashAdapter) :
    loadRecords blockSize (fuel + 1) (recordBytes entry ++ rest) stash =
      loadRecords blockSize fuel rest
        (if entry.1 ∈ stash then stash else stash.insert entry.1 entry.2) := by
  have hid8 : (LittleEndian.encode 8 entry.1).length = 8 := LittleEndian.length_encode 8 _
  have hlength : (recordBytes entry).length = 8 + blockSize := by
    rw [length_recordBytes, hdata]
  -- the record is the ID in eight bytes, then the payload
  have hblock : LittleEndian.decode ((recordBytes entry ++ rest).take 8) = entry.1 := by
    unfold recordBytes
    rw [List.append_assoc]
    exact LittleEndian.decode_take_encode_append (by norm_num; omega) _
  have hpayload : ((recordBytes entry ++ rest).drop 8).take blockSize = entry.2 := by
    unfold recordBytes
    rw [List.append_assoc, List.drop_left' hid8, List.take_left' hdata]
  rw [loadRecords, if_neg (by rw [List.length_append]; omega), hblock, hpayload,
    List.drop_left' hlength]

/-- Records of different IDs are all loaded. -/
theorem loadRecords_eq {blockSize : ℕ} {entries : List Block}
    (hdata : ∀ entry ∈ entries, entry.2.length = blockSize)
    (hids : ∀ entry ∈ entries, entry.1 < 2 ^ 64) (hnodup : (entries.map Prod.fst).Nodup)
    {fuel : ℕ} (hfuel : entries.length ≤ fuel) {stash : InMemoryStashAdapter}
    (hnew : ∀ entry ∈ entries, entry.1 ∉ stash) :
    loadRecords blockSize fuel (entries.flatMap recordBytes) stash =
      UnorderedMap.assignAll entries stash := by
  induction entries generalizing fuel stash with
  | nil => cases fuel <;> simp [loadRecords, UnorderedMap.assignAll]
  | cons entry entries ih =>
    obtain ⟨fuel, rfl⟩ : ∃ n, fuel = n + 1 := ⟨fuel - 1, by rw [List.length_cons] at hfuel; omega⟩
    rw [List.map_cons, List.nodup_cons] at hnodup
    rw [List.flatMap_cons, loadRecords_cons (hdata entry List.mem_cons_self)
      (hids entry List.mem_cons_self), if_neg (hnew entry List.mem_cons_self),
      UnorderedMap.assignAll_cons]
    refine ih (fun e he => hdata e (List.mem_cons_of_mem _ he))
      (fun e he => hids e (List.mem_cons_of_mem _ he)) hnodup.2
      (by rw [List.length_cons] at hfuel; omega) fun e he hmem => ?_
    -- The ID just inserted does not come again.
    rcases (AList.mem_insert _).mp hmem with heq | hmem
    · exact hnodup.1 (heq ▸ List.mem_map_of_mem he)
    · exact hnew e (List.mem_cons_of_mem _ he) hmem

/-- Records of one length, one after the other. -/
theorem length_flatMap_recordBytes {blockSize : ℕ} {entries : List Block}
    (h : ∀ entry ∈ entries, entry.2.length = blockSize) :
    (entries.flatMap recordBytes).length = entries.length * (8 + blockSize) := by
  refine Records.length_flatMap fun entry hentry => ?_
  rw [length_recordBytes, h entry hentry]

/-- **A file of records of different IDs is loaded** as long as its size is an `int`. -/
theorem loadFromFile_flatMap {blockSize : ℕ} {entries : List Block}
    (hdata : ∀ entry ∈ entries, entry.2.length = blockSize)
    (hids : ∀ entry ∈ entries, entry.1 < 2 ^ 64) (hnodup : (entries.map Prod.fst).Nodup)
    (hfile : entries.length * (8 + blockSize) < 2 ^ 31) :
    loadFromFile (entries.flatMap recordBytes) blockSize ∅ = UnorderedMap.assignAll entries ∅ := by
  have hlength := length_flatMap_recordBytes hdata
  have hsize := toInt_toInt (hlength ▸ hfile)
  unfold loadFromFile
  simp only [hsize, Int.toNat_natCast, List.take_length]
  by_cases hpos : (0 : ℤ) < (entries.flatMap recordBytes).length
  · rw [if_pos hpos]
    refine loadRecords_eq hdata hids hnodup ?_ fun entry _ => AList.notMem_empty _
    rw [hlength]
    exact Nat.le_mul_of_pos_right _ (by omega)
  -- An empty file has no records.
  · rw [if_neg hpos]
    have hempty : entries = [] := by
      refine List.length_eq_zero_iff.mp (Nat.eq_zero_of_not_pos fun h => hpos ?_)
      have := Nat.mul_pos h (by omega : 0 < 8 + blockSize)
      omega
    rw [hempty]
    rfl

/-- **The stash comes back from its file** when its payloads are of one length. -/
theorem lookup_loadFromFile_storeToFile {stash : InMemoryStashAdapter} {r : Random}
    {blockSize : ℕ} (hdata : ∀ id d, stash.lookup id = some d → d.length = blockSize)
    (hids : ∀ id ∈ stash, id < 2 ^ 64) (hfile : (storeToFile stash r).1.length < 2 ^ 31)
    (id : ℕ) : (loadFromFile (storeToFile stash r).1 blockSize ∅).lookup id = stash.lookup id := by
  have hperm : (r.iterate stash.toList).1.Perm stash.toList := Random.perm_iterate _ _
  have hentry : ∀ entry ∈ (r.iterate stash.toList).1, stash.lookup entry.1 = some entry.2 :=
    fun entry hentry => UnorderedMap.mem_toList.mp (hperm.mem_iff.mp hentry)
  have hlength : ∀ entry ∈ (r.iterate stash.toList).1, entry.2.length = blockSize :=
    fun entry h => hdata _ _ (hentry entry h)
  -- The file is the records of the entries in the order of the map.
  have hstored : (storeToFile stash r).1 =
      (r.iterate stash.toList).1.flatMap recordBytes := by
    unfold storeToFile
    cases hentries : (r.iterate stash.toList).1 with
    | nil => simp [hentries]
    | cons entry entries =>
      rw [hentries] at hlength
      have hfirst := hlength entry List.mem_cons_self
      simp only [hentries, hfirst]
      rw [copyRecords_eq_flatMap hlength (Random.length_getRandomBlock _ _)]
      exact List.take_of_length_le (length_flatMap_recordBytes hlength).le
  have hkeys : ((r.iterate stash.toList).1.map Prod.fst).Nodup :=
    ((hperm.map Prod.fst).nodup_iff).mpr (UnorderedMap.nodup_keys_toList stash)
  have hsize : (r.iterate stash.toList).1.length * (8 + blockSize) < 2 ^ 31 := by
    rwa [← length_flatMap_recordBytes hlength, ← hstored]
  rw [hstored, loadFromFile_flatMap hlength
    (fun entry h => hids _ (mem_of_lookup (hentry entry h))) hkeys hsize,
    UnorderedMap.lookup_assignAll_perm hperm, AList.lookup_empty, Option.or_none]

end InMemoryStashAdapter

/-! ### Saving and restoring -/

/-- The files `disaster` writes. -/
structure Backup where
  key : Bytes
  positionMap : Bytes
  stash : Bytes

namespace ORAM

/-- Store key, position map and stash. -/
def save (c : Config) (s : ORAM InMemoryPositionMapAdapter) : Backup where
  key := storeKey c.storage.key
  positionMap := s.map.storeToFile
  stash := (s.stash.storeToFile s.random).1

/-- The adapters rebuilt from the files, in an ORAM that is not constructed yet: `disk` is
the storage file, `map` a fresh position map and `blockSize` the length of a payload in the
stash. -/
def reload (c : Config) (files : Backup) (disk : Bytes) (blockSize : ℕ)
    (map : InMemoryPositionMapAdapter) (r : Random) : ORAM InMemoryPositionMapAdapter where
  storage :=
    { blocks := fun location =>
        (FileSystemStorageAdapter.backend c.storage).getInternal location []
          (FileSystemStorageAdapter.new c.storage c.crypto disk false r).adapter.backend
      calls := [] }
  map := map.loadFromFile files.positionMap
  stash := InMemoryStashAdapter.loadFromFile files.stash blockSize ∅
  cache := ∅
  random := (FileSystemStorageAdapter.new c.storage c.crypto disk false r).adapter.random
  gets := 0
  puts := 0

/-- Rebuild the adapters with the loaded key, and construct an ORAM that is not initialised.
Returns the configuration with that key and the ORAM. -/
def restore (c : Config) (files : Backup) (disk : Bytes) (blockSize : ℕ)
    (map : InMemoryPositionMapAdapter) (r : Random) :
    Except Exception (Config × ORAM InMemoryPositionMapAdapter) := do
  let storage ← StorageConfig.new c.storage.capacity c.storage.userBlockSize
    (loadKey files.key) c.storage.Z c.storage.batchLimit r
  let c := { c with storage := storage }
  match new c InMemoryPositionMapAdapter.adapter false (reload c files disk blockSize map r) with
  | .ok _ s => .ok (c, s)
  | .error e _ => .error e

end ORAM

/-- The storage file holds the raw array of the storage. -/
def Storage.OnDisk (c : StorageConfig) (s : Storage) (disk : Bytes) : Prop :=
  StorageAdapter.Represents (FileSystemStorageAdapter.backend c) c
    (FileSystemStorageAdapter.Sized c) ⟨disk⟩ s.blocks

section Restore

variable {c : Config} {kv : Store} {s s' : ORAM InMemoryPositionMapAdapter} {v v' : View}

/-- Two views of the same blocks and leaves, the second of them without a cache. -/
structure View.SameBlocks (c : Config) (v v' : View) : Prop where
  pos : ∀ id < c.blocks, v'.pos id = v.pos id
  tree : ∀ b, InTree c.height b → v'.tree b = v.tree b
  stash : ∀ id, v'.stash.lookup id = v.stash.lookup id
  cached : v'.cached = ∅

/-! What the invariants say of the first view they say of the second. -/

theorem View.SameBlocks.mem_stash (h : v.SameBlocks c v') (id : ℕ) :
    id ∈ v'.stash ↔ id ∈ v.stash := by
  rw [← AList.lookup_isSome, ← AList.lookup_isSome, h.stash]

theorem View.SameBlocks.mem_tree (h : v.SameBlocks c v') {b : ℕ} (hb : InTree c.height b)
    {e : Block} : e ∈ v'.tree b ↔ e ∈ v.tree b := by
  rw [h.tree b hb]

theorem View.SameBlocks.symm (h : v.SameBlocks c v') (hcached : v.cached = ∅) :
    v'.SameBlocks c v :=
  ⟨fun id hid => (h.pos id hid).symm, fun b hb => (h.tree b hb).symm, fun id => (h.stash id).symm,
    hcached⟩

theorem View.SameBlocks.valid (h : v.SameBlocks c v') (hv : v.Valid c) : v'.Valid c where
  pos id hid := by
    obtain ⟨leaf, hleaf, hpos⟩ := hv.pos id hid
    exact ⟨leaf, hleaf, (h.pos id hid).trans hpos⟩
  length b hb := (congrArg List.length (h.tree b hb)).trans (hv.length b hb)
  dummy b hb e he := hv.dummy b hb e ((h.mem_tree hb).mp he)
  tree_id b hb e he := hv.tree_id b hb e ((h.mem_tree hb).mp he)
  stash_id id hid := hv.stash_id id ((h.mem_stash id).mp hid)
  cached b hb := absurd hb (h.cached ▸ Finset.notMem_empty b)

theorem View.SameBlocks.within {P : ℕ → Prop} (h : v.SameBlocks c v') (hv : v.Within c P) :
    v'.Within c P where
  tree b hb e he := hv.tree b hb e ((h.mem_tree hb).mp he)
  stash id hid := hv.stash id ((h.mem_stash id).mp hid)

theorem View.SameBlocks.tracks {T : Set ℕ} (h : v.SameBlocks c v') (hv : v.Valid c)
    (ht : v.Tracks c kv T) : v'.Tracks c kv T where
  onPath b hb e he hreal hT := by
    have he := (h.mem_tree hb).mp he
    obtain ⟨leaf, hleaf, honPath⟩ := ht.onPath b hb e he hreal hT
    exact ⟨leaf, (h.pos e.1 (hv.tree_id b hb e he hreal)).trans hleaf, honPath⟩
  tree b hb e he := ht.tree b hb e ((h.mem_tree hb).mp he)
  stash id d hd := ht.stash id d ((h.stash id).symm.trans hd)
  present id p hp hT := by
    refine (ht.present id p hp hT).imp (h.mem_stash id).mpr ?_
    rintro ⟨b, hb, e, he, hreal, rfl⟩
    exact ⟨b, hb, e, (h.mem_tree hb).mpr he, hreal, rfl⟩

theorem View.SameBlocks.exact (h : v.SameBlocks c v') (hx : v.Exact c kv) : v'.Exact c kv where
  tree b hb e he := hx.tree b hb e ((h.mem_tree hb).mp he)
  stash id d hd := hx.stash id d ((h.stash id).symm.trans hd)

/-- In a view without a cache nothing is cached. -/
theorem Shows.cache_eq_empty {M : Type} {R : (ℕ → Option ℕ) → M → Prop} {s : ORAM M}
    (hshows : Shows c R v s) (hcached : v.cached = ∅) : s.cache = ∅ := by
  refine AList.ext (List.eq_nil_iff_forall_not_mem.mpr fun e he => ?_)
  have hmem := (hshows.cached e.1).mpr (List.mem_map_of_mem he)
  rw [hcached] at hmem
  exact Finset.notMem_empty _ hmem

/-- Two states a client cannot tell apart: the same stored buckets, the same payloads in
the stash, the same leaves, and nothing cached. -/
structure ORAM.SameContent (c : Config) (s s' : ORAM InMemoryPositionMapAdapter) : Prop where
  blocks : ∀ b, InTree c.height b → s'.storage.blocks b = s.storage.blocks b
  stash : ∀ id, s'.stash.lookup id = s.stash.lookup id
  leaves : ∀ id < c.blocks, s'.map.map id = s.map.map id
  capacity : s'.map.capacity = s.map.capacity
  cache : s'.cache = s.cache

/-- They show the same blocks. -/
theorem ORAM.SameContent.exists_shows (h : s.SameContent c s')
    (hshows : Shows c (InMemoryPositionMapAdapter.Holds c.blocks) v s) (hcached : v.cached = ∅) :
    ∃ v', Shows c (InMemoryPositionMapAdapter.Holds c.blocks) v' s' ∧ v.SameBlocks c v' := by
  -- with an empty cache the buckets of the tree are those of the storage
  have hcache : ∀ b, s.cache.lookup b = none := fun b => by
    rw [hshows.cache_eq_empty hcached]
    exact AList.lookup_empty b
  let v' : View :=
    { pos := s'.map.map
      tree := fun b => AbsStorageAdapter.content c.storage c.crypto s'.storage b
      stash := s'.stash
      coins := s'.random.ulongs
      cached := ∅
      touched := s'.storage.calls.map StorageCall.touch }
  have hshows' : Shows c (InMemoryPositionMapAdapter.Holds c.blocks) v' s' :=
    { pos := ⟨rfl, h.capacity.symm ▸ hshows.pos.2⟩
      tree := fun b => by
        rw [h.cache, hcache b]
        rfl
      stash := rfl
      coins := rfl
      cached := fun b => by
        rw [h.cache]
        exact ⟨fun hb => absurd hb (Finset.notMem_empty b), fun hb => absurd hb
          (AList.lookup_eq_none.mp (hcache b))⟩
      touched := rfl
      readable := fun b hb => (hshows.readable b hb).congr (h.blocks b hb) }
  refine ⟨v', hshows', fun id hid => ?_, fun b hb => ?_, fun id => ?_, rfl⟩
  · exact (h.leaves id hid).trans (congrFun hshows.pos.1 id)
  · rw [hshows.tree b, hcache b]
    exact AbsStorageAdapter.content_congr (h.blocks b hb)
  · rw [hshows.stash]
    exact h.stash id

/-- **They hold the same store.** -/
theorem ORAM.SameContent.holds (h : s.SameContent c s')
    (hs : s.HoldsExactly c (InMemoryPositionMapAdapter.Holds c.blocks) kv) :
    s'.HoldsExactly c (InMemoryPositionMapAdapter.Holds c.blocks) kv := by
  obtain ⟨v, hshows, hv, hx, hcached⟩ := hs
  obtain ⟨v', hshows', hsame⟩ := h.exists_shows hshows hcached
  have hholds : v'.Holds c kv ∅ :=
    ⟨hsame.valid hv.valid, hsame.within hv.small, hsame.tracks hv.valid hv.tracks⟩
  exact ⟨v', hshows', hholds, hsame.exact hx, hsame.cached⟩

/-- Another random source changes nothing. -/
theorem ORAM.SameContent.withRandom (s : ORAM InMemoryPositionMapAdapter) (r : Random) :
    s.SameContent c { s with random := r } :=
  ⟨fun _ _ => rfl, fun _ => rfl, fun _ _ => rfl, rfl, rfl⟩

/-- The length `disaster` loads the stash with: that of a payload of the stash, or 0. -/
def ORAM.PayloadLength (s : ORAM InMemoryPositionMapAdapter) (blockSize : ℕ) : Prop :=
  (s.stash.toList = [] ∧ blockSize = 0) ∨ ∃ e ∈ s.stash.toList, e.2.length = blockSize

/-- In a store of full payloads the stash is loaded with the block size. -/
theorem ORAM.HoldsExactly.length_eq (hkv : kv.Full c.dataSize)
    (hs : s.HoldsExactly c (InMemoryPositionMapAdapter.Holds c.blocks) kv) {blockSize : ℕ}
    (hlength : s.PayloadLength blockSize) :
    ∀ id d, s.stash.lookup id = some d → d.length = blockSize := by
  obtain ⟨v, hshows, -, hx, -⟩ := hs
  have hfull : ∀ id d, s.stash.lookup id = some d → d.length = c.dataSize := by
    intro id d hd
    obtain ⟨p, hp, hkept⟩ := hx.stash id d (hshows.stash ▸ hd)
    rw [hkept.eq_of_le (hkv id p hp).ge]
    exact hkv id p hp
  intro id d hd
  -- the length passed on loading is that of some entry, and all have the same
  rcases hlength with ⟨hempty, -⟩ | ⟨e, he, hlength⟩
  · have hmem := UnorderedMap.mem_toList.mpr hd
    rw [hempty] at hmem
    exact absurd hmem List.not_mem_nil
  · rw [hfull id d hd, ← hfull e.1 e.2 (UnorderedMap.mem_toList.mp he), hlength]

/-- A storage configuration is rebuilt from its own parameters. -/
theorem StorageConfig.new_self (c : StorageConfig) (r : Random) :
    StorageConfig.new c.capacity c.userBlockSize c.key c.Z c.batchLimit r = .ok c := by
  unfold StorageConfig.new
  have hmod : c.userBlockSize % AES_BLOCK_SIZE = 0 := Nat.mod_eq_zero_of_dvd c.dvd_userBlockSize
  rw [dif_neg (not_lt.mpr c.le_userBlockSize), dif_neg (not_not.mpr hmod),
    dif_neg c.Z_pos.ne']
  congr 1
  cases c with
  | mk key _ _ _ _ key_size _ _ _ => simp [key_size]

/-- **The restored ORAM has the content of the saved one.** -/
theorem ORAM.restore_sameContent (hc : c.Valid) (hkv : kv.Full c.dataSize)
    (hs : s.HoldsExactly c (InMemoryPositionMapAdapter.Holds c.blocks) kv) {disk : Bytes}
    (hdisk : s.storage.OnDisk c.storage disk) {blockSize : ℕ}
    (hlength : s.PayloadLength blockSize) {map : InMemoryPositionMapAdapter}
    (hmap : map.capacity = s.map.capacity) (r : Random)
    (hfile : (s.save c).stash.length < 2 ^ 31) :
    ∃ s', ORAM.restore c (s.save c) disk blockSize map r = .ok (c, s') ∧ s.SameContent c s' := by
  have hkey : loadKey (s.save c).key = c.storage.key := by
    change (c.storage.key.take KEYSIZE).take KEYSIZE = _
    rw [List.take_take, Nat.min_self]
    exact List.take_of_length_le c.storage.key_size.le
  obtain ⟨v, hshows, hv, hx, hcached⟩ := id hs
  have hids : ∀ id ∈ s.stash, id < 2 ^ 64 := fun id hid => by
    have hlt := hv.valid.stash_id id (hshows.stash ▸ hid)
    exact hlt.trans (hc.blocks_eq ▸ hc.blocks_lt)
  refine ⟨ORAM.reload c (s.save c) disk blockSize map r, ?_, ?_⟩
  · unfold ORAM.restore
    rw [hkey, StorageConfig.new_self]
    rfl
  · refine ⟨fun b hb => ?_, fun id => ?_, fun id hid => ?_, hmap, ?_⟩
    -- The file was not overwritten.
    · exact hdisk.raw b (hb.2.trans_le hc.capacity_ge)
    · exact InMemoryStashAdapter.lookup_loadFromFile_storeToFile
        (hs.length_eq hkv hlength) hids hfile id
    · obtain ⟨leaf, hleaf, hpos⟩ := hv.valid.pos id hid
      have hmap' : s.map.map id = some leaf := by rw [hshows.pos.1, hpos]
      rw [hmap']
      exact InMemoryPositionMapAdapter.map_loadFromFile_storeToFile hmap
        (hid.trans_le hshows.pos.2) hmap'
        (hleaf.trans (Nat.pow_lt_pow_right (by norm_num) (by have := hc.height_le; omega)))
    · exact (hshows.cache_eq_empty hcached).symm

/-! ### Later calls -/

/-- The calls were all completed. -/
def Completes (os : List (Except Exception (List Bytes))) : Prop :=
  ∀ o ∈ os, ∃ responses, o = .ok responses

namespace ORAM

/-- The outcomes of calls, made one after the other. -/
def outcomes (c : Config) (calls : List Call) (s : ORAM InMemoryPositionMapAdapter) :
    List (Except Exception (List Bytes)) :=
  (runCatching (exec c InMemoryPositionMapAdapter.adapter) calls s).1

/-- The state after calls. -/
def after (c : Config) (calls : List Call) (s : ORAM InMemoryPositionMapAdapter) :
    ORAM InMemoryPositionMapAdapter :=
  (runCatching (exec c InMemoryPositionMapAdapter.adapter) calls s).2

/-- Two ORAMs that hold the same store return the same payloads. -/
theorem HoldsExactly.outcomes_agree (hc : c.Valid) {later : List Call}
    (hlater : ∀ call ∈ later, call.Addressable c) (hkv : kv.Full c.dataSize)
    (hs : s.HoldsExactly c (InMemoryPositionMapAdapter.Holds c.blocks) kv)
    (hs' : s'.HoldsExactly c (InMemoryPositionMapAdapter.Holds c.blocks) kv)
    (hok : Completes (outcomes c later s)) (hok' : Completes (outcomes c later s')) :
    List.Forall₂ (Outcome.Alike c.dataSize) (outcomes c later s) (outcomes c later s') ∧
      ((∀ call ∈ later, ∀ op ∈ call.ops, op.Full c.dataSize) →
        outcomes c later s = outcomes c later s') := by
  have hpm := InMemoryPositionMapAdapter.implements c.blocks (2 ^ (c.height - 1))
  obtain ⟨hrun, -⟩ := run_exact hc hpm le_rfl hlater hs hok
  obtain ⟨hrun', -⟩ := run_exact hc hpm le_rfl hlater hs' hok'
  exact ⟨Call.ServesExactly.judged_alike hrun hrun',
    fun hfull => Call.ServesExactly.judged_eq hkv hfull hrun hrun'⟩

/-- Calls complete when the stash has room for all IDs. -/
theorem HoldsExactly.completes (hc : c.Valid) {later : List Call}
    (hlater : ∀ call ∈ later, call.Admissible c) (hkv : kv.Full c.dataSize) {S : Finset ℕ}
    (hS : ∀ id, (kv id).isSome → id ∈ S) (hputs : Call.puts later ⊆ S)
    (hcard : S.card ≤ c.stashCapacity)
    (hs : s.HoldsExactly c (InMemoryPositionMapAdapter.Holds c.blocks) kv) :
    Completes (outcomes c later s) := by
  have hpm := InMemoryPositionMapAdapter.implements c.blocks (2 ^ (c.height - 1))
  obtain ⟨v, hshows, hv, hx, -⟩ := hs
  -- an exact state is one that stores: its payloads have the full size
  have hstores : s.Stores c (InMemoryPositionMapAdapter.Holds c.blocks) S kv := by
    refine ⟨v, hshows, hv, ⟨fun b hb e he hreal => ?_, fun id hid => ?_⟩, fun id p hp =>
      (hkv id p hp).le⟩
    · obtain ⟨p, hp, -⟩ := hx.tree b hb e he hreal
      exact hS e.1 (by rw [hp]; rfl)
    · obtain ⟨d, hd⟩ := exists_lookup hid
      obtain ⟨p, hp, -⟩ := hx.stash id d hd
      exact hS id (by rw [hp]; rfl)
  obtain ⟨kv', hjudged, -⟩ := run_admissible hc hpm le_rfl hcard hlater hputs hstores
  have hall : ∀ {kv kv'} {calls : List Call} {os}, Judged (Call.Serves c.dataSize) kv calls os kv' →
      Completes os := by
    intro kv kv' calls os h
    -- on the judged run: every call of it returned
    induction h with
    | nil _ => exact fun o ho => absurd ho List.not_mem_nil
    | cons head _ ih =>
      obtain ⟨responses, rfl, -⟩ := head
      exact List.forall_mem_cons.mpr ⟨⟨responses, rfl⟩, ih⟩
  exact hall hjudged

/-- **Save and restore is transparent**, for a state reached by calls that complete and put
payloads of the block size. Whatever random source each of the two ORAMs has, they return
the same payloads to all later calls up to the first that throws, to the byte if payloads of
the block size are put; and no call throws if the stash has room for all IDs. -/
theorem restore_transparent (hc : c.Matching) {s₀ s₁ : ORAM InMemoryPositionMapAdapter}
    (hcapacity : 2 ^ c.height * c.Z ≤ s₀.map.capacity) (hstash : s₀.stash = ∅)
    (hcache : s₀.cache = ∅) (hnew : new c InMemoryPositionMapAdapter.adapter true s₀ = .ok () s₁)
    {calls : List Call} (hcalls : ∀ call ∈ calls, call.Addressable c)
    (hfull : ∀ call ∈ calls, ∀ op ∈ call.ops, op.Full c.dataSize)
    (hok : Completes (outcomes c calls s₁)) {disk : Bytes}
    (hdisk : (after c calls s₁).storage.OnDisk c.storage disk) {blockSize : ℕ}
    (hlength : (after c calls s₁).PayloadLength blockSize) {map : InMemoryPositionMapAdapter}
    (hmap : map.capacity = (after c calls s₁).map.capacity) (r : Random)
    (hfile : ((after c calls s₁).save c).stash.length < 2 ^ 31) :
    ∃ s', restore c ((after c calls s₁).save c) disk blockSize map r = .ok (c, s') ∧
      ∀ (r₁ r₂ : Random) (later : List Call), (∀ call ∈ later, call.Addressable c) →
        (Completes (outcomes c later { after c calls s₁ with random := r₁ }) →
          Completes (outcomes c later { s' with random := r₂ }) →
          List.Forall₂ (Outcome.Alike c.dataSize)
              (outcomes c later { after c calls s₁ with random := r₁ })
              (outcomes c later { s' with random := r₂ }) ∧
            ((∀ call ∈ later, ∀ op ∈ call.ops, op.Full c.dataSize) →
              outcomes c later { after c calls s₁ with random := r₁ } =
                outcomes c later { s' with random := r₂ })) ∧
        ((∀ call ∈ later, call.Admissible c) →
          (Call.puts (calls ++ later)).card ≤ c.stashCapacity →
          Completes (outcomes c later { after c calls s₁ with random := r₁ }) ∧
            Completes (outcomes c later { s' with random := r₂ })) := by
  have hc : c.Valid := ⟨hc, hcapacity.trans_lt s₀.map.capacity_lt⟩
  have hpm := InMemoryPositionMapAdapter.implements c.blocks (2 ^ (c.height - 1))
  have hholds : InMemoryPositionMapAdapter.Holds c.blocks s₀.map.map s₀.map :=
    ⟨rfl, hc.blocks_eq ▸ hcapacity⟩
  -- The store after the calls, which both ORAMs hold.
  set kv := Op.applyAll (calls.flatMap Call.ops) Store.empty with hkv_eq
  have hs : (after c calls s₁).HoldsExactly c (InMemoryPositionMapAdapter.Holds c.blocks) kv :=
    (run_exact hc hpm le_rfl hcalls ((new_exact hc hpm le_rfl hholds hstash hcache).ok hnew)
      hok).2
  have hkv : kv.Full c.dataSize := by
    have hempty : Store.empty.Full c.dataSize := fun id p hp => absurd hp (by simp [Store.empty])
    refine hempty.applyAll fun op hop => ?_
    obtain ⟨call, hcall, hop⟩ := List.mem_flatMap.mp hop
    exact hfull call hcall op hop
  obtain ⟨s', hrestore, hsame⟩ :=
    restore_sameContent hc hkv hs hdisk hlength hmap r hfile
  have hs' := hsame.holds hs
  refine ⟨s', hrestore, fun r₁ r₂ later hlater => ?_⟩
  have hs₁ := (SameContent.withRandom _ r₁).holds hs
  have hs₂ := (SameContent.withRandom _ r₂).holds hs'
  refine ⟨fun hok₁ hok₂ => hs₁.outcomes_agree hc hlater hkv hs₂ hok₁ hok₂,
    fun hadmissible hcard => ?_⟩
  have hputs : Call.puts (calls ++ later) = Call.puts calls ∪ Call.puts later := by
    unfold Call.puts
    rw [List.flatMap_append, Op.puts_append]
  have hS : ∀ id, (kv id).isSome → id ∈ Call.puts (calls ++ later) := fun id hid => by
    rw [hkv_eq, Op.isSome_applyAll] at hid
    rw [hputs]
    exact Finset.mem_union_left _ (hid.resolve_right (by simp [Store.empty]))
  have hsub : Call.puts later ⊆ Call.puts (calls ++ later) :=
    hputs ▸ Finset.subset_union_right
  exact ⟨hs₁.completes hc hadmissible hkv hS hsub hcard,
    hs₂.completes hc hadmissible hkv hS hsub hcard⟩

end ORAM

end Restore

/-! ### Small runs -/

/-- The content of a storage file. -/
def Storage.file (c : StorageConfig) (s : Storage) : Bytes :=
  (List.range c.capacity).flatMap s.blocks

theorem Storage.onDisk_file {c : StorageConfig} {s : Storage}
    (h : ∀ location ∈ List.range c.capacity, (s.blocks location).length = c.blockSize) :
    s.OnDisk c (s.file c) where
  inv := by
    unfold FileSystemStorageAdapter.Sized Storage.file
    rw [Records.length_flatMap h, List.length_range]
  raw location hlocation := by
    have hi : location < (List.range c.capacity).length := by rwa [List.length_range]
    -- the file is the records of all locations in order
    change Records.record c.blockSize location (s.file c) ++ [] = _
    rw [List.append_nil, Storage.file, Records.record_flatMap h hi, List.getElem_range]

namespace ORAM

/-- A tiny ORAM with three requests in a batch, and two leaf draws that are not zero: the
first leaf of block 0, and the first one after the construction. -/
def threeRequests : Config := { Config.tiny 2 1 with batchSize := 3 }

/-- Its state after the constructor, which does not look at the size of a batch. -/
def threeRequests.start : ORAM InMemoryPositionMapAdapter :=
  tiny 2 1 (Random.ofLeaves (fun i => if i = 0 ∨ i = 4 then 1 else 0))

/-- The state after a batch that throws at its third request. -/
def threeRequests.failed : ORAM InMemoryPositionMapAdapter :=
  after threeRequests [.multiple [(0, List.replicate 32 1), (1, List.replicate 32 2),
    (2, List.replicate 32 3)]] start

/-- The batch had put block 0 in a cached bucket when it threw. The cache is not saved, so
the restored ORAM has lost the block. -/
theorem restore_loses_cache :
    outcomes threeRequests [.multiple [(0, List.replicate 32 1), (1, List.replicate 32 2),
      (2, List.replicate 32 3)]] threeRequests.start = [.error (.overCapacity 1)] ∧
    threeRequests.failed.storage.OnDisk threeRequests.storage
      (threeRequests.failed.storage.file threeRequests.storage) ∧
    threeRequests.failed.PayloadLength 32 ∧
    ∃ s', restore threeRequests (threeRequests.failed.save threeRequests)
        (threeRequests.failed.storage.file threeRequests.storage) 32
        (.allocate 8 (by decide) 0) (Random.ofLeaves (Stream'.const 0)) =
          .ok (threeRequests, s') ∧
      outcomes threeRequests [.get 1, .get 0] { threeRequests.failed with
        random := Random.ofLeaves (Stream'.const 0) } =
          [.ok [List.replicate 32 2], .ok [List.replicate 32 1]] ∧
      outcomes threeRequests [.get 1, .get 0] { s' with
        random := Random.ofLeaves (Stream'.const 0) } =
          [.ok [List.replicate 32 2], .ok [[]]] := by
  refine ⟨by decide +kernel, Storage.onDisk_file (by decide +kernel), Or.inr (by decide +kernel),
    reload threeRequests (threeRequests.failed.save threeRequests)
      (threeRequests.failed.storage.file threeRequests.storage) 32
      (.allocate 8 (by decide) 0) (Random.ofLeaves (Stream'.const 0)), ?_, by decide +kernel,
    by decide +kernel⟩
  unfold restore
  -- the key file restores the key of the storage
  have hkey : loadKey (threeRequests.failed.save threeRequests).key = threeRequests.storage.key :=
    by decide +kernel
  rw [hkey, StorageConfig.new_self]
  rfl

/-- Two puts of full payloads, one of which stays in the stash. -/
def twoPuts : List Call := [.put 0 (List.replicate 32 7), .put 1 (List.replicate 32 8)]

/-- A tiny ORAM over a position map array after its constructor. -/
def tinyStart : ORAM InMemoryPositionMapAdapter :=
  tiny 1 2 (Random.ofLeaves (Stream'.const 0))

theorem restore_transparent_tiny :
    ∃ s', restore (Config.tiny 1 2) ((after (Config.tiny 1 2) twoPuts tinyStart).save
        (Config.tiny 1 2)) ((after (Config.tiny 1 2) twoPuts tinyStart).storage.file
          (Config.tiny 1 2).storage) 32 (.allocate 8 (by decide) 5)
        (Random.ofLeaves (Stream'.const 0)) = .ok (Config.tiny 1 2, s') ∧
      ∀ (r₁ r₂ : Random) (later : List Call),
        (∀ call ∈ later, call.Addressable (Config.tiny 1 2)) →
        (Completes (outcomes (Config.tiny 1 2) later
            { after (Config.tiny 1 2) twoPuts tinyStart with random := r₁ }) →
          Completes (outcomes (Config.tiny 1 2) later { s' with random := r₂ }) →
          List.Forall₂ (Outcome.Alike 32)
              (outcomes (Config.tiny 1 2) later
                { after (Config.tiny 1 2) twoPuts tinyStart with random := r₁ })
              (outcomes (Config.tiny 1 2) later { s' with random := r₂ }) ∧
            ((∀ call ∈ later, ∀ op ∈ call.ops, op.Full 32) →
              outcomes (Config.tiny 1 2) later
                  { after (Config.tiny 1 2) twoPuts tinyStart with random := r₁ } =
                outcomes (Config.tiny 1 2) later { s' with random := r₂ })) ∧
        ((∀ call ∈ later, call.Admissible (Config.tiny 1 2)) →
          (Call.puts (twoPuts ++ later)).card ≤ 2 →
          Completes (outcomes (Config.tiny 1 2) later
              { after (Config.tiny 1 2) twoPuts tinyStart with random := r₁ }) ∧
            Completes (outcomes (Config.tiny 1 2) later { s' with random := r₂ })) := by
  have hnew : new (Config.tiny 1 2) InMemoryPositionMapAdapter.adapter true
      (unbuilt (.allocate 8 (by decide) 0) (Random.ofLeaves (Stream'.const 0))) =
        .ok () tinyStart := by
    exact new_tiny le_rfl (by norm_num) 2 _
  -- both puts fill their block
  have hfull : ∀ call ∈ twoPuts, ∀ op ∈ call.ops, op.Full 32 := by
    intro call hcall op hop
    rcases List.mem_cons.mp hcall with rfl | hcall
    · obtain rfl := List.mem_singleton.mp hop
      exact List.length_replicate
    · obtain rfl := List.mem_singleton.mp hcall
      obtain rfl := List.mem_singleton.mp hop
      exact List.length_replicate
  exact restore_transparent (Config.tiny_matching le_rfl (by norm_num) 2) (by decide) rfl rfl hnew
    (by decide) hfull (ok_of_toBool (by decide +kernel))
    (Storage.onDisk_file (by decide +kernel)) (Or.inr (by decide +kernel)) (by decide +kernel) _
    (by decide +kernel)

end ORAM

end PathORAM
