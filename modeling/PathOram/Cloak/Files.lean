import PathOram.Backup
import PathOram.Cloak.Protocol

/-!
# Files of the stash and of the MACs

`storeToFile` and `loadFromFile` of the stash adapter, and `saveMacMap` and `loadMacMap`.

* The stash file is as in the other variant, but the code asks first whether all entries have
  one length. They do after any calls (`Called.uniform`), because a payload is fitted to that
  of an entry on its way in.
* The MAC file is a count and that many records of an ID, a length and a MAC.

`stash_files` and `loadMacMap_saveMacMap` are the round trips.
-/

namespace CloakQueryPathORAM

open PathORAM Hoare

/-! ### The stash after any calls -/

namespace InMemoryStashAdapter

/-- The stash adapter after calls to `add`, `update` and `deleteBlock`. Those that throw are
among them. -/
inductive Called (capacity : ℕ) : InMemoryStashAdapter → Prop
  | empty : Called capacity ∅
  | add {stash : InMemoryStashAdapter} (h : Called capacity stash) (r : Random) (block : ℕ)
      (data : Bytes) :
      Called capacity (leaves (add capacity (beginEntry stash r).1 block data) stash)
  | update {stash : InMemoryStashAdapter} (h : Called capacity stash) (r : Random) (block : ℕ)
      (data : Bytes) :
      Called capacity (leaves (update capacity (beginEntry stash r).1 block data) stash)
  | deleteBlock {stash : InMemoryStashAdapter} (h : Called capacity stash) (block : ℕ) :
      Called capacity (PathORAM.InMemoryStashAdapter.deleteBlock block stash)

/-- All payloads have the length `size`. -/
def Uniform (stash : InMemoryStashAdapter) (size : ℕ) : Prop :=
  ∀ id d, stash.lookup id = some d → d.length = size

theorem uniform_empty (size : ℕ) : Uniform ∅ size := fun id d h => by
  rw [AList.lookup_empty] at h
  cases h

section Uniform

variable {capacity size block : ℕ} {stash : InMemoryStashAdapter}

theorem Uniform.insert {data : Bytes} (h : Uniform stash size) (hdata : data.length = size) :
    Uniform (AList.insert block data stash) size := by
  intro id d hd
  by_cases hid : id = block
  · subst hid
    rw [AList.lookup_insert, Option.some.injEq] at hd
    exact hd ▸ hdata
  · rw [AList.lookup_insert_ne hid] at hd
    exact h id d hd

/-- A fitted payload keeps the stash uniform. An empty stash takes on its length. -/
theorem exists_uniform_insert (h : Uniform stash size) (r : Random) (data : Bytes) :
    ∃ size', Uniform (AList.insert block (adjusted (beginEntry stash r).1 data) stash) size' := by
  obtain ⟨size', hadjusted, hsize⟩ := exists_adjusted stash r data
  have hlength : (adjusted (beginEntry stash r).1 data).length = size' :=
    hadjusted ▸ length_resize size' data
  rcases hsize with ⟨id, d, hd, rfl⟩ | ⟨rfl, -⟩
  · exact ⟨size, h.insert (hlength.trans (h id d hd))⟩
  · exact ⟨size', (uniform_empty size').insert hlength⟩

/-- **All payloads have one length after any calls.** -/
theorem Called.uniform (h : Called capacity stash) : ∃ size, Uniform stash size := by
  -- on the calls: whatever goes into a nonempty stash is fitted to its entries
  induction h with
  | empty => exact ⟨0, uniform_empty 0⟩
  | add h r block data ih =>
    refine wp.leaves (P := fun s => ∃ size, Uniform s size) ?_
    refine wp_bind (PathORAM.InMemoryStashAdapter.wp_checkOverflow (fun _ => ?_) fun _ _ => ih)
    split
    · refine wp_modify ?_
      split
      · exact ih
      · obtain ⟨size, hsize⟩ := ih
        exact exists_uniform_insert hsize r data
    · exact wp_pure ih
  | update h r block data ih =>
    refine wp.leaves (P := fun s => ∃ size, Uniform s size) ?_
    refine wp_bind (PathORAM.InMemoryStashAdapter.wp_checkOverflow (fun _ => wp_modify ?_)
      fun _ _ => ih)
    obtain ⟨size, hsize⟩ := ih
    exact exists_uniform_insert hsize r data
  | deleteBlock h block ih =>
    obtain ⟨size, hsize⟩ := ih
    refine ⟨size, fun id d hd => hsize id d ?_⟩
    rw [PathORAM.InMemoryStashAdapter.deleteBlock] at hd
    by_cases hid : id = block
    · subst hid
      rw [AList.lookup_erase] at hd
      cases hd
    · rwa [AList.lookup_erase_ne hid] at hd

end Uniform

/-! ### The stash file -/

/-- What `storeToFile` throws. -/
inductive StoreException where
  | blockSizeMismatch (expected got block : ℕ)
  | bufferOverflow
  deriving DecidableEq, Repr

/-- The message of an exception. -/
def StoreException.what : StoreException → String
  | blockSizeMismatch expected got block =>
    s!"Block size mismatch in stash: expected {expected}, got {got} for block {block}"
  | bufferOverflow => "Buffer overflow detected during stash serialization"

/-- The loop of `storeToFile` that copies every record to its place in the buffer. -/
def copyRecords (recordSize : ℕ) : ℕ → List Block → Bytes → Except StoreException Bytes
  | _, [], buffer => .ok buffer
  | i, record :: records, buffer =>
    let offset := recordSize * i
    -- Buffer overflow check.
    if buffer.length < offset + recordSize then
      .error .bufferOverflow
    else
      copyRecords recordSize (i + 1) records
        (Records.overwrite offset (PathORAM.InMemoryStashAdapter.recordBytes record) buffer)

/-- `storeToFile` of the entries of a stash, in the order in which they are visited. -/
def fileOf (entries : List Block) : Except StoreException Bytes :=
  match entries with
  | [] => .ok []
  | entry :: _ =>
    let blockSize := entry.2.length
    let recordSize := 8 + blockSize
    -- Sanity check: ensure all blocks are the same size.
    match entries.find? (fun record => record.2.length ≠ blockSize) with
    | some record => .error (.blockSizeMismatch blockSize record.2.length record.1)
    | none => copyRecords recordSize 0 entries (List.replicate (entries.length * recordSize) 0)

/-- `InMemoryStashAdapter::storeToFile`. -/
def storeToFile (stash : InMemoryStashAdapter) (r : Random) :
    Except StoreException Bytes × Random :=
  let (entries, r) := r.iterate stash.toList
  (fileOf entries, r)

/-- What `loadFromFile` does with a record. -/
def loadRecord (stash : InMemoryStashAdapter) (record : Bytes) : InMemoryStashAdapter :=
  let block := LittleEndian.decode (record.take 8)
  -- Skip obviously invalid block IDs.
  if block = ULONG_MAX ∨ 10 ^ 12 < block then stash
  else if block ∈ stash then stash
  else stash.insert block (record.drop 8)

/-- `InMemoryStashAdapter::loadFromFile`. The size of the file is converted to `int`, and what
is left behind the last whole record is skipped. -/
def loadFromFile (file : Bytes) (blockSize : ℕ) (stash : InMemoryStashAdapter) :
    InMemoryStashAdapter :=
  let size := (toInt file.length).toInt
  if 0 < size then
    let recordSize := 8 + blockSize
    let buffer := file.take size.toNat
    let numRecords := size.toNat / recordSize
    (List.range numRecords).foldl
      (fun stash i => loadRecord stash (Records.record recordSize i buffer)) stash
  else
    stash

section Files

variable {size : ℕ} {stash : InMemoryStashAdapter} {entries : List Block}

/-- The buffer has room for all records, so no check fails. -/
theorem copyRecords_eq (hlength : ∀ entry ∈ entries, entry.2.length = size) {i : ℕ}
    {buffer : Bytes} (hroom : (8 + size) * (i + entries.length) ≤ buffer.length) :
    copyRecords (8 + size) i entries buffer =
      .ok (PathORAM.InMemoryStashAdapter.copyRecords (8 + size) i entries buffer) := by
  induction entries generalizing i buffer with
  | nil => rfl
  | cons entry entries ih =>
    have hrecord : (PathORAM.InMemoryStashAdapter.recordBytes entry).length = 8 + size := by
      rw [PathORAM.InMemoryStashAdapter.recordBytes, List.length_append,
        LittleEndian.length_encode, hlength entry List.mem_cons_self]
    -- the record fits the buffer, so the check of the code passes
    have hend : (8 + size) * i + (8 + size) ≤ buffer.length := by
      refine (Nat.mul_succ (8 + size) i).symm.trans_le ((Nat.mul_le_mul_left _ ?_).trans hroom)
      rw [List.length_cons]
      omega
    rw [copyRecords, if_neg (Nat.not_lt.mpr hend), PathORAM.InMemoryStashAdapter.copyRecords]
    refine ih (fun e he => hlength e (List.mem_cons_of_mem _ he)) ?_
    rw [Records.length_overwrite (hrecord.symm ▸ hend)]
    rwa [Nat.add_right_comm, Nat.add_assoc]

/-- **Entries of one length are stored** as their records, one after the other. -/
theorem fileOf_eq (hlength : ∀ entry ∈ entries, entry.2.length = size) :
    fileOf entries = .ok (entries.flatMap PathORAM.InMemoryStashAdapter.recordBytes) := by
  cases entries with
  | nil => rfl
  | cons entry rest =>
    have hfirst := hlength entry List.mem_cons_self
    -- all records have the length of the first, which is what the code checks
    have hnone : (entry :: rest).find? (fun record => record.2.length ≠ entry.2.length) = none := by
      refine List.find?_eq_none.mpr fun record hrecord => ?_
      rw [hlength record hrecord, hfirst]
      simp
    have hbuffer : (List.replicate ((entry :: rest).length * (8 + size)) (0 : UInt8)).length =
        (entry :: rest).length * (8 + size) := List.length_replicate
    have hcopy : fileOf (entry :: rest) = copyRecords (8 + size) 0 (entry :: rest)
        (List.replicate ((entry :: rest).length * (8 + size)) 0) := by
      unfold fileOf
      simp only [hnone]
      rw [hfirst]
    rw [hcopy, copyRecords_eq hlength (by rw [hbuffer, Nat.zero_add, mul_comm])]
    exact congrArg Except.ok
      (PathORAM.InMemoryStashAdapter.copyRecords_eq_flatMap hlength hbuffer)

/-- A record is loaded as its entry, unless the ID is a suspicious one. -/
theorem loadRecord_recordBytes {entry : Block} (hid : entry.1 ≤ 10 ^ 12) :
    loadRecord stash (PathORAM.InMemoryStashAdapter.recordBytes entry) =
      if entry.1 ∈ stash then stash else stash.insert entry.1 entry.2 := by
  have hblock : LittleEndian.decode ((PathORAM.InMemoryStashAdapter.recordBytes entry).take 8) =
      entry.1 := LittleEndian.decode_take_encode_append (by norm_num; omega) _
  have hdata : (PathORAM.InMemoryStashAdapter.recordBytes entry).drop 8 = entry.2 :=
    List.drop_left' (LittleEndian.length_encode 8 _)
  -- the ID is one that loading accepts
  have hvalid : ¬(entry.1 = ULONG_MAX ∨ 10 ^ 12 < entry.1) := by
    unfold ULONG_MAX
    omega
  unfold loadRecord
  simp only [hblock, hdata, if_neg hvalid]

/-- Records of different IDs are all loaded. -/
theorem foldl_loadRecord (hids : ∀ entry ∈ entries, entry.1 ≤ 10 ^ 12)
    (hnodup : (entries.map Prod.fst).Nodup) (hnew : ∀ entry ∈ entries, entry.1 ∉ stash) :
    (entries.map PathORAM.InMemoryStashAdapter.recordBytes).foldl loadRecord stash =
      UnorderedMap.assignAll entries stash := by
  induction entries generalizing stash with
  | nil => rfl
  | cons entry entries ih =>
    rw [List.map_cons, List.nodup_cons] at hnodup
    rw [List.map_cons, List.foldl_cons, loadRecord_recordBytes (hids entry List.mem_cons_self),
      if_neg (hnew entry List.mem_cons_self), UnorderedMap.assignAll_cons]
    refine ih (fun e he => hids e (List.mem_cons_of_mem _ he)) hnodup.2 fun e he hmem => ?_
    -- The ID just inserted does not come again.
    rcases (AList.mem_insert _).mp hmem with heq | hmem
    · exact hnodup.1 (heq ▸ List.mem_map_of_mem he)
    · exact hnew e (List.mem_cons_of_mem _ he) hmem

/-- **The entries come back from their records.** -/
theorem lookup_loadFromFile (hsize : Uniform stash size) (hids : ∀ id ∈ stash, id ≤ 10 ^ 12)
    (hperm : entries.Perm stash.toList)
    (hfile : (entries.flatMap PathORAM.InMemoryStashAdapter.recordBytes).length < 2 ^ 31) (id : ℕ) :
    (loadFromFile (entries.flatMap PathORAM.InMemoryStashAdapter.recordBytes) size ∅).lookup id =
      stash.lookup id := by
  have hentry : ∀ entry ∈ entries, stash.lookup entry.1 = some entry.2 := fun entry he =>
    UnorderedMap.mem_toList.mp (hperm.mem_iff.mp he)
  have hrecords : ∀ entry ∈ entries,
      (PathORAM.InMemoryStashAdapter.recordBytes entry).length = 8 + size := fun entry he => by
    rw [PathORAM.InMemoryStashAdapter.recordBytes, List.length_append,
      LittleEndian.length_encode, hsize _ _ (hentry entry he)]
  have hlength := Records.length_flatMap hrecords
  have hloaded : loadFromFile (entries.flatMap PathORAM.InMemoryStashAdapter.recordBytes) size ∅ =
      UnorderedMap.assignAll entries ∅ := by
    have hrange : (List.range entries.length).map (fun i => Records.record (8 + size) i
        (entries.flatMap PathORAM.InMemoryStashAdapter.recordBytes)) =
        entries.map PathORAM.InMemoryStashAdapter.recordBytes := by
      refine List.ext_getElem (by rw [List.length_map, List.length_map, List.length_range])
        fun i hi hi' => ?_
      rw [List.length_map] at hi'
      rw [List.getElem_map, List.getElem_range, List.getElem_map,
        Records.record_flatMap hrecords hi']
    have hcount : (entries.flatMap PathORAM.InMemoryStashAdapter.recordBytes).length /
        (8 + size) = entries.length := by
      rw [hlength, Nat.mul_div_cancel _ (by omega)]
    have hnodup : (entries.map Prod.fst).Nodup :=
      (hperm.map Prod.fst).nodup_iff.mpr (UnorderedMap.nodup_keys_toList stash)
    unfold loadFromFile
    simp only [toInt_toInt hfile, Int.toNat_natCast, List.take_length, hcount]
    split
    · rw [← foldl_loadRecord (fun entry he => hids _ (mem_of_lookup (hentry entry he))) hnodup
        fun entry _ => AList.notMem_empty _, ← hrange, List.foldl_map]
    -- An empty file is that of an empty stash.
    · next hzero =>
      have hnil : entries = [] := by
        refine List.eq_nil_of_length_eq_zero (Nat.eq_zero_of_not_pos fun hpos => hzero ?_)
        rw [hlength]
        exact_mod_cast Nat.mul_pos hpos (by omega)
      rw [hnil]
      rfl
  rw [hloaded, UnorderedMap.lookup_assignAll_perm hperm, AList.lookup_empty, Option.or_none]

/-- **Stash files round-trip**: after any calls the payloads of a stash have one length, so it is
stored without an exception, and if its IDs are not suspicious and the size of the file is an
`int`, what is loaded is the stash. -/
theorem stash_files {capacity : ℕ} (h : Called capacity stash) :
    (∃ size, Uniform stash size) ∧ ∀ r, ∃ file, (storeToFile stash r).1 = .ok file ∧
      ∀ size, Uniform stash size → (∀ id ∈ stash, id ≤ 10 ^ 12) → file.length < 2 ^ 31 →
        ∀ id, (loadFromFile file size ∅).lookup id = stash.lookup id := by
  refine ⟨h.uniform, fun r => ?_⟩
  have hperm : (r.iterate stash.toList).1.Perm stash.toList := Random.perm_iterate _ _
  obtain ⟨size, hsize⟩ := h.uniform
  have hlength : ∀ entry ∈ (r.iterate stash.toList).1, entry.2.length = size := fun entry he =>
    hsize _ _ (UnorderedMap.mem_toList.mp (hperm.mem_iff.mp he))
  exact ⟨_, fileOf_eq hlength, fun size hsize hids hfile id =>
    lookup_loadFromFile hsize hids hperm hfile id⟩

/-- The stash after a payload of three bytes and one of a single byte. -/
def twoLengths : InMemoryStashAdapter :=
  leaves (update 2 (some (3, [1, 2, 3])) 5 [7]) (leaves (add 2 none 3 [1, 2, 3]) ∅)

theorem called_twoLengths : Called 2 twoLengths :=
  .update (.add .empty (Random.ofLeaves (Stream'.const 0)) 3 [1, 2, 3])
    (Random.ofLeaves (Stream'.const 0)) 5 [7]

theorem stash_files_twoLengths :
    twoLengths.lookup 5 = some [7, 0, 0] ∧
      ∃ file, (storeToFile twoLengths (Random.ofLeaves (Stream'.const 0))).1 = .ok file ∧
        ∀ id, (loadFromFile file 3 ∅).lookup id = twoLengths.lookup id := by
  have hentries : ∀ entry ∈ twoLengths.toList, entry.2.length = 3 ∧ entry.1 ≤ 10 ^ 12 := by
    decide
  obtain ⟨file, hfile, hload⟩ :=
    (stash_files called_twoLengths).2 (Random.ofLeaves (Stream'.const 0))
  have hsize : Uniform twoLengths 3 := fun id d hd =>
    (hentries (id, d) (UnorderedMap.mem_toList.mpr hd)).1
  refine ⟨rfl, file, hfile, hload 3 hsize (fun id hid => ?_) ?_⟩
  · obtain ⟨d, hd⟩ := Option.isSome_iff_exists.mp (AList.lookup_isSome.mpr hid)
    exact (hentries (id, d) (UnorderedMap.mem_toList.mpr hd)).2
  · have hlength : (storeToFile twoLengths (Random.ofLeaves (Stream'.const 0))).1.toOption.map
        List.length = some 22 := by decide +kernel
    rw [hfile] at hlength
    have h22 : file.length = 22 := Option.some.inj hlength
    omega

end Files

end InMemoryStashAdapter

/-! ### The MAC file -/

namespace ORAM

/-- The bytes of an entry of the MAC map. -/
def macBytes (entry : ℕ × Bytes) : Bytes :=
  LittleEndian.encode 8 entry.1 ++ LittleEndian.encode 8 entry.2.length ++ entry.2

/-- The file that `saveMacMap` writes when it visits the entries in this order. -/
def macFile (entries : List (ℕ × Bytes)) : Bytes :=
  LittleEndian.encode 8 entries.length ++ entries.flatMap macBytes

/-- `saveMacMap`. -/
def saveMacMap (macMap : UnorderedMap Bytes) (r : Random) : Bytes × Random :=
  let (entries, r) := r.iterate macMap.toList
  (macFile entries, r)

/-- The loop of `loadMacMap`. `none` stands for a read behind the end of the file, after which
the variables that were to be read are not assigned. -/
def loadMacs : ℕ → Bytes → UnorderedMap Bytes → Option (UnorderedMap Bytes)
  | 0, _, macMap => some macMap
  | count + 1, file, macMap =>
    let key := LittleEndian.decode (file.take 8)
    let size := LittleEndian.decode ((file.drop 8).take 8)
    let file' := (file.drop 8).drop 8
    if file.length < 16 ∨ file'.length < size then
      none
    else
      loadMacs count (file'.drop size) (macMap.insert key (file'.take size))

/-- `loadMacMap`. -/
def loadMacMap (file : Bytes) (macMap : UnorderedMap Bytes) : Option (UnorderedMap Bytes) :=
  if file.length < 8 then
    none
  else
    loadMacs (LittleEndian.decode (file.take 8)) (file.drop 8) macMap

/-- One record is read as its entry. -/
theorem loadMacs_cons {count : ℕ} {entry : ℕ × Bytes} (hkey : entry.1 < 2 ^ 64)
    (hsize : entry.2.length < 2 ^ 64) (rest : Bytes) (macMap : UnorderedMap Bytes) :
    loadMacs (count + 1) (macBytes entry ++ rest) macMap =
      loadMacs count rest (macMap.insert entry.1 entry.2) := by
  have h8 : ∀ n, (LittleEndian.encode 8 n).length = 8 := LittleEndian.length_encode 8
  have hbytes : macBytes entry ++ rest = LittleEndian.encode 8 entry.1 ++
      (LittleEndian.encode 8 entry.2.length ++ (entry.2 ++ rest)) := by
    rw [macBytes, List.append_assoc, List.append_assoc]
  -- neither the header nor the MAC is cut short
  have hlength : ¬((macBytes entry ++ rest).length < 16 ∨
      (entry.2 ++ rest).length < entry.2.length) := by
    rw [hbytes, List.length_append, List.length_append, List.length_append, h8, h8]
    omega
  have hdecode : ∀ {n : ℕ} (hn : n < 2 ^ 64) (l : Bytes),
      LittleEndian.decode ((LittleEndian.encode 8 n ++ l).take 8) = n := fun hn l =>
    LittleEndian.decode_take_encode_append (hn.trans_eq (by norm_num)) l
  rw [loadMacs, hbytes, List.drop_left' (h8 _), List.drop_left' (h8 _), hdecode hkey,
    hdecode hsize, ← hbytes]
  exact (if_neg hlength).trans (by rw [List.drop_left, List.take_left])

/-- The records are cut where they were put together, and assigned one by one. -/
theorem loadMacs_flatMap {entries : List (ℕ × Bytes)} (hkeys : ∀ entry ∈ entries, entry.1 < 2 ^ 64)
    (hsizes : ∀ entry ∈ entries, entry.2.length < 2 ^ 64) (macMap : UnorderedMap Bytes) :
    loadMacs entries.length (entries.flatMap macBytes) macMap =
      some (UnorderedMap.assignAll entries macMap) := by
  -- one record after the other, each inserted into the map
  induction entries generalizing macMap with
  | nil => rfl
  | cons entry entries ih =>
    rw [List.length_cons, List.flatMap_cons, loadMacs_cons (hkeys entry List.mem_cons_self)
      (hsizes entry List.mem_cons_self), UnorderedMap.assignAll_cons]
    exact ih (fun e he => hkeys e (List.mem_cons_of_mem _ he))
      (fun e he => hsizes e (List.mem_cons_of_mem _ he)) _

/-- What `loadMacMap` makes of a file of all MACs. -/
theorem loadMacMap_macFile {macMap : UnorderedMap Bytes} (hcount : macMap.toList.length < 2 ^ 64)
    (hkeys : ∀ id ∈ macMap, id < 2 ^ 64)
    (hsizes : ∀ id mac, macMap.lookup id = some mac → mac.length < 2 ^ 64)
    {entries : List (ℕ × Bytes)} (hentries : entries.Perm macMap.toList)
    (receiving : UnorderedMap Bytes) :
    loadMacMap (macFile entries) receiving = some (UnorderedMap.assignAll entries receiving) := by
  have hlookup : ∀ entry ∈ entries, macMap.lookup entry.1 = some entry.2 := fun entry he =>
    UnorderedMap.mem_toList.mp (hentries.mem_iff.mp he)
  -- the file starts with the number of entries
  have hdecode : LittleEndian.decode ((macFile entries).take 8) = entries.length :=
    LittleEndian.decode_take_encode_append
      ((hentries.length_eq ▸ hcount).trans_eq (by norm_num)) _
  have h8 := LittleEndian.length_encode 8 entries.length
  unfold loadMacMap
  rw [if_neg (by rw [macFile, List.length_append]; omega), hdecode, macFile, List.drop_left' h8]
  exact loadMacs_flatMap (fun entry he => hkeys _ (mem_of_lookup (hlookup entry he)))
    (fun entry he => hsizes _ _ (hlookup entry he)) receiving

/-- **The MACs come back from their file**, in whatever order they were saved. IDs that were not
saved keep their MACs: the file is read into the map as it is, entry by entry. -/
theorem loadMacMap_saveMacMap {macMap : UnorderedMap Bytes} (hcount : macMap.toList.length < 2 ^ 64)
    (hkeys : ∀ id ∈ macMap, id < 2 ^ 64)
    (hsizes : ∀ id mac, macMap.lookup id = some mac → mac.length < 2 ^ 64)
    (receiving : UnorderedMap Bytes) :
    (∀ r, ∃ entries : List (ℕ × Bytes), entries.Perm macMap.toList ∧
      (saveMacMap macMap r).1 = macFile entries) ∧
    ∀ entries : List (ℕ × Bytes), entries.Perm macMap.toList →
      ∃ loaded, loadMacMap (macFile entries) receiving = some loaded ∧
        (∀ id mac, macMap.lookup id = some mac → loaded.lookup id = some mac) ∧
        ∀ id ∉ macMap, loaded.lookup id = receiving.lookup id := by
  refine ⟨fun r => ⟨_, Random.perm_iterate _ _, rfl⟩, fun entries hentries => ?_⟩
  -- the order of the entries does not matter, as no ID occurs twice
  have hloaded := UnorderedMap.lookup_assignAll_perm hentries receiving
  refine ⟨UnorderedMap.assignAll entries receiving,
    loadMacMap_macFile hcount hkeys hsizes hentries receiving, fun id mac hmac => ?_,
    fun id hid => ?_⟩
  · rw [hloaded, hmac, Option.some_or]
  · rw [hloaded, AList.lookup_eq_none.mpr hid, Option.none_or]

/-- Two MACs, one of them empty. -/
def twoMacs : UnorderedMap Bytes := UnorderedMap.assignAll [(3, []), (2 ^ 64 - 1, [1, 2])] ∅

theorem loadMacMap_saveMacMap_twoMacs :
    ∃ loaded, loadMacMap (macFile [(3, []), (2 ^ 64 - 1, [1, 2])])
        (UnorderedMap.assignAll [(7, [9]), (3, [8])] ∅) = some loaded ∧
      loaded.lookup 3 = some [] ∧ loaded.lookup (2 ^ 64 - 1) = some [1, 2] ∧
        loaded.lookup 7 = some [9] := by
  have hentries : ∀ entry ∈ twoMacs.toList, entry.1 < 2 ^ 64 ∧ entry.2.length < 2 ^ 64 := by
    decide
  have hkeys : ∀ id ∈ twoMacs, id < 2 ^ 64 := fun id hid => by
    obtain ⟨mac, hmac⟩ := Option.isSome_iff_exists.mp (AList.lookup_isSome.mpr hid)
    exact (hentries (id, mac) (UnorderedMap.mem_toList.mpr hmac)).1
  obtain ⟨loaded, hloaded, hsaved, hkept⟩ := (loadMacMap_saveMacMap (by decide)
    hkeys (fun id mac hmac => (hentries (id, mac) (UnorderedMap.mem_toList.mpr hmac)).2)
    (UnorderedMap.assignAll [(7, [9]), (3, [8])] ∅)).2 [(3, []), (2 ^ 64 - 1, [1, 2])] (by decide)
  exact ⟨loaded, hloaded, hsaved 3 [] (by decide), hsaved _ _ (by decide),
    (hkept 7 (by decide)).trans (by decide)⟩

end ORAM

end CloakQueryPathORAM
