import PathOram.Backup
import Mathlib.Data.Finset.Max

/-!
# What the stash file keeps, and what it lets in

Calls to `InMemoryStashAdapter`, with `loadFromFile` among them, and its file for stashes of any
content.

* `checkOverflow` asks whether the stash is full, so it guards a stash that never gets past its
  capacity. `add`, `update` and `deleteBlock` see to that; `loadFromFile` inserts every record of
  the file without asking. `staysWithin_iff` says which runs stay within the capacity.
* `storeToFile` gives every record the length of the entry it visits first.
  `roundTrips_iff` says for which stashes that is right, whatever the order of the visit and
  the content of the buffer.
-/

namespace PathORAM

open Hoare

/-! ### Calls -/

/-- A call to the stash that changes it. -/
inductive StashCall where
  | add (block : ℕ) (data : Bytes)
  | update (block : ℕ) (data : Bytes)
  | deleteBlock (block : ℕ)
  | loadFromFile (file : Bytes) (blockSize : ℕ)

namespace StashCall

/-- Serve a call. -/
def exec (capacity : ℕ) : StashCall → EStateM Exception InMemoryStashAdapter Unit
  | .add block data => InMemoryStashAdapter.add capacity block data
  | .update block data => InMemoryStashAdapter.update capacity block data
  | .deleteBlock block => modify (InMemoryStashAdapter.deleteBlock block)
  | .loadFromFile file blockSize => modify (InMemoryStashAdapter.loadFromFile file blockSize)

/-- A call as the ORAM makes it, with payloads of at most `blockSize` bytes. -/
def PutsUpTo (blockSize : ℕ) : StashCall → Prop
  | .add block data => block < 2 ^ 64 ∧ data.length ≤ blockSize
  | .update block data => block < 2 ^ 64 ∧ data.length ≤ blockSize
  | .deleteBlock _ => True
  | .loadFromFile _ _ => False

instance (blockSize : ℕ) : (call : StashCall) → Decidable (call.PutsUpTo blockSize)
  | .add block data => inferInstanceAs (Decidable (block < 2 ^ 64 ∧ data.length ≤ blockSize))
  | .update block data => inferInstanceAs (Decidable (block < 2 ^ 64 ∧ data.length ≤ blockSize))
  | .deleteBlock _ => inferInstanceAs (Decidable True)
  | .loadFromFile _ _ => inferInstanceAs (Decidable False)

end StashCall

namespace InMemoryStashAdapter

/-- The stash after calls to a new adapter, those that throw among them. -/
def after (capacity : ℕ) (calls : List StashCall) : InMemoryStashAdapter :=
  (runCatching (StashCall.exec capacity) calls ∅).2

/-! ### The IDs in a file -/

section Ids

variable {blockSize fuel id : ℕ} {buffer file : Bytes} {stash : InMemoryStashAdapter}

/-- The bytes of a file that `loadFromFile` reads. -/
def bytesRead (file : Bytes) : Bytes := file.take (toInt file.length).toInt.toNat

/-- The IDs `loadFromFile` finds in its buffer: one for each step of `8 + blockSize` bytes that
begins inside. -/
def recordIds (blockSize : ℕ) (buffer : Bytes) : List ℕ :=
  (List.range ((buffer.length + (8 + blockSize) - 1) / (8 + blockSize))).map
    (fun i => LittleEndian.decode ((buffer.drop (i * (8 + blockSize))).take 8))

theorem recordIds_nil : recordIds blockSize [] = [] := by
  have hzero : (0 + (8 + blockSize) - 1) / (8 + blockSize) = 0 := Nat.div_eq_of_lt (by omega)
  rw [recordIds, List.length_nil, hzero]
  rfl

theorem recordIds_of_ne_nil (h : buffer ≠ []) :
    recordIds blockSize buffer =
      LittleEndian.decode (buffer.take 8) :: recordIds blockSize (buffer.drop (8 + blockSize)) := by
  have hpos : 0 < buffer.length := List.length_pos_iff.mpr h
  -- One step takes the first record off, also when it is the last and not whole.
  have hsteps : (buffer.length + (8 + blockSize) - 1) / (8 + blockSize) =
      (buffer.length - (8 + blockSize) + (8 + blockSize) - 1) / (8 + blockSize) + 1 := by
    by_cases hle : 8 + blockSize ≤ buffer.length
    · have hsplit : buffer.length + (8 + blockSize) - 1 =
          (buffer.length - (8 + blockSize) + (8 + blockSize) - 1) + (8 + blockSize) := by omega
      rw [hsplit, Nat.add_div_right _ (by omega)]
    · have hrest : buffer.length - (8 + blockSize) + (8 + blockSize) - 1 < 8 + blockSize := by omega
      rw [Nat.div_eq_of_lt hrest]
      exact Nat.div_eq_of_lt_le (by omega) (by omega)
  rw [recordIds, hsteps, List.range_succ_eq_map, List.map_cons, List.map_map, Nat.zero_mul,
    List.drop_zero, recordIds, List.length_drop]
  congr 1
  refine List.map_congr_left fun i _ => ?_
  rw [Function.comp_apply, Nat.succ_mul, List.drop_drop, Nat.add_comm]

/-- The loop adds the IDs of its buffer, and removes none. -/
theorem mem_loadRecords (hfuel : buffer.length ≤ fuel) :
    id ∈ loadRecords blockSize fuel buffer stash ↔
      id ∈ stash ∨ id ∈ recordIds blockSize buffer := by
  induction fuel generalizing buffer stash with
  | zero =>
    obtain rfl := List.length_eq_zero_iff.mp (Nat.le_zero.mp hfuel)
    simp [loadRecords, recordIds_nil]
  | succ fuel ih =>
    by_cases hempty : buffer = []
    · subst hempty
      simp [loadRecords, recordIds_nil]
    · have hpos : 0 < buffer.length := List.length_pos_iff.mpr hempty
      have hrest : (buffer.drop (8 + blockSize)).length ≤ fuel := by
        rw [List.length_drop]
        omega
      rw [loadRecords, if_neg hpos.ne', ih hrest, recordIds_of_ne_nil hempty, List.mem_cons]
      -- An ID that is there already is not inserted again.
      split
      · next hmem =>
        constructor
        · exact fun h => h.imp_right Or.inr
        · rintro (h | rfl | h)
          · exact Or.inl h
          · exact Or.inl hmem
          · exact Or.inr h
      · rw [AList.mem_insert]
        tauto

/-- **`loadFromFile` adds the IDs of the file.** -/
theorem mem_loadFromFile :
    id ∈ loadFromFile file blockSize stash ↔
      id ∈ stash ∨ id ∈ recordIds blockSize (bytesRead file) := by
  unfold loadFromFile bytesRead
  by_cases hpos : 0 < (toInt file.length).toInt
  · simp only [hpos, if_true]
    exact mem_loadRecords (List.length_take_le _ _)
  · have hzero : (toInt file.length).toInt.toNat = 0 := Int.toNat_eq_zero.mpr (not_lt.mp hpos)
    simp [hpos, hzero, recordIds_nil]

end Ids

/-! ### The capacity -/

section Capacity

variable {capacity : ℕ} {stash : InMemoryStashAdapter} {call : StashCall}

/-- What the capacity promises of a call made to `stash`. -/
structure WithinCapacity (capacity : ℕ) (stash : InMemoryStashAdapter) (call : StashCall) :
    Prop where
  /-- There are at most `capacity` entries after the call. -/
  size : (leaves (call.exec capacity) stash).keys.length ≤ capacity
  /-- An insertion throws exactly when it would leave more. -/
  throws : ∀ block data, call = .add block data ∨ call = .update block data →
    ((∃ e s, call.exec capacity stash = .error e s) ↔
      capacity < (stash.insert block data).keys.length)
  /-- It then leaves the entries as they are. -/
  unchanged : ∀ e s, call.exec capacity stash = .error e s → s = stash

/-- A file that is loaded has no more IDs than there is room for. -/
def LoadFits (capacity : ℕ) (stash : InMemoryStashAdapter) : StashCall → Prop
  | .loadFromFile file blockSize =>
    (stash.keys.toFinset ∪ (recordIds blockSize (bytesRead file)).toFinset).card ≤ capacity
  | _ => True

/-- Every call of a run, each made to the stash that the ones before it left, keeps what the
capacity promises. -/
def StaysWithin (capacity : ℕ) (calls : List StashCall) : Prop :=
  Admitted (StashCall.exec capacity) (fun _ => WithinCapacity capacity) (fun _ _ => ()) calls () ∅

/-- Every file that a run loads fits the stash it is loaded into. -/
def LoadsFit (capacity : ℕ) (calls : List StashCall) : Prop :=
  Admitted (StashCall.exec capacity) (fun _ => LoadFits capacity) (fun _ _ => ()) calls () ∅

/-- An insertion that is guarded by `checkOverflow`. -/
theorem checkOverflow_modify (capacity block : ℕ)
    (f : InMemoryStashAdapter → InMemoryStashAdapter) (stash : InMemoryStashAdapter) :
    (do checkOverflow capacity block; modify f) stash =
      if stash.keys.length = capacity ∧ block ∉ stash then .error (.overCapacity capacity) stash
      else .ok () (f stash) := by
  have hget : (MonadState.get : EStateM Exception InMemoryStashAdapter _) stash = .ok stash stash :=
    rfl
  -- the check throws on a full stash and an unknown ID, before the update
  by_cases h : stash.keys.length = capacity ∧ block ∉ stash
  · have hfull : checkOverflow capacity block stash = .error (.overCapacity capacity) stash := by
      unfold checkOverflow
      rw [bind_of_ok hget, if_pos h]
      rfl
    rw [bind_of_error hfull, if_pos h]
  · have hroom : checkOverflow capacity block stash = .ok () stash := by
      unfold checkOverflow
      rw [bind_of_ok hget, if_neg h]
      rfl
    rw [bind_of_ok hroom, if_neg h]
    rfl

/-- As long as the stash is within its capacity, it is full when `checkOverflow` finds it so. -/
theorem withinCapacity_of_insertion (hstash : stash.keys.length ≤ capacity) {block : ℕ}
    {f : InMemoryStashAdapter → InMemoryStashAdapter}
    (hexec : call.exec capacity = do checkOverflow capacity block; modify f)
    (hcall : ∀ b data, call = .add b data ∨ call = .update b data → b = block)
    (hf : (f stash).keys.length = stash.keys.length + if block ∈ stash then 0 else 1) :
    WithinCapacity capacity stash call := by
  have hrun := checkOverflow_modify capacity block f stash
  rw [← hexec] at hrun
  by_cases hfull : stash.keys.length = capacity ∧ block ∉ stash
  · rw [if_pos hfull] at hrun
    refine ⟨?_, fun b data hb => ?_, fun e s herror => ?_⟩
    · simpa only [leaves, hrun] using hstash
    · obtain rfl := hcall b data hb
      rw [length_keys_insert, if_neg hfull.2, hfull.1]
      exact iff_of_true ⟨_, _, hrun⟩ (Nat.lt_succ_self _)
    · exact ((EStateM.Result.error.inj (hrun.symm.trans herror)).2).symm
  · rw [if_neg hfull] at hrun
    -- There is room for one more, or the block is there already.
    have hroom : stash.keys.length + (if block ∈ stash then 0 else 1) ≤ capacity := by
      by_cases hmem : block ∈ stash
      · rwa [if_pos hmem]
      · have hlt := lt_of_le_of_ne hstash fun heq => hfull ⟨heq, hmem⟩
        rwa [if_neg hmem]
    refine ⟨?_, fun b data hb => ?_, fun e s herror => ?_⟩
    · simpa only [leaves, hrun, hf] using hroom
    · obtain rfl := hcall b data hb
      rw [length_keys_insert]
      refine iff_of_false ?_ (not_lt.mpr hroom)
      rintro ⟨e, s, herror⟩
      cases hrun.symm.trans herror
    · cases hrun.symm.trans herror

theorem length_keys_loadFromFile (file : Bytes) (blockSize : ℕ) :
    (loadFromFile file blockSize stash).keys.length =
      (stash.keys.toFinset ∪ (recordIds blockSize (bytesRead file)).toFinset).card := by
  rw [← List.toFinset_card_of_nodup (AList.keys_nodup _)]
  congr 1
  ext id
  rw [Finset.mem_union, List.mem_toFinset, List.mem_toFinset, List.mem_toFinset, ← AList.mem_keys,
    ← AList.mem_keys]
  exact mem_loadFromFile

/-- **One call.** A stash within its capacity keeps what the capacity promises, except where a
file is loaded that does not fit. -/
theorem withinCapacity_iff (hstash : stash.keys.length ≤ capacity) :
    WithinCapacity capacity stash call ↔ LoadFits capacity stash call := by
  cases call with
  | add block data =>
    refine iff_of_true (withinCapacity_of_insertion hstash rfl ?_ ?_) trivial
    · rintro b d (h | h)
      · exact (StashCall.add.inj h).1.symm
      · cases h
    -- adding a known ID leaves the stash as it is
    · by_cases hmem : block ∈ stash
      · rw [if_pos hmem, if_pos hmem, Nat.add_zero]
      · rw [if_neg hmem, length_keys_insert]
  | update block data =>
    refine iff_of_true (withinCapacity_of_insertion hstash rfl ?_ (length_keys_insert _ _ _)) trivial
    rintro b d (h | h)
    · cases h
    · exact (StashCall.update.inj h).1.symm
  | deleteBlock block =>
    refine iff_of_true ⟨?_, fun b data h => ?_, fun e s h => ?_⟩ trivial
    · change (stash.erase block).keys.length ≤ capacity
      rw [AList.keys_erase]
      exact List.length_erase_le.trans hstash
    · rcases h with h | h <;> cases h
    · cases h
  | loadFromFile file blockSize =>
    -- loading checks no capacity, so it keeps the bound only if the file is short enough
    have hleaves : leaves (StashCall.exec capacity (.loadFromFile file blockSize)) stash =
        loadFromFile file blockSize stash := rfl
    constructor
    · intro h
      have hsize := h.size
      rwa [hleaves, length_keys_loadFromFile] at hsize
    · intro h
      refine ⟨?_, fun b data h => ?_, fun e s h => ?_⟩
      · rw [hleaves, length_keys_loadFromFile]
        exact h
      · rcases h with h | h <;> cases h
      · cases h

/-- The file of a stash of two entries with room for two. -/
def twoEntries : Bytes :=
  (storeToFile (after 2 [.add 0 [], .add 1 []]) (Random.ofLeaves (Stream'.const 0))).1

end Capacity

/-! ### The file of a stash of any content -/

/-- The length of the entry that `storeToFile` visits first. -/
def firstLength (stash : InMemoryStashAdapter) (r : Random) : ℕ :=
  match (r.iterate stash.toList).1 with
  | [] => 0
  | entry :: _ => entry.2.length

/-- The indices of its buffer that `storeToFile` writes to, for the ID and the payload of one
entry after the other. -/
def writtenIndices (recordSize : ℕ) : ℕ → List Block → List ℕ
  | _, [] => []
  | i, entry :: entries =>
    List.range' (recordSize * i) (recordBytes entry).length ++
      writtenIndices recordSize (i + 1) entries

/-- Two payloads that differ only in the number of zero bytes at their ends. -/
def SameUpToZeros (d d' : Bytes) : Prop :=
  ∃ m n, d ++ List.replicate m 0 = d' ++ List.replicate n 0

/-- The stash comes back from its file when the entries are visited in the order that `r` gives,
over a buffer that holds what `r` puts there. -/
structure RoundTrips (stash : InMemoryStashAdapter) (r : Random) : Prop where
  /-- Nothing is written outside the buffer. -/
  inside : ∀ j ∈ writtenIndices (8 + stash.firstLength r) 0 (r.iterate stash.toList).1,
    j < stash.keys.length * (8 + stash.firstLength r)
  /-- `loadFromFile` takes the length as an `int`. -/
  int : stash.firstLength r < 2 ^ 31
  ids : ∀ id, id ∈ loadFromFile (stash.storeToFile r).1 (stash.firstLength r) ∅ ↔ id ∈ stash
  payloads : ∀ id d d', stash.lookup id = some d →
    (loadFromFile (stash.storeToFile r).1 (stash.firstLength r) ∅).lookup id = some d' →
      SameUpToZeros d d'

section File

variable {stash : InMemoryStashAdapter} {r : Random} {size : ℕ} {entries : List Block}

theorem firstLength_eq {entry : Block} (h : (r.iterate stash.toList).1.head? = some entry) :
    stash.firstLength r = entry.2.length := by
  unfold firstLength
  cases hentries : (r.iterate stash.toList).1 with
  | nil =>
    rw [hentries] at h
    cases h
  | cons first rest =>
    rw [hentries] at h
    obtain rfl := Option.some.inj h
    rfl

/-- When all payloads are of one length, the first one is. -/
theorem firstLength_of_uniform (h : ∀ id d, stash.lookup id = some d → d.length = size) {id : ℕ}
    {d : Bytes} (hd : stash.lookup id = some d) : stash.firstLength r = size := by
  have hperm : (r.iterate stash.toList).1.Perm stash.toList := Random.perm_iterate _ _
  have hmem : (id, d) ∈ (r.iterate stash.toList).1 :=
    hperm.mem_iff.mpr (UnorderedMap.mem_toList.mpr hd)
  obtain ⟨entry, rest, hcons⟩ := List.exists_cons_of_ne_nil (List.ne_nil_of_mem hmem)
  have hentry : entry ∈ (r.iterate stash.toList).1 := hcons ▸ List.mem_cons_self
  rw [firstLength_eq (hcons ▸ List.head?_cons)]
  exact h _ _ (UnorderedMap.mem_toList.mp (hperm.mem_iff.mp hentry))

theorem length_iterate (stash : InMemoryStashAdapter) (r : Random) :
    (r.iterate stash.toList).1.length = stash.keys.length := by
  rw [(Random.perm_iterate _ _).length_eq, ← UnorderedMap.keys_toList, List.length_map]

/-- There is no first entry in an empty stash. -/
theorem firstLength_of_empty (h : stash.keys.length = 0) : stash.firstLength r = 0 := by
  have hempty : (r.iterate stash.toList).1 = [] := by
    rw [← List.length_eq_zero_iff, length_iterate, h]
  rw [firstLength, hempty]

/-- A write does not shorten the buffer, wherever it goes. -/
theorem le_length_copyRecords (recordSize i : ℕ) (entries : List Block) (buffer : Bytes) :
    buffer.length ≤ (copyRecords recordSize i entries buffer).length := by
  induction entries generalizing i buffer with
  | nil => exact le_rfl
  | cons entry entries ih =>
    refine le_trans ?_ (ih (i + 1) _)
    unfold Records.overwrite
    simp only [List.length_append, List.length_take, List.length_drop]
    omega

theorem length_storeToFile (stash : InMemoryStashAdapter) (r : Random) :
    (stash.storeToFile r).1.length = stash.keys.length * (8 + stash.firstLength r) := by
  rw [← length_iterate stash r]
  unfold storeToFile firstLength
  cases hentries : (r.iterate stash.toList).1 with
  | nil => simp [hentries]
  | cons entry entries =>
    simp only [hentries]
    -- the buffer is at least as long as the part of it that is stored
    refine List.length_take_of_le (le_trans ?_ (le_length_copyRecords _ _ _ _))
    rw [Random.length_getRandomBlock]

/-- Records that are not too long stay in their places. -/
theorem lt_of_mem_writtenIndices (h : ∀ entry ∈ entries, entry.2.length ≤ size) {i j : ℕ}
    (hj : j ∈ writtenIndices (8 + size) i entries) : j < (i + entries.length) * (8 + size) := by
  -- on the entries, the `i`-th of which starts at `(8 + size) * i`
  induction entries generalizing i with
  | nil => exact absurd hj List.not_mem_nil
  | cons entry entries ih =>
    rw [writtenIndices, List.mem_append] at hj
    rcases hj with hj | hj
    · have hle := h entry List.mem_cons_self
      rw [List.mem_range'_1, length_recordBytes] at hj
      -- no payload is longer than `size`, so the record ends before the next one starts
      calc j < (8 + size) * i + (8 + entry.2.length) := hj.2
        _ ≤ (i + 1) * (8 + size) := by rw [Nat.succ_mul, Nat.mul_comm]; omega
        _ ≤ (i + (entry :: entries).length) * (8 + size) :=
          Nat.mul_le_mul_right _ (by rw [List.length_cons]; omega)
    · have hlt := ih (fun e he => h e (List.mem_cons_of_mem _ he)) hj
      rwa [Nat.add_assoc, Nat.add_comm 1] at hlt

/-- **Payloads of one length come back**, whatever the order and the buffer. -/
theorem roundTrips_of_uniform (hsize : ∀ id d, stash.lookup id = some d → d.length = size)
    (hids : ∀ id ∈ stash, id < 2 ^ 64) (hfile : stash.keys.length * (8 + size) < 2 ^ 31)
    (r : Random) : stash.RoundTrips r := by
  -- whichever entry comes first, it has the common length
  have hfirst : ∀ id d, stash.lookup id = some d → d.length = stash.firstLength r :=
    fun id d hd => (hsize id d hd).trans (firstLength_of_uniform hsize hd).symm
  have hlength : stash.firstLength r < 2 ^ 31 ∧
      stash.keys.length * (8 + stash.firstLength r) < 2 ^ 31 := by
    -- an empty stash has first length 0
    by_cases hempty : stash.keys.length = 0
    · rw [hempty, Nat.zero_mul, firstLength_of_empty hempty]
      norm_num
    · obtain ⟨id, hid⟩ := List.exists_mem_of_length_pos (Nat.pos_of_ne_zero hempty)
      obtain ⟨d, hd⟩ := exists_lookup (AList.mem_keys.mpr hid)
      have hle := Nat.le_mul_of_pos_left (8 + size) (Nat.pos_of_ne_zero hempty)
      rw [firstLength_of_uniform hsize hd]
      omega
  have hlookup := lookup_loadFromFile_storeToFile hfirst hids
    ((length_storeToFile stash r).trans_lt hlength.2)
  refine ⟨fun j hj => ?_, hlength.1, fun id => ?_, fun id d d' hd hd' => ?_⟩
  · rw [← length_iterate stash r, ← Nat.zero_add (r.iterate stash.toList).1.length]
    refine lt_of_mem_writtenIndices (fun entry hentry => ?_) hj
    exact (hfirst _ _ (UnorderedMap.mem_toList.mp
      ((Random.perm_iterate _ _).mem_iff.mp hentry))).le
  · rw [← AList.lookup_isSome, ← AList.lookup_isSome, hlookup]
  · rw [hlookup, hd, Option.some.injEq] at hd'
    exact ⟨0, 0, by rw [hd']⟩

/-- A file that does not fit into an `int` is read up to its size modulo `2 ^ 32`, or not at
all. -/
theorem length_bytesRead {file : Bytes} (h : 2 ^ 31 ≤ file.length) :
    (bytesRead file).length = 0 ∨ (bytesRead file).length + 2 ^ 32 ≤ file.length := by
  have hsize : (toInt file.length).toInt.toNat = 0 ∨
      (toInt file.length).toInt.toNat + 2 ^ 32 ≤ file.length := by
    rw [toInt, BitVec.toInt_eq_toNat_bmod, BitVec.toNat_ofNat, Int.bmod]
    split <;> omega
  have hle : (bytesRead file).length ≤ (toInt file.length).toInt.toNat := List.length_take_le _ _
  omega

/-- A file from which all IDs come back has a size that is an `int`. -/
theorem RoundTrips.file_lt (h : stash.RoundTrips r) :
    stash.keys.length * (8 + stash.firstLength r) < 2 ^ 31 := by
  by_contra hge
  rw [not_lt] at hge
  have hint := h.int
  have hlength := length_storeToFile stash r
  -- Every ID of the stash has to be found in a record.
  have hsub : stash.keys ⊆ recordIds (stash.firstLength r) (bytesRead (stash.storeToFile r).1) := by
    intro id hid
    have hmem := (h.ids id).mpr (AList.mem_keys.mpr hid)
    exact (mem_loadFromFile.mp hmem).resolve_left (AList.notMem_empty id)
  generalize stash.firstLength r = size at *
  have hn : stash.keys.length ≤
      ((bytesRead (stash.storeToFile r).1).length + (8 + size) - 1) / (8 + size) := by
    have hle := (List.subperm_of_subset stash.keys_nodup hsub).length_le
    rwa [recordIds, List.length_map, List.length_range] at hle
  have hrecords : stash.keys.length * (8 + size) ≤
      (bytesRead (stash.storeToFile r).1).length + (8 + size) - 1 :=
    (Nat.le_div_iff_mul_le (by omega)).mp hn
  have hread := length_bytesRead (hlength.symm ▸ hge)
  have hpos : 0 < stash.keys.length := Nat.pos_of_ne_zero fun hzero => by
    rw [hzero] at hge
    omega
  have hone := Nat.le_mul_of_pos_left (8 + size) hpos
  -- What is read ends more than one record before the end of the file.
  omega

/-- The entry with its payload filled up to `size` bytes. -/
def filled (size : ℕ) (byte : UInt8) (entry : Block) : Block :=
  (entry.1, entry.2 ++ List.replicate (size - entry.2.length) byte)

theorem length_filled {entry : Block} (h : entry.2.length ≤ size) (byte : UInt8) :
    (filled size byte entry).2.length = size := by
  rw [filled, List.length_append, List.length_replicate]
  omega

/-- When no payload is longer than the first, each is written with the bytes of the buffer that
are behind it. -/
theorem copyRecords_replicate (byte : UInt8) (h : ∀ entry ∈ entries, entry.2.length ≤ size)
    {i m : ℕ} {start : Bytes} (hstart : start.length = (8 + size) * i)
    (hm : entries.length * (8 + size) ≤ m) :
    copyRecords (8 + size) i entries (start ++ List.replicate m byte) =
      start ++ (entries.map (filled size byte)).flatMap recordBytes ++
        List.replicate (m - entries.length * (8 + size)) byte := by
  induction entries generalizing i m start with
  | nil => simp [copyRecords]
  | cons entry entries ih =>
    have hle := h entry List.mem_cons_self
    rw [List.length_cons, Nat.succ_mul] at hm
    have hfilled : recordBytes entry ++ List.replicate (m - (8 + entry.2.length)) byte =
        recordBytes (filled size byte entry) ++ List.replicate (m - (8 + size)) byte := by
      have hsplit : m - (8 + entry.2.length) = (size - entry.2.length) + (m - (8 + size)) := by
        omega
      rw [hsplit, List.replicate_add]
      unfold recordBytes filled
      simp only [List.append_assoc]
    have hlength : (start ++ recordBytes (filled size byte entry)).length =
        (8 + size) * (i + 1) := by
      rw [List.length_append, hstart, length_recordBytes, length_filled hle, Nat.mul_succ]
    rw [copyRecords, Records.overwrite_append hstart, List.append_assoc, List.drop_replicate,
      length_recordBytes, hfilled, ← List.append_assoc,
      ih (fun e he => h e (List.mem_cons_of_mem _ he)) hlength (by omega), List.map_cons,
      List.flatMap_cons, List.length_cons, Nat.succ_mul, Nat.sub_sub, Nat.add_comm (8 + size)]
    simp only [List.append_assoc]

theorem getRandomBlock_const (byte : UInt8) (h : r.uchars = Stream'.const byte) (n : ℕ) :
    (r.getRandomBlock n).1 = List.replicate n byte := by
  change r.uchars.take n = _
  rw [h]
  induction n with
  | zero => rfl
  | succ n ih =>
    rw [Stream'.take_succ, List.replicate_succ]
    exact congrArg _ ih

/-- The file of a stash whose longest payload comes first, over a buffer full of one byte. -/
theorem storeToFile_const (byte : UInt8) (hr : r.uchars = Stream'.const byte)
    (h : ∀ id d, stash.lookup id = some d → d.length ≤ stash.firstLength r) :
    (stash.storeToFile r).1 =
      ((r.iterate stash.toList).1.map (filled (stash.firstLength r) byte)).flatMap recordBytes := by
  have hle : ∀ entry ∈ (r.iterate stash.toList).1, entry.2.length ≤ stash.firstLength r :=
    fun entry hentry => h _ _ (UnorderedMap.mem_toList.mp
      ((Random.perm_iterate _ _).mem_iff.mp hentry))
  have hbuffer : (r.iterate stash.toList).2.uchars = Stream'.const byte := hr
  unfold storeToFile firstLength at *
  cases hentries : (r.iterate stash.toList).1 with
  | nil => simp [hentries]
  | cons entry entries =>
    simp only [hentries] at hle ⊢
    have hzero : ([] : Bytes).length = (8 + entry.2.length) * 0 := rfl
    have hcopy := copyRecords_replicate byte hle hzero le_rfl
    rw [List.nil_append, List.nil_append, Nat.sub_self, List.replicate_zero, List.append_nil]
      at hcopy
    rw [getRandomBlock_const byte hbuffer, hcopy]
    have hfilled : ∀ e ∈ (entry :: entries).map (filled entry.2.length byte),
        e.2.length = entry.2.length := by
      intro e he
      obtain ⟨e', he', rfl⟩ := List.mem_map.mp he
      exact length_filled (hle e' he') byte
    refine List.take_of_length_le ?_
    rw [length_flatMap_recordBytes hfilled, List.length_map]

/-- Bytes that are not zero do not pass for padding. -/
theorem not_sameUpToZeros_ones {d : Bytes} {n : ℕ} (hn : 0 < n) :
    ¬SameUpToZeros d (d ++ List.replicate n 1) := by
  rintro ⟨m, m', h⟩
  rw [List.append_assoc, List.append_cancel_left_eq] at h
  have hone : (1 : UInt8) ∈ List.replicate m 0 := by
    rw [h]
    exact List.mem_append_left _ (List.mem_replicate.mpr ⟨hn.ne', rfl⟩)
  exact absurd (List.eq_of_mem_replicate hone) (by decide)

/-- When a longest payload comes first, each payload comes back with the bytes of the buffer that
were behind it. -/
theorem lookup_loadFromFile_of_longest_first (byte : UInt8) (hids : ∀ id ∈ stash, id < 2 ^ 64)
    (hr : r.uchars = Stream'.const byte)
    (hle : ∀ id d, stash.lookup id = some d → d.length ≤ stash.firstLength r)
    (hfile : stash.keys.length * (8 + stash.firstLength r) < 2 ^ 31) {id : ℕ} {d : Bytes}
    (hd : stash.lookup id = some d) :
    (loadFromFile (stash.storeToFile r).1 (stash.firstLength r) ∅).lookup id =
      some (d ++ List.replicate (stash.firstLength r - d.length) byte) := by
  have hperm : (r.iterate stash.toList).1.Perm stash.toList := Random.perm_iterate _ _
  have hentry : ∀ entry ∈ (r.iterate stash.toList).1, stash.lookup entry.1 = some entry.2 :=
    fun entry hentry => UnorderedMap.mem_toList.mp (hperm.mem_iff.mp hentry)
  -- The records are those of the filled entries, under the same IDs.
  set records := (r.iterate stash.toList).1.map (filled (stash.firstLength r) byte) with hrecords
  have hnodup : (records.map Prod.fst).Nodup := by
    have hkeys : records.map Prod.fst = (r.iterate stash.toList).1.map Prod.fst := by
      rw [hrecords, List.map_map]
      rfl
    rw [hkeys]
    exact (hperm.map Prod.fst).nodup_iff.mpr (UnorderedMap.nodup_keys_toList stash)
  have hdata : ∀ record ∈ records, record.2.length = stash.firstLength r := by
    intro record hrecord
    obtain ⟨entry, hmem, rfl⟩ := List.mem_map.mp hrecord
    exact length_filled (hle _ _ (hentry entry hmem)) byte
  have hrecordIds : ∀ record ∈ records, record.1 < 2 ^ 64 := by
    intro record hrecord
    obtain ⟨entry, hmem, rfl⟩ := List.mem_map.mp hrecord
    exact hids _ (mem_of_lookup (hentry entry hmem))
  have hsize : records.length * (8 + stash.firstLength r) < 2 ^ 31 := by
    rwa [hrecords, List.length_map, length_iterate]
  rw [storeToFile_const byte hr hle, loadFromFile_flatMap hdata hrecordIds hnodup hsize]
  refine UnorderedMap.lookup_assignAll_of_mem hnodup ?_ ∅
  exact List.mem_map.mpr ⟨(id, d), hperm.mem_iff.mpr (UnorderedMap.mem_toList.mpr hd), rfl⟩

/-- A stash that comes back although the buffer was full of ones has no payload shorter than the
longest, if that is visited first. -/
theorem RoundTrips.length_eq (h : stash.RoundTrips r) (hids : ∀ id ∈ stash, id < 2 ^ 64)
    (hr : r.uchars = Stream'.const 1)
    (hle : ∀ id d, stash.lookup id = some d → d.length ≤ stash.firstLength r) {id : ℕ} {d : Bytes}
    (hd : stash.lookup id = some d) : d.length = stash.firstLength r := by
  by_contra hne
  have hlt := lt_of_le_of_ne (hle id d hd) hne
  have hback := lookup_loadFromFile_of_longest_first 1 hids hr hle h.file_lt hd
  exact not_sameUpToZeros_ones (Nat.sub_pos_of_lt hlt) (h.payloads id d _ hd hback)

/-- A longest payload may be visited first, over a buffer full of ones. -/
theorem exists_longest_first (hne : stash.toList ≠ []) :
    ∃ r : Random, r.uchars = Stream'.const 1 ∧
      ∀ id d, stash.lookup id = some d → d.length ≤ stash.firstLength r := by
  obtain ⟨longest, hlongest, hmax⟩ := Finset.exists_max_image stash.toList.toFinset
    (fun entry => entry.2.length) ((List.toFinset_nonempty_iff _).mpr hne)
  obtain ⟨draws, hdraws⟩ := FisherYates.exists_head?_shuffle (List.mem_toFinset.mp hlongest)
  set r : Random := ⟨Stream'.const 0, Stream'.const 0, Stream'.const 1, draws⟩
  have hhead : (r.iterate stash.toList).1.head? = some longest := hdraws
  refine ⟨r, rfl, fun id d hd => ?_⟩
  rw [firstLength_eq hhead]
  exact hmax (id, d) (List.mem_toFinset.mpr (UnorderedMap.mem_toList.mpr hd))

end File

section Calls

variable {capacity blockSize : ℕ} {calls : List StashCall}

theorem lt_of_mem_after (capacity : ℕ) (hcalls : ∀ call ∈ calls, call.PutsUpTo blockSize) :
    ∀ id ∈ after capacity calls, id < 2 ^ 64 := by
  have hinsert : ∀ {stash : InMemoryStashAdapter} {block : ℕ} {data : Bytes},
      (∀ id ∈ stash, id < 2 ^ 64) → block < 2 ^ 64 →
        ∀ id ∈ stash.insert block data, id < 2 ^ 64 := fun hstash hblock id hid =>
    ((AList.mem_insert _).mp hid).elim (fun h => h ▸ hblock) (hstash id)
  refine (runCatching_spec (I := fun _ stash => ∀ id ∈ stash, id < 2 ^ 64)
    (A := StashCall.PutsUpTo blockSize) (J := fun _ _ _ _ => True)
    (fun _ call stash hstash hcall => ?_) calls () ∅ (fun id hid => ?_) hcalls).elim
    fun _ h => h.2
  · cases call with
    | add block data =>
      refine InMemoryStashAdapter.wp_add ⟨(), trivial, ?_⟩ fun _ _ => ⟨(), trivial, hstash⟩
      split
      · exact hstash
      · exact hinsert hstash hcall.1
    | update block data =>
      exact InMemoryStashAdapter.wp_update ⟨(), trivial, hinsert hstash hcall.1⟩
        fun _ _ => ⟨(), trivial, hstash⟩
    | deleteBlock block =>
      exact ⟨(), trivial, fun id hid => hstash id ((AList.mem_erase.mp hid).2)⟩
    | loadFromFile file blockSize => exact hcall.elim
  · exact absurd hid (AList.notMem_empty id)

/-- **The stash comes back from its file, whatever the order of the visit and the content of the
buffer, exactly when its payloads are of one length** and the size of the file is an `int`. The
length of the records is that of the first entry that is visited, so a longer payload is cut and a
shorter one is followed by what the buffer holds. -/
theorem roundTrips_iff (hcalls : ∀ call ∈ calls, call.PutsUpTo blockSize) :
    (∀ r, (after capacity calls).RoundTrips r) ↔
      ∃ size, (∀ id d, (after capacity calls).lookup id = some d → d.length = size) ∧
        (after capacity calls).keys.length * (8 + size) < 2 ^ 31 := by
  have hids := lt_of_mem_after capacity hcalls
  generalize after capacity calls = stash at *
  constructor
  · intro h
    by_cases hempty : stash.toList = []
    · refine ⟨0, fun id d hd => ?_, ?_⟩
      · rw [← UnorderedMap.mem_toList, hempty] at hd
        exact absurd hd List.not_mem_nil
      · rw [← UnorderedMap.keys_toList, hempty]
        norm_num
    -- if every order round-trips, so does one that visits a longest payload first
    · obtain ⟨r, hr, hle⟩ := exists_longest_first hempty
      exact ⟨stash.firstLength r, fun id d hd => (h r).length_eq hids hr hle hd, (h r).file_lt⟩
  · rintro ⟨size, hsize, hfile⟩ r
    exact roundTrips_of_uniform hsize hids hfile r

/-- An order of the visit, over a buffer full of ones. -/
def visit (first : ℕ) : Random :=
  ⟨Stream'.const 0, Stream'.const 0, Stream'.const 1, Stream'.cons first (Stream'.const 0)⟩

/-- Calls that leave payloads of one byte. -/
def oneByte : List StashCall := [.add 0 [5], .add 1 [], .update 1 [6], .deleteBlock 2]

theorem roundTrips_oneByte : (after 2 oneByte).RoundTrips (visit 1) := by
  have hcalls : ∀ call ∈ oneByte, call.PutsUpTo 1 := by decide
  have hall : ∀ entry ∈ (after 2 oneByte).toList, entry.2.length = 1 := by decide +kernel
  refine (roundTrips_iff hcalls).mpr ⟨1, fun id d hd => ?_, by decide +kernel⟩ (visit 1)
  exact hall (id, d) (UnorderedMap.mem_toList.mpr hd)

end Calls

/-- A payload of one byte and one of two. -/
def twoLengths : InMemoryStashAdapter := after 2 [.add 0 [5], .add 1 [5, 6]]

/-- If the longer payload is visited first, the shorter one comes back with a byte of the buffer
behind it. If it is visited last, its last byte is written behind the buffer. -/
theorem not_roundTrips : ¬twoLengths.RoundTrips (visit 0) ∧ ¬twoLengths.RoundTrips (visit 1) := by
  constructor
  -- the short payload comes first: the other one is cut
  · intro h
    have hback : SameUpToZeros [5] ([5] ++ List.replicate 1 1) :=
      h.payloads 0 [5] [5, 1] (by decide +kernel) (by decide +kernel)
    exact not_sameUpToZeros_ones Nat.one_pos hback
  · intro h
    have hlast : 18 < twoLengths.keys.length * (8 + twoLengths.firstLength (visit 1)) :=
      h.inside 18 (by decide +kernel)
    exact absurd hlast (by decide +kernel)

end InMemoryStashAdapter

end PathORAM
