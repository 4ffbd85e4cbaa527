import PathOram.StorageAdapter
import PathOram.Lib.Records

/-!
# The in-memory and the file-system backends

`PathOram.StorageAdapter` keeps the raw bytes of every location in one array. Here the
adapter is modelled over a backend: the batches it hands over, the two loops that cut a
request list to batches, and `getInternal` and `setInternal` of the two backends of
`storage-adapter.cpp`.

* `InMemoryStorageAdapter` — an array of byte arrays.
* `FileSystemStorageAdapter` — one file; a location is a record of `blockSize` bytes. The
  constructor writes every record, so an offset of the file is inside it.

`Backend.Lawful` says that a backend is an array of raw buckets. Over a lawful backend the
adapter refines the one with the raw array (`get_refines`, `set_refines`), and a run of
requests answers as an array of buckets does (`Serves`).
-/

namespace PathORAM

open Hoare

/-! ### Backends -/

/-- The number of raw bytes of a location: IV + Z * (ID + PAYLOAD). -/
def StorageConfig.blockSize (c : StorageConfig) : ℕ :=
  (c.userBlockSize + AES_BLOCK_SIZE) * c.Z + AES_BLOCK_SIZE

/-- The virtual methods for one location, over the state `B` of a backend. -/
structure Backend (B : Type) where
  /-- Retrieve the raw bytes of a location; they go to the beginning of the response. -/
  getInternal : ℕ → Bytes → B → Bytes
  /-- Write the raw bytes of a location. -/
  setInternal : ℕ → Bytes → B → B

/-- The in-memory backend. -/
structure InMemoryStorageAdapter where
  /-- One array of `blockSize` bytes for each location. -/
  blocks : List Bytes

/-- The file-system backend. -/
structure FileSystemStorageAdapter where
  /-- The content of the file. -/
  file : Bytes

/-- `InMemoryStorageAdapter::getInternal` and `setInternal`. -/
def InMemoryStorageAdapter.backend (c : StorageConfig) : Backend InMemoryStorageAdapter where
  getInternal location response b := (b.blocks.getD location []).take c.blockSize ++ response
  setInternal location raw b :=
    ⟨b.blocks.modify location (fun block => raw ++ block.drop raw.length)⟩

/-- `FileSystemStorageAdapter::getInternal` and `setInternal`. -/
def FileSystemStorageAdapter.backend (c : StorageConfig) : Backend FileSystemStorageAdapter where
  getInternal location response b :=
    (b.file.drop (location * c.blockSize)).take c.blockSize ++ response
  setInternal location raw b :=
    ⟨Records.overwrite (location * c.blockSize) (raw.take c.blockSize) b.file⟩

/-- A batch of requests a backend is handed. -/
inductive Batch where
  | get (locations : List ℕ)
  | set (writes : List (ℕ × Bytes))
  deriving DecidableEq

/-- A storage adapter over a backend. -/
structure StorageAdapter (B : Type) where
  backend : B
  random : Random
  /-- Ghost: the batches handed to the backend, oldest first. -/
  batches : List Batch

namespace StorageAdapter

variable {B α σ : Type}

section Definitions

variable (ops : Backend B) (c : StorageConfig) (crypto : Crypto)

/-- The batch version of `getInternal`: one cell of the response for each location. -/
def getInternal (locations : List ℕ) (response : List Bytes) (b : B) : List Bytes :=
  locations.foldl (fun response location => response ++ [ops.getInternal location [] b]) response

/-- The batch version of `setInternal`. -/
def setInternal (writes : List (ℕ × Bytes)) (b : B) : B :=
  writes.foldl (fun b write => ops.setInternal write.1 write.2 b) b

/-- The requests from `pointer` on, at most `limit` of them. -/
def batchAt (limit pointer : ℕ) (l : List α) : List α :=
  if limit < l.length - pointer then (l.take (pointer + limit)).drop pointer
  else l.drop pointer

/-- The loop that moves `pointer` over the requests. -/
def batchLoop (limit : ℕ) (l : List α) (batch : List α → σ → σ) : ℕ → ℕ → σ → σ
  | 0, _, s => s
  | fuel + 1, pointer, s =>
    if pointer < l.length then
      batchLoop limit l batch fuel (pointer + limit) (batch (batchAt limit pointer l) s)
    else s

/-- Hand requests over: a single one by itself, otherwise one batch or several. -/
def handOver (l : List α) (single : α → σ → σ) (batch : List α → σ → σ) (s : σ) : σ :=
  match l with
  | [a] => single a s
  | l =>
    if c.batchLimit = 0 ∨ l.length ≤ c.batchLimit then batch l s
    -- Every round moves the pointer, so there are no more rounds than requests.
    else batchLoop c.batchLimit l batch l.length 0 s

/-- Decrypt raw buckets and append their blocks to the response. -/
def decodeRaws (raws : List Bytes) : EStateM Exception σ (List Block) :=
  raws.foldlM (fun response raw => do
    let blocks ← liftExcept (AbsStorageAdapter.decodeBucket c crypto raw)
    return response ++ blocks) []

/-- `AbsStorageAdapter::get` for a batch of locations. -/
def get (locations : List ℕ) : EStateM Exception (StorageAdapter B) (List Block) := do
  locations.forM (AbsStorageAdapter.checkCapacity c)
  let d ← MonadState.get
  let received : List Bytes × List Batch := handOver c locations
    (fun location s =>
      (s.1 ++ [ops.getInternal location [] d.backend], s.2 ++ [.get [location]]))
    (fun batch s => (getInternal ops batch s.1 d.backend, s.2 ++ [.get batch]))
    ([], d.batches)
  modify (fun d => { d with batches := received.2 })
  decodeRaws c crypto received.1

/-- What a batch `set` leaves. -/
structure SetResult (B : Type) where
  adapter : StorageAdapter B
  /-- The range the requests came from, with the payloads padded in place. -/
  requests : List (ℕ × Bucket)
  result : Except Exception Unit

/-- `AbsStorageAdapter::set` for a range of requests. -/
def set (requests : List (ℕ × Bucket)) (d : StorageAdapter B) : SetResult B :=
  match AbsStorageAdapter.encodeRequests c crypto requests d.random with
  | (requests', r, .error e) => ⟨{ d with random := r }, requests', .error e⟩
  | (requests', r, .ok writes) =>
    let left : B × List Batch := handOver c writes
      (fun write s => (ops.setInternal write.1 write.2 s.1, s.2 ++ [.set [write]]))
      (fun batch s => (setInternal ops batch s.1, s.2 ++ [.set batch]))
      (d.backend, d.batches)
    ⟨⟨left.1, r, left.2⟩, requests', .ok ()⟩

/-- `AbsStorageAdapter::fillWithZeroes`. -/
def fillWithZeroes (d : StorageAdapter B) : SetResult B :=
  set ops c crypto ((List.range c.capacity).map
    (fun i => (i, List.replicate c.Z (ULONG_MAX, [])))) d

end Definitions

end StorageAdapter

/-! ### Constructors -/

section Constructors

variable (c : StorageConfig) (crypto : Crypto)

/-- `n` arrays that `new` leaves uninitialised. -/
def InMemoryStorageAdapter.allocate : ℕ → Random → List Bytes × Random
  | 0, r => ([], r)
  | n + 1, r =>
    let (block, r) := r.getRandomBlock c.blockSize
    let (blocks, r) := allocate n r
    (block :: blocks, r)

/-- The constructor `InMemoryStorageAdapter::InMemoryStorageAdapter`. -/
def InMemoryStorageAdapter.new (r : Random) : StorageAdapter.SetResult InMemoryStorageAdapter :=
  let (blocks, r) := allocate c c.capacity r
  StorageAdapter.fillWithZeroes (backend c) c crypto ⟨⟨blocks⟩, r, []⟩

/-- The constructor `FileSystemStorageAdapter::FileSystemStorageAdapter`, for a file that
opens. With `override` the file is emptied and filled, first with whatever `placeholder`
holds; without it the content is kept. -/
def FileSystemStorageAdapter.new (file : Bytes) (override : Bool) (r : Random) :
    StorageAdapter.SetResult FileSystemStorageAdapter :=
  if override then
    let (placeholder, r) := r.getRandomBlock c.blockSize
    StorageAdapter.fillWithZeroes (backend c) c crypto
      ⟨⟨(List.replicate c.capacity placeholder).flatten⟩, r, []⟩
  else
    ⟨⟨⟨file⟩, r, []⟩, [], .ok ()⟩

end Constructors

/-! ### A backend is an array of raw buckets -/

/-- What the adapter relies on. `Inv` says that the backend holds `blockSize` bytes for
every location. -/
structure Backend.Lawful {B : Type} (ops : Backend B) (c : StorageConfig) (Inv : B → Prop) :
    Prop where
  inv_set : ∀ b location raw, Inv b → location < c.capacity → raw.length = c.blockSize →
    Inv (ops.setInternal location raw b)
  get_set : ∀ b location raw, Inv b → location < c.capacity → raw.length = c.blockSize →
    ∀ other < c.capacity, ops.getInternal other [] (ops.setInternal location raw b) =
      Function.update (fun other => ops.getInternal other [] b) location raw other

/-- Every location has its array. -/
def InMemoryStorageAdapter.Sized (c : StorageConfig) (b : InMemoryStorageAdapter) : Prop :=
  b.blocks.length = c.capacity ∧ ∀ block ∈ b.blocks, block.length = c.blockSize

/-- The file has a record for every location. -/
def FileSystemStorageAdapter.Sized (c : StorageConfig) (b : FileSystemStorageAdapter) : Prop :=
  b.file.length = c.capacity * c.blockSize

theorem InMemoryStorageAdapter.lawful (c : StorageConfig) :
    (InMemoryStorageAdapter.backend c).Lawful c (Sized c) where
  inv_set b location raw hb hlocation hraw := by
    refine ⟨(List.length_modify _ _ _).trans hb.1, fun block hblock => ?_⟩
    have hmem : block ∈ b.blocks.modify location
      (fun block => raw ++ block.drop raw.length) := hblock
    obtain ⟨i, hi, rfl⟩ := List.getElem_of_mem hmem
    have hi' : i < b.blocks.length := by rwa [List.length_modify] at hi
    have hlen := hb.2 _ (List.getElem_mem hi')
    rw [List.getElem_modify]
    -- The copy replaces all bytes of the array.
    split
    · rw [List.length_append, List.length_drop, hlen, hraw, Nat.sub_self, Nat.add_zero]
    · exact hlen
  get_set b location raw hb hlocation hraw other hother := by
    have hlt : other < b.blocks.length := hb.1.symm ▸ hother
    have hlen := hb.2 _ (List.getElem_mem hlt)
    change ((b.blocks.modify location _).getD other []).take c.blockSize ++ [] = _
    rw [List.append_nil, List.getD_eq_getElem?_getD]
    by_cases hne : location = other
    · subst hne
      rw [List.getElem?_modify_eq, List.getElem?_eq_getElem hlt, Function.update_self]
      change (raw ++ b.blocks[location].drop raw.length).take c.blockSize = raw
      rw [List.drop_eq_nil_of_le (by omega), List.append_nil]
      exact List.take_of_length_le hraw.le
    · rw [List.getElem?_modify_ne _ _ hne, Function.update_of_ne (Ne.symm hne)]
      change _ = (b.blocks.getD other []).take c.blockSize ++ []
      rw [List.append_nil, List.getD_eq_getElem?_getD]

theorem FileSystemStorageAdapter.lawful (c : StorageConfig) :
    (FileSystemStorageAdapter.backend c).Lawful c (Sized c) where
  inv_set b location raw hb hlocation hraw := by
    have hle := Records.add_size_le c.blockSize hlocation
    have htake : raw.take c.blockSize = raw := List.take_of_length_le hraw.le
    unfold Sized at hb ⊢
    refine (Records.length_overwrite ?_).trans hb
    rw [htake, hraw, hb]
    exact hle
  get_set b location raw hb hlocation hraw other hother := by
    have hle := Records.add_size_le c.blockSize hlocation
    have htake : raw.take c.blockSize = raw := List.take_of_length_le hraw.le
    unfold Sized at hb
    rw [← hb] at hle
    change Records.record c.blockSize other
      (Records.overwrite (location * c.blockSize) (raw.take c.blockSize) b.file) ++ [] = _
    rw [List.append_nil, htake]
    -- a record of the file is replaced as a whole, so the others stay
    by_cases hne : other = location
    · subst hne
      rw [Function.update_self]
      exact Records.record_overwrite_self hraw (by omega)
    · rw [Function.update_of_ne hne, Records.record_overwrite_of_ne hraw hle hne]
      exact (List.append_nil _).symm

/-! ### The check of the locations -/

namespace AbsStorageAdapter

variable {c : StorageConfig} {locations : List ℕ}

/-- The capacity check of the locations ends at the first one outside, and leaves the state. -/
theorem forM_checkCapacity {σ : Type} (locations : List ℕ) (s : σ) :
    locations.forM (checkCapacity c) s =
      match locations.find? (fun location => c.capacity ≤ location) with
      | none => .ok () s
      | some location => .error (.idOutOfBound location c.capacity) s := by
  induction locations with
  | nil => rfl
  | cons location locations ih =>
    show (checkCapacity c location >>= fun _ => locations.forM (checkCapacity c)) s = _
    -- the first location out of bounds decides which exception is thrown
    by_cases hcap : c.capacity ≤ location
    · have hthrow : checkCapacity (σ := σ) c location s =
          .error (.idOutOfBound location c.capacity) s := by
        unfold checkCapacity
        rw [if_pos hcap]
        rfl
      have hfound : (location :: locations).find? (fun location => c.capacity ≤ location) =
          some location := List.find?_cons_of_pos (by simpa using hcap)
      rw [bind_of_error hthrow, hfound]
    · have hpass : checkCapacity (σ := σ) c location s = .ok () s := by
        unfold checkCapacity
        rw [if_neg hcap]
        rfl
      have hskip : (location :: locations).find? (fun location => c.capacity ≤ location) =
          locations.find? (fun location => c.capacity ≤ location) :=
        List.find?_cons_of_neg (by simpa using hcap)
      rw [bind_of_ok hpass, ih, hskip]

theorem forM_checkCapacity_of_lt {σ : Type} (h : ∀ location ∈ locations, location < c.capacity)
    (s : σ) : locations.forM (checkCapacity c) s = .ok () s := by
  have hfind : locations.find? (fun location => c.capacity ≤ location) = none := by
    simpa using h
  rw [forM_checkCapacity, hfind]

end AbsStorageAdapter

/-! ### Batching -/

namespace StorageAdapter

section Batching

variable {B α σ : Type} {c : StorageConfig}

theorem batchAt_eq (limit pointer : ℕ) (l : List α) :
    batchAt limit pointer l = (l.drop pointer).take limit := by
  unfold batchAt
  split
  · rw [List.drop_take, Nat.add_sub_cancel_left]
  -- The last batch takes what is left.
  · next h => rw [List.take_of_length_le (by rw [List.length_drop]; omega)]

/-- The loop runs over the batches of the requests from `pointer` on. -/
theorem batchLoop_eq (limit : ℕ) (l : List α) (batch : List α → σ → σ) (fuel pointer : ℕ)
    (s : σ) : batchLoop limit l batch fuel pointer s =
      (batchesOf limit fuel (l.drop pointer)).foldl (fun s part => batch part s) s := by
  -- on the fuel; the pointer of the loop is the list that is dropped
  induction fuel generalizing pointer s with
  | zero => rfl
  | succ fuel ih =>
    rw [batchLoop, batchesOf, List.length_drop]
    by_cases h : pointer < l.length
    · rw [if_pos h, if_neg (by omega), ih, batchAt_eq, List.foldl_cons, List.drop_drop]
    · rw [if_neg h, if_pos (by omega), List.foldl_nil]

/-- **The backend is handed the batches**, one after the other. -/
theorem handOver_eq {single : α → σ → σ} {batch : List α → σ → σ}
    (hsingle : ∀ a s, single a s = batch [a] s) (l : List α) (s : σ) :
    handOver c l single batch s = (c.batches l).foldl (fun s part => batch part s) s := by
  unfold StorageConfig.batches
  -- a single request has a command of its own
  by_cases hlength : l.length = 1
  · obtain ⟨a, rfl⟩ := List.length_eq_one_iff.mp hlength
    rw [if_pos (Or.inl hlength)]
    exact hsingle a s
  · have hmany : handOver c l single batch s =
        if c.batchLimit = 0 ∨ l.length ≤ c.batchLimit then batch l s
        else batchLoop c.batchLimit l batch l.length 0 s := by
      unfold handOver
      split
      · exact absurd rfl hlength
      · rfl
    rw [hmany]
    -- without a limit, or below it, the whole list is one batch
    by_cases h : c.batchLimit = 0 ∨ l.length ≤ c.batchLimit
    · rw [if_pos h, if_pos (Or.inr h), List.foldl_cons, List.foldl_nil]
    · rw [if_neg h, if_neg (not_or.mpr ⟨hlength, h⟩), batchLoop_eq, List.drop_zero]

theorem length_le_of_mem_batchesOf {limit fuel : ℕ} {l part : List α}
    (h : part ∈ batchesOf limit fuel l) : part.length ≤ limit := by
  induction fuel generalizing l with
  | zero => exact absurd h List.not_mem_nil
  | succ fuel ih =>
    rw [batchesOf] at h
    split at h
    · exact absurd h List.not_mem_nil
    · rcases List.mem_cons.mp h with rfl | h
      · exact List.length_take_le _ _
      · exact ih h

theorem ne_nil_of_mem_batchesOf {limit fuel : ℕ} (hlimit : 0 < limit) {l part : List α}
    (h : part ∈ batchesOf limit fuel l) : part ≠ [] := by
  induction fuel generalizing l with
  | zero => exact absurd h List.not_mem_nil
  | succ fuel ih =>
    rw [batchesOf] at h
    split at h
    · exact absurd h List.not_mem_nil
    · next hne =>
      -- the list is nonempty here and the limit positive, so the part is too
      rcases List.mem_cons.mp h with rfl | h
      · rw [Ne, List.take_eq_nil_iff, not_or]
        exact ⟨hlimit.ne', fun hnil => hne (List.length_eq_zero_iff.mpr hnil)⟩
      · exact ih h

/-- No batch of requests is empty. -/
theorem ne_nil_of_mem_batches {l part : List α} (hl : l ≠ []) (h : part ∈ c.batches l) :
    part ≠ [] := by
  unfold StorageConfig.batches at h
  split at h
  · rw [List.mem_singleton.mp h]
    exact hl
  · next hone => exact ne_nil_of_mem_batchesOf (by omega) h

/-- No batch is larger than the limit. -/
theorem length_le_of_mem_batches (hlimit : c.batchLimit ≠ 0) {l part : List α}
    (h : part ∈ c.batches l) : part.length ≤ c.batchLimit := by
  unfold StorageConfig.batches at h
  split at h
  · next hone =>
    rw [List.mem_singleton.mp h]
    omega
  · exact length_le_of_mem_batchesOf h

variable (ops : Backend B)

theorem getInternal_eq (locations : List ℕ) (response : List Bytes) (b : B) :
    getInternal ops locations response b =
      response ++ locations.map (fun location => ops.getInternal location [] b) := by
  unfold getInternal
  induction locations generalizing response with
  | nil => simp
  | cons location locations ih =>
    rw [List.foldl_cons, ih, List.map_cons, List.append_assoc]
    rfl

/-- What `get` receives: the raw bytes of the locations in order. -/
theorem received_eq (locations : List ℕ) (b : B) (batches : List Batch) :
    handOver c locations
      (fun location (s : List Bytes × List Batch) =>
        (s.1 ++ [ops.getInternal location [] b], s.2 ++ [.get [location]]))
      (fun part s => (getInternal ops part s.1 b, s.2 ++ [.get part])) ([], batches) =
    (locations.map (fun location => ops.getInternal location [] b),
      batches ++ (c.batches locations).map .get) := by
  refine (handOver_eq ?_ locations _).trans ?_
  · exact fun _ _ => rfl
  -- The fold appends to both components, and the batches together are the locations.
  have hfold : ∀ (parts : List (List ℕ)) (s : List Bytes × List Batch),
      parts.foldl (fun s part => (getInternal ops part s.1 b, s.2 ++ [.get part])) s =
        (s.1 ++ parts.flatten.map (fun location => ops.getInternal location [] b),
          s.2 ++ parts.map .get) := by
    intro parts
    induction parts with
    | nil => intro s; simp
    | cons part parts ih =>
      intro s
      rw [List.foldl_cons, ih, getInternal_eq]
      simp
  rw [hfold, AbsStorageAdapter.flatten_batches]
  rfl

/-- What `set` leaves: all writes in order. -/
theorem left_eq (writes : List (ℕ × Bytes)) (b : B) (batches : List Batch) :
    handOver c writes
      (fun write (s : B × List Batch) =>
        (ops.setInternal write.1 write.2 s.1, s.2 ++ [.set [write]]))
      (fun part s => (setInternal ops part s.1, s.2 ++ [.set part])) (b, batches) =
    (setInternal ops writes b, batches ++ (c.batches writes).map .set) := by
  refine (handOver_eq ?_ writes _).trans ?_
  · exact fun _ _ => rfl
  -- one batch after the other writes what the flattened batches write at once
  have hfold : ∀ (parts : List (List (ℕ × Bytes))) (s : B × List Batch),
      parts.foldl (fun s part => (setInternal ops part s.1, s.2 ++ [.set part])) s =
        (setInternal ops parts.flatten s.1, s.2 ++ parts.map .set) := by
    intro parts
    induction parts with
    | nil => intro s; simp [setInternal]
    | cons part parts ih =>
      intro s
      rw [List.foldl_cons, ih]
      simp [setInternal]
  rw [hfold, AbsStorageAdapter.flatten_batches]

end Batching

/-! ### The adapter over a backend refines the adapter over the raw array -/

section Refinement

variable {B α β σ : Type} {ops : Backend B} {c : StorageConfig} {crypto : Crypto}
  {Inv : B → Prop} {b : B} {blocks : ℕ → Bytes}

/-- The backend `b` holds the raw array. -/
structure Represents (ops : Backend B) (c : StorageConfig) (Inv : B → Prop) (b : B)
    (blocks : ℕ → Bytes) : Prop where
  inv : Inv b
  raw : ∀ location < c.capacity, ops.getInternal location [] b = blocks location

/-- A write to the backend is a write to the raw array. -/
theorem Represents.write (hops : ops.Lawful c Inv) (h : Represents ops c Inv b blocks)
    {location : ℕ} {raw : Bytes} (hlocation : location < c.capacity)
    (hraw : raw.length = c.blockSize) :
    Represents ops c Inv (ops.setInternal location raw b)
      (Function.update blocks location raw) where
  inv := hops.inv_set b location raw h.inv hlocation hraw
  raw other hother := by
    rw [hops.get_set b location raw h.inv hlocation hraw other hother]
    by_cases hne : other = location
    · rw [hne, Function.update_self, Function.update_self]
    · rw [Function.update_of_ne hne, Function.update_of_ne hne, h.raw other hother]

/-- The writes of a `set`: each fills a location. -/
def SizedWrites (c : StorageConfig) (writes : List (ℕ × Bytes)) : Prop :=
  ∀ write ∈ writes, write.1 < c.capacity ∧ write.2.length = c.blockSize

theorem Represents.setInternal (hops : ops.Lawful c Inv) {writes : List (ℕ × Bytes)}
    (hwrites : SizedWrites c writes) (h : Represents ops c Inv b blocks) :
    Represents ops c Inv (setInternal ops writes b) (updateAll writes blocks) := by
  induction writes generalizing b blocks with
  | nil => exact h
  | cons write writes ih =>
    obtain ⟨hlocation, hraw⟩ := hwrites write List.mem_cons_self
    exact ih (fun w hw => hwrites w (List.mem_cons_of_mem _ hw)) (h.write hops hlocation hraw)

/-- The check of the locations does not look at the state. -/
theorem forM_checkCapacity (locations : List ℕ) :
    ((∀ location ∈ locations, location < c.capacity) ∧ ∀ {σ : Type} (s : σ),
      locations.forM (AbsStorageAdapter.checkCapacity c) s = .ok () s) ∨
    ∃ e, ∀ {σ : Type} (s : σ),
      locations.forM (AbsStorageAdapter.checkCapacity c) s = .error e s := by
  cases hfind : locations.find? (fun location => c.capacity ≤ location) with
  | none =>
    have hlt : ∀ location ∈ locations, location < c.capacity := by
      simpa using List.find?_eq_none.mp hfind
    exact Or.inl ⟨hlt, fun s => AbsStorageAdapter.forM_checkCapacity_of_lt hlt s⟩
  | some location =>
    refine Or.inr ⟨.idOutOfBound location c.capacity, fun s => ?_⟩
    rw [AbsStorageAdapter.forM_checkCapacity, hfind]

/-- Nor does the decoding. -/
theorem decodeRaws_eq (raws : List Bytes) : ∃ o : Except Exception (List Block),
    ∀ {σ : Type}, (decodeRaws c crypto raws : EStateM Exception σ (List Block)) =
      liftExcept o := by
  unfold decodeRaws
  -- From any response so far the loop ends in the same way.
  suffices h : ∀ response : List Block, ∃ o : Except Exception (List Block), ∀ {σ : Type},
      (raws.foldlM (fun response raw => do
        let blocks ← liftExcept (AbsStorageAdapter.decodeBucket c crypto raw)
        return response ++ blocks) response : EStateM Exception σ (List Block)) = liftExcept o
    from h []
  induction raws with
  | nil => exact fun response => ⟨.ok response, rfl⟩
  | cons raw raws ih =>
    intro response
    cases hdecode : AbsStorageAdapter.decodeBucket c crypto raw with
    | ok blocks =>
      obtain ⟨o, ho⟩ := ih (response ++ blocks)
      refine ⟨o, fun {σ} => ?_⟩
      rw [List.foldlM_cons, hdecode]
      exact ho
    | error e =>
      refine ⟨.error e, fun {σ} => ?_⟩
      rw [List.foldlM_cons, hdecode]
      rfl

/-- Buckets that decode are appended one behind the other. -/
theorem decodeRaws_of_decodes {raw : ℕ → Bytes} {a : ℕ → Bucket} {locations : List ℕ}
    (h : ∀ location ∈ locations, AbsStorageAdapter.decodeBucket c crypto (raw location) =
      .ok (a location)) (s : σ) :
    decodeRaws c crypto (locations.map raw) s = .ok (locations.flatMap a) s := by
  unfold decodeRaws
  -- the loop appends to the response, so the induction is over any response so far
  suffices hfrom : ∀ response : List Block, ((locations.map raw).foldlM (fun response raw => do
      let blocks ← liftExcept (AbsStorageAdapter.decodeBucket c crypto raw)
      return response ++ blocks) response : EStateM Exception σ (List Block)) s =
        .ok (response ++ locations.flatMap a) s from hfrom []
  induction locations with
  | nil => exact fun response => congrArg (EStateM.Result.ok · s) (List.append_nil response).symm
  | cons location locations ih =>
    intro response
    rw [List.map_cons, List.foldlM_cons, h location List.mem_cons_self, List.flatMap_cons,
      ← List.append_assoc]
    exact ih (fun other hother => h other (List.mem_cons_of_mem _ hother)) _

/-- **`get` over a backend ends as `get` over the raw array does**, and leaves the backend
as it is. -/
theorem get_refines {d : StorageAdapter B} {s : Storage}
    (h : Represents ops c Inv d.backend s.blocks) (locations : List ℕ) :
    ((∀ location ∈ locations, location < c.capacity) ∧ ∃ o : Except Exception (List Block),
      AbsStorageAdapter.get c crypto locations s =
        (liftExcept o : EStateM Exception Storage (List Block)) (s.record (.get locations)) ∧
      get ops c crypto locations d =
        (liftExcept o : EStateM Exception (StorageAdapter B) (List Block))
          { d with batches := d.batches ++ (c.batches locations).map .get }) ∨
    ∃ e, AbsStorageAdapter.get c crypto locations s = .error e (s.record (.get locations)) ∧
      get ops c crypto locations d = .error e d := by
  rcases forM_checkCapacity (c := c) locations with ⟨hlt, hok⟩ | ⟨e, herror⟩
  · refine Or.inl ⟨hlt, ?_⟩
    obtain ⟨o, ho⟩ : ∃ o : Except Exception (List Block), ∀ {σ : Type},
        (decodeRaws c crypto (locations.map s.blocks) : EStateM Exception σ (List Block)) =
          liftExcept o := decodeRaws_eq _
    have hraws := AbsStorageAdapter.flatMap_batches c locations s.blocks
    refine ⟨o, ?_, ?_⟩
    · refine (bind_of_ok (hok _) _).trans ?_
      exact (congrArg (fun raws => decodeRaws c crypto raws _) hraws).trans (congrFun ho _)
    -- The backend is asked for the same bytes.
    · refine (bind_of_ok (hok d) _).trans ?_
      have hraws' : locations.map (fun location => ops.getInternal location [] d.backend) =
          locations.map s.blocks :=
        List.map_congr_left fun location hmem => h.raw location (hlt location hmem)
      have hreceived := received_eq (c := c) ops locations d.backend d.batches
      rw [hraws'] at hreceived
      exact (congrArg (fun received : List Bytes × List Batch =>
        (decodeRaws c crypto received.1 : EStateM Exception (StorageAdapter B) _)
          { d with batches := received.2 }) hreceived).trans (congrFun ho _)
  · exact Or.inr ⟨e, bind_of_error (herror _) _, bind_of_error (herror d) _⟩

/-- The raw writes of a `set` each fill a location. -/
theorem sizedWrites_of_encodeRequests (hcrypto : crypto.Lawful) {requests : List (ℕ × Bucket)}
    {r r' : Random} {requests' : List (ℕ × Bucket)} {writes : List (ℕ × Bytes)}
    (h : AbsStorageAdapter.encodeRequests c crypto requests r = (requests', r', .ok writes)) :
    SizedWrites c writes := by
  induction requests generalizing r requests' r' writes with
  | nil =>
    obtain rfl : writes = [] := by
      rw [AbsStorageAdapter.encodeRequests, Prod.mk.injEq, Prod.mk.injEq] at h
      exact (Except.ok.inj h.2.2).symm
    exact fun write hwrite => absurd hwrite List.not_mem_nil
  | cons request rest ih =>
    obtain ⟨location, blocks⟩ := request
    rw [AbsStorageAdapter.encodeRequests] at h
    by_cases hcap : c.capacity ≤ location
    · rw [if_pos hcap] at h
      cases h
    rw [if_neg hcap] at h
    by_cases hZ : blocks.length ≠ c.Z
    · rw [if_pos hZ] at h
      cases h
    rw [if_neg hZ] at h
    rcases AbsStorageAdapter.encodeBlocks_spec (c := c) blocks [] with
      ⟨hfits, heq⟩ | ⟨blocks', e, heq, -⟩
    · rw [List.nil_append] at heq
      -- The plaintext has `Z` blocks of one length, and the IV goes in front.
      have hlen := AbsStorageAdapter.length_flatMap_blockBytes hfits
      rw [not_not.mp hZ, Nat.mul_comm, Nat.add_comm AES_BLOCK_SIZE] at hlen
      have hiv : ((r.getRandomBlock AES_BLOCK_SIZE).1).length = AES_BLOCK_SIZE :=
        Random.length_getRandomBlock _ _
      have hpos : 0 < c.userBlockSize + AES_BLOCK_SIZE := by
        unfold AES_BLOCK_SIZE
        omega
      obtain ⟨encrypted, hencrypt, hlength, -⟩ := Crypto.decrypt_encrypt hcrypto c.key_size hiv
        (by rw [hlen]; exact (Nat.mul_pos hpos c.Z_pos).ne')
        (by rw [hlen]; exact (Nat.dvd_add c.dvd_userBlockSize (dvd_refl _)).mul_right _)
      simp only [heq, hencrypt] at h
      cases hrest : AbsStorageAdapter.encodeRequests c crypto rest
        (r.getRandomBlock AES_BLOCK_SIZE).2 with
      | mk rest' left =>
        obtain ⟨r'', result⟩ := left
        rw [hrest, Prod.mk.injEq, Prod.mk.injEq] at h
        cases result with
        | error e => exact absurd h.2.2 (by intro h; cases h)
        | ok writes' =>
          obtain rfl := Except.ok.inj h.2.2
          refine List.forall_mem_cons.mpr ⟨⟨not_le.mp hcap, ?_⟩, ih hrest⟩
          rw [List.length_append, hiv, hlength, hlen]
          exact Nat.add_comm _ _
    · simp only [heq] at h
      cases h

/-- **`set` over a backend ends as `set` over the raw array does**, with the range padded
alike and the backend holding the raw array that is left. -/
theorem set_refines (hcrypto : crypto.Lawful) (hops : ops.Lawful c Inv) {d : StorageAdapter B}
    {s : Storage} (h : Represents ops c Inv d.backend s.blocks)
    (requests : List (ℕ × Bucket)) :
    (set ops c crypto requests d).result =
      (AbsStorageAdapter.set c crypto requests s d.random).result ∧
    (set ops c crypto requests d).requests =
      (AbsStorageAdapter.set c crypto requests s d.random).requests ∧
    (set ops c crypto requests d).adapter.random =
      (AbsStorageAdapter.set c crypto requests s d.random).random ∧
    Represents ops c Inv (set ops c crypto requests d).adapter.backend
      (AbsStorageAdapter.set c crypto requests s d.random).storage.blocks := by
  unfold set AbsStorageAdapter.set
  rcases hencode : AbsStorageAdapter.encodeRequests c crypto requests d.random with
    ⟨requests', r, e | writes⟩
  -- encoding failed: nothing was written
  · exact ⟨rfl, rfl, rfl, h⟩
  -- every encoded bucket fills its location exactly
  · have hwrites := sizedWrites_of_encodeRequests hcrypto hencode
    simp only [left_eq, AbsStorageAdapter.foldl_updateAll, AbsStorageAdapter.flatten_batches]
    exact ⟨trivial, trivial, trivial, h.setInternal hops hwrites⟩

end Refinement

end StorageAdapter

/-! ### The array of buckets -/

/-- What a storage adapter is for: an array of buckets. -/
abbrev BucketArray := ℕ → Bucket

/-- A batch request to a storage adapter. -/
inductive StorageRequest where
  | get (locations : List ℕ)
  | set (requests : List (ℕ × Bucket))

namespace StorageRequest

variable (c : StorageConfig)

/-- A request that no check rejects, with 64-bit IDs. -/
def Valid : StorageRequest → Prop
  | get locations => ∀ location ∈ locations, location < c.capacity
  | set requests => ∀ request ∈ requests, AbsStorageAdapter.Accepts c request ∧
      ∀ block ∈ request.2, block.1 < 2 ^ 64

/-- The effect on the array: the buckets are written in order, padded. -/
def apply : StorageRequest → BucketArray → BucketArray
  | get _, a => a
  | set requests, a =>
    updateAll (requests.map (fun q => (q.1, AbsStorageAdapter.padded c q.2))) a

/-- The blocks a request returns: the buckets at the locations, in the order asked. -/
def answer : StorageRequest → BucketArray → List Block
  | get locations, a => locations.flatMap a
  | set _, _ => []

/-- The outcomes of requests that are made one after the other. -/
def answers : BucketArray → List StorageRequest → List (Except Exception (List Block))
  | _, [] => []
  | a, q :: qs => .ok (q.answer a) :: answers (q.apply c a) qs

/-- The batches hold each part of a request once and in order, and none is larger than
the limit. -/
def Receives (crypto : Crypto) (q : StorageRequest) (batches : List Batch) : Prop :=
  match q with
  | get locations => ∃ parts : List (List ℕ), batches = parts.map .get ∧ parts.flatten = locations ∧
      (c.batchLimit ≠ 0 → ∀ part ∈ parts, part.length ≤ c.batchLimit)
  | set requests => ∃ parts : List (List (ℕ × Bytes)), batches = parts.map .set ∧
      List.Forall₂ (AbsStorageAdapter.WriteOf c crypto) requests parts.flatten ∧
      (c.batchLimit ≠ 0 → ∀ part ∈ parts, part.length ≤ c.batchLimit)

end StorageRequest

/-- The array after the constructor: `Z` empty blocks with zero payloads everywhere. -/
def StorageConfig.emptyArray (c : StorageConfig) : BucketArray :=
  fun _ => List.replicate c.Z (AbsStorageAdapter.emptyBlock c)

namespace StorageAdapter

section Array

variable {B : Type} (ops : Backend B) (c : StorageConfig) (crypto : Crypto)

/-- Make a request. -/
def exec (q : StorageRequest) : EStateM Exception (StorageAdapter B) (List Block) :=
  match q with
  | .get locations => get ops c crypto locations
  | .set requests => fun d =>
    match (set ops c crypto requests d).result with
    | .ok () => .ok [] (set ops c crypto requests d).adapter
    | .error e => .error e (set ops c crypto requests d).adapter

/-- The raw bytes of every location decode to the bucket of the array. -/
structure Stores (Inv : B → Prop) (b : B) (a : BucketArray) : Prop where
  inv : Inv b
  decodes : ∀ location < c.capacity,
    AbsStorageAdapter.decodeBucket c crypto (ops.getInternal location [] b) = .ok (a location)

/-- An adapter that was constructed and, from then on, answers every run of valid requests
as an array of buckets does, handing them to its backend in batches. -/
def Serves (made : SetResult B) : Prop :=
  made.result = .ok () ∧
    ∀ requests : List StorageRequest, (∀ q ∈ requests, q.Valid c) →
      (runCatching (exec ops c crypto) requests made.adapter).1 =
        StorageRequest.answers c c.emptyArray requests ∧
      ∃ batches, (runCatching (exec ops c crypto) requests made.adapter).2.batches =
          made.adapter.batches ++ batches.flatten ∧
        List.Forall₂ (StorageRequest.Receives c crypto) requests batches

variable {ops c crypto} {Inv : B → Prop} {a : BucketArray}

/-- The raw array of a backend. -/
theorem Represents.of_inv {b : B} (h : Inv b) :
    Represents ops c Inv b (fun location => ops.getInternal location [] b) := ⟨h, fun _ _ => rfl⟩

/-- **A `get` reads the array.** -/
theorem get_reads {d : StorageAdapter B} (hd : Stores ops c crypto Inv d.backend a)
    {locations : List ℕ} (hlt : ∀ location ∈ locations, location < c.capacity) :
    get ops c crypto locations d = .ok (locations.flatMap a)
      { d with batches := d.batches ++ (c.batches locations).map .get } := by
  refine (bind_of_ok (AbsStorageAdapter.forM_checkCapacity_of_lt hlt d) _).trans ?_
  exact (congrArg (fun received : List Bytes × List Batch =>
    (decodeRaws c crypto received.1 : EStateM Exception (StorageAdapter B) _)
      { d with batches := received.2 }) (received_eq (c := c) ops locations d.backend d.batches)).trans
    (decodeRaws_of_decodes (fun location hmem => hd.decodes location (hlt location hmem)) _)

/-- **A `set` writes the array**, whatever the locations held before. -/
theorem set_writes (hcrypto : crypto.Lawful) (hops : ops.Lawful c Inv) {d : StorageAdapter B}
    (hd : Inv d.backend) {requests : List (ℕ × Bucket)}
    (hvalid : (StorageRequest.set requests).Valid c) :
    (set ops c crypto requests d).result = .ok () ∧
    Inv (set ops c crypto requests d).adapter.backend ∧
    (∀ location < c.capacity, AbsStorageAdapter.decodeBucket c crypto
        (ops.getInternal location [] (set ops c crypto requests d).adapter.backend) =
      updateAll (requests.map (fun q => (q.1, .ok (AbsStorageAdapter.padded c q.2))))
        (fun location => AbsStorageAdapter.decodeBucket c crypto
          (ops.getInternal location [] d.backend)) location) ∧
    ∃ batches, (set ops c crypto requests d).adapter.batches = d.batches ++ batches ∧
      (StorageRequest.set requests).Receives c crypto batches := by
  have hrep : Represents ops c Inv d.backend
    (fun location => ops.getInternal location [] d.backend) := .of_inv hd
  obtain ⟨requests', r, result, hencode, -, -, hresult⟩ :=
    AbsStorageAdapter.encodeRequests_spec (c := c) hcrypto requests
      (fun q hq => (hvalid q hq).2) d.random
  rcases hresult with ⟨writes, rfl, -, hwrites⟩ | ⟨e, -, request, hmem, hreject⟩
  · have hrep' := hrep.setInternal hops (sizedWrites_of_encodeRequests hcrypto hencode)
    unfold set
    simp only [hencode, left_eq]
    refine ⟨trivial, hrep'.inv, fun location hlocation => ?_,
      (c.batches writes).map .set, rfl, c.batches writes, rfl, ?_, ?_⟩
    -- Each raw write decodes to the bucket of its request.
    · rw [hrep'.raw location hlocation]
      exact map_updateAll (g := AbsStorageAdapter.decodeBucket c crypto)
        (f := fun bucket => Except.ok (AbsStorageAdapter.padded c bucket)) hwrites _ location
    · rw [AbsStorageAdapter.flatten_batches]
      exact hwrites
    · exact fun hlimit part hpart => length_le_of_mem_batches hlimit hpart
  -- No check rejects a valid request.
  · obtain ⟨hcap, hZ, hfits⟩ := (hvalid request hmem).1
    rcases hreject with ⟨hcap', -⟩ | ⟨hZ', -⟩ | ⟨block, hblock, hlong, -⟩
    · exact absurd hcap (not_lt.mpr hcap')
    · exact absurd hZ hZ'
    · exact absurd (hfits block hblock) (not_le.mpr hlong)

/-- **One request** is answered from the array and leaves the array it should. -/
theorem exec_spec (hcrypto : crypto.Lawful) (hops : ops.Lawful c Inv) {d : StorageAdapter B}
    (hd : Stores ops c crypto Inv d.backend a) {q : StorageRequest} (hvalid : q.Valid c) :
    ∃ d' batches, exec ops c crypto q d = .ok (q.answer a) d' ∧
      Stores ops c crypto Inv d'.backend (q.apply c a) ∧
      d'.batches = d.batches ++ batches ∧ q.Receives c crypto batches := by
  cases q with
  | get locations =>
    refine ⟨_, (c.batches locations).map .get, get_reads hd hvalid, ⟨hd.inv, hd.decodes⟩, rfl,
      c.batches locations, rfl, AbsStorageAdapter.flatten_batches c locations, ?_⟩
    exact fun hlimit part hpart => length_le_of_mem_batches hlimit hpart
  | set requests =>
    obtain ⟨hok, hinv, hdecodes, batches, hbatches, hreceives⟩ :=
      set_writes hcrypto hops hd.inv hvalid
    refine ⟨(set ops c crypto requests d).adapter, batches, ?_, ⟨hinv, ?_⟩, hbatches, hreceives⟩
    · change (match (set ops c crypto requests d).result with
        | .ok () => EStateM.Result.ok [] (set ops c crypto requests d).adapter
        | .error e => .error e (set ops c crypto requests d).adapter) = _
      rw [hok]
      rfl
    -- The buckets written, and the others, decode as the array says.
    · intro location hlocation
      have hwritten := map_updateAll (f := Except.ok) (g := Except.ok (ε := Exception))
        (List.forall₂_same.mpr fun e (_ : e ∈ requests.map
          (fun q => (q.1, AbsStorageAdapter.padded c q.2))) => ⟨rfl, rfl⟩) a location
      rw [List.map_map] at hwritten
      refine (hdecodes location hlocation).trans (Eq.trans ?_ hwritten.symm)
      exact updateAll_congr (hd.decodes location hlocation) _

/-- **A run of requests** is answered from the array. -/
theorem run_spec (hcrypto : crypto.Lawful) (hops : ops.Lawful c Inv)
    {requests : List StorageRequest} (hvalid : ∀ q ∈ requests, q.Valid c)
    {d : StorageAdapter B} (hd : Stores ops c crypto Inv d.backend a) :
    (runCatching (exec ops c crypto) requests d).1 = StorageRequest.answers c a requests ∧
    ∃ batches, (runCatching (exec ops c crypto) requests d).2.batches =
        d.batches ++ batches.flatten ∧
      List.Forall₂ (StorageRequest.Receives c crypto) requests batches := by
  -- on the requests: one valid request keeps the two storages in step
  induction requests generalizing d a with
  | nil => exact ⟨rfl, [], (List.append_nil _).symm, .nil⟩
  | cons q requests ih =>
    obtain ⟨d', batch, hexec, hd', hbatch, hreceives⟩ :=
      exec_spec hcrypto hops hd (hvalid q List.mem_cons_self)
    obtain ⟨hanswers, batches, hbatches, hrest⟩ :=
      ih (fun q hq => hvalid q (List.mem_cons_of_mem _ hq)) hd'
    rw [runCatching_cons_ok hexec]
    refine ⟨congrArg (.ok (q.answer a) :: ·) hanswers, batch :: batches, ?_,
      .cons hreceives hrest⟩
    rw [hbatches, hbatch, List.flatten_cons, List.append_assoc]

/-- The requests that fill a storage. -/
theorem valid_zeroes : (StorageRequest.set ((List.range c.capacity).map
    (fun i => (i, List.replicate c.Z ((ULONG_MAX, []) : Block))))).Valid c := by
  intro request hrequest
  obtain ⟨i, hi, rfl⟩ := List.mem_map.mp hrequest
  -- the zero buckets of the constructor hold dummies without a payload
  have hempty : ∀ block ∈ List.replicate c.Z ((ULONG_MAX, []) : Block),
      block = (ULONG_MAX, []) := fun block h => List.eq_of_mem_replicate h
  refine ⟨⟨List.mem_range.mp hi, List.length_replicate, fun block hblock => ?_⟩,
    fun block hblock => ?_⟩
  · rw [hempty block hblock]
    exact Nat.zero_le _
  · rw [hempty block hblock]
    decide

/-- **A backend that was filled** stores the empty array, whatever it held before. -/
theorem stores_fillWithZeroes (hcrypto : crypto.Lawful) (hops : ops.Lawful c Inv)
    {d : StorageAdapter B} (hd : Inv d.backend) :
    (fillWithZeroes ops c crypto d).result = .ok () ∧
      Stores ops c crypto Inv (fillWithZeroes ops c crypto d).adapter.backend c.emptyArray := by
  have hkeys : ((List.range c.capacity).map
      (fun i => (i, List.replicate c.Z ((ULONG_MAX, []) : Block)))).map Prod.fst =
        List.range c.capacity := by
    rw [List.map_map]
    exact List.map_id _
  obtain ⟨hok, hinv, hdecodes, -⟩ := set_writes hcrypto hops hd valid_zeroes
  refine ⟨hok, hinv, fun location hlocation => ?_⟩
  -- Each location is written once, and its empty blocks are padded.
  refine (hdecodes location hlocation).trans (updateAll_of_mem ?_ ?_ _)
  · rw [List.map_map]
    exact (congrArg List.Nodup hkeys).mpr List.nodup_range
  · rw [List.map_map]
    refine List.mem_map.mpr ⟨location, List.mem_range.mpr hlocation, ?_⟩
    simp [AbsStorageAdapter.padded, StorageConfig.emptyArray, AbsStorageAdapter.emptyBlock]

/-- **A backend that was filled serves requests.** -/
theorem serves_fillWithZeroes (hcrypto : crypto.Lawful) (hops : ops.Lawful c Inv)
    {d : StorageAdapter B} (hd : Inv d.backend) :
    Serves ops c crypto (fillWithZeroes ops c crypto d) := by
  obtain ⟨hok, hstores⟩ := stores_fillWithZeroes hcrypto hops hd
  exact ⟨hok, fun requests hrequests => run_spec hcrypto hops hrequests hstores⟩

end Array

end StorageAdapter

/-! ### The two backends -/

section Backends

variable {c : StorageConfig} {crypto : Crypto}

theorem InMemoryStorageAdapter.allocate_spec (n : ℕ) (r : Random) :
    (allocate c n r).1.length = n ∧ ∀ block ∈ (allocate c n r).1, block.length = c.blockSize := by
  induction n generalizing r with
  | zero => exact ⟨rfl, fun block h => absurd h List.not_mem_nil⟩
  | succ n ih =>
    obtain ⟨hlength, hblocks⟩ := ih (r.getRandomBlock c.blockSize).2
    exact ⟨congrArg (· + 1) hlength,
      List.forall_mem_cons.mpr ⟨Random.length_getRandomBlock c.blockSize r, hblocks⟩⟩

/-- **Encrypted bucket storage behaves as an array of buckets**, over memory and over a
file that is overwritten. Every run of valid batch requests is answered from the array,
where later writes win and nothing else changes, and the backend is handed each request
once, in order, in batches within the limit. -/
theorem StorageAdapter.array_of_buckets (hcrypto : crypto.Lawful) (r : Random) (file : Bytes) :
    StorageAdapter.Serves (InMemoryStorageAdapter.backend c) c crypto
      (InMemoryStorageAdapter.new c crypto r) ∧
    StorageAdapter.Serves (FileSystemStorageAdapter.backend c) c crypto
      (FileSystemStorageAdapter.new c crypto file true r) := by
  refine ⟨StorageAdapter.serves_fillWithZeroes hcrypto (InMemoryStorageAdapter.lawful c)
    (InMemoryStorageAdapter.allocate_spec c.capacity r),
    StorageAdapter.serves_fillWithZeroes hcrypto (FileSystemStorageAdapter.lawful c) ?_⟩
  -- The placeholder is written once for each location.
  change (List.replicate c.capacity (r.getRandomBlock c.blockSize).1).flatten.length = _
  rw [List.length_flatten, List.map_replicate, Random.length_getRandomBlock]
  exact List.sum_replicate_nat

/-- Three locations of two blocks, at most two in a batch. -/
def StorageConfig.small : StorageConfig where
  key := List.replicate 32 1
  Z := 2
  batchLimit := 2
  capacity := 3
  userBlockSize := 48
  key_size := rfl
  le_userBlockSize := by decide
  dvd_userBlockSize := ⟨3, rfl⟩
  Z_pos := Nat.two_pos

/-- No encryption. -/
def Crypto.none : Crypto :=
  ⟨⟨fun _ _ input => input, fun _ _ input => input, fun _ _ input => input⟩, .NONE⟩

theorem StorageAdapter.array_of_buckets_small :
    StorageAdapter.Serves (InMemoryStorageAdapter.backend .small) .small .none
      (InMemoryStorageAdapter.new .small .none
        ⟨Stream'.const 0, Stream'.const 0, Stream'.const 0, Stream'.const 0⟩) ∧
    StorageAdapter.Serves (FileSystemStorageAdapter.backend .small) .small .none
      (FileSystemStorageAdapter.new .small .none [] true
        ⟨Stream'.const 0, Stream'.const 0, Stream'.const 0, Stream'.const 0⟩) :=
  StorageAdapter.array_of_buckets (fun h => absurd rfl h) _ []

end Backends

end PathORAM
