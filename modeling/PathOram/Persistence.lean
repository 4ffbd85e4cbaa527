import PathOram.Backends
import PathOram.Lib.Decimal
import PathOram.Lib.Returns

/-!
# What a storage keeps between its adapters

A file or a Redis database outlives the adapter that was constructed over it. With `override` the
constructor empties it, without `override` it takes over what is there. An adapter of a database
asks its host for the numbers of the locations and for nothing else, so all the adapters with
one host share one array.

* `Medium` — what is kept, and the adapters over it.
* `FileSystemStorageAdapter.file_outlives_adapters` — a history of adapters over one file, each
  constructed when the one before it has been destroyed, is answered from one array of buckets.
* `RedisStorageAdapter.adapters_share_host` — so is a history of any number of adapters of one
  host, whichever of them makes a request.
-/

namespace PathORAM

open Hoare

/-! ### Histories -/

/-- What is kept, and what an adapter does that is constructed over it. -/
structure Medium (ε D : Type) where
  /-- The constructor: `override`, and the random numbers that the adapter draws. -/
  new : Bool → Random → D → StorageAdapter D × Except ε Unit
  exec : StorageRequest → EStateM ε (StorageAdapter D) (List Block)

/-- What happens to a medium. A request is made through one of the adapters that have been
constructed, and it draws the random numbers of that one. -/
inductive MediumEvent where
  | construct (override : Bool) (r : Random)
  | request (q : StorageRequest) (r : Random)

namespace Medium

variable {ε D : Type}

/-- One event. -/
def step (m : Medium ε D) : MediumEvent → EStateM ε D (List Block)
  | .construct override r => fun d =>
    match m.new override r d with
    | (adapter, .ok ()) => .ok [] adapter.backend
    | (adapter, .error e) => .error e adapter.backend
  | .request q r => fun d =>
    match m.exec q ⟨d, r, []⟩ with
    | .ok blocks adapter => .ok blocks adapter.backend
    | .error e adapter => .error e adapter.backend

end Medium

namespace MediumEvent

variable (c : StorageConfig)

/-- The effect on the array of buckets. -/
def apply : MediumEvent → BucketArray → BucketArray
  | construct override _, a => if override then c.emptyArray else a
  | request q _, a => q.apply c a

def answer : MediumEvent → BucketArray → List Block
  | construct _ _, _ => []
  | request q _, a => q.answer a

/-- The requests are those that no check rejects. -/
def Valid (P : StorageRequest → Prop) : MediumEvent → Prop
  | construct _ _ => True
  | request q _ => P q

end MediumEvent

/-- A medium of which `I` says which array of buckets it holds. -/
structure Medium.Keeps {ε D : Type} (m : Medium ε D) (c : StorageConfig)
    (P : StorageRequest → Prop) (I : BucketArray → D → Prop) : Prop where
  overriding : ∀ r d, ∃ adapter, m.new true r d = (adapter, .ok ()) ∧
    I c.emptyArray adapter.backend
  reopening : ∀ r d, ∃ adapter, m.new false r d = (adapter, .ok ()) ∧ adapter.backend = d
  requests : ∀ q r a d, P q → I a d → ∃ adapter, m.exec q ⟨d, r, []⟩ = .ok (q.answer a) adapter ∧
    I (q.apply c a) adapter.backend

namespace Medium.Keeps

variable {ε D : Type} {m : Medium ε D} {c : StorageConfig} {P : StorageRequest → Prop}
  {I : BucketArray → D → Prop}

theorem step (h : m.Keeps c P I) {e : MediumEvent} {a : BucketArray} {d : D} (he : e.Valid P)
    (hI : I a d) : ∃ d', m.step e d = .ok (e.answer a) d' ∧ I (e.apply c a) d' := by
  cases e with
  | construct override r =>
    cases override with
    -- the adapter writes all buckets, and what the medium held is gone
    | true =>
      obtain ⟨adapter, hnew, hI'⟩ := h.overriding r d
      refine ⟨adapter.backend, ?_, hI'⟩
      unfold Medium.step
      simp only [hnew]
      rfl
    -- the medium is taken as it is
    | false =>
      obtain ⟨adapter, hnew, hsame⟩ := h.reopening r d
      refine ⟨adapter.backend, ?_, ?_⟩
      · unfold Medium.step
        simp only [hnew]
        rfl
      · rw [hsame]
        exact hI
  | request q r =>
    obtain ⟨adapter, hexec, hI'⟩ := h.requests q r a d he hI
    refine ⟨adapter.backend, ?_, hI'⟩
    unfold Medium.step
    simp only [hexec]
    rfl

/-- **A history that begins with an empty array** is answered from it, whatever the medium held
before. -/
theorem history_eq (h : m.Keeps c P I) (r : Random) (d : D) {events : List MediumEvent}
    (hevents : ∀ e ∈ events, e.Valid P) (a : BucketArray) :
    (runCatching m.step (.construct true r :: events) d).1 =
      served MediumEvent.answer (MediumEvent.apply c) (.construct true r :: events) a := by
  obtain ⟨adapter, hnew, hI⟩ := h.overriding r d
  -- the first adapter overrides, so the array before it plays no part
  have hfirst : m.step (.construct true r) d = .ok [] adapter.backend := by
    unfold Medium.step
    simp only [hnew]
  have hstep : ∀ (e : MediumEvent) (a : BucketArray) (d : D), e.Valid P → I a d →
      ∃ d', m.step e d = .ok (e.answer a) d' ∧ I (e.apply c a) d' := fun e a d he hI => h.step he hI
  have hrest : (runCatching m.step events adapter.backend).1 =
      served MediumEvent.answer (MediumEvent.apply c) events c.emptyArray :=
    runCatching_served hstep hevents hI
  rw [runCatching_cons_ok hfirst, hrest]
  rfl

end Medium.Keeps

/-! ### A file -/

section File

variable (c : StorageConfig) (crypto : Crypto)

/-- A file, and an adapter that has opened it. The destructor of the one before it has closed it. -/
def FileSystemStorageAdapter.medium : Medium Exception FileSystemStorageAdapter where
  new override r d :=
    let made := FileSystemStorageAdapter.new c crypto d.file override r
    (made.adapter, made.result)
  exec := StorageAdapter.exec (FileSystemStorageAdapter.backend c) c crypto

variable {c crypto}

theorem FileSystemStorageAdapter.keeps (hcrypto : crypto.Lawful) :
    (FileSystemStorageAdapter.medium c crypto).Keeps c (StorageRequest.Valid c) fun a d =>
      StorageAdapter.Stores (FileSystemStorageAdapter.backend c) c crypto
        (FileSystemStorageAdapter.Sized c) d a where
  overriding r d := by
    let placeholder := (r.getRandomBlock c.blockSize).1
    -- the file has a bucket for each location before it is filled
    have hsized : FileSystemStorageAdapter.Sized c
        ⟨(List.replicate c.capacity placeholder).flatten⟩ := by
      show (List.replicate c.capacity placeholder).flatten.length = _
      rw [List.length_flatten, List.map_replicate, Random.length_getRandomBlock]
      exact List.sum_replicate_nat
    obtain ⟨hok, hstores⟩ := StorageAdapter.stores_fillWithZeroes hcrypto
      (FileSystemStorageAdapter.lawful c)
      (d := ⟨⟨(List.replicate c.capacity placeholder).flatten⟩,
        (r.getRandomBlock c.blockSize).2, []⟩) hsized
    exact ⟨_, Prod.ext rfl hok, hstores⟩
  reopening r d := ⟨_, rfl, rfl⟩
  requests q r a d hvalid hstores := by
    obtain ⟨adapter, batches, hexec, hstores', -⟩ := StorageAdapter.exec_spec
      (d := ⟨d, r, []⟩) hcrypto (FileSystemStorageAdapter.lawful c) hstores hvalid
    exact ⟨adapter, hexec, hstores'⟩

/-- **A file survives its adapters.** A history of adapters, each constructed with or without
`override` when the one before it has been destroyed, is answered from one array of buckets. An
adapter that overrides starts from an empty array, any other from what the file holds. -/
theorem FileSystemStorageAdapter.file_outlives_adapters (hcrypto : crypto.Lawful) (r : Random)
    (d : FileSystemStorageAdapter) {events : List MediumEvent}
    (hevents : ∀ e ∈ events, e.Valid (StorageRequest.Valid c)) (a : BucketArray) :
    (runCatching (FileSystemStorageAdapter.medium c crypto).step
        (.construct true r :: events) d).1 =
      served MediumEvent.answer (MediumEvent.apply c) (.construct true r :: events) a :=
  (FileSystemStorageAdapter.keeps hcrypto).history_eq r d hevents a

/-- A source of zeros. -/
def zeros : Random :=
  ⟨Stream'.const 0, Stream'.const 0, Stream'.const 0, Stream'.const 0⟩

/-- A bucket is written, the storage is opened again, and the bucket is read twice. -/
def reopened : List MediumEvent :=
  [.request (.set [(1, [(7, [5]), (8, [])])]) zeros, .construct false zeros,
    .request (.get [1, 1]) zeros]

theorem reopened_valid : ∀ e ∈ reopened, e.Valid (StorageRequest.Valid .small) := by
  intro e he
  simp only [reopened, List.mem_cons, List.not_mem_nil, or_false] at he
  rcases he with rfl | rfl | rfl
  · intro request hrequest
    rw [List.mem_singleton.mp hrequest]
    exact ⟨⟨by decide, rfl, by decide⟩, by decide⟩
  · trivial
  · show ∀ location ∈ [1, 1], location < 3
    decide

theorem FileSystemStorageAdapter.file_outlives_adapters_small :
    (runCatching (FileSystemStorageAdapter.medium .small .none).step
        (.construct true zeros :: reopened) ⟨[]⟩).1 =
      served MediumEvent.answer (MediumEvent.apply .small)
        (.construct true zeros :: reopened) StorageConfig.small.emptyArray :=
  FileSystemStorageAdapter.file_outlives_adapters (fun h => absurd rfl h) _ ⟨[]⟩ reopened_valid _

end File

/-! ### Redis -/

/-- The commands of the Redis client, over the state `D` of a database. A command without a key
is refused. -/
structure Redis (D : Type) where
  get : List Char → D → Option Bytes
  set : List Char → Bytes → D → D
  mget : List (List Char) → D → Option (List (Option Bytes))
  mset : List (List Char × Bytes) → D → Option D
  flushdb : D → D

/-- What the documentation says about the commands. -/
structure Redis.Lawful {D : Type} (redis : Redis D) : Prop where
  get_set : ∀ key value d other,
    redis.get other (redis.set key value d) = if other = key then some value else redis.get other d
  mget_eq : ∀ keys d, keys ≠ [] → redis.mget keys d = some (keys.map fun key => redis.get key d)
  mset_eq : ∀ pairs d, pairs ≠ [] →
    redis.mset pairs d = some (pairs.foldl (fun d pair => redis.set pair.1 pair.2 d) d)

namespace RedisStorageAdapter

/-- What the adapter throws: its own exceptions, `bad_optional_access` for a key that is not
there, and the errors of the client. -/
inductive Thrown where
  | exception (e : Exception)
  | badOptionalAccess
  | error

/-- `std::to_string`. -/
def toString (location : ℕ) : List Char := Decimal.print location

/-- `std::optional::value`. -/
def value : Option Bytes → Except Thrown Bytes
  | some raw => .ok raw
  | none => .error .badOptionalAccess

section Code

variable {D : Type} (redis : Redis D) (c : StorageConfig) (crypto : Crypto)

/-- `getInternal` for one location. -/
def getInternal (location : ℕ) (response : Bytes) (d : D) : Except Thrown Bytes := do
  let rawStr ← value (redis.get (toString location) d)
  pure (rawStr ++ response)

/-- `getInternal` for a batch. -/
def getInternalBatch (locations : List ℕ) (response : List Bytes) (d : D) :
    Except Thrown (List Bytes) := do
  match redis.mget (locations.map toString) d with
  | none => .error .error
  | some returned =>
    let raws ← returned.mapM value
    pure (response ++ raws)

/-- `setInternal` for one location. -/
def setInternal (location : ℕ) (raw : Bytes) (d : D) : D := redis.set (toString location) raw d

/-- `setInternal` for a batch, after the batches before it. -/
def setInternalBatch (writes : List (ℕ × Bytes)) (s : D × Except Thrown Unit) :
    D × Except Thrown Unit :=
  match s.2 with
  | .error _ => s
  | .ok () =>
    match redis.mset (writes.map fun write => (toString write.1, write.2)) s.1 with
    | none => (s.1, .error .error)
    | some d => (d, .ok ())

/-- `AbsStorageAdapter::get` for a batch of locations. -/
def get (locations : List ℕ) : EStateM Thrown (StorageAdapter D) (List Block) := do
  EStateM.adaptExcept .exception (locations.forM (AbsStorageAdapter.checkCapacity c))
  let adapter ← MonadState.get
  let received : Except Thrown (List Bytes) := StorageAdapter.handOver c locations
    (fun location s => do
      let s ← s
      let raw ← getInternal redis location [] adapter.backend
      pure (s ++ [raw]))
    (fun batch s => do
      let s ← s
      getInternalBatch redis batch s adapter.backend)
    (.ok [])
  let raws ← liftExcept received
  EStateM.adaptExcept .exception (StorageAdapter.decodeRaws c crypto raws)

/-- `AbsStorageAdapter::set` for a range of requests. -/
def set (requests : List (ℕ × Bucket)) (adapter : StorageAdapter D) :
    StorageAdapter D × Except Thrown Unit :=
  match AbsStorageAdapter.encodeRequests c crypto requests adapter.random with
  | (_, r, .error e) => ({ adapter with random := r }, .error (.exception e))
  | (_, r, .ok writes) =>
    let left : D × Except Thrown Unit := StorageAdapter.handOver c writes
      (fun write s =>
        match s.2 with
        | .error _ => s
        | .ok () => (setInternal redis write.1 write.2 s.1, .ok ()))
      (setInternalBatch redis) (adapter.backend, .ok ())
    ({ adapter with backend := left.1, random := r }, left.2)

/-- The constructor, for a host that answers. -/
def new (override : Bool) (r : Random) (d : D) : StorageAdapter D × Except Thrown Unit :=
  if override then
    set redis c crypto ((List.range c.capacity).map
      (fun i => (i, List.replicate c.Z (ULONG_MAX, [])))) ⟨redis.flushdb d, r, []⟩
  else (⟨d, r, []⟩, .ok ())

/-- A database, and the adapters of it. -/
def medium : Medium Thrown D where
  new := new redis c crypto
  exec
    | .get locations => get redis c crypto locations
    | .set requests => fun adapter =>
      match set redis c crypto requests adapter with
      | (adapter, .ok ()) => .ok [] adapter
      | (adapter, .error e) => .error e adapter

/-- The commands for one location. A location that the database does not know gives no bytes here,
where the adapter throws. -/
def backend (redis : Redis D) : Backend D where
  getInternal location response d := (redis.get (toString location) d).getD [] ++ response
  setInternal location raw d := redis.set (toString location) raw d

end Code

/-! ### The adapter over a database -/

section Database

variable {D : Type} {redis : Redis D} {c : StorageConfig} {crypto : Crypto} {d : D}
  {a : BucketArray} {locations : List ℕ} {requests : List (ℕ × Bucket)}

/-- The database holds the raw bytes of the buckets. -/
abbrev Holds (redis : Redis D) (c : StorageConfig) (crypto : Crypto) (d : D) (a : BucketArray) :
    Prop :=
  StorageAdapter.Stores (backend redis) c crypto (fun _ => True) d a

theorem toString_injective : Function.Injective toString := fun i j h => by
  have hparse := congrArg Decimal.parse h
  unfold toString at hparse
  rw [Decimal.parse_print, Decimal.parse_print] at hparse
  exact Int.natCast_inj.mp (Option.some.inj hparse)

theorem lawful (hredis : redis.Lawful) (c : StorageConfig) :
    (backend redis).Lawful c fun _ => True where
  inv_set _ _ _ _ _ _ := trivial
  get_set d location raw _ _ _ other _ := by
    show (redis.get (toString other) (redis.set (toString location) raw d)).getD [] ++ [] = _
    rw [hredis.get_set, List.append_nil]
    by_cases hsame : other = location
    · rw [hsame, if_pos rfl, Function.update_self]
      rfl
    · rw [if_neg (toString_injective.ne hsame), Function.update_of_ne hsame]
      exact (List.append_nil _).symm

/-- A bucket that decodes is there: no bytes are no bucket. -/
theorem Holds.get_eq (h : Holds redis c crypto d a) {location : ℕ} (hlt : location < c.capacity) :
    redis.get (toString location) d = some ((backend redis).getInternal location [] d) := by
  have hdecodes := h.decodes location hlt
  show _ = some ((redis.get (toString location) d).getD [] ++ [])
  cases hget : redis.get (toString location) d with
  | some raw => rw [Option.getD_some, List.append_nil]
  -- a key that is missing would be read as an empty text, which is not the code of a bucket
  | none =>
    have hraw : (backend redis).getInternal location [] d = [] := by
      show (redis.get (toString location) d).getD [] ++ [] = []
      rw [hget]
      rfl
    rw [hraw] at hdecodes
    unfold AbsStorageAdapter.decodeBucket encrypt at hdecodes
    rw [if_neg (not_not_intro c.key_size), if_pos (Or.inl (by simp))] at hdecodes
    cases hdecodes

theorem Holds.getInternal_eq (h : Holds redis c crypto d a) {location : ℕ}
    (hlt : location < c.capacity) :
    getInternal redis location [] d = .ok ((backend redis).getInternal location [] d) := by
  unfold getInternal
  rw [h.get_eq hlt]
  exact congrArg Except.ok (List.append_nil _)

/-- A batch is its locations, one by one. -/
theorem getInternalBatch_eq (hredis : redis.Lawful) (hne : locations ≠ []) (response : List Bytes)
    (d : D) : getInternalBatch redis locations response d =
      (locations.mapM fun location => getInternal redis location [] d) >>=
        fun raws => pure (response ++ raws) := by
  -- `mget` answers each key as `get` does
  have hvalue : (fun location => getInternal redis location [] d) =
      value ∘ fun location => redis.get (toString location) d := by
    funext location
    unfold getInternal
    simp only [List.append_nil, bind_pure]
    rfl
  unfold getInternalBatch
  rw [hredis.mget_eq _ _ (mt List.map_eq_nil_iff.mp hne), List.map_map, hvalue, ← List.mapM_map]
  rfl

/-- The batches of a `get` are received one behind the other. -/
theorem received_eq (hredis : redis.Lawful) (h : Holds redis c crypto d a)
    (hlt : ∀ location ∈ locations, location < c.capacity) (hne : locations ≠ []) :
    StorageAdapter.handOver c locations
      (fun location (s : Except Thrown (List Bytes)) => do
        let s ← s
        let raw ← getInternal redis location [] d
        pure (s ++ [raw]))
      (fun batch s => do
        let s ← s
        getInternalBatch redis batch s d)
      (.ok []) =
    .ok (locations.map fun location => (backend redis).getInternal location [] d) := by
  refine (StorageAdapter.handOver_eq (fun location s => ?_) locations _).trans ?_
  -- One location by itself is a batch of one.
  · cases s with
    | error e => rfl
    | ok response =>
      show (getInternal redis location [] d >>= _) = getInternalBatch redis [location] response d
      rw [getInternalBatch_eq hredis (List.cons_ne_nil _ _), List.mapM_cons, List.mapM_nil]
      cases getInternal redis location [] d <;> rfl
  -- The fold appends what each batch gives, and the batches together are the locations.
  have hfold : ∀ parts : List (List ℕ), (∀ part ∈ parts, part ≠ [] ∧
      ∀ location ∈ part, location < c.capacity) → ∀ response : List Bytes,
      parts.foldl (fun (s : Except Thrown (List Bytes)) batch => do
        let s ← s
        getInternalBatch redis batch s d) (.ok response) =
      .ok (response ++ parts.flatten.map fun location =>
        (backend redis).getInternal location [] d) := by
    intro parts
    induction parts with
    | nil => exact fun _ response => congrArg Except.ok (List.append_nil _).symm
    | cons part parts ih =>
      intro hparts response
      obtain ⟨hne, hlt⟩ := hparts part List.mem_cons_self
      have hpart : (part.mapM fun location => getInternal redis location [] d) =
          .ok (part.map fun location => (backend redis).getInternal location [] d) :=
        (Returns.mapM fun location hlocation =>
          ⟨_, h.getInternal_eq (hlt location hlocation), rfl⟩).eq_ok
      rw [List.foldl_cons, List.flatten_cons, List.map_append, ← List.append_assoc]
      refine Eq.trans ?_ (ih (fun part hpart => hparts part (List.mem_cons_of_mem _ hpart)) _)
      refine congrArg (fun s => List.foldl _ s parts) ?_
      show getInternalBatch redis part response d = _
      rw [getInternalBatch_eq hredis hne, hpart]
      rfl
  refine (hfold (c.batches locations) (fun part hpart =>
    ⟨StorageAdapter.ne_nil_of_mem_batches hne hpart, fun location hlocation => ?_⟩) []).trans ?_
  · refine hlt location ?_
    rw [← AbsStorageAdapter.flatten_batches c locations]
    exact List.mem_flatten_of_mem hpart hlocation
  · rw [AbsStorageAdapter.flatten_batches]
    rfl

/-- **A `get` of a database reads the array.** -/
theorem get_reads (hredis : redis.Lawful) {adapter : StorageAdapter D}
    (h : Holds redis c crypto adapter.backend a)
    (hlt : ∀ location ∈ locations, location < c.capacity) (hne : locations ≠ []) :
    get redis c crypto locations adapter = .ok (locations.flatMap a) adapter := by
  -- every location is inside the capacity
  have hcheck : EStateM.adaptExcept Thrown.exception
      (locations.forM (AbsStorageAdapter.checkCapacity c)) adapter = .ok () adapter := by
    unfold EStateM.adaptExcept
    rw [AbsStorageAdapter.forM_checkCapacity_of_lt hlt]
  -- and every bucket that comes back is legible
  have hdecode : EStateM.adaptExcept Thrown.exception (StorageAdapter.decodeRaws c crypto
      (locations.map fun location => (backend redis).getInternal location [] adapter.backend))
        adapter = .ok (locations.flatMap a) adapter := by
    unfold EStateM.adaptExcept
    rw [StorageAdapter.decodeRaws_of_decodes fun location hmem =>
      h.decodes location (hlt location hmem)]
  refine (bind_of_ok hcheck _).trans ?_
  refine (congrArg (fun received : Except Thrown (List Bytes) =>
    (liftExcept received >>= fun raws =>
      EStateM.adaptExcept Thrown.exception (StorageAdapter.decodeRaws c crypto raws) :
        EStateM Thrown (StorageAdapter D) (List Block)) adapter)
    (received_eq hredis h hlt hne)).trans ?_
  exact hdecode

/-- The batches of a `set` are written one after the other. -/
theorem left_eq (hredis : redis.Lawful) {writes : List (ℕ × Bytes)} (hne : writes ≠ []) (d : D) :
    StorageAdapter.handOver c writes
      (fun write (s : D × Except Thrown Unit) =>
        match s.2 with
        | .error _ => s
        | .ok () => (setInternal redis write.1 write.2 s.1, .ok ()))
      (setInternalBatch redis) (d, .ok ()) =
    (StorageAdapter.setInternal (backend redis) writes d, .ok ()) := by
  -- `mset` of a batch leaves what its `set`s would leave
  have hbatch : ∀ batch ≠ [], ∀ d, setInternalBatch redis batch (d, .ok ()) =
      (StorageAdapter.setInternal (backend redis) batch d, .ok ()) := by
    intro batch hne d
    unfold setInternalBatch
    dsimp only
    rw [hredis.mset_eq _ _ (mt List.map_eq_nil_iff.mp hne), List.foldl_map]
    rfl
  refine (StorageAdapter.handOver_eq (fun write s => ?_) writes _).trans ?_
  · obtain ⟨d, _ | _⟩ := s
    · rfl
    · exact (hbatch [write] (List.cons_ne_nil _ _) d).symm
  -- so do the batches one after the other
  have hfold : ∀ parts : List (List (ℕ × Bytes)), (∀ part ∈ parts, part ≠ []) → ∀ d,
      parts.foldl (fun s batch => setInternalBatch redis batch s) (d, .ok ()) =
        (StorageAdapter.setInternal (backend redis) parts.flatten d, .ok ()) := by
    intro parts
    induction parts with
    | nil => exact fun _ d => rfl
    | cons part parts ih =>
      intro hparts d
      rw [List.foldl_cons, hbatch part (hparts part List.mem_cons_self),
        ih fun part hpart => hparts part (List.mem_cons_of_mem _ hpart)]
      unfold StorageAdapter.setInternal
      rw [List.flatten_cons, List.foldl_append]
  rw [hfold _ fun part hpart => StorageAdapter.ne_nil_of_mem_batches hne hpart,
    AbsStorageAdapter.flatten_batches]

/-- Every request has its write. -/
theorem writes_ne_nil (hne : requests ≠ []) {r r' : Random} {requests' : List (ℕ × Bucket)}
    {writes : List (ℕ × Bytes)}
    (h : AbsStorageAdapter.encodeRequests c crypto requests r = (requests', r', .ok writes)) :
    writes ≠ [] := by
  obtain ⟨⟨location, blocks⟩, rest, rfl⟩ := List.exists_cons_of_ne_nil hne
  rw [AbsStorageAdapter.encodeRequests] at h
  split at h
  next => cases h
  split at h
  next => cases h
  split at h
  next => cases h
  dsimp only at h
  split at h
  next => cases h
  -- the first request gives the first write
  next encrypted hencrypt =>
    have hwrites := congrArg (fun left => left.2.2) h
    dsimp only at hwrites
    cases hrest : (AbsStorageAdapter.encodeRequests c crypto rest
        (r.getRandomBlock AES_BLOCK_SIZE).2).2.2 with
    | error e =>
      rw [hrest] at hwrites
      cases hwrites
    | ok writes' =>
      rw [hrest] at hwrites
      rw [← Except.ok.inj hwrites]
      exact List.cons_ne_nil _ _

/-- **A `set` of a database** does what it does over the other backends. -/
theorem set_eq (hredis : redis.Lawful) (hne : requests ≠ []) (adapter : StorageAdapter D) :
    set redis c crypto requests adapter =
      let left := StorageAdapter.set (backend redis) c crypto requests adapter
      ({ left.adapter with batches := adapter.batches },
        left.result.mapError Thrown.exception) := by
  unfold set StorageAdapter.set
  rcases hencode : AbsStorageAdapter.encodeRequests c crypto requests adapter.random with
    ⟨requests', r, e | writes⟩
  · rfl
  · simp only [left_eq hredis (writes_ne_nil hne hencode), StorageAdapter.left_eq]
    rfl

/-- A request that names a location. The client refuses a command without one. -/
def Named : StorageRequest → Prop
  | .get locations => locations ≠ []
  | .set requests => requests ≠ []

theorem keeps (hcrypto : crypto.Lawful) (hredis : redis.Lawful) (hcapacity : 0 < c.capacity) :
    (medium redis c crypto).Keeps c (fun q => q.Valid c ∧ Named q)
      fun a d => Holds redis c crypto d a where
  overriding r d := by
    have hne : (List.range c.capacity).map
        (fun i => (i, List.replicate c.Z ((ULONG_MAX, []) : Block))) ≠ [] := by
      rw [Ne, List.map_eq_nil_iff, List.range_eq_nil]
      exact hcapacity.ne'
    -- All the locations are written, so nothing matters that the database held before.
    obtain ⟨hok, hstores⟩ := StorageAdapter.stores_fillWithZeroes hcrypto (lawful hredis c)
      (d := ⟨redis.flushdb d, r, []⟩) trivial
    have hnew := @set_eq D redis c crypto _ hredis hne ⟨redis.flushdb d, r, []⟩
    unfold StorageAdapter.fillWithZeroes at hok hstores
    dsimp only at hnew
    rw [hok] at hnew
    exact ⟨_, hnew, hstores⟩
  reopening r d := ⟨_, rfl, rfl⟩
  requests q r a d hq h := by
    obtain ⟨hvalid, hnamed⟩ := hq
    cases q with
    | get locations => exact ⟨_, get_reads hredis h hvalid hnamed, h⟩
    | set requests =>
      obtain ⟨d', batches, hexec, hstores, -⟩ := StorageAdapter.exec_spec (d := ⟨d, r, []⟩)
        hcrypto (lawful hredis c) h hvalid
      have hok := (StorageAdapter.set_writes (d := ⟨d, r, []⟩) hcrypto (lawful hredis c) trivial
        hvalid).1
      have hset := @set_eq D redis c crypto requests hredis hnamed ⟨d, r, []⟩
      dsimp only at hset
      unfold StorageAdapter.exec at hexec
      dsimp only at hexec
      rw [hok] at hexec hset
      cases hexec
      refine ⟨{ (StorageAdapter.set (backend redis) c crypto requests ⟨d, r, []⟩).adapter with
        batches := [] }, ?_, hstores⟩
      unfold medium
      dsimp only
      rw [hset]
      rfl

/-- **All the adapters of a host share one array.** Any number of adapters of one database may be
constructed, with or without `override`, and make requests in any order: each request is answered
from what the last adapter has left, and `override` empties the array of all of them. -/
theorem adapters_share_host (hcrypto : crypto.Lawful) (hredis : redis.Lawful)
    (hcapacity : 0 < c.capacity) (r : Random) (d : D) {events : List MediumEvent}
    (hevents : ∀ e ∈ events, e.Valid fun q => q.Valid c ∧ Named q) (a : BucketArray) :
    (runCatching (medium redis c crypto).step (.construct true r :: events) d).1 =
      served MediumEvent.answer (MediumEvent.apply c) (.construct true r :: events) a :=
  (keeps hcrypto hredis hcapacity).history_eq r d hevents a

/-- A database in memory. -/
def memory : Redis (List Char → Option Bytes) where
  get key d := d key
  set key value d := fun other => if other = key then some value else d other
  mget keys d := if keys = [] then none else some (keys.map d)
  mset pairs d := if pairs = [] then none else
    some (pairs.foldl (fun d pair other => if other = pair.1 then some pair.2 else d other) d)
  flushdb _ := fun _ => none

theorem memory_lawful : memory.Lawful where
  get_set _ _ _ _ := rfl
  mget_eq _ _ hne := if_neg hne
  mset_eq _ _ hne := if_neg hne

theorem adapters_share_host_small :
    (runCatching (medium memory .small .none).step
        (.construct true zeros :: reopened) fun _ => none).1 =
      served MediumEvent.answer (MediumEvent.apply .small)
        (.construct true zeros :: reopened) StorageConfig.small.emptyArray := by
  refine adapters_share_host (fun h => absurd rfl h) memory_lawful (by decide) _ _
    (fun e he => ?_) _
  have hvalid := reopened_valid e he
  simp only [reopened, List.mem_cons, List.not_mem_nil, or_false] at he
  rcases he with rfl | rfl | rfl
  · exact ⟨hvalid, List.cons_ne_nil _ _⟩
  · trivial
  · exact ⟨hvalid, List.cons_ne_nil _ _⟩

end Database

end RedisStorageAdapter

end PathORAM
