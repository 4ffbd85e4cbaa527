import PathOram.Backends

/-!
# Requests that are rejected

`set` checks its requests one by one in the loop that encrypts them, and writes none before the
loop is over. So an offending request anywhere in the list leaves the storage as it was.

`get` appends to a `response` of its caller. `getInto` has that vector as a part of the state,
which shows what an exception leaves of it; `getInto_appends` is its relation to `get`.

`set_all_or_nothing` says exactly when the two throw, and what they leave.
-/

namespace PathORAM

open Hoare

namespace AbsStorageAdapter

variable {c : StorageConfig} {crypto : Crypto}

/-! ### When `set` throws -/

theorem Accepts.not_rejects {request : ℕ × Bucket} (h : Accepts c request) :
    ¬(c.capacity ≤ request.1 ∨ request.2.length ≠ c.Z ∨
      ∃ block ∈ request.2, c.userBlockSize < block.2.length) := by
  rintro (hcap | hZ | ⟨block, hblock, hlong⟩)
  · exact absurd h.1 (not_lt.mpr hcap)
  · exact hZ h.2.1
  · exact absurd (h.2.2 block hblock) (not_le.mpr hlong)

theorem Rejects.exists_request {requests : List (ℕ × Bucket)} {e : Exception}
    (h : Rejects c requests e) : ∃ request ∈ requests, c.capacity ≤ request.1 ∨
      request.2.length ≠ c.Z ∨ ∃ block ∈ request.2, c.userBlockSize < block.2.length := by
  obtain ⟨request, hmem, ⟨hcap, -⟩ | ⟨hZ, -⟩ | ⟨block, hblock, hlong, -⟩⟩ := h
  · exact ⟨request, hmem, Or.inl hcap⟩
  · exact ⟨request, hmem, Or.inr (Or.inl hZ)⟩
  · exact ⟨request, hmem, Or.inr (Or.inr ⟨block, hblock, hlong⟩)⟩

/-- The bytes of a bucket of the right size can be encrypted, whatever the ciphers do. -/
theorem exists_encrypt_bucket (crypto : Crypto) {blocks : Bucket} (hlength : blocks.length = c.Z)
    (hfits : ∀ block ∈ blocks, block.2.length ≤ c.userBlockSize) {iv : Bytes}
    (hiv : iv.length = AES_BLOCK_SIZE) :
    ∃ encrypted, encrypt crypto c.key iv (blocks.flatMap (blockBytes c)) .ENCRYPT =
      .ok encrypted := by
  have hlen := length_flatMap_blockBytes hfits
  rw [hlength] at hlen
  have hpos : 0 < AES_BLOCK_SIZE + c.userBlockSize := by
    unfold AES_BLOCK_SIZE
    omega
  -- a bucket is a nonempty multiple of the cipher's block size
  refine exists_encrypt crypto .ENCRYPT c.key_size hiv ?_ ?_
  · rw [hlen]
    exact (Nat.mul_pos c.Z_pos hpos).ne'
  · rw [hlen]
    exact (Nat.dvd_add (dvd_refl _) c.dvd_userBlockSize).mul_left _

/-- **The request loop** passes all requests, or names an offending one. -/
theorem encodeRequests_result (crypto : Crypto) (requests : List (ℕ × Bucket)) (r : Random) :
    ((∀ request ∈ requests, Accepts c request) ∧
      ∃ writes, (encodeRequests c crypto requests r).2.2 = .ok writes) ∨
    ∃ e, (encodeRequests c crypto requests r).2.2 = .error e ∧ Rejects c requests e := by
  induction requests generalizing r with
  | nil => exact Or.inl ⟨fun _ h => absurd h List.not_mem_nil, [], rfl⟩
  | cons request rest ih =>
    obtain ⟨location, blocks⟩ := request
    have hself : ((location, blocks) : ℕ × Bucket) ∈ (location, blocks) :: rest :=
      List.mem_cons_self
    rw [encodeRequests]
    by_cases hcap : c.capacity ≤ location
    · rw [if_pos hcap]
      exact Or.inr ⟨_, rfl, _, hself, Or.inl ⟨hcap, rfl⟩⟩
    rw [if_neg hcap]
    by_cases hZ : blocks.length ≠ c.Z
    · rw [if_pos hZ]
      exact Or.inr ⟨_, rfl, _, hself, Or.inr (Or.inl ⟨hZ, rfl⟩)⟩
    rw [if_neg hZ]
    rcases encodeBlocks_spec (c := c) blocks [] with
      ⟨hfits, heq⟩ | ⟨blocks', e, heq, -, block, hblock, hlong, he⟩
    · rw [List.nil_append] at heq
      obtain ⟨encrypted, hencrypt⟩ := exists_encrypt_bucket crypto (not_not.mp hZ)
        hfits (Random.length_getRandomBlock AES_BLOCK_SIZE r)
      simp only [heq, hencrypt]
      -- This request is accepted, and the rest decides.
      rcases ih (r.getRandomBlock AES_BLOCK_SIZE).2 with
        ⟨haccepts, writes, hwrites⟩ | ⟨e, he, hrejects⟩
      · exact Or.inl ⟨List.forall_mem_cons.mpr
          ⟨⟨not_le.mp hcap, not_not.mp hZ, hfits⟩, haccepts⟩, _, by rw [hwrites]; rfl⟩
      · refine Or.inr ⟨e, ?_, hrejects.mono fun q hq => List.mem_cons_of_mem _ hq⟩
        rw [he]
        rfl
    · simp only [heq]
      exact Or.inr ⟨e, rfl, _, hself, Or.inr (Or.inr ⟨block, hblock, hlong, he⟩)⟩

/-- **`set` throws, or all its requests are accepted.** When it throws nothing was written. -/
theorem set_result (crypto : Crypto) (requests : List (ℕ × Bucket)) (s : Storage) (r : Random) :
    ((∀ request ∈ requests, Accepts c request) ∧ (set c crypto requests s r).result = .ok ()) ∨
    ∃ e, (set c crypto requests s r).result = .error e ∧ Rejects c requests e ∧
      (set c crypto requests s r).storage = s.record (.set (requests.map Prod.fst)) := by
  have hresult := encodeRequests_result (c := c) crypto requests r
  unfold set
  generalize encodeRequests c crypto requests r = loop at hresult
  obtain ⟨requests', r', result⟩ := loop
  -- either every bucket is encoded before the first is written, or nothing is written
  rcases hresult with ⟨haccepts, writes, rfl⟩ | ⟨e, rfl, hrejects⟩
  · exact Or.inl ⟨haccepts, rfl⟩
  · exact Or.inr ⟨e, rfl, hrejects, rfl⟩

/-! ### What `get` leaves of its response -/

/-- Decompose a raw value to its blocks and append them. -/
def appendRaw (c : StorageConfig) (crypto : Crypto) (raw : Bytes) :
    EStateM Exception (Storage × List Block) Unit := do
  let blocks ← liftExcept (decodeBucket c crypto raw)
  modify (fun s => (s.1, s.2 ++ blocks))

/-- `get` with the vector that its caller passes. What was decoded before an exception is
appended already. -/
def getInto (c : StorageConfig) (crypto : Crypto) (locations : List ℕ) :
    EStateM Exception (Storage × List Block) Unit := do
  modify (fun s => (s.1.record (.get locations), s.2))
  locations.forM (checkCapacity c)
  let s ← MonadState.get
  let raws := (c.batches locations).flatMap (·.map s.1.blocks)
  raws.forM (appendRaw c crypto)

/-- The run `y` with a response did what the run `x` did, and appended what it returned. -/
def Appends (response : List Block) (x : EStateM.Result Exception Storage (List Block))
    (y : EStateM.Result Exception (Storage × List Block) Unit) : Prop :=
  match x, y with
  | .ok blocks s, .ok _ s' => s' = (s, response ++ blocks)
  | .error e s, .error e' s' => e' = e ∧ s'.1 = s ∧ response <+: s'.2
  | _, _ => False

/-- The decoding loops append the same blocks, and stop at the same location. -/
theorem forM_appendRaw (crypto : Crypto) (raws : List Bytes) (response acc : List Block)
    (s : Storage) :
    Appends response
      ((raws.foldlM (fun response raw => do
        let blocks ← liftExcept (decodeBucket c crypto raw)
        return response ++ blocks) acc : EStateM Exception Storage (List Block)) s)
      (raws.forM (appendRaw c crypto) (s, response ++ acc)) := by
  -- on the buckets: both loops decode the same ones up to the first that fails
  induction raws generalizing acc with
  | nil => rfl
  | cons raw raws ih =>
    rw [List.foldlM_cons]
    show Appends response _
      ((appendRaw c crypto raw >>= fun _ => raws.forM (appendRaw c crypto)) (s, response ++ acc))
    cases hdecode : decodeBucket c crypto raw with
    | ok blocks =>
      have hright : appendRaw c crypto raw (s, response ++ acc) =
          .ok () (s, response ++ (acc ++ blocks)) := by
        rw [appendRaw, hdecode, ← List.append_assoc]
        rfl
      rw [bind_of_ok hright]
      exact ih (acc ++ blocks)
    | error e =>
      have hright : appendRaw c crypto raw (s, response ++ acc) =
          .error e (s, response ++ acc) := by
        rw [appendRaw, hdecode]
        rfl
      rw [bind_of_error hright]
      exact ⟨rfl, rfl, List.prefix_append response acc⟩

/-- **`getInto` appends what `get` returns**, and throws what it throws. -/
theorem getInto_appends (locations : List ℕ) (s : Storage) (response : List Block) :
    Appends response (get c crypto locations s) (getInto c crypto locations (s, response)) := by
  have hget := forM_checkCapacity (c := c) locations (s.record (.get locations))
  have hinto := forM_checkCapacity (c := c) locations (s.record (.get locations), response)
  unfold get getInto
  show Appends response
    ((locations.forM (checkCapacity c) >>= _) (s.record (.get locations)))
    ((locations.forM (checkCapacity c) >>= _) (s.record (.get locations), response))
  cases hfind : locations.find? (fun location => c.capacity ≤ location) with
  -- every location is in range, so the buckets are decoded
  | none =>
    rw [hfind] at hget hinto
    have hloop := forM_appendRaw (c := c) crypto
      ((c.batches locations).flatMap (·.map s.blocks)) response [] (s.record (.get locations))
    rw [List.append_nil] at hloop
    rw [bind_of_ok hget, bind_of_ok hinto]
    exact hloop
  | some location =>
    rw [hfind] at hget hinto
    rw [bind_of_error hget, bind_of_error hinto]
    exact ⟨rfl, rfl, List.prefix_rfl⟩

/-! ### All or nothing -/

/-- How a `get` ended, and the response it left. -/
def outcome (x : EStateM.Result Exception (Storage × List Block) Unit) :
    Except Exception Unit × List Block :=
  match x with
  | .ok _ s => (.ok (), s.2)
  | .error e s => (.error e, s.2)

/-- The decoding loop does not look at the storage. -/
theorem outcome_forM_appendRaw (raws : List Bytes) (s s' : Storage) (response : List Block) :
    outcome (raws.forM (appendRaw c crypto) (s', response)) =
      outcome (raws.forM (appendRaw c crypto) (s, response)) := by
  -- decoding a bucket does not look at the storage
  induction raws generalizing response with
  | nil => rfl
  | cons raw raws ih =>
    show outcome ((appendRaw c crypto raw >>= fun _ => raws.forM (appendRaw c crypto)) _) =
      outcome ((appendRaw c crypto raw >>= fun _ => raws.forM (appendRaw c crypto)) _)
    cases hdecode : decodeBucket c crypto raw with
    | ok blocks =>
      have hstep : ∀ t : Storage, appendRaw c crypto raw (t, response) =
          .ok () (t, response ++ blocks) := fun t => by
        rw [appendRaw, hdecode]
        rfl
      rw [bind_of_ok (hstep s'), bind_of_ok (hstep s)]
      exact ih (response ++ blocks)
    | error e =>
      have hstep : ∀ t : Storage, appendRaw c crypto raw (t, response) =
          .error e (t, response) := fun t => by
        rw [appendRaw, hdecode]
        rfl
      rw [bind_of_error (hstep s'), bind_of_error (hstep s)]
      rfl

/-- What `getInto` does depends on the raw bytes only. -/
theorem outcome_getInto_congr {s s' : Storage} (h : s'.blocks = s.blocks) (locations : List ℕ)
    (response : List Block) :
    outcome (getInto c crypto locations (s', response)) =
      outcome (getInto c crypto locations (s, response)) := by
  have hchecks := fun t : Storage =>
    forM_checkCapacity (c := c) locations (t.record (.get locations), response)
  unfold getInto
  show outcome ((locations.forM (checkCapacity c) >>= _) (s'.record (.get locations), response)) =
    outcome ((locations.forM (checkCapacity c) >>= _) (s.record (.get locations), response))
  cases hfind : locations.find? (fun location => c.capacity ≤ location) with
  | none =>
    rw [hfind] at hchecks
    have hraws : (s'.record (.get locations)).blocks = (s.record (.get locations)).blocks := h
    rw [bind_of_ok (hchecks s'), bind_of_ok (hchecks s)]
    show outcome (((c.batches locations).flatMap
        (·.map (s'.record (.get locations)).blocks)).forM (appendRaw c crypto) _) =
      outcome (((c.batches locations).flatMap
        (·.map (s.record (.get locations)).blocks)).forM (appendRaw c crypto) _)
    rw [hraws]
    exact outcome_forM_appendRaw _ _ _ response
  | some location =>
    rw [hfind] at hchecks
    rw [bind_of_error (hchecks s'), bind_of_error (hchecks s)]
    rfl

/-- A location outside the capacity stops `getInto` before anything is read. -/
theorem getInto_outside {locations : List ℕ} (h : ∃ location ∈ locations, c.capacity ≤ location)
    (s : Storage) (response : List Block) :
    ∃ location ∈ locations, c.capacity ≤ location ∧
      getInto c crypto locations (s, response) = .error (.idOutOfBound location c.capacity)
        (s.record (.get locations), response) := by
  have hchecks := forM_checkCapacity (c := c) locations (s.record (.get locations), response)
  cases hfind : locations.find? (fun location => c.capacity ≤ location) with
  | none =>
    obtain ⟨location, hmem, hcap⟩ := h
    exact absurd (decide_eq_true hcap) (List.find?_eq_none.mp hfind location hmem)
  | some location =>
    rw [hfind] at hchecks
    refine ⟨location, List.mem_of_find?_eq_some hfind, ?_, ?_⟩
    · simpa using List.find?_some hfind
    · unfold getInto
      exact bind_of_error hchecks _

/-- **All requests or none.** `set` throws exactly if some request is for a location outside the
capacity, has not `Z` blocks or has a payload that is too long; then every later `get` ends as
it would have before. A `get` of a location outside the capacity throws without appending
anything to its response. -/
theorem set_all_or_nothing (c : StorageConfig) (crypto : Crypto) (s : Storage) :
    (∀ (requests : List (ℕ × Bucket)) (r : Random),
      ((∃ e, (set c crypto requests s r).result = .error e) ↔
        ∃ request ∈ requests, c.capacity ≤ request.1 ∨ request.2.length ≠ c.Z ∨
          ∃ block ∈ request.2, c.userBlockSize < block.2.length) ∧
      ∀ e, (set c crypto requests s r).result = .error e → Rejects c requests e ∧
        ∀ locations response,
          outcome (getInto c crypto locations ((set c crypto requests s r).storage, response)) =
            outcome (getInto c crypto locations (s, response))) ∧
    ∀ (locations : List ℕ) (response : List Block),
      (∃ location ∈ locations, c.capacity ≤ location) →
        ∃ location ∈ locations, c.capacity ≤ location ∧
          getInto c crypto locations (s, response) = .error (.idOutOfBound location c.capacity)
            (s.record (.get locations), response) := by
  refine ⟨fun requests r => ?_, fun locations response h => getInto_outside h s response⟩
  rcases set_result (c := c) crypto requests s r with
    ⟨haccepts, hok⟩ | ⟨e, he, hrejects, hstorage⟩
  · refine ⟨⟨?_, ?_⟩, ?_⟩
    · rintro ⟨e, he⟩
      rw [hok] at he
      cases he
    · rintro ⟨request, hmem, hwrong⟩
      exact absurd hwrong (haccepts request hmem).not_rejects
    · intro e he
      rw [hok] at he
      cases he
  · refine ⟨⟨fun _ => hrejects.exists_request, fun _ => ⟨e, he⟩⟩, fun e' he' => ⟨?_, ?_⟩⟩
    · rw [he] at he'
      exact Except.error.inj he' ▸ hrejects
    · intro locations response
      have hblocks : (set c crypto requests s r).storage.blocks = s.blocks :=
        (congrArg Storage.blocks hstorage).trans rfl
      exact outcome_getInto_congr hblocks locations response

/-- No location has been written yet. -/
def unwritten : Storage := ⟨fun _ => [], []⟩

/-- The last of three requests is for a location outside the capacity. -/
def threeSets : List (ℕ × Bucket) := [(0, [(1, []), (2, [])]), (1, [(3, []), (4, [])]), (3, [])]

theorem set_all_or_nothing_small :
    ∃ left, set .small .none threeSets unwritten
        ⟨Stream'.const 0, Stream'.const 0, Stream'.const 0, Stream'.const 0⟩ = left ∧
      (∃ e, left.result = .error e) ∧
      (∀ locations response, outcome (getInto .small .none locations (left.storage, response)) =
        outcome (getInto .small .none locations (unwritten, response))) ∧
      ∃ location ∈ [0, 5], 3 ≤ location ∧
        getInto .small .none [0, 5] (unwritten, [(7, [])]) =
          .error (.idOutOfBound location 3) (unwritten.record (.get [0, 5]), [(7, [])]) := by
  obtain ⟨hset, hget⟩ := set_all_or_nothing .small .none unwritten
  obtain ⟨hiff, hkept⟩ := hset threeSets
    ⟨Stream'.const 0, Stream'.const 0, Stream'.const 0, Stream'.const 0⟩
  obtain ⟨e, he⟩ := hiff.mpr ⟨(3, []), by simp [threeSets], Or.inl (by decide)⟩
  exact ⟨_, rfl, ⟨e, he⟩, (hkept e he).2, hget [0, 5] [(7, [])] ⟨5, by simp, by decide⟩⟩

end AbsStorageAdapter

end PathORAM
