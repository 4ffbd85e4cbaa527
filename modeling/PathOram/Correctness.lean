import PathOram.Runs

/-!
# The ORAM is a key-value store

A client that makes any calls to a freshly initialised ORAM cannot tell it from a plain
key-value store, whatever the random source does.

* `exec_admissible` — one call within all bounds: it returns, is answered as the store
  answers it, and leaves the invariants.
* `run_admissible` — a whole run, by `Hoare.runCatching_spec`.
* `refines_keyValueStore` — the run of a freshly initialised ORAM over an in-memory
  position map.
-/

namespace PathORAM

open Hoare HeapTree

variable {c : Config} {M : Type} {pm : AbsPositionMapAdapter M} {bound : ℕ}
  {R : (ℕ → Option ℕ) → M → Prop} {mayThrow : Prop} {s : ORAM M} {kv : Store} {S : Finset ℕ}

/-- A call within the bounds of the configuration: addressable IDs, payloads of at most
the block size, and no more requests than `multiple` takes. -/
structure Call.Admissible (c : Config) (call : Call) : Prop where
  addressable : call.Addressable c
  fine : ¬call.TooMany c
  fits : ∀ op ∈ call.ops, op.Fits c.dataSize

instance (c : Config) (call : Call) : Decidable (call.Admissible c) :=
  decidable_of_iff (call.Addressable c ∧ ¬call.TooMany c ∧ ∀ op ∈ call.ops, op.Fits c.dataSize)
    ⟨fun h => ⟨h.1, h.2.1, h.2.2⟩, fun h => ⟨h.addressable, h.fine, h.fits⟩⟩

/-- The IDs put by a list of calls. -/
def Call.puts (calls : List Call) : Finset ℕ := Op.puts (calls.flatMap Call.ops)

theorem Call.mem_puts {calls : List Call} {call : Call} (hcall : call ∈ calls) {id : ℕ}
    {data : Bytes} (h : Op.write id data ∈ call.ops) : id ∈ Call.puts calls :=
  Op.mem_puts (List.mem_flatMap.mpr ⟨call, hcall, h⟩)

/-- The outcome `o` of a call is that of the key-value store `kv`, which becomes `kv'`. -/
def Call.Serves (size : ℕ) (kv : Store) (call : Call) (o : Except Exception (List Bytes))
    (kv' : Store) : Prop :=
  ∃ responses, o = .ok responses ∧ call.Answered size kv responses ∧ kv' = call.apply kv

/-- A view that holds the store `kv`; every ID with a block is in `S`. -/
structure View.Stores (c : Config) (S : Finset ℕ) (kv : Store) (v : View) : Prop where
  holds : v.Holds c kv ∅
  within : v.Within c (· ∈ S)
  bounded : kv.Bounded c.dataSize

/-- The state of an ORAM that holds the store `kv`. -/
def ORAM.Stores (c : Config) (R : (ℕ → Option ℕ) → M → Prop) (S : Finset ℕ) (kv : Store)
    (s : ORAM M) : Prop :=
  ∃ v, Shows c R v s ∧ v.Stores c S kv

section Step

variable {v v' : View} {call : Call} {responses : List Bytes} {e : Exception}

/-- A completed call is answered as the store answers it, and leaves the store after it. -/
theorem View.Stores.done (hc : c.Valid) (hv : v.Stores c S kv) (hcall : call.Admissible c)
    (hputs : ∀ op ∈ call.ops, ∀ id data, op = .write id data → id ∈ S)
    (h : call.Done c v responses v') :
    call.Answered c.dataSize kv responses ∧ v'.Stores c S (call.apply kv) where
  left := hv.holds.done_answered hc hcall.addressable h
  right :=
    { holds := hv.holds.done hc hcall.addressable h
      within := hv.within.done hv.holds.valid hcall.addressable.inRange hputs h
      bounded := hv.bounded.applyAll hcall.fits }

/-- No call fails when the stash has room for all IDs. -/
theorem View.Stores.not_failed (hc : c.Valid) (hv : v.Stores c S kv)
    (hcall : call.Admissible c)
    (hputs : ∀ op ∈ call.ops, ∀ id data, op = .write id data → id ∈ S)
    (hS : S.card ≤ c.stashCapacity) : ¬call.Failed c v e v' :=
  Call.not_failed hc hv.holds hv.within hv.bounded hcall.addressable hcall.fine hcall.fits
    hputs hS

/-- The exceptions of an admissible call: the position map threw, or the stash is smaller
than the number of IDs. -/
theorem View.Stores.of_failed (hc : c.Valid) (hv : v.Stores c S kv)
    (hcall : call.Admissible c)
    (hputs : ∀ op ∈ call.ops, ∀ id data, op = .write id data → id ∈ S) {s' : ORAM M}
    (h : mayThrow ∨ ∃ v', call.Failed c v e v' ∧ Shows c R v' s') :
    mayThrow ∨ c.stashCapacity < S.card := by
  rcases h with hthrow | ⟨v', hfailed, -⟩
  · exact Or.inl hthrow
  · refine Or.inr (not_le.mp fun hS => ?_)
    exact hv.not_failed hc hcall hputs hS hfailed

end Step

namespace ORAM

/-- **One call.** It returns, and is answered as the store answers it. -/
theorem exec_admissible (hc : c.Valid) (hpm : pm.Implements c.blocks bound R mayThrow)
    (hbound : 2 ^ (c.height - 1) ≤ bound) {call : Call} (hcall : call.Admissible c)
    (hputs : ∀ op ∈ call.ops, ∀ id data, op = .write id data → id ∈ S)
    (hs : s.Stores c R S kv) :
    wp (exec c pm call)
      (fun responses s' => call.Answered c.dataSize kv responses ∧
        s'.Stores c R S (call.apply kv))
      (fun _ _ => mayThrow ∨ c.stashCapacity < S.card) s := by
  obtain ⟨v, hshows, hv⟩ := hs
  -- What the refinement theorem says of the view, for the store it holds.
  refine wp_mono (exec_spec hc hpm hbound hv.holds.valid hshows hcall.addressable.inRange) ?_
    fun e s' h => hv.of_failed hc hcall hputs h
  rintro responses s' ⟨v', hdone, hshows'⟩
  obtain ⟨hanswered, hv'⟩ := hv.done hc hcall hputs hdone
  exact ⟨hanswered, v', hshows', hv'⟩

/-- **A run.** No call throws, and each is answered as the store answers it. -/
theorem run_admissible (hc : c.Valid) (hpm : pm.Implements c.blocks bound R False)
    (hbound : 2 ^ (c.height - 1) ≤ bound) (hS : S.card ≤ c.stashCapacity) {calls : List Call}
    (hcalls : ∀ call ∈ calls, call.Admissible c) (hputs : Call.puts calls ⊆ S)
    (hs : s.Stores c R S kv) :
    ∃ kv', Judged (Call.Serves c.dataSize) kv calls (runCatching (exec c pm) calls s).1 kv' ∧
      (runCatching (exec c pm) calls s).2.Stores c R S kv' := by
  -- The ghost value of the run lemma is the store.
  refine runCatching_spec (I := fun kv s => s.Stores c R S kv)
    (A := fun call => call.Admissible c ∧
      ∀ op ∈ call.ops, ∀ id data, op = .write id data → id ∈ S) ?_ calls kv s hs ?_
  · rintro kv call s hs ⟨hcall, hputs⟩
    refine wp_mono (exec_admissible hc hpm hbound hcall hputs hs) ?_
      fun _ _ h => absurd hS (not_le.mpr (h.resolve_left id))
    rintro responses s' ⟨hanswered, hs'⟩
    exact ⟨call.apply kv, ⟨responses, rfl, hanswered, rfl⟩, hs'⟩
  -- Every ID that is put is in `S`.
  · intro call hcall
    refine ⟨hcalls call hcall, ?_⟩
    rintro op hop id data rfl
    exact hputs (Call.mem_puts hcall hop)

/-- A freshly initialised ORAM holds the empty store. -/
theorem new_stores (hc : c.Valid) (hpm : pm.Implements c.blocks bound R mayThrow)
    (hbound : 2 ^ (c.height - 1) ≤ bound) {f : ℕ → Option ℕ} (hR : R f s.map)
    (hstash : s.stash = ∅) (hcache : s.cache = ∅) (S : Finset ℕ) :
    wp (new c pm true) (fun _ s' => s'.Stores c R S Store.empty) (fun _ _ => mayThrow) s := by
  refine wp_mono (new_spec hc hpm hbound hR hstash hcache) ?_ fun _ _ h => h
  rintro _ s' ⟨v, hfresh, hshows⟩
  exact ⟨v, hshows, hfresh.holds hc ∅, hfresh.within _, fun id p hp => absurd hp (by
    simp [Store.empty])⟩

/-- **The ORAM refines a key-value store.** `s₀` is the ORAM before its constructor ran: its
storage, its position map array and its random source are arbitrary. As long as the stash has room
for the IDs that are put, no call of the run throws, and each response is the one of the store,
where payloads are padded to the block size. -/
theorem refines_keyValueStore (hc : c.Matching) (s₀ : ORAM InMemoryPositionMapAdapter)
    (hcapacity : 2 ^ c.height * c.Z ≤ s₀.map.capacity) (hstash : s₀.stash = ∅)
    (hcache : s₀.cache = ∅) (calls : List Call) (hcalls : ∀ call ∈ calls, call.Admissible c)
    (hstashCapacity : (Call.puts calls).card ≤ c.stashCapacity) :
    ∃ s₁ kv, new c InMemoryPositionMapAdapter.adapter true s₀ = .ok () s₁ ∧
      Judged (Call.Serves c.dataSize) Store.empty calls
        (runCatching (exec c InMemoryPositionMapAdapter.adapter) calls s₁).1 kv := by
  -- A position map of that capacity exists, so the number of blocks fits in 64 bits.
  have hc : c.Valid := ⟨hc, hcapacity.trans_lt s₀.map.capacity_lt⟩
  have hpm := InMemoryPositionMapAdapter.implements c.blocks (2 ^ (c.height - 1))
  have hholds : InMemoryPositionMapAdapter.Holds c.blocks s₀.map.map s₀.map :=
    ⟨rfl, hc.blocks_eq ▸ hcapacity⟩
  obtain ⟨_, s₁, hnew, hs₁⟩ := (new_stores hc hpm le_rfl hholds hstash hcache
    (Call.puts calls)).exists_ok
  obtain ⟨kv, hjudged, -⟩ := run_admissible hc hpm le_rfl hstashCapacity hcalls
    (Finset.Subset.refl _) hs₁
  exact ⟨s₁, kv, hnew, hjudged⟩

end ORAM

/-! ### A small ORAM

One block for a bucket, no encryption, and room in the position map for `capacity`
entries. The concrete runs of this development use it. -/

/-- A configuration of the given height and stash capacity, with `Z = 1`. -/
def Config.tiny (height stashCapacity : ℕ) : Config where
  dataSize := 32
  Z := 1
  height := height
  batchSize := 2
  storage :=
    { key := List.replicate 32 0
      Z := 1
      batchLimit := 0
      capacity := 2 ^ height
      userBlockSize := 32
      key_size := rfl
      le_userBlockSize := le_rfl
      dvd_userBlockSize := ⟨2, rfl⟩
      Z_pos := Nat.one_pos }
  stashCapacity := stashCapacity
  crypto := ⟨⟨fun _ _ input => input, fun _ _ input => input, fun _ _ input => input⟩, .NONE⟩

theorem Config.tiny_matching {height : ℕ} (hpos : 1 ≤ height) (hle : height ≤ 31)
    (stashCapacity : ℕ) : (Config.tiny height stashCapacity).Matching where
  height_pos := hpos
  height_le := hle
  Z_eq := rfl
  dataSize_eq := rfl
  capacity_ge := le_rfl
  crypto_lawful h := absurd rfl h

theorem Config.tiny_valid {height : ℕ} (hpos : 1 ≤ height) (hle : height ≤ 31)
    (stashCapacity : ℕ) : (Config.tiny height stashCapacity).Valid where
  toMatching := Config.tiny_matching hpos hle stashCapacity
  blocks_lt := by
    have hpow : 2 ^ height ≤ 2 ^ 31 := Nat.pow_le_pow_right (by norm_num) hle
    change 2 ^ height * 1 < 2 ^ 64
    omega

/-- The random source that draws the words of `ulongs` for leaves and nothing but zeros
otherwise. -/
def Random.ofLeaves (ulongs : Stream' ℕ) : Random :=
  ⟨ulongs, Stream'.const 0, Stream'.const 0, Stream'.const 0⟩

/-- A position map array of `capacity` entries that happens to contain `garbage`. -/
def InMemoryPositionMapAdapter.allocate (capacity : ℕ) (hcapacity : capacity < 2 ^ 64)
    (garbage : ℕ) : InMemoryPositionMapAdapter :=
  ⟨capacity, fun _ => none, fun _ => garbage, [], hcapacity⟩

/-- An ORAM before its constructor ran. -/
def ORAM.unbuilt (map : M) (random : Random) : ORAM M where
  storage := ⟨fun _ => [], []⟩
  map := map
  stash := ∅
  cache := ∅
  random := random
  gets := 0
  puts := 0

/-- An ORAM after its constructor ran. -/
def ORAM.built (c : Config) (pm : AbsPositionMapAdapter M) (s₀ : ORAM M) : ORAM M :=
  match ORAM.new c pm true s₀ with
  | .ok _ s => s
  | .error _ s => s

theorem ORAM.new_eq_built (hc : c.Valid) (hpm : pm.Implements c.blocks bound R False)
    (hbound : 2 ^ (c.height - 1) ≤ bound) {s₀ : ORAM M} {f : ℕ → Option ℕ} (hR : R f s₀.map)
    (hstash : s₀.stash = ∅) (hcache : s₀.cache = ∅) :
    ORAM.new c pm true s₀ = .ok () (ORAM.built c pm s₀) := by
  obtain ⟨_, s₁, hnew, -⟩ := (ORAM.new_spec hc hpm hbound hR hstash hcache).exists_ok
  rw [ORAM.built, hnew]

theorem refines_keyValueStore_tiny :
    ∃ s₁ kv, ORAM.new (Config.tiny 1 2) InMemoryPositionMapAdapter.adapter true
        (ORAM.unbuilt (.allocate 2 (by decide) 0) (Random.ofLeaves (Stream'.const 0))) =
          .ok () s₁ ∧
      Judged (Call.Serves 32) Store.empty [.put 0 [7], .multiple [(0, []), (1, [9])], .get 1]
        (runCatching (ORAM.exec (Config.tiny 1 2) InMemoryPositionMapAdapter.adapter)
          [.put 0 [7], .multiple [(0, []), (1, [9])], .get 1] s₁).1 kv := by
  exact ORAM.refines_keyValueStore (c := Config.tiny 1 2)
    (Config.tiny_matching le_rfl (by norm_num) 2) _ (by decide) rfl rfl _ (by decide) (by decide)

end PathORAM
