import PathOram.Cloak.Macs
import PathOram.Cloak.Protocol

/-!
# The code of an access runs the protocol

While no MAC is verified. `Shows c R v s` says that the state `s` shows the view `v`.

* `getCache_spec`, `readPath_spec` — reading a path: `addToStash` fits each block to the
  stash it finds.
* `selectBlocks_spec`, `evictLevels_spec`, `writePath_spec` — writing it back: the greedy
  filling, by a test that also looks at the size.
* `access_spec` — an access is an `Access` of the protocol if it returns. If it throws, it is
  an `Overflow`, or the position map threw.
-/

namespace CloakQueryPathORAM

open PathORAM Hoare HeapTree AbsStorageAdapter

namespace ORAM

variable {c : Config} {M : Type} {pm : AbsPositionMapAdapter M} {n bound : ℕ}
  {R : (ℕ → Option ℕ) → M → Prop} {mayThrow : Prop} {v : View} {s : ORAM M} {leaf : ℕ}

/-- The state `s` shows the view `v`, and no MAC is verified. -/
structure Shows (c : Config) (R : (ℕ → Option ℕ) → M → Prop) (v : View) (s : ORAM M) : Prop
    extends PathORAM.Shows c.toConfig R v s.toORAM where
  isInitializing : s.isInitializing = true

/-! ### Reading through the cache -/

theorem addToCache_eq (hinit : s.isInitializing = true) (toGet : List ℕ) (blocks : List Block)
    (i : ℕ) (bucket : Bucket) :
    addToCache c toGet blocks i bucket s = .ok () { s with
      cache := PathORAM.ORAM.addToCache c.toConfig toGet blocks i bucket s.cache } := by
  have hspec := addToCache_spec (c := c) toGet blocks i bucket s
  cases hresult : addToCache c toGet blocks i bucket s with
  | ok _ s' => rw [hspec.ok hresult]
  | error e s' => exact absurd (hspec.error hresult) (by rw [hinit]; decide)

/-- While no MAC is verified, `getCache` is that of the other variant. -/
theorem getCache_eq (hinit : s.isInitializing = true) (locations : List ℕ)
    (response : List Block) (dryRun : Bool) :
    getCache c locations response dryRun s =
      zoom baseLens (PathORAM.ORAM.getCache c.toConfig locations response dryRun) s := by
  set r := (Random.iterate locations s.random).2
  set found := PathORAM.ORAM.lookupCache s.cache dryRun (Random.iterate locations s.random).1 []
    response
  -- Both draw the order of the visit and look the locations up.
  have hleft : getCache c locations response dryRun s =
      (if found.1.length > 0 then (do
        let downloaded ← zoom storageLens (AbsStorageAdapter.get c.storage c.crypto found.1)
        addToCache c found.1 downloaded 0 []
        return if dryRun then found.2 else found.2 ++ downloaded)
      else return found.2 : OramM M _) { s with random := r } := rfl
  have hright : zoom baseLens (PathORAM.ORAM.getCache c.toConfig locations response dryRun) s =
      zoom baseLens (if found.1.length > 0 then (do
        let downloaded ← zoom PathORAM.ORAM.storageLens
          (AbsStorageAdapter.get c.storage c.crypto found.1)
        modify (fun s => { s with
          cache := PathORAM.ORAM.addToCache c.toConfig found.1 downloaded 0 [] s.cache })
        return if dryRun then found.2 else found.2 ++ downloaded)
      else return found.2 : PathORAM.OramM M _) { s with random := r } := rfl
  rw [hleft, hright]
  split
  · rw [zoom_bind fun _ _ _ => rfl]
    cases hget : AbsStorageAdapter.get c.storage c.crypto found.1 s.storage with
    | ok downloaded storage =>
      have hbase := zoom_of_ok (L := baseLens) (s := { s with random := r })
        (zoom_of_ok (L := PathORAM.ORAM.storageLens) (s := { s.toORAM with random := r }) hget)
      rw [bind_of_ok (zoom_of_ok hget), bind_of_ok hbase,
        bind_of_ok (addToCache_eq (by exact hinit) _ _ _ _)]
      rfl
    | error e storage =>
      have hbase := zoom_of_error (L := baseLens) (s := { s with random := r })
        (zoom_of_error (L := PathORAM.ORAM.storageLens) (s := { s.toORAM with random := r }) hget)
      rw [bind_of_error (zoom_of_error hget), bind_of_error hbase]
      rfl
  · rfl

/-- **Reading through the cache**, as in the other variant. -/
theorem getCache_spec (hc : c.Valid) (hs : Shows c R v s) {locations : List ℕ}
    (hin : ∀ b ∈ locations, InTree c.height b) (dryRun : Bool)
    {Q : List Block → ORAM M → Prop} {E : Exception → ORAM M → Prop}
    (hQ : ∀ response s', Shows c R (v.fetch locations.toFinset) s' →
      (dryRun = false → ∀ e, e ∈ response ↔ ∃ b ∈ locations, e ∈ v.tree b) → Q response s') :
    wp (getCache c locations [] dryRun) Q E s := by
  unfold wp
  rw [getCache_eq hs.isInitializing]
  exact wp_zoom (PathORAM.ORAM.getCache_spec hc hs.toShows hin dryRun
    fun response t ht => hQ response (baseLens.set t s) ⟨ht, hs.isInitializing⟩)

/-! ### Adding to the stash -/

/-- `stash'` holds `stash` and blocks of `blocks`, fitted to lengths that satisfy `P`; blocks
that were there are kept. -/
structure Adds (P : ℕ → Prop) (blocks : List Block) (stash stash' : InMemoryStashAdapter) :
    Prop where
  keep : ∀ id d, stash.lookup id = some d → stash'.lookup id = some d
  source : ∀ id d, stash'.lookup id = some d → stash.lookup id = some d ∨
    id ∉ stash ∧ id ≠ ULONG_MAX ∧ P d.length ∧
      ∃ data, (id, data) ∈ blocks ∧ d = InMemoryStashAdapter.resize d.length data

variable {P : ℕ → Prop} {blocks rest : List Block} {block : Block}
  {stash stash₁ stash' : InMemoryStashAdapter}

theorem Adds.refl (blocks : List Block) (stash : InMemoryStashAdapter) :
    Adds P blocks stash stash :=
  ⟨fun _ _ h => h, fun _ _ h => Or.inl h⟩

theorem Adds.trans (h : Adds P (block :: rest) stash stash₁) (h' : Adds P rest stash₁ stash') :
    Adds P (block :: rest) stash stash' where
  keep id d hd := h'.keep id d (h.keep id d hd)
  source id d hd := by
    rcases h'.source id d hd with hd | ⟨hnot, hreal, hlength, data, hmem, heq⟩
    · exact h.source id d hd
    · refine Or.inr ⟨fun hid => hnot ?_, hreal, hlength, data, List.mem_cons_of_mem _ hmem, heq⟩
      obtain ⟨d', hd'⟩ := exists_lookup hid
      exact mem_of_lookup (h.keep id d' hd')

theorem Adds.mem (h : Adds P blocks stash stash') {id : ℕ} (hid : id ∈ stash) : id ∈ stash' := by
  obtain ⟨d, hd⟩ := exists_lookup hid
  exact mem_of_lookup (h.keep id d hd)

/-- The lengths of the entries satisfy `P` still. -/
theorem Adds.fitted (h : Adds P blocks stash stash')
    (hP : ∀ id d, stash.lookup id = some d → P d.length) :
    ∀ id d, stash'.lookup id = some d → P d.length := fun id d hd =>
  (h.source id d hd).elim (hP id d) fun h => h.2.2.1

/-- `add` keeps what is there and adds at most its block. -/
theorem adds_add (hreal : Block.Real block) (rest : List Block) {size : ℕ} (hsize : P size) :
    Adds P (block :: rest) stash (if block.1 ∈ stash then stash
      else stash.insert block.1 (InMemoryStashAdapter.resize size block.2)) := by
  split
  · exact Adds.refl _ _
  -- an unknown ID: the stash grows by the payload, resized
  · next hnot =>
    refine ⟨fun id d h => ?_, fun id d h => ?_⟩
    · have hne : id ≠ block.1 := fun heq => hnot (heq ▸ mem_of_lookup h)
      rwa [AList.lookup_insert_ne hne]
    · by_cases hid : id = block.1
      · subst hid
        rw [AList.lookup_insert, Option.some.injEq] at h
        subst h
        rw [InMemoryStashAdapter.length_resize]
        exact Or.inr ⟨hnot, hreal, hsize, block.2, List.mem_cons_self, rfl⟩
      · rw [AList.lookup_insert_ne hid] at h
        exact Or.inl h

/-- The number of entries after an insertion that was checked. -/
theorem length_insert_le {capacity id : ℕ} {d : Bytes} (hle : stash.keys.length ≤ capacity)
    (h : ¬(stash.keys.length = capacity ∧ id ∉ stash)) :
    (stash.insert id d).keys.length ≤ capacity := by
  rw [PathORAM.InMemoryStashAdapter.length_keys_insert]
  by_cases hid : id ∈ stash
  · rwa [if_pos hid]
  · rw [if_neg hid]
    exact Nat.lt_of_le_of_ne hle fun hfull => h ⟨hfull, hid⟩

/-- `add` of the stash adapter, unless the block has a suspicious ID. -/
theorem stashAdd_fitted (hreal : Block.Real block) (hid : block.1 ≤ 10 ^ 12) (s : ORAM M) :
    wp (stashAdd c block.1 block.2)
      (fun _ s' => ∃ size r, r.ulongs = s.random.ulongs ∧
        ((∃ id d, s.stash.lookup id = some d ∧ d.length = size) ∨
          s.stash = ∅ ∧ size = block.2.length) ∧
        ¬(s.stash.keys.length = c.stashCapacity ∧ block.1 ∉ s.stash) ∧
        s' = { s with
          stash := if block.1 ∈ s.stash then s.stash
            else s.stash.insert block.1 (InMemoryStashAdapter.resize size block.2)
          random := r })
      (fun e _ => e = .overCapacity c.stashCapacity ∧
        s.stash.keys.length = c.stashCapacity ∧ block.1 ∉ s.stash) s := by
  unfold stashAdd InMemoryStashAdapter.add
  obtain ⟨size, hsize, hfit⟩ :=
    InMemoryStashAdapter.exists_adjusted s.stash s.random block.2
  refine wp_bind (wp_get (wp_bind (wp_modifyGet (wp_zoom (wp_bind
    (PathORAM.InMemoryStashAdapter.wp_checkOverflow (fun hroom => ?_) fun hfull hnot =>
      ⟨rfl, hfull, hnot⟩))))))
  -- a real block with an ID that the stash takes, so it is not skipped
  have hfine : ¬(block.1 = ULONG_MAX ∨ 10 ^ 12 < block.1) := fun h => h.elim hreal (not_lt.mpr hid)
  rw [if_pos hfine]
  refine wp_modify
    ⟨size, (InMemoryStashAdapter.beginEntry s.stash s.random).2, rfl, hfit, hroom, ?_⟩
  rw [hsize]
  rfl

/-- `update` of the stash adapter. -/
theorem stashUpdate_fitted (block : ℕ) (data : Bytes) (s : ORAM M) :
    wp (stashUpdate c block data)
      (fun _ s' => ∃ size r, r.ulongs = s.random.ulongs ∧
        ((∃ id d, s.stash.lookup id = some d ∧ d.length = size) ∨
          s.stash = ∅ ∧ size = data.length) ∧
        ¬(s.stash.keys.length = c.stashCapacity ∧ block ∉ s.stash) ∧
        s' = { s with
          stash := AList.insert block (InMemoryStashAdapter.resize size data) s.stash
          random := r })
      (fun e _ => e = .overCapacity c.stashCapacity ∧
        s.stash.keys.length = c.stashCapacity ∧ block ∉ s.stash) s := by
  unfold stashUpdate InMemoryStashAdapter.update
  obtain ⟨size, hsize, hfit⟩ := InMemoryStashAdapter.exists_adjusted s.stash s.random data
  refine wp_bind (wp_get (wp_bind (wp_modifyGet (wp_zoom (wp_bind
    (PathORAM.InMemoryStashAdapter.wp_checkOverflow (fun hroom => ?_) fun hfull hnot =>
      ⟨rfl, hfull, hnot⟩))))))
  refine wp_modify
    ⟨size, (InMemoryStashAdapter.beginEntry s.stash s.random).2, rfl, hfit, hroom, ?_⟩
  rw [hsize]
  rfl

/-- **Blocks are fitted and put in the stash one by one**, until one has no room. -/
theorem addToStash_spec (blocks : List Block) {s : ORAM M}
    (hids : ∀ e ∈ blocks, Block.Real e → e.1 ≤ 10 ^ 12)
    (hP : ∀ id d, s.stash.lookup id = some d → P d.length)
    (hempty : s.stash = ∅ → ∀ e ∈ blocks, Block.Real e → P e.2.length) :
    wp (addToStash c blocks)
      (fun _ s' => ∃ stash r, s' = { s with stash := stash, random := r } ∧
        r.ulongs = s.random.ulongs ∧ Adds P blocks s.stash stash ∧
        (∀ e ∈ blocks, Block.Real e → e.1 ∈ stash) ∧
        (s.stash.keys.length ≤ c.stashCapacity → stash.keys.length ≤ c.stashCapacity))
      (fun e _ => e = .overCapacity c.stashCapacity ∧ ∃ stash, Adds P blocks s.stash stash ∧
        stash.keys.length = c.stashCapacity ∧ ∃ e ∈ blocks, Block.Real e ∧ e.1 ∉ stash) s := by
  induction blocks generalizing s with
  | nil => exact wp_pure ⟨s.stash, s.random, rfl, rfl, Adds.refl _ _, by simp, id⟩
  | cons block rest ih =>
    have hids' : ∀ e ∈ rest, Block.Real e → e.1 ≤ 10 ^ 12 := fun e he =>
      hids e (List.mem_cons_of_mem _ he)
    rw [addToStash]
    by_cases hreal : block.1 ≠ ULONG_MAX
    · rw [if_pos hreal]
      refine wp_bind (wp_mono (stashAdd_fitted hreal (hids block List.mem_cons_self hreal) s) ?_ ?_)
      · rintro _ _ ⟨size, r, hr, hfit, hroom, rfl⟩
        -- The length is that of an entry, or of the first block itself.
        have hsize : P size := by
          rcases hfit with ⟨id, d, hd, rfl⟩ | ⟨hnone, rfl⟩
          · exact hP id d hd
          · exact hempty hnone block List.mem_cons_self hreal
        set stash₁ := if block.1 ∈ s.stash then s.stash
          else s.stash.insert block.1 (InMemoryStashAdapter.resize size block.2) with hstash₁
        have hadds : Adds P (block :: rest) s.stash stash₁ := adds_add hreal rest hsize
        have hmem : block.1 ∈ stash₁ := by
          rw [hstash₁]
          split
          · assumption
          · exact AList.mem_insert _ |>.mpr (Or.inl rfl)
        have hle : s.stash.keys.length ≤ c.stashCapacity →
            stash₁.keys.length ≤ c.stashCapacity := fun hle => by
          rw [hstash₁]
          split
          · exact hle
          · exact length_insert_le hle hroom
        refine wp_mono (ih hids' (hadds.fitted hP) fun hnone => ?_) ?_ ?_
        · rw [show stash₁ = ∅ from hnone] at hmem
          exact absurd hmem (AList.notMem_empty _)
        · rintro _ _ ⟨stash, r', rfl, hr', hrest, hall, hle'⟩
          refine ⟨stash, r', rfl, hr'.trans hr, hadds.trans hrest, fun e he he' => ?_, hle' ∘ hle⟩
          rcases List.mem_cons.mp he with rfl | he
          · exact hrest.mem hmem
          · exact hall e he he'
        · rintro _ _ ⟨rfl, stash, hrest, hfull, e, he, hblocked⟩
          exact ⟨rfl, stash, hadds.trans hrest, hfull, e, List.mem_cons_of_mem _ he, hblocked⟩
      -- There is no room: nothing of the rest was tried.
      · rintro _ _ ⟨rfl, hfull, hnot⟩
        exact ⟨rfl, s.stash, Adds.refl _ _, hfull, block, List.mem_cons_self, hreal, hnot⟩
    · -- An "empty" block is skipped.
      rw [if_neg hreal]
      have hskip : Adds P (block :: rest) s.stash s.stash := Adds.refl _ _
      refine wp_bind (wp_pure (wp_mono (ih hids' hP fun hnone e he =>
        hempty hnone e (List.mem_cons_of_mem _ he)) ?_ ?_))
      · rintro _ _ ⟨stash, r, rfl, hr, hrest, hall, hle⟩
        refine ⟨stash, r, rfl, hr, hskip.trans hrest, fun e he he' => ?_, hle⟩
        rcases List.mem_cons.mp he with rfl | he
        · exact absurd he' hreal
        · exact hall e he he'
      · rintro _ _ ⟨rfl, stash, hrest, hfull, e, he, hblocked⟩
        exact ⟨rfl, stash, hskip.trans hrest, hfull, e, List.mem_cons_of_mem _ he, hblocked⟩

/-! ### Reading a path -/

/-- A block of the path, fitted to the entry that `stash` has for its ID. -/
def trim (v : View) (stash : InMemoryStashAdapter) (e : Block) : Block :=
  if e.1 ≠ ULONG_MAX ∧ e.1 ∉ v.stash then
    (e.1, ((stash.lookup e.1).map fun d => InMemoryStashAdapter.resize d.length e.2).getD e.2)
  else e

/-- Adding the blocks of a path absorbs the path of a trimmed view. -/
theorem absorbsAll_of_adds (hadds : Adds (View.Fitting c v) blocks v.stash stash)
    (hblocks : ∀ e, e ∈ blocks ↔ ∃ b ∈ c.path leaf, e ∈ v.tree b)
    (hall : ∀ e ∈ blocks, Block.Real e → e.1 ∈ stash) :
    ∃ v', Trimmed c v leaf v' ∧ AbsorbsAll c.toConfig v' leaf stash := by
  refine ⟨{ v with
    tree := fun b => if b ∈ c.path leaf then (v.tree b).map (trim v stash) else v.tree b },
    ⟨fun b => ?_, rfl⟩, ⟨hadds.keep, fun id d hd => ?_⟩, fun b hb e' he' hreal => ?_⟩
  · change List.Forall₂ _ (v.tree b) (if b ∈ c.path leaf then _ else _)
    split
    · next hb =>
      rw [List.forall₂_map_right_iff, List.forall₂_same]
      intro e he
      rw [trim]
      split
      · next hnew =>
        -- The ID of the block is new in the stash, with a fitted payload.
        obtain ⟨d, hd⟩ := exists_lookup (hall e ((hblocks e).mpr ⟨b, hb, he⟩) hnew.1)
        have hsize : View.Fitting c v d.length := by
          rcases hadds.source e.1 d hd with hold | hsource
          · exact absurd (mem_of_lookup hold) hnew.2
          · exact hsource.2.2.1
        rw [hd]
        exact ⟨rfl, Or.inr ⟨hb, hnew.1, hnew.2, d.length, hsize, rfl⟩⟩
      · exact ⟨rfl, Or.inl rfl⟩
    · exact List.forall₂_same.mpr fun e _ => ⟨rfl, Or.inl rfl⟩
  · refine (hadds.source id d hd).imp_right ?_
    rintro ⟨hnot, hreal, -, data, hmem, heq⟩
    obtain ⟨b, hb, he⟩ := (hblocks _).mp hmem
    refine ⟨hreal, b, hb, ?_⟩
    change (id, d) ∈ if b ∈ c.path leaf then (v.tree b).map (trim v stash) else v.tree b
    rw [if_pos hb]
    refine List.mem_map.mpr ⟨(id, data), he, ?_⟩
    rw [trim, if_pos ⟨hreal, hnot⟩, hd, Option.map_some, Option.getD_some, ← heq]
  · -- Trimming keeps the IDs.
    change e' ∈ if b ∈ c.path leaf then (v.tree b).map (trim v stash) else v.tree b at he'
    rw [if_pos hb] at he'
    obtain ⟨e, he, rfl⟩ := List.mem_map.mp he'
    have hid : (trim v stash e).1 = e.1 := by
      rw [trim]
      split <;> rfl
    rw [hid]
    exact hall e ((hblocks e).mpr ⟨b, hb, he⟩) (by rwa [Block.Real, hid] at hreal)

/-- **Reading a path** downloads what is not cached and absorbs its blocks, fitted. -/
theorem readPath_spec (hc : c.Valid) (hs : Shows c R v s)
    (hleaf : leaf < 2 ^ (c.height - 1)) (hsized : View.Sized c v)
    (hids : v.Within c.toConfig (· ≤ 10 ^ 12)) :
    wp (readPath c leaf [] true)
      (fun _ s' => ∃ stash v', Trimmed c v leaf v' ∧ AbsorbsAll c.toConfig v' leaf stash ∧
        Shows c R { v.fetch (c.path leaf) with stash := stash } s' ∧
        (∀ id d, stash.lookup id = some d → View.Fitting c v d.length) ∧
        (v.stash.keys.length ≤ c.stashCapacity → stash.keys.length ≤ c.stashCapacity))
      (fun e _ => e = .overCapacity c.stashCapacity ∧ ∃ stash : InMemoryStashAdapter,
        stash.keys.length = c.stashCapacity ∧ (∀ id ∈ stash, View.Near c v leaf id) ∧
        ∃ id ∉ stash, View.Near c v leaf id) s := by
  unfold readPath
  have hmem : ∀ b, b ∈ pathLocations c leaf [] ↔ b ∈ c.path leaf := fun b => by
    rw [mem_pathLocations hc hleaf, or_iff_right List.not_mem_nil, Config.mem_path]
  have hfinset : (pathLocations c leaf []).toFinset = c.path leaf := by
    ext b
    rw [List.mem_toFinset, hmem]
  have hinTree : ∀ b ∈ c.path leaf, InTree c.height b := fun b hb =>
    Config.inTree_of_mem_path hleaf hb
  refine wp_bind (getCache_spec hc hs (fun b hb => hinTree b ((hmem b).mp hb)) false ?_)
  intro blocks s₁ hs₁ hblocks
  rw [hfinset] at hs₁
  have hblocks : ∀ e, e ∈ blocks ↔ ∃ b ∈ c.path leaf, e ∈ v.tree b := fun e => by
    rw [hblocks rfl e]
    exact exists_congr fun b => and_congr_left fun _ => hmem b
  have hstash : v.stash = s₁.stash := hs₁.stash
  refine wp_bind (wp_mono (addToStash_spec (P := View.Fitting c v) blocks (fun e he hreal => ?_)
    (fun id d hd => Or.inl ⟨id, d, by rwa [hstash], rfl⟩) fun hnone e he hreal => ?_) ?_ ?_)
  · obtain ⟨b, hb, he⟩ := (hblocks e).mp he
    exact hids.tree b (hinTree b hb) e he hreal
  · -- An empty stash takes the first block as it is, which has the block size.
    obtain ⟨b, hb, he⟩ := (hblocks e).mp he
    exact Or.inr ⟨hstash.trans hnone, hsized b (hinTree b hb) e he⟩
  · rintro _ _ ⟨stash, r, rfl, hr, hadds, hall, hle⟩
    rw [← hstash] at hadds hle
    obtain ⟨v', htrimmed, habsorbs⟩ := absorbsAll_of_adds hadds hblocks hall
    -- All buckets of the path are cached, so verifying them changes nothing.
    refine wp_bind (wp_modifyGet (wp_bind (wp_mono (verifyPath_spec fun b hb => ?_) ?_
      fun _ _ h => absurd (h.symm.trans hs₁.isInitializing) (by decide))))
    · refine (hs₁.cached b).mp (Finset.mem_union_right _ ((hmem b).mp ?_))
      exact (Random.perm_iterate _ r).mem_iff.mp hb
    · rintro _ _ rfl
      refine wp_pure ⟨stash, v', htrimmed, habsorbs, ⟨?_, hs₁.isInitializing⟩,
        hadds.fitted fun id d hd => Or.inl ⟨id, d, hd, rfl⟩, hle⟩
      exact ⟨hs₁.pos, hs₁.tree, rfl, hs₁.coins.trans hr.symm, hs₁.cached, hs₁.touched,
        hs₁.readable⟩
  · rintro _ _ ⟨rfl, stash, hadds, hfull, e, he, hreal, hnot⟩
    rw [← hstash] at hadds
    refine ⟨rfl, stash, hfull, fun id hid => ?_, ?_⟩
    · obtain ⟨d, hd⟩ := exists_lookup hid
      refine (hadds.source id d hd).imp mem_of_lookup ?_
      rintro ⟨-, hreal, -, data, hdata, -⟩
      obtain ⟨b, hb, hdata⟩ := (hblocks _).mp hdata
      exact ⟨b, hb, (id, data), hdata, hreal, rfl⟩
    · obtain ⟨b, hb, he⟩ := (hblocks e).mp he
      exact ⟨e.1, hnot, Or.inr ⟨b, hb, e, he, hreal, rfl⟩⟩

/-! ### Writing a path -/

/-- Whether a block is evicted to the bucket of a level: it has the block size, and the path
of its ID runs through the bucket. -/
def fits (c : Config) (f : ℕ → Option ℕ) (leaf level : ℕ) (e : Block) : Bool :=
  decide (e.1 ≠ ULONG_MAX ∧ e.2.length = c.dataSize) &&
    PathORAM.ORAM.fits c.toConfig f leaf level e

theorem fits_iff {f : ℕ → Option ℕ} {level : ℕ} {e : Block} :
    fits c f leaf level e = true ↔ (e.1 ≠ ULONG_MAX ∧ e.2.length = c.dataSize) ∧
      PathORAM.ORAM.fits c.toConfig f leaf level e = true := by
  rw [fits, Bool.and_eq_true, decide_eq_true_eq]

section Writing

variable {f : ℕ → Option ℕ} {E : Exception → ORAM M → Prop}

theorem wp_mapGet {f : ℕ → Option ℕ} {block : ℕ} {Q : ℕ → ORAM M → Prop}
    (hpm : pm.Implements n bound R mayThrow) (hR : R f s.map) (hblock : block < n)
    (hleaf : f block = some leaf) (hQ : ∀ m', R f m' → Q leaf { s with map := m' })
    (hE : ∀ e s', mayThrow → E e s') : wp (zoom mapLens (pm.get block)) Q E s := by
  refine wp_zoom (wp_mono (hpm.get_spec f s.map block hR hblock) ?_ fun e _ h => hE e _ h)
  rintro l m' ⟨hl, hR'⟩
  rw [hl leaf hleaf]
  exact hQ m' hR'

theorem wp_mapSet {block : ℕ} {Q : Unit → ORAM M → Prop}
    (hpm : pm.Implements n bound R mayThrow) (hR : R f s.map) (hblock : block < n)
    (hleaf : leaf < bound)
    (hQ : ∀ m', R (Function.update f block (some leaf)) m' → Q () { s with map := m' })
    (hE : ∀ e s', mayThrow → E e s') : wp (zoom mapLens (pm.set block leaf)) Q E s := by
  refine wp_zoom (wp_mono (hpm.set_spec f s.map block leaf hR hblock hleaf) ?_
    fun e _ h => hE e _ h)
  exact fun _ m' hR' => hQ m' hR'

/-- **The loop over the stash is a greedy selection**, which passes over blocks of another
size. -/
theorem selectBlocks_spec (hpm : pm.Implements n bound R mayThrow) {level : ℕ}
    (hlevel : level < c.height) (hheight : c.height ≤ 31) (hE : ∀ e s', mayThrow → E e s')
    {l : List Block} (hl : ∀ e ∈ l, e.1 < n ∧ ∃ leaf', f e.1 = some leaf') {i : ℕ}
    {sel : PathORAM.ORAM.Selection} {s : ORAM M} (hR : R f s.map)
    (hlen : sel.toInsert.length < c.Z) {Q : PathORAM.ORAM.Selection → ORAM M → Prop}
    (hQ : ∀ m, R f m → Q (sel.extend (Greedy.select (fits c f leaf level)
      (c.Z - sel.toInsert.length) l i)) { s with map := m }) :
    wp (selectBlocks c pm leaf level l i sel) Q E s := by
  induction l generalizing i sel s with
  | nil =>
    have hQ := hQ s.map hR
    rw [PathORAM.ORAM.Selection.extend_select_nil] at hQ
    exact wp_pure hQ
  | cons e l ih =>
    obtain ⟨hid, leaf', hleaf'⟩ := hl e List.mem_cons_self
    have hrest : ∀ e ∈ l, e.1 < n ∧ ∃ leaf', f e.1 = some leaf' :=
      fun e he => hl e (List.mem_cons_of_mem _ he)
    -- A block that is passed over leaves the selection as it is.
    have hskip : fits c f leaf level e = false → ∀ m, R f m →
        Q (sel.extend (Greedy.select (fits c f leaf level) (c.Z - sel.toInsert.length) l (i + 1)))
          { s with map := m } := fun hno m hR' =>
      PathORAM.ORAM.Selection.extend_select_of_not hlen hno ▸ hQ m hR'
    rw [selectBlocks]
    by_cases hsize : e.1 = ULONG_MAX ∨ e.2.length ≠ c.dataSize
    · rw [if_pos hsize]
      refine ih hrest hR hlen (hskip (Bool.eq_false_iff.mpr fun h => ?_))
      obtain ⟨⟨hreal, hlength⟩, -⟩ := fits_iff.mp h
      exact hsize.elim hreal fun hne => hne hlength
    · rw [if_neg hsize]
      refine wp_bind (wp_mapGet hpm hR hid hleaf' (fun m hR' => ?_) hE)
      -- The leaf that the map returned is the one that `fits` looks up.
      have hfits : fits c f leaf level e = canInclude c.height leaf' leaf level := by
        rw [fits, PathORAM.ORAM.fits, hleaf', canInclude_base hlevel hheight]
        have hkeep : e.1 ≠ ULONG_MAX ∧ e.2.length = c.dataSize := by
          refine ⟨fun h => hsize (Or.inl h), ?_⟩
          by_contra hne
          exact hsize (Or.inr hne)
        rw [decide_eq_true hkeep]
        rfl
      by_cases hcan : canInclude c.height leaf' leaf level = true
      · rw [if_pos hcan]
        rw [PathORAM.ORAM.Selection.extend_select_of_fits hlen (hfits.trans hcan)] at hQ
        change wp (if (sel.snoc e i).toInsert.length = c.Z then _ else _) Q E _
        split
        · next hfull =>
          -- The bucket is full, and the scan stops here.
          rw [if_pos hfull] at hQ
          exact wp_pure (hQ m hR')
        · next hfull =>
          have hsnoc : (sel.snoc e i).toInsert.length = sel.toInsert.length + 1 :=
            List.length_append
          have hroom : (sel.snoc e i).toInsert.length < c.Z := by omega
          rw [if_neg hfull] at hQ
          exact ih hrest hR' hroom fun m' hR'' => hQ m' hR''
      · rw [if_neg hcan]
        refine ih hrest hR' hlen fun m' hR'' => ?_
        exact hskip (hfits.trans (Bool.eq_false_iff.mpr hcan)) m' hR''

/-- **The loop over the levels is the greedy filling of the path.** Each bucket has a
MAC by the time it is verified. -/
theorem evictLevels_spec (hheight : c.height ≤ 31) (hZ : 0 < c.Z)
    (hleaf : leaf < 2 ^ (c.height - 1)) (hpm : pm.Implements n bound R mayThrow)
    (hE : ∀ e s', mayThrow → E e s') {levels : ℕ} (hlevels : levels ≤ c.height) {l : List Block}
    (hl : ∀ e ∈ l, e.1 < n ∧ ∃ leaf', f e.1 = some leaf') {toDelete : List (BitVec 32)}
    {requests : List (ℕ × Bucket)} {s : ORAM M} (hR : R f s.map)
    {Q : List (ℕ × Bucket) × List (BitVec 32) → ORAM M → Prop}
    (hQ : ∀ (bucket : ℕ → Bucket) m r macs, R f m → r.ulongs = s.random.ulongs →
      (∀ k < levels, PathORAM.ORAM.Filled c.toConfig
        (Greedy.placedAt (fits c f leaf) c.Z levels l k) (bucket k)) →
      Q (requests ++ (List.range levels).reverse.map
            (fun k => (node c.height k leaf, bucket k)),
          toDelete ++ (Greedy.placed (fits c f leaf) c.Z levels l).map (fun e => toInt e.1))
        { s with map := m, random := r, macMap := macs }) :
    wp (evictLevels c pm leaf levels l toDelete requests) Q E s := by
  induction levels generalizing l toDelete requests s with
  | zero =>
    have hQ := hQ (fun _ => []) s.map s.random s.macMap hR rfl
      (fun k hk => absurd hk (Nat.not_lt_zero k))
    rw [List.range_zero, List.reverse_nil, List.map_nil, List.append_nil, Greedy.placed,
      List.map_nil, List.append_nil] at hQ
    exact wp_pure hQ
  | succ level ih =>
    rw [evictLevels]
    refine wp_bind (selectBlocks_spec hpm hlevels hheight hE hl hR (by exact hZ)
      fun m hR' => ?_)
    set taken := Greedy.take (fits c f leaf level) c.Z l with htaken
    set rest := Greedy.rest (fits c f leaf level) c.Z l with hrest
    have hextend : (PathORAM.ORAM.Selection.mk [] toDelete []).extend
        (Greedy.select (fits c f leaf level) (c.Z - ([] : List Block).length) l 0) =
        ⟨taken, toDelete ++ taken.map (fun e => toInt e.1),
          (Greedy.select (fits c f leaf level) c.Z l 0).2⟩ := by
      rw [List.length_nil, Nat.sub_zero, PathORAM.ORAM.Selection.extend, Greedy.select_fst]
      simp [htaken]
    rw [hextend]
    change wp (_ >>= _) Q E _
    rw [Greedy.foldl_eraseIdx_select, ← hrest]
    refine wp_bind (wp_zoom (PathORAM.ORAM.fillBucket_spec (Greedy.length_take_le _ _ _) ?_))
    intro dummies r hr hlength hdummies
    -- The MAC of the bucket was stored just before it is looked up.
    refine wp_bind (wp_modify (wp_bind (wp_mono (checkBucket_spec _ _ _ _ _) ?_
      fun _ _ h => absurd ((AList.mem_insert _).mpr (Or.inl rfl)) h.2.2.1)))
    rintro _ _ rfl
    have hsub : ∀ e ∈ rest, e ∈ l := fun e he =>
      (Greedy.take_append_rest_perm (fits c f leaf level) c.Z l).subset
        (List.mem_append_right _ he)
    refine ih (Nat.le_of_succ_le hlevels) (fun e he => hl e (hsub e he)) hR' ?_
    intro bucket m' r' macs hR'' hr' hfilled
    -- The bucket of this level comes first in the requests, before those of the levels below.
    have hlast : Greedy.placedAt (fits c f leaf) c.Z (level + 1) l level = taken := by
      rw [Greedy.placedAt, if_pos rfl]
    have hQ := hQ (fun k => if k = level then taken.reverse ++ dummies else bucket k) m' r' macs
      hR'' (hr'.trans hr) ?_
    · have hmap : (List.range level).reverse.map (fun k => (node c.height k leaf,
          if k = level then taken.reverse ++ dummies else bucket k)) =
          (List.range level).reverse.map (fun k => (node c.height k leaf, bucket k)) :=
        List.map_congr_left fun k hk => by
          rw [List.mem_reverse, List.mem_range] at hk
          rw [if_neg hk.ne]
      rw [List.range_succ, List.reverse_append, List.reverse_singleton, List.singleton_append,
        List.map_cons, if_pos rfl, hmap, Greedy.placed, List.map_append] at hQ
      rw [bucketForLevelLeaf_eq hlevels hheight hleaf, List.append_assoc, List.append_assoc]
      exact hQ
    · intro k hk
      by_cases hlevel : k = level
      · subst hlevel
        rw [if_pos rfl, hlast]
        exact ⟨dummies, rfl, hlength, hdummies⟩
      · rw [if_neg hlevel, Greedy.placedAt, if_neg hlevel]
        exact hfilled k (by omega)

/-- **What the loops leave is an eviction.** -/
theorem evicts_of_filled (hc : c.Valid) (hleaf : leaf < 2 ^ (c.height - 1))
    (hpos : ∀ id ∈ v.stash, id < c.blocks ∧ ∃ leaf' < 2 ^ (c.height - 1), v.pos id = some leaf')
    {l : List Block} (hl : l.Perm v.stash.toList) {bucket : ℕ → Bucket}
    (hfilled : ∀ k < c.height, PathORAM.ORAM.Filled c.toConfig
      (Greedy.placedAt (fits c v.pos leaf) c.Z c.height l k) (bucket k))
    {v' : View} (hpath : ∀ k < c.height, v'.tree (node c.height k leaf) = bucket k)
    (hoff : ∀ b ∉ c.path leaf, v'.tree b = v.tree b)
    (hstash : ∀ id, v'.stash.lookup id =
      if id ∈ (Greedy.placed (fits c v.pos leaf) c.Z c.height l).map
        (fun e => ofInt (toInt e.1)) then none else v.stash.lookup id) :
    Evicts c v.pos leaf v.stash v.tree v' := by
  have hlevel : ∀ b ∈ c.path leaf, ∃ k < c.height, node c.height k leaf = b := fun b hb =>
    HeapTree.mem_path.mp (Config.mem_path.mp hb)
  have hnode : ∀ k < c.height, node c.height k leaf ∈ c.path leaf := fun k hk =>
    Config.mem_path.mpr (node_mem_path hk)
  have hlookup : ∀ e, e ∈ l ↔ v.stash.lookup e.1 = some e.2 := fun e => by
    rw [hl.mem_iff, ← UnorderedMap.mem_toList]
  -- What is placed on a level is in the bucket of the level.
  have hplaced : ∀ k < c.height, ∀ e ∈ Greedy.placedAt (fits c v.pos leaf) c.Z c.height l k,
      e ∈ v'.tree (node c.height k leaf) := fun k hk e he => by
    obtain ⟨dummies, hbucket, -, -⟩ := hfilled k hk
    rw [hpath k hk, hbucket]
    exact List.mem_append_left _ (List.mem_reverse.mpr he)
  refine ⟨PathORAM.ORAM.evicts_of_filled hc hleaf (fun k e h => (fits_iff.mp h).2) hpos hl hfilled
    hpath hoff hstash, ?_, ?_, ?_⟩
  · intro b hb e he hreal
    obtain ⟨k, hk, rfl⟩ := hlevel b hb
    rw [hpath k hk] at he
    exact (fits_iff.mp (Greedy.fits_of_mem_placedAt ((hfilled k hk).mem he hreal))).1.2
  · intro id hid hnot
    have hdeleted : id ∈ (Greedy.placed (fits c v.pos leaf) c.Z c.height l).map
        (fun e => ofInt (toInt e.1)) := by
      by_contra hkeep
      have hnone := hstash id
      rw [if_neg hkeep] at hnone
      obtain ⟨d, hd⟩ := exists_lookup hid
      exact hnot (mem_of_lookup (hnone.trans hd))
    obtain ⟨e, he, heq⟩ := List.mem_map.mp hdeleted
    obtain ⟨k, hk, he⟩ := Greedy.mem_placed.mp he
    exact ⟨_, hnode k hk, e, hplaced k hk e he,
      (fits_iff.mp (Greedy.fits_of_mem_placedAt he)).1.1, heq⟩
  · intro ids hcard hids id d hd hlength hleaf'
    have hlast : c.height - 1 < c.height := Nat.sub_lt hc.height_pos Nat.one_pos
    have honPath : ∀ leaf' < 2 ^ (c.height - 1), ∀ e : Block, v.pos e.1 = some leaf' →
        (PathORAM.ORAM.fits c.toConfig v.pos leaf (c.height - 1) e = true ↔ leaf' = leaf) := by
      intro leaf' hlt e he
      rw [PathORAM.ORAM.fits, he, Option.getD_some,
        PathORAM.ORAM.canInclude_iff hc.height_pos hc.height_le hlast hleaf hlt,
        onPath_node_iff hlast hleaf, node_last, node_last, Nat.add_right_cancel_iff]
    -- The blocks that fit in the bucket are those of the leaf, so all of them are taken.
    have hcount : l.countP (fits c v.pos leaf (c.height - 1)) ≤ c.Z := by
      rw [List.countP_eq_length_filter, ← List.length_map Prod.fst]
      have hnodup : ((l.filter (fits c v.pos leaf (c.height - 1))).map Prod.fst).Nodup :=
        ((hl.map Prod.fst).nodup_iff.mpr v.stash.nodup_keys_toList).sublist
          (List.filter_sublist.map Prod.fst)
      rw [← List.toFinset_card_of_nodup hnodup]
      refine (Finset.card_le_card fun id' hid' => ?_).trans hcard
      obtain ⟨e, he, rfl⟩ := List.mem_map.mp (List.mem_toFinset.mp hid')
      obtain ⟨he, hfit⟩ := List.mem_filter.mp he
      have he := (hlookup e).mp he
      obtain ⟨-, leaf', hlt, hleaf''⟩ := hpos e.1 (mem_of_lookup he)
      refine hids e.1 e.2 he ?_
      rw [hleaf'', (honPath leaf' hlt e hleaf'').mp (fits_iff.mp hfit).2]
    refine hplaced _ hlast (id, d) ?_
    rw [Greedy.placedAt_last hc.height_pos]
    refine Greedy.mem_take _ hcount ((hlookup (id, d)).mpr hd) (fits_iff.mpr ⟨⟨?_, hlength⟩, ?_⟩)
    · exact hc.ne_ULONG_MAX (hpos id (mem_of_lookup hd)).1
    · exact (honPath leaf hleaf (id, d) hleaf').mpr rfl

/-- **Writing a path back** fills its buckets in the cache, and deletes what was placed from the
stash. `l` is the shuffled stash. -/
theorem writePath_filled (hheight : c.height ≤ 31) (hZ : 0 < c.Z)
    (hleaf : leaf < 2 ^ (c.height - 1)) (hpm : pm.Implements n bound R mayThrow)
    (hE : ∀ e s', mayThrow → E e s') (hR : R f s.map) {l : List Block}
    (hshuffle : (PathORAM.InMemoryStashAdapter.getAll s.stash [] s.random).1 = l)
    (hl : ∀ e ∈ l, e.1 < n ∧ ∃ leaf', f e.1 = some leaf') {Q : Unit → ORAM M → Prop}
    (hQ : ∀ (bucket : ℕ → Bucket) m r macs, R f m → r.ulongs = s.random.ulongs →
      (∀ k < c.height, PathORAM.ORAM.Filled c.toConfig
        (Greedy.placedAt (fits c f leaf) c.Z c.height l k) (bucket k)) →
      Q () { s with
        map := m
        random := r
        cache := UnorderedMap.assignAll ((List.range c.height).reverse.map
          (fun k => (node c.height k leaf, bucket k))) s.cache
        stash := ((Greedy.placed (fits c f leaf) c.Z c.height l).map (fun e => toInt e.1)).foldl
          (fun stash removed => PathORAM.InMemoryStashAdapter.deleteBlock (ofInt removed) stash)
          s.stash
        macMap := macs }) :
    wp (writePath c pm leaf) Q E s := by
  unfold writePath
  refine wp_bind (wp_get (wp_bind (wp_modifyGet ?_)))
  -- from here on `l` is the order in which the stash is visited
  rw [hshuffle]
  refine wp_bind (evictLevels_spec hheight hZ hleaf hpm hE le_rfl hl (by exact hR) ?_)
  intro bucket m r macs hR hr hfilled
  rw [List.nil_append, List.nil_append]
  exact wp_bind (wp_zoom (wp_modify (wp_modify (hQ bucket m r macs hR (hr.trans rfl) hfilled))))

/-- **Writing a path back is an eviction.** -/
theorem writePath_spec (hc : c.Valid) (hpm : pm.Implements c.blocks bound R mayThrow)
    (hs : Shows c R v s) (hleaf : leaf < 2 ^ (c.height - 1))
    (hpos : ∀ id ∈ v.stash, id < c.blocks ∧ ∃ leaf' < 2 ^ (c.height - 1), v.pos id = some leaf')
    (hE : ∀ e s', mayThrow → E e s') {Q : Unit → ORAM M → Prop}
    (hQ : ∀ v' s', Shows c R v' s' → Evicts c v.pos leaf v.stash v.tree v' →
      v'.pos = v.pos → v'.coins = v.coins → v'.cached = v.cached ∪ c.path leaf →
      v'.touched = v.touched → Q () s') :
    wp (writePath c pm leaf) Q E s := by
  have hl : (PathORAM.InMemoryStashAdapter.getAll s.stash [] s.random).1.Perm v.stash.toList :=
    hs.stash ▸ PathORAM.InMemoryStashAdapter.perm_getAll s.stash s.random
  refine writePath_filled hc.height_le hc.Z_pos hleaf hpm hE hs.pos rfl
    (PathORAM.ORAM.exists_leaf_of_perm hpos hl) fun bucket m r macs hR hr hfilled => ?_
  obtain ⟨v', hs', hpos', hstash, hcoins, hcached, htouched, hpath, hoff⟩ :=
    PathORAM.ORAM.exists_written hs.toShows hleaf bucket hR hr _
  refine hQ v' _ ⟨hs', hs.isInitializing⟩ ?_ hpos' hcoins hcached htouched
  -- the buckets are filled greedily, which is an eviction along the path
  refine evicts_of_filled hc hleaf hpos hl hfilled hpath hoff fun id => ?_
  rw [hstash, PathORAM.ORAM.lookup_deletePlaced, hs.stash]

end Writing

/-! ### A whole access -/

/-- The remaining steps of an access, from the stash in which the fitted operation was
served. -/
theorem access_write_spec (hc : c.Valid) (hpm : pm.Implements c.blocks bound R mayThrow)
    (hv : v.Valid c.toConfig) {op op₁ : Op} (hop : op.block < c.blocks)
    (hpos : v.pos op.block = some leaf) {v₁ : View} {stash : InMemoryStashAdapter}
    (htrimmed : Trimmed c v leaf v₁) (hfitted : FittedOp c v leaf op op₁)
    (habsorbs : AbsorbsAll c.toConfig v₁ leaf stash)
    (hfitting : ∀ id d, stash.lookup id = some d → View.Fitting c v d.length)
    (hroom : v.stash.keys.length ≤ c.stashCapacity →
      (op₁.serve stash).keys.length ≤ c.stashCapacity)
    (hs : Shows c R { (v.remap c.toConfig op.block).fetch (c.path leaf) with
      stash := op₁.serve stash } s) :
    wp (writePath c pm leaf >>= fun _ =>
        pure (PathORAM.InMemoryStashAdapter.get s.stash op.block []))
      (fun response s' => ∃ leaf stash v',
        Access c v op leaf stash response v' ∧ Shows c R v' s')
      (fun _ _ => mayThrow) s := by
  have hleaf := hv.leaf_lt hop hpos
  have hblock := hfitted.block_eq
  have hids : ∀ id ∈ op₁.serve stash, id < c.blocks :=
    View.Within.serve ((htrimmed.valid hv).within.absorbs hleaf habsorbs.toAbsorbs)
      (Op.forall_write (by rwa [hblock]))
  refine wp_bind (writePath_spec hc hpm hs hleaf
    (fun id hid => ⟨hids id hid, hv.remap_pos op.block id (hids id hid)⟩) (fun _ _ h => h) ?_)
  intro v' s' hs' hevicts hpos' hcoins hcached htouched
  -- The path is written over, so it does not matter that its blocks were trimmed.
  have hevicts : Evicts c v'.pos leaf (op₁.serve stash) v₁.tree v' :=
    { hevicts with
      off_path := fun b hb => (hevicts.off_path b hb).trans (htrimmed.off_path hb).symm
      fits := hpos' ▸ hevicts.fits
      leaf_bucket := hpos' ▸ hevicts.leaf_bucket }
  refine wp_pure ⟨leaf, stash, v', ⟨htrimmed, hfitted, ?_, hevicts, hfitting, hroom⟩, hs'⟩
  have hget : PathORAM.InMemoryStashAdapter.get s.stash op.block [] =
      ((op₁.serve stash).lookup op₁.block).getD [] := by
    rw [hblock, ← hs.stash]
    unfold PathORAM.InMemoryStashAdapter.get
    cases (op₁.serve stash).lookup op.block with
    | none => rfl
    | some d => exact List.append_nil d
  refine ⟨?_, habsorbs, hget, hevicts.toEvicts, ?_, ?_, ?_, ?_⟩
  · rw [hblock, htrimmed.pos]
    exact hpos
  · rw [hpos', hblock]
    change Function.update v.pos _ _ = Function.update v₁.pos _ _
    rw [htrimmed.rest]
  · rw [hcoins, hblock]
    change v.coins.tail = v₁.coins.tail
    rw [htrimmed.rest]
  · rw [hcached]
    change _ = v₁.cached ∪ c.path leaf
    rw [htrimmed.cached]
    exact Finset.union_eq_left.mpr Finset.subset_union_right
  · rw [htouched]
    change _ = v₁.touched ++ Touch.reads (c.path leaf \ v₁.cached)
    rw [htrimmed.rest]
    rfl

/-- **The code of an access runs the protocol.** If it returns it is an `Access`; if it
throws it is an `Overflow`, unless the position map threw. -/
theorem access_spec (hc : c.Valid) (hpm : pm.Implements c.blocks bound R mayThrow)
    (hbound : 2 ^ (c.height - 1) ≤ bound) (hv : v.Valid c.toConfig) (hs : Shows c R v s)
    (hsized : View.Sized c v) (hsmall : v.Within c.toConfig (· ≤ 10 ^ 12)) (read : Bool)
    {block : ℕ} (hblock : block < c.blocks) (data : Bytes) :
    wp (access c pm read block data [])
      (fun response s' => ∃ leaf stash v',
        Access c v (PathORAM.ORAM.opOfAccess read block data) leaf stash response v' ∧
          Shows c R v' s')
      (fun e _ => mayThrow ∨ e = .overCapacity c.stashCapacity ∧ ∃ leaf,
        v.pos block = some leaf ∧
          Overflow c v (PathORAM.ORAM.opOfAccess read block data) leaf) s := by
  obtain ⟨leaf, hleaf, hpos⟩ := hv.pos block hblock
  have hopblock := PathORAM.ORAM.block_opOfAccess read block data
  generalize hop : PathORAM.ORAM.opOfAccess read block data = op at *
  subst hopblock
  unfold access
  -- Remap the block.
  refine wp_bind (wp_mapGet hpm hs.pos hblock hpos (fun m hR => ?_) (fun e s' h => Or.inl h))
  refine wp_bind (wp_modifyGet ?_)
  have hdraw : (Random.getRandomULong (intShl (c.height - 1)) s.random).1 =
      v.coins.head % 2 ^ (c.height - 1) := by
    rw [hs.coins, hc.intShl_height]
    rfl
  refine wp_bind (wp_mapSet hpm (by exact hR) hblock
    (by rw [hdraw]; exact (Nat.mod_lt _ (Nat.two_pow_pos _)).trans_le hbound)
    (fun m' hR' => ?_) (fun e s' h => Or.inl h))
  rw [hdraw] at hR'
  have hs₁ : Shows c R (v.remap c.toConfig op.block)
      { s with
        map := m'
        random := (Random.getRandomULong (intShl (c.height - 1)) s.random).2 } :=
    ⟨⟨hR', hs.tree, hs.stash, congrArg Stream'.tail hs.coins, hs.cached, hs.touched,
      hs.readable⟩, hs.isInitializing⟩
  -- Read the path. The remapping changed neither the stash nor the tree.
  refine wp_bind (wp_mono (readPath_spec hc hs₁ hleaf hsized ⟨hsmall.tree, hsmall.stash⟩) ?_ ?_)
  · rintro _ s₂ ⟨stash, v', htrimmed', habsorbs', hs₂, hfitting, hroom⟩
    have htrimmed : Trimmed c v leaf { v with tree := v'.tree } := ⟨htrimmed'.tree, rfl⟩
    have habsorbs : AbsorbsAll c.toConfig { v with tree := v'.tree } leaf stash :=
      ⟨⟨fun id d hd => habsorbs'.keep id d (by rw [htrimmed'.stash]; exact hd),
        fun id d hd => (habsorbs'.source id d hd).imp_left fun h => by
          rw [htrimmed'.stash] at h
          exact h⟩, habsorbs'.all⟩
    cases read with
    | true =>
      have hfitted : FittedOp c v leaf op op := by
        rw [← hop]
        exact .read _
      have hserve : op.serve stash = stash := by
        rw [← hop]
        rfl
      have hwrite := access_write_spec (s := s₂) hc hpm hv hblock hpos htrimmed hfitted habsorbs
        hfitting (by rw [hserve]; exact hroom) (by rw [hserve]; exact hs₂)
      simp only [Bool.not_true, Bool.false_eq_true, if_false]
      exact wp_bind (wp_get (wp_mono hwrite (fun _ _ h => h) fun _ _ h => Or.inl h))
    | false =>
      have hwrites : op = .write op.block data := hop.symm
      simp only [Bool.not_false, if_true]
      refine wp_bind (wp_mono (stashUpdate_fitted op.block data s₂) ?_ ?_)
      · rintro _ _ ⟨size, r, hr, hsize, hnotFull, rfl⟩
        have hstash : stash = s₂.stash := hs₂.stash
        rw [← hstash] at hsize hnotFull
        have hfitted : FittedOp c v leaf op
            (.write op.block (InMemoryStashAdapter.resize size data)) := by
          rw [← hop]
          refine .write _ data ?_
          rcases hsize with ⟨id, d, hd, rfl⟩ | ⟨hnone, rfl⟩
          · refine Or.inr ⟨fun hbare => ?_, hfitting id d hd⟩
            -- The entry was in the stash or on the path.
            rcases habsorbs.mem (mem_of_lookup hd) with hmem | ⟨b, hb, e', he', hreal, -⟩
            · rw [show ({ v with tree := v'.tree } : View).stash = ∅ from hbare.1] at hmem
              exact AList.notMem_empty _ hmem
            · obtain ⟨e, he, hid, -⟩ := htrimmed.exists_block he'
              exact hbare.2 b hb e he ((real_of_fst_eq hid).mp hreal)
          · -- The stash is empty after the path was read, so the path has no blocks.
            subst hnone
            refine Or.inl ⟨⟨?_, fun b hb e he hreal => ?_⟩, rfl⟩
            · refine AList.ext (List.eq_nil_iff_forall_not_mem.mpr fun e he => ?_)
              have hmem : e.1 ∈ v.stash := List.mem_keys_of_mem he
              exact AList.notMem_empty _ (habsorbs.keep_mem hmem)
            · obtain ⟨e', he', hid⟩ := htrimmed.exists_trimmed he
              exact AList.notMem_empty _ (habsorbs.all b hb e' he' ((real_of_fst_eq hid).mpr hreal))
        have hwrite := access_write_spec (s := { s₂ with
            stash := AList.insert op.block (InMemoryStashAdapter.resize size data) s₂.stash
            random := r }) hc hpm hv hblock hpos htrimmed hfitted habsorbs hfitting
          (fun hle => length_insert_le (hroom hle) hnotFull) ?_
        · exact wp_bind (wp_get (wp_mono hwrite (fun _ _ h => h) fun _ _ h => Or.inl h))
        · refine ⟨⟨hs₂.pos, hs₂.tree, ?_, hs₂.coins.trans hr.symm, hs₂.cached, hs₂.touched,
            hs₂.readable⟩, hs₂.isInitializing⟩
          exact congrArg (AList.insert op.block _) hstash
      -- The stash has no room for the payload.
      · rintro _ _ ⟨rfl, hfull, hnot⟩
        refine Or.inr ⟨rfl, leaf, hpos, s₂.stash, hfull, fun id hid => ?_, op.block, hnot,
          Or.inr ⟨data, hwrites⟩⟩
        have hstash : stash = s₂.stash := hs₂.stash
        rw [← hstash] at hid
        refine (habsorbs.mem hid).imp_right ?_
        rintro ⟨b, hb, e', he', hreal, rfl⟩
        obtain ⟨e, he, hid, -⟩ := htrimmed.exists_block he'
        exact ⟨b, hb, e, he, (real_of_fst_eq hid).mp hreal, hid.symm⟩
  · rintro _ _ ⟨rfl, stash, hfull, hnear, id, hnot, hid⟩
    exact Or.inr ⟨rfl, leaf, hpos, stash, hfull, hnear, id, hnot, Or.inl hid⟩

end ORAM

end CloakQueryPathORAM
