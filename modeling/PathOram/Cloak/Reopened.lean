import PathOram.Cloak.Macs
import PathOram.Lib.Mirror

/-!
# An ORAM that is not initializing

An ORAM that was constructed with `initialize` unset verifies what it reads. The verification
accepts every bucket that has a MAC at all, so where the MACs are there, a read runs as in an
ORAM that is still initializing.

* `lookedUp` — the ID under which `getCache` looks for the MAC of a bucket. It may be that of
  another bucket, or 0.
* `Verifiable` — all MACs are there that are looked up when a path is read.
* `access_verifying` — then an access does the same with and without the verification.
* `Sealed` — the MACs that a call leaves: those that were there, and those of its path.
* `getBlock_lacks` — a `get` does not return if the MAC of a bucket of its path is missing.
-/

namespace CloakQueryPathORAM

open PathORAM Hoare HeapTree

namespace ORAM

/-- The ID that the search of `getCache` ends with, for a bucket. -/
def lookedUp (height bucketId : ℕ) : ℕ :=
  bucketForLevelLeaf height (searchBucket height bucketId height 0 0).1
    (searchBucket height bucketId height 0 0).2

variable {c : Config} {M : Type} {leaf : ℕ}

/-- The MACs are there that are looked up when the path of the leaf is read. -/
def Verifiable (c : Config) (leaf : ℕ) (s : ORAM M) : Prop :=
  ∀ b ∈ c.path leaf, b ∈ s.macMap ∧ lookedUp c.height b ∈ s.macMap

/-- The ORAM with the verification switched on. -/
def verifying (s : ORAM M) : ORAM M := { s with isInitializing := false }

/-- An ORAM that does not verify, but would find the MACs. -/
structure Lenient (c : Config) (leaf : ℕ) (s : ORAM M) : Prop where
  isInitializing : s.isInitializing = true
  macs : Verifiable c leaf s

/-- `x` does the same with and without the verification. -/
abbrev Indifferent (c : Config) (leaf : ℕ) {α : Type} (R : α → Prop) (x : OramM M α) : Prop :=
  Mirrors verifying (Lenient c leaf) R x

theorem indifferent_withRandom {α : Type} {R : α → Prop} {f : Random → α × Random}
    (hf : ∀ r, R (f r).1) : Indifferent c leaf R (withRandom f : OramM M α) :=
  mirrors_modifyGet (fun _ => rfl) fun s hI => ⟨hf s.random, hI.isInitializing, hI.macs⟩

theorem indifferent_modify {f : ORAM M → ORAM M} (hcomm : ∀ s, f (verifying s) = verifying (f s))
    (hinit : ∀ s, (f s).isInitializing = s.isInitializing)
    (hmacs : ∀ s, ∀ b ∈ s.macMap, b ∈ (f s).macMap) :
    Indifferent c leaf (fun _ => True) (modify f : OramM M Unit) :=
  mirrors_modify hcomm fun s hI => ⟨(hinit s).trans hI.isInitializing, fun b hb =>
    ⟨hmacs s _ (hI.macs b hb).1, hmacs s _ (hI.macs b hb).2⟩⟩

theorem indifferent_zoom {τ α : Type} {L : Lens (ORAM M) τ}
    (hget : ∀ s, L.get (verifying s) = L.get s)
    (hset : ∀ t s, L.set t (verifying s) = verifying (L.set t s))
    (hinit : ∀ t s, (L.set t s).isInitializing = s.isInitializing)
    (hmacs : ∀ t s, (L.set t s).macMap = s.macMap) (x : EStateM Exception τ α) :
    Indifferent c leaf (fun _ => True) (zoom L x) :=
  mirrors_zoom_of_frame hget hset (fun t s hI =>
    ⟨(hinit t s).trans hI.isInitializing, fun b hb => hmacs t s ▸ hI.macs b hb⟩) x

/-- A bucket whose MAC is there passes. -/
theorem checkBucket_ok {bucketId level leaf : ℕ} (bucketData : Bucket) {s : ORAM M}
    (h : bucketForLevelLeaf c.height level leaf ∈ s.macMap) :
    checkBucket c bucketId level leaf bucketData s = .ok () s := by
  obtain ⟨_, s', hrun, rfl⟩ := (wp_mono (checkBucket_spec bucketId level leaf bucketData s)
    (fun _ _ h => h) fun _ _ ⟨_, _, hnot, _⟩ => hnot h).exists_ok
  exact hrun

theorem indifferent_checkBucket {bucketId level leaf' : ℕ} (bucketData : Bucket)
    (h : ∀ s : ORAM M, Verifiable c leaf s → bucketForLevelLeaf c.height level leaf' ∈ s.macMap) :
    Indifferent c leaf (fun _ => True) (checkBucket c bucketId level leaf' bucketData : OramM M _) :=
  fun s hI => wp_of_ok (checkBucket_ok bucketData (h s hI.macs))
    ⟨trivial, hI, checkBucket_ok bucketData (h s hI.macs)⟩

/-! ### Reading -/

theorem indifferent_addToCache {toGet : List ℕ}
    (htoGet : ∀ b ∈ toGet, b ∈ c.path leaf) {blocks : List Block} {i : ℕ}
    (hi : i + blocks.length ≤ toGet.length * c.Z) (bucket : Bucket) :
    Indifferent c leaf (fun _ => True) (addToCache c toGet blocks i bucket : OramM M Unit) := by
  induction blocks generalizing i bucket with
  | nil => exact mirrors_pure trivial
  | cons block rest ih =>
    rw [List.length_cons] at hi
    rw [addToCache]
    split
    -- the block number `i` belongs to the bucket `i / Z` of the download
    · have hlt : i / c.Z < toGet.length := Nat.div_lt_of_lt_mul (by rw [mul_comm]; omega)
      have hmem : toGet.getD (i / c.Z) 0 ∈ c.path leaf := by
        rw [List.getD_eq_getElem?_getD, List.getElem?_eq_getElem hlt]
        exact htoGet _ (List.getElem_mem hlt)
      -- the bucket has a MAC, so its check changes nothing
      refine mirrors_bind (indifferent_checkBucket _ fun s hs => (hs _ hmem).2) fun _ _ => ?_
      exact mirrors_bind (indifferent_modify (fun _ => rfl) (fun _ => rfl) fun _ _ h => h)
        fun _ _ => ih (by omega) _
    · exact ih (by omega) _

theorem indifferent_getCache (hc : c.Valid) {locations : List ℕ}
    (hlocations : ∀ b ∈ locations, b ∈ c.path leaf) (response : List Block) (dryRun : Bool) :
    Indifferent c leaf (fun _ => True) (getCache c locations response dryRun : OramM M _) := by
  unfold getCache
  refine mirrors_bind (R := fun visited => ∀ b ∈ visited, b ∈ c.path leaf)
    (indifferent_withRandom fun r b hb =>
      hlocations b ((Random.perm_iterate locations r).mem_iff.mp hb)) fun visited hvisited => ?_
  refine mirrors_get_bind (fun _ => rfl) fun s _ => ?_
  -- What is downloaded is among the locations.
  have hfst := PathORAM.ORAM.lookupCache_fst s.cache dryRun visited [] response
  generalize PathORAM.ORAM.lookupCache s.cache dryRun visited [] response = found at *
  obtain ⟨toGet, response⟩ := found
  have htoGet : ∀ b ∈ toGet, b ∈ c.path leaf := fun b hb => by
    rw [show toGet = _ from hfst, List.nil_append] at hb
    exact hvisited b (List.mem_of_mem_filter hb)
  change Indifferent c leaf _ (if toGet.length > 0 then _ else _)
  split
  · refine mirrors_bind (R := fun downloaded => downloaded.length = toGet.length * c.Z)
      (mirrors_zoom (fun _ => rfl) (fun _ _ => rfl) (fun _ _ hI => ⟨hI.isInitializing, hI.macs⟩)
        fun t => wp_mono (AbsStorageAdapter.get_returned toGet t) ?_ fun _ _ h => h)
      fun downloaded hlength => ?_
    · rintro blocks _ ⟨-, rfl, hread⟩
      rw [List.length_flatMap, List.map_congr_left fun b hb => (hread b hb).2.length,
        List.map_const', List.sum_replicate_nat, hc.Z_eq]
    · exact mirrors_bind (indifferent_addToCache htoGet (by rw [hlength, zero_add]) _)
        fun _ _ => mirrors_pure trivial
  · exact mirrors_pure trivial

theorem indifferent_stash {x : Option Block → EStateM Exception InMemoryStashAdapter Unit} :
    Indifferent c leaf (fun _ => True) (do
      let s ← get
      let first ← withRandom (InMemoryStashAdapter.beginEntry s.stash)
      zoom stashLens (x first) : OramM M Unit) := by
  refine mirrors_get_bind (fun _ => rfl) fun s _ => ?_
  refine mirrors_bind (R := fun _ => True) (indifferent_withRandom fun _ => trivial)
    fun first _ => ?_
  exact indifferent_zoom (fun _ => rfl) (fun _ _ => rfl) (fun _ _ => rfl) (fun _ _ => rfl) _

theorem indifferent_addToStash (blocks : List Block) :
    Indifferent c leaf (fun _ => True) (addToStash c blocks : OramM M _) := by
  induction blocks with
  | nil => exact mirrors_pure trivial
  | cons block rest ih =>
    rw [addToStash]
    split
    · exact mirrors_bind indifferent_stash fun _ _ => ih
    · exact ih

theorem indifferent_verifyPath (hc : c.Valid) (hleaf : leaf < 2 ^ (c.height - 1))
    {visited : List ℕ} (hvisited : ∀ b ∈ visited, b ∈ c.path leaf) :
    Indifferent c leaf (fun _ => True) (verifyPath c leaf visited : OramM M _) := by
  induction visited with
  | nil => exact mirrors_pure trivial
  | cons bucketId rest ih =>
    have hmem := hvisited bucketId List.mem_cons_self
    rw [verifyPath]
    refine mirrors_bind (indifferent_modify (fun _ => rfl) (fun _ => rfl) fun _ _ h => h)
      fun _ _ => mirrors_get_bind (fun _ => rfl) fun s _ => ?_
    refine mirrors_bind (indifferent_checkBucket _ fun s hs => ?_) fun _ _ =>
      ih fun b hb => hvisited b (List.mem_cons_of_mem _ hb)
    -- The search finds the level, so the bucket is verified against its own MAC.
    rw [searchLevel_of_mem_path hc hleaf (Config.mem_path.mp hmem)]
    exact (hs bucketId hmem).1

theorem indifferent_readPath (hc : c.Valid) (hleaf : leaf < 2 ^ (c.height - 1)) :
    Indifferent c leaf (fun _ => True) (readPath c leaf [] true : OramM M _) := by
  have hmem : ∀ b ∈ pathLocations c leaf [], b ∈ c.path leaf := fun b hb =>
    Config.mem_path.mpr (((mem_pathLocations hc hleaf).mp hb).resolve_left List.not_mem_nil)
  unfold readPath
  refine mirrors_bind (indifferent_getCache hc hmem _ _) fun blocks _ => ?_
  refine mirrors_bind (indifferent_addToStash blocks) fun _ _ => ?_
  refine mirrors_bind (R := fun visited => ∀ b ∈ visited, b ∈ c.path leaf)
    (indifferent_withRandom fun r b hb => hmem b ((Random.perm_iterate _ r).mem_iff.mp hb))
    fun visited hvisited => ?_
  exact mirrors_bind (indifferent_verifyPath hc hleaf hvisited) fun _ _ => mirrors_pure trivial

/-! ### Writing -/

/-- A bucket has a MAC by the time it is verified on its way back. -/
theorem indifferent_seal {α : Type} {R : α → Prop} {x : OramM M α} {level leaf' bucketId : ℕ}
    {bucketData : Bucket} (hx : Indifferent c leaf R x) : Indifferent c leaf R (do
      computeAndStoreBucketMAC c level leaf' bucketData
      checkBucket c bucketId level leaf' bucketData
      x) := by
  -- the MAC has just been stored when it is checked
  have hrun : ∀ s : ORAM M, (do
      computeAndStoreBucketMAC c level leaf' bucketData
      checkBucket c bucketId level leaf' bucketData
      x : OramM M α) s = x { s with
        macMap := s.macMap.insert (bucketForLevelLeaf c.height level leaf')
          (bucketMAC c bucketData) } := fun s =>
    (bind_of_ok rfl _).trans
      (bind_of_ok (checkBucket_ok _ (AList.mem_insert _ |>.mpr (Or.inl rfl))) _)
  intro s hI
  unfold MirrorsAt wp
  rw [hrun s, hrun (verifying s)]
  exact hx _ ⟨hI.isInitializing, fun b hb => ⟨AList.mem_insert _ |>.mpr (Or.inr (hI.macs b hb).1),
    AList.mem_insert _ |>.mpr (Or.inr (hI.macs b hb).2)⟩⟩

section Eviction

variable {pm : AbsPositionMapAdapter M}

theorem indifferent_map {α : Type} (x : EStateM Exception M α) :
    Indifferent c leaf (fun _ => True) (zoom mapLens x : OramM M α) :=
  indifferent_zoom (fun _ => rfl) (fun _ _ => rfl) (fun _ _ => rfl) (fun _ _ => rfl) x

theorem indifferent_base {α : Type} (x : PathORAM.OramM M α) :
    Indifferent c leaf (fun _ => True) (zoom baseLens x : OramM M α) :=
  indifferent_zoom (fun _ => rfl) (fun _ _ => rfl) (fun _ _ => rfl) (fun _ _ => rfl) x

theorem indifferent_selectBlocks (leaf' level : ℕ) (l : List Block) (i : ℕ)
    (sel : PathORAM.ORAM.Selection) :
    Indifferent c leaf (fun _ => True) (selectBlocks c pm leaf' level l i sel) := by
  -- the position map alone is asked, in both states
  induction l generalizing i sel with
  | nil => exact mirrors_pure trivial
  | cons entry rest ih =>
    rw [selectBlocks]
    split
    · exact ih _ _
    · refine mirrors_bind (indifferent_map _) fun entryLeaf _ => ?_
      split
      · change Indifferent c leaf _ (if (sel.toInsert ++ [entry]).length = c.Z then _ else _)
        split
        · exact mirrors_pure trivial
        · exact ih _ _
      · exact ih _ _

theorem indifferent_evictLevels (leaf' levels : ℕ) (l : List Block) (toDelete : List (BitVec 32))
    (requests : List (ℕ × Bucket)) :
    Indifferent c leaf (fun _ => True) (evictLevels c pm leaf' levels l toDelete requests) := by
  induction levels generalizing l toDelete requests with
  | zero => exact mirrors_pure trivial
  | succ level ih =>
    rw [evictLevels]
    refine mirrors_bind (indifferent_selectBlocks _ _ _ _ _) fun sel _ => ?_
    exact mirrors_bind (indifferent_base _) fun bucketData _ => indifferent_seal (ih _ _ _)

theorem indifferent_writePath (leaf' : ℕ) :
    Indifferent c leaf (fun _ => True) (writePath c pm leaf') := by
  unfold writePath
  refine mirrors_get_bind (fun _ => rfl) fun s _ => ?_
  refine mirrors_bind (R := fun _ => True) (indifferent_withRandom fun _ => trivial) fun l _ => ?_
  refine mirrors_bind (indifferent_evictLevels leaf' c.height l [] []) fun result _ => ?_
  exact mirrors_bind (indifferent_base _) fun _ _ =>
    indifferent_modify (fun _ => rfl) (fun _ => rfl) fun _ _ h => h

/-- **An access does the same with and without the verification**, if the MACs are there that are
looked up on the path of its leaf. -/
theorem access_verifying (hc : c.Valid) (hleaf : leaf < 2 ^ (c.height - 1)) (read : Bool)
    {block : ℕ} {s : ORAM M} (hs : Lenient c leaf s)
    (hpos : returned (pm.get block) s.map = some leaf) (data response : Bytes) :
    MirrorsAt verifying (Lenient c leaf) (fun _ => True)
      (access c pm read block data response) s := by
  unfold access
  -- The first step returns the leaf.
  refine MirrorsAt.bind (R := fun l => l = leaf) ?_ ?_
  · have hrun := zoom_of_ok (L := mapLens) (s := s) (eq_ok_of_returned hpos)
    have hrun' := zoom_of_ok (L := mapLens) (s := verifying s) (eq_ok_of_returned hpos)
    exact wp_of_ok hrun ⟨rfl, ⟨hs.isInitializing, hs.macs⟩, hrun'⟩
  · rintro _ rfl
    refine mirrors_bind (R := fun _ => True) (indifferent_withRandom fun _ => trivial)
      fun leaf' _ => ?_
    refine mirrors_bind (indifferent_map _) fun _ _ => ?_
    refine mirrors_bind (indifferent_readPath hc hleaf) fun _ _ => ?_
    cases read with
    | true =>
      refine mirrors_get_bind (fun _ => rfl) fun t _ => ?_
      exact mirrors_bind (indifferent_writePath _) fun _ _ => mirrors_pure trivial
    | false =>
      refine mirrors_bind (indifferent_stash (x := fun first =>
        InMemoryStashAdapter.update c.stashCapacity first block data)) fun _ _ => ?_
      refine mirrors_get_bind (fun _ => rfl) fun t _ => ?_
      exact mirrors_bind (indifferent_writePath _) fun _ _ => mirrors_pure trivial

/-- So do the public calls. -/
theorem getBlock_verifying (hc : c.Valid) (hleaf : leaf < 2 ^ (c.height - 1)) {block : ℕ}
    {s : ORAM M} (hs : Lenient c leaf s) (hpos : returned (pm.get block) s.map = some leaf)
    (response : Bytes) :
    MirrorsAt verifying (Lenient c leaf) (fun _ => True) (getBlock c pm block response) s := by
  unfold getBlock
  exact MirrorsAt.bind (access_verifying hc hleaf true hs hpos [] response) fun response' _ =>
    mirrors_bind (indifferent_base _) fun _ _ => mirrors_pure trivial

theorem putBlock_verifying (hc : c.Valid) (hleaf : leaf < 2 ^ (c.height - 1)) {block : ℕ}
    {s : ORAM M} (hs : Lenient c leaf s) (hpos : returned (pm.get block) s.map = some leaf)
    (data : Bytes) :
    MirrorsAt verifying (Lenient c leaf) (fun _ => True) (putBlock c pm block data) s := by
  unfold putBlock
  exact MirrorsAt.bind (access_verifying hc hleaf false hs hpos data []) fun _ _ =>
    indifferent_base _

end Eviction

/-! ### The MACs a call leaves -/

section Sealed

variable {pm : AbsPositionMapAdapter M} {s s' : ORAM M}

/-- The members that only a new MAC or a new container changes. -/
def seals (s : ORAM M) : UnorderedMap Bytes × Finset ℕ := (s.macMap, s.usedBlockIDs)

/-- `g` does not look at what the reading of a path changes. -/
structure IgnoresReading {γ : Type} (g : ORAM M → γ) : Prop extends IgnoresDownloads g where
  stash : ∀ s stash, g { s with stash := stash } = g s

theorem ignoresReading_seals : IgnoresReading (seals : ORAM M → _) :=
  ⟨⟨fun _ _ => rfl, fun _ _ => rfl, fun _ _ => rfl⟩, fun _ _ => rfl⟩

section Reading

variable {γ : Type} {g : ORAM M → γ} (hg : IgnoresReading g)

include hg

theorem keeps_stash {x : Option Block → EStateM Exception InMemoryStashAdapter Unit} :
    Hoare.Keeps g (do
      let s ← get
      let first ← withRandom (InMemoryStashAdapter.beginEntry s.stash)
      zoom stashLens (x first) : OramM M Unit) :=
  keeps_bind keeps_get fun _ => keeps_bind (keeps_modifyGet fun s => hg.random s _) fun _ =>
    keeps_zoom (fun t s => hg.stash s t) _

theorem keeps_addToStash (blocks : List Block) :
    Hoare.Keeps g (addToStash c blocks : OramM M Unit) := by
  induction blocks with
  | nil => exact keeps_pure _
  | cons block rest ih =>
    rw [addToStash]
    split
    · exact keeps_bind (keeps_stash hg) fun _ => ih
    · exact ih

theorem keeps_verifyPath (visited : List ℕ) :
    Hoare.Keeps g (verifyPath c leaf visited : OramM M Unit) := by
  induction visited with
  | nil => exact keeps_pure _
  | cons bucketId rest ih =>
    rw [verifyPath]
    exact keeps_bind (keeps_modify fun s => hg.cache s _) fun _ => keeps_bind keeps_get fun _ =>
      keeps_bind (keeps_checkBucket _ _ _ _) fun _ => ih

theorem keeps_readPath : Hoare.Keeps g (readPath c leaf [] true : OramM M (List ℕ)) :=
  keeps_bind (keeps_getCache hg.toIgnoresDownloads _ _ _) fun _ =>
    keeps_bind (keeps_addToStash hg _) fun _ => keeps_bind (keeps_modifyGet fun s => hg.random s _)
      fun _ => keeps_bind (keeps_verifyPath hg _) fun _ => keeps_pure _

end Reading

theorem keeps_selectBlocks (level : ℕ) (l : List Block) (i : ℕ)
    (sel : PathORAM.ORAM.Selection) : Hoare.Keeps seals (selectBlocks c pm leaf level l i sel) := by
  -- no MAC is touched by the selection
  induction l generalizing i sel with
  | nil => exact keeps_pure _
  | cons entry rest ih =>
    rw [selectBlocks]
    split
    · exact ih _ _
    · refine keeps_bind (keeps_zoom (fun _ _ => rfl) _) fun entryLeaf => ?_
      split
      · change Hoare.Keeps _ (if (sel.toInsert ++ [entry]).length = c.Z then _ else _)
        split
        · exact keeps_pure _
        · exact ih _ _
      · exact ih _ _

/-- The MACs of `s'` are those of `s` and new ones of the locations in `P`. -/
structure Sealed (c : Config) (P : ℕ → Prop) (s s' : ORAM M) : Prop where
  used : s'.usedBlockIDs = s.usedBlockIDs
  mem : ∀ b, b ∈ s'.macMap ↔ b ∈ s.macMap ∨ P b
  lookup : ∀ b mac, s'.macMap.lookup b = some mac →
    s.macMap.lookup b = some mac ∨ ∃ data, mac = c.hmac c.key data

theorem Sealed.refl {P : ℕ → Prop} (s : ORAM M) (hP : ∀ b, ¬P b) : Sealed c P s s :=
  ⟨rfl, fun b => (or_iff_left (hP b)).symm, fun _ _ => .inl⟩

theorem Sealed.congr {P Q : ℕ → Prop} {t t' : ORAM M} (h : Sealed c P s s')
    (ht : seals t = seals s) (ht' : seals t' = seals s') (hPQ : ∀ b, P b ↔ Q b) :
    Sealed c Q t t' := by
  obtain ⟨hmacs, hused⟩ := Prod.mk.inj ht
  obtain ⟨hmacs', hused'⟩ := Prod.mk.inj ht'
  exact ⟨by rw [hused', hused, h.used], fun b => by rw [hmacs', hmacs, h.mem, hPQ],
    fun b mac hmac => hmacs ▸ h.lookup b mac (hmacs' ▸ hmac)⟩

/-- A bucket is sealed, and then others are. -/
theorem Sealed.cons {P Q : ℕ → Prop} {level : ℕ} {bucketData : Bucket}
    {t : ORAM M} (ht : seals t = (s.macMap.insert (bucketForLevelLeaf c.height level leaf)
      (bucketMAC c bucketData), s.usedBlockIDs)) (h : Sealed c P t s')
    (hQ : ∀ b, Q b ↔ P b ∨ b = bucketForLevelLeaf c.height level leaf) : Sealed c Q s s' := by
  obtain ⟨hmacs, hused⟩ := Prod.mk.inj ht
  refine ⟨h.used.trans hused, fun b => ?_, fun b mac hmac => ?_⟩
  · rw [h.mem, hQ, hmacs, AList.mem_insert]
    tauto
  -- a MAC of the later levels, the one of this level, or one from before
  · refine (h.lookup b mac hmac).elim (fun hlookup => ?_) .inr
    rw [hmacs] at hlookup
    by_cases hb : b = bucketForLevelLeaf c.height level leaf
    · subst hb
      have hnew := (AList.lookup_insert _).symm.trans hlookup
      exact .inr ⟨_, (Option.some.inj hnew).symm⟩
    · exact .inl ((AList.lookup_insert_ne hb).symm.trans hlookup)

/-- The loop seals the buckets of the levels it passes. -/
theorem evictLevels_sealed (levels : ℕ) (l : List Block) (toDelete : List (BitVec 32))
    (requests : List (ℕ × Bucket)) (s : ORAM M) :
    wp (evictLevels c pm leaf levels l toDelete requests)
      (fun _ s' => Sealed c (fun b => ∃ level < levels,
        bucketForLevelLeaf c.height level leaf = b) s s') (fun _ _ => True) s := by
  -- from the leaves up: each level adds the MAC of its bucket
  induction levels generalizing l toDelete requests s with
  | zero => exact wp_pure (Sealed.refl _ fun b ⟨_, hlt, _⟩ => Nat.not_lt_zero _ hlt)
  | succ level ih =>
    rw [evictLevels]
    refine wp_bind (wp_mono (keeps_selectBlocks _ _ _ _ s) ?_ fun _ _ _ => trivial)
    intro sel s₁ hs₁
    refine wp_bind (wp_mono (keeps_zoom (g := seals) (fun _ _ => rfl) _ s₁) ?_
      fun _ _ _ => trivial)
    intro bucketData s₂ hs₂
    refine wp_bind (wp_modify (wp_bind (wp_mono (checkBucket_spec _ _ _ _ _) ?_
      fun _ _ _ => trivial)))
    rintro _ _ rfl
    refine wp_mono (ih _ _ _ _) ?_ fun _ _ _ => trivial
    intro _ s' hs'
    -- the levels below and this one
    have hsealed : Sealed c (fun b => ∃ level' < level + 1,
        bucketForLevelLeaf c.height level' leaf = b) s₂ s' := Sealed.cons rfl hs' fun b => by
      constructor
      · rintro ⟨level', hlt, hb⟩
        rcases Nat.lt_succ_iff_lt_or_eq.mp hlt with hlt | rfl
        · exact .inl ⟨level', hlt, hb⟩
        · exact .inr hb.symm
      · rintro (⟨level', hlt, hb⟩ | rfl)
        · exact ⟨level', Nat.lt_succ_of_lt hlt, hb⟩
        · exact ⟨level, Nat.lt_succ_self level, rfl⟩
    exact hsealed.congr (hs₂.trans hs₁).symm rfl fun _ => Iff.rfl

/-- `x` seals the path of the leaf, if it returns. -/
def SealsPath (c : Config) (leaf : ℕ) {α : Type} (x : OramM M α) : Prop :=
  ∀ s, wp x (fun _ s' => Sealed c (· ∈ c.path leaf) s s') (fun _ _ => True) s

theorem sealsPath_bind_right {α β : Type} {x : OramM M α} {f : α → OramM M β}
    (hx : Hoare.Keeps seals x) (hf : ∀ a, SealsPath c leaf (f a)) : SealsPath c leaf (x >>= f) :=
  fun s => wp_bind (wp_mono (hx s) (fun a s₁ hs₁ => wp_mono (hf a s₁)
    (fun _ _ h => h.congr hs₁.symm rfl fun _ => Iff.rfl) fun _ _ h => h) fun _ _ _ => trivial)

theorem sealsPath_bind_left {α β : Type} {x : OramM M α} {f : α → OramM M β}
    (hx : SealsPath c leaf x) (hf : ∀ a, Hoare.Keeps seals (f a)) :
    SealsPath c leaf (x >>= f) :=
  fun s => wp_bind (wp_mono (hx s) (fun a s₁ hs₁ => wp_mono (hf a s₁)
    (fun _ _ h => hs₁.congr rfl h fun _ => Iff.rfl) fun _ _ _ => trivial) fun _ _ h => h)

theorem sealsPath_writePath (hc : c.Valid) (hleaf : leaf < 2 ^ (c.height - 1)) :
    SealsPath c leaf (writePath c pm leaf) := by
  intro s
  unfold writePath
  refine wp_bind (wp_get (wp_bind (wp_modifyGet (wp_bind (wp_mono
    (evictLevels_sealed _ _ _ _ _) ?_ fun _ _ _ => trivial)))))
  intro _ s₁ hs₁
  refine wp_bind (wp_mono (keeps_zoom (g := seals) (fun _ _ => rfl) _ s₁) ?_ fun _ _ _ => trivial)
  intro _ s₂ hs₂
  -- the buckets of the levels are those of the path
  refine wp_modify (hs₁.congr rfl hs₂ fun b => ?_)
  rw [Config.mem_path, HeapTree.mem_path]
  refine exists_congr fun level => and_congr_right fun hlevel => ?_
  rw [bucketForLevelLeaf_eq hlevel hc.height_le hleaf]

/-- **An access seals the path of the leaf that its ID had.** -/
theorem access_sealed (hc : c.Valid) (hleaf : leaf < 2 ^ (c.height - 1)) (read : Bool)
    {block : ℕ} (hpos : returned (pm.get block) s.map = some leaf) (data response : Bytes) :
    wp (access c pm read block data response) (fun _ s' => Sealed c (· ∈ c.path leaf) s s')
      (fun _ _ => True) s := by
  unfold access
  refine wp_bind (wp_of_ok (zoom_of_ok (L := mapLens) (eq_ok_of_returned hpos)) ?_)
  -- what `read` and `write` have in common
  have hwrite : SealsPath c leaf (do
      let s ← get
      let response := PathORAM.InMemoryStashAdapter.get s.stash block response
      writePath c pm leaf
      return response) :=
    sealsPath_bind_right keeps_get fun _ =>
      sealsPath_bind_left (sealsPath_writePath hc hleaf) fun _ => keeps_pure _
  refine wp_mono ((?_ : SealsPath c leaf _) _) (fun _ _ h => h.congr rfl rfl fun _ => Iff.rfl)
    fun _ _ h => h
  -- nothing in front of the eviction stores a MAC
  refine sealsPath_bind_right (keeps_modifyGet fun _ => rfl) fun leaf' => ?_
  refine sealsPath_bind_right (keeps_zoom (fun _ _ => rfl) _) fun _ => ?_
  refine sealsPath_bind_right (keeps_readPath ignoresReading_seals) fun _ => ?_
  cases read with
  | true => exact hwrite
  | false => exact sealsPath_bind_right (keeps_stash ignoresReading_seals) fun _ => hwrite

/-- So do the public calls. -/
theorem getBlock_sealed (hc : c.Valid) (hleaf : leaf < 2 ^ (c.height - 1)) {block : ℕ}
    (hpos : returned (pm.get block) s.map = some leaf) (response : Bytes) :
    wp (getBlock c pm block response) (fun _ s' => Sealed c (· ∈ c.path leaf) s s')
      (fun _ _ => True) s := by
  refine wp_bind (wp_mono (access_sealed hc hleaf true hpos [] response) ?_ fun _ _ h => h)
  intro _ s₁ hs₁
  refine wp_bind (wp_mono (keeps_zoom (g := seals) (fun _ _ => rfl) _ s₁) ?_ fun _ _ _ => trivial)
  exact fun _ _ hs' => wp_pure (hs₁.congr rfl hs' fun _ => Iff.rfl)

theorem putBlock_sealed (hc : c.Valid) (hleaf : leaf < 2 ^ (c.height - 1)) {block : ℕ}
    (hpos : returned (pm.get block) s.map = some leaf) (data : Bytes) :
    wp (putBlock c pm block data) (fun _ s' => Sealed c (· ∈ c.path leaf) s s')
      (fun _ _ => True) s := by
  refine wp_bind (wp_mono (access_sealed hc hleaf false hpos data []) ?_ fun _ _ h => h)
  intro _ s₁ hs₁
  refine wp_mono (keeps_zoom (g := seals) (fun _ _ => rfl) _ s₁) ?_ fun _ _ _ => trivial
  exact fun _ _ hs' => hs₁.congr rfl hs' fun _ => Iff.rfl

end Sealed

/-! ### A MAC that is missing -/

section Missing

variable {pm : AbsPositionMapAdapter M} {b : ℕ}

/-- The members that a verification looks at. -/
def checks (s : ORAM M) : UnorderedMap Bytes × Bool := (s.macMap, s.isInitializing)

theorem ignoresReading_checks : IgnoresReading (checks : ORAM M → _) :=
  ⟨⟨fun _ _ => rfl, fun _ _ => rfl, fun _ _ => rfl⟩, fun _ _ => rfl⟩

/-- The ORAM verifies, and has no MAC of the bucket. -/
def Lacks (b : ℕ) (s : ORAM M) : Prop := b ∉ s.macMap ∧ s.isInitializing = false

/-- From a state in which the MAC is missing, `x` does not return. -/
def Refuses (b : ℕ) {α : Type} (x : OramM M α) : Prop :=
  ∀ s, Lacks b s → wp x (fun _ _ => False) (fun _ _ => True) s

theorem refuses_bind_left {α β : Type} {x : OramM M α} (hx : Refuses b x) (f : α → OramM M β) :
    Refuses b (x >>= f) :=
  fun s hs => wp_bind (wp_mono (hx s hs) (fun _ _ h => h.elim) fun _ _ h => h)

/-- What keeps the MACs does not help. -/
theorem refuses_bind_right {α β : Type} {x : OramM M α} (hx : Hoare.Keeps checks x)
    {f : α → OramM M β} (hf : ∀ a, Refuses b (f a)) : Refuses b (x >>= f) := by
  rintro s ⟨hmac, hinit⟩
  refine wp_bind (wp_mono (hx s) (fun a s' hs' => ?_) fun _ _ _ => trivial)
  obtain ⟨hmacs', hinit'⟩ := Prod.mk.inj hs'
  exact hf a s' ⟨hmacs' ▸ hmac, hinit'.trans hinit⟩

theorem refuses_checkBucket {bucketId level leaf' : ℕ} (bucketData : Bucket)
    (h : bucketForLevelLeaf c.height level leaf' = b) :
    Refuses b (checkBucket c bucketId level leaf' bucketData : OramM M Unit) := by
  rintro s ⟨hmac, hinit⟩
  unfold checkBucket verifyBucketMAC
  refine wp_bind (wp_bind (wp_get ?_))
  have hlookup : s.macMap.lookup (bucketForLevelLeaf c.height level leaf') = none :=
    AList.lookup_eq_none.mpr (h ▸ hmac)
  rw [if_neg (Bool.eq_false_iff.mp hinit)]
  simp only [hlookup]
  exact wp_throw trivial

/-- A path with the bucket is not verified. -/
theorem refuses_verifyPath (hc : c.Valid) (hleaf : leaf < 2 ^ (c.height - 1))
    (hb : b ∈ c.path leaf) {visited : List ℕ} (hvisited : b ∈ visited) :
    Refuses b (verifyPath c leaf visited : OramM M Unit) := by
  induction visited with
  | nil => exact absurd hvisited List.not_mem_nil
  | cons bucketId rest ih =>
    rw [verifyPath]
    refine refuses_bind_right (keeps_modify fun s => ignoresReading_checks.cache s _) fun _ =>
      refuses_bind_right keeps_get fun s => ?_
    by_cases hhead : b = bucketId
    · subst hhead
      -- The search finds the level of the bucket.
      have hfound := searchLevel_of_mem_path hc hleaf (Config.mem_path.mp hb)
      exact refuses_bind_left (refuses_checkBucket _ hfound) _
    · exact refuses_bind_right (keeps_checkBucket _ _ _ _) fun _ =>
        ih ((List.mem_cons.mp hvisited).resolve_left hhead)

/-- **A read of a path with a bucket whose MAC is missing does not return.** -/
theorem getBlock_lacks (hc : c.Valid) (hleaf : leaf < 2 ^ (c.height - 1)) (hb : b ∈ c.path leaf)
    {block : ℕ} {s : ORAM M} (hs : Lacks b s) (hpos : returned (pm.get block) s.map = some leaf)
    (response : Bytes) :
    wp (getBlock c pm block response) (fun _ _ => False) (fun _ _ => True) s := by
  -- the path is verified after the download, and the bucket has no MAC
  have hread : Refuses b (readPath c leaf [] true : OramM M (List ℕ)) := by
    have hmem : b ∈ pathLocations c leaf [] :=
      (mem_pathLocations hc hleaf).mpr (.inr (Config.mem_path.mp hb))
    refine refuses_bind_right (keeps_getCache ignoresReading_checks.toIgnoresDownloads _ _ _)
      fun _ => refuses_bind_right (keeps_addToStash ignoresReading_checks _) fun _ => ?_
    intro t ht
    refine wp_bind (wp_modifyGet ?_)
    exact refuses_bind_left (refuses_verifyPath hc hleaf hb
      ((Random.perm_iterate _ t.random).mem_iff.mpr hmem)) _ _ ht
  -- the access comes to reading the path, and no further
  have haccess : wp (access c pm true block [] response) (fun _ _ => False) (fun _ _ => True) s := by
    unfold access
    refine wp_bind (wp_of_ok (zoom_of_ok (L := mapLens) (eq_ok_of_returned hpos)) ?_)
    refine (refuses_bind_right (keeps_modifyGet fun _ => rfl) fun _ =>
      refuses_bind_right (keeps_zoom (fun _ _ => rfl) _) fun _ => refuses_bind_left hread _) _ ?_
    exact hs
  exact wp_bind (wp_mono haccess (fun _ _ h => h.elim) fun _ _ h => h)

end Missing

end ORAM

end CloakQueryPathORAM
