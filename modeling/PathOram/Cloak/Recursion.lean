import PathOram.Cloak.Calls
import PathOram.Lib.Returns
import PathOram.Recursion

/-!
# A position map that is never evicted

The position map that is kept in an ORAM puts the 8 bytes of a leaf. A block has at least 32
bytes, the payloads in the stash are fitted to each other and not to the block, and only a
block of full length is written to the tree. So in this variant no leaf ever leaves the stash.

* `View.Leaves` — the invariant: the tree is empty, and the stash holds the leaves.
* `get_spec`, `set_spec` — reading and writing a leaf. A write throws if the stash is full.
* `agrees_iff` — the map agrees with that of the other variant as long as the IDs that are set
  fit in the stash.
* `thirteenth_leaf_throws` — a run in which they do not.
-/

namespace CloakQueryPathORAM

open PathORAM Hoare HeapTree AbsStorageAdapter

open PathORAM.ORAMPositionMapAdapter (leafBytes readLeaf storeOf length_leafBytes
  readLeaf_of_padding storeOf_update)

/-- The stash holds the leaves `f` and has room for them, and the tree holds nothing. -/
structure View.Leaves (c : Config) (f : ℕ → Option ℕ) (v : View) : Prop where
  sound : View.Sound c v
  tree : ∀ b, InTree c.height b → ∀ e ∈ v.tree b, ¬Block.Real e
  stash : ∀ id, v.stash.lookup id = storeOf f id
  room : v.stash.keys.length ≤ c.stashCapacity

/-- The operation is a call of the position map. -/
def LeafOp (op : Op) : Prop := ∀ id data, op = .write id data → ∃ leaf, data = leafBytes leaf

section Access

variable {c : Config} {f : ℕ → Option ℕ} {v v' v₁ : View} {op op₁ : Op} {leaf : ℕ}
  {stash : InMemoryStashAdapter} {response : Bytes}

/-! ### One access -/

/-- A block is longer than a leaf. -/
theorem lt_dataSize (hc : c.Valid) : 8 < c.dataSize := by
  have h := c.storage.le_userBlockSize
  rw [hc.dataSize_eq] at h
  unfold AES_BLOCK_SIZE at h
  omega

theorem length_of_storeOf {id : ℕ} {d : Bytes} (h : storeOf f id = some d) : d.length = 8 := by
  obtain ⟨leaf, -, rfl⟩ := Option.map_eq_some_iff.mp h
  exact length_leafBytes leaf

/-- A leaf is fitted to another leaf, or taken as it is, so it stays as it is. -/
theorem View.Leaves.fitted (hv : View.Leaves c f v) (hleaf : leaf < 2 ^ (c.height - 1))
    (hop : LeafOp op) (h : FittedOp c v leaf op op₁) : op₁ = op := by
  cases h with
  | read block => rfl
  | @write size block data hsize =>
    obtain ⟨l, rfl⟩ := hop block data rfl
    -- whatever the size is taken from holds leaves of eight bytes as well
    have hsize : size = (leafBytes l).length := by
      rcases hsize with ⟨-, hlength⟩ | ⟨hbare, ⟨id, d, hd, rfl⟩ | ⟨hnone, -⟩⟩
      · exact hlength
      · rw [length_of_storeOf (hv.stash id ▸ hd), length_leafBytes]
      · exact absurd ⟨hnone, fun b hb =>
          hv.tree b (Config.inTree_of_mem_path hleaf hb)⟩ hbare
    rw [hsize, InMemoryStashAdapter.resize_length]

/-- Reading a path adds nothing to the stash. -/
theorem View.Leaves.absorbed (hv : View.Leaves c f v) (hleaf : leaf < 2 ^ (c.height - 1))
    (htrimmed : Trimmed c v leaf v₁) (h : Absorbs c.toConfig v₁ leaf stash) (id : ℕ) :
    stash.lookup id = storeOf f id := by
  rw [← hv.stash, ← htrimmed.stash]
  refine Option.ext fun d => ⟨fun hd => ?_, h.keep id d⟩
  rcases h.source id d hd with hkept | ⟨hreal, b, hb, he'⟩
  · exact hkept
  · obtain ⟨e, he, heq, -⟩ := htrimmed.exists_block he'
    exact absurd ((real_of_fst_eq heq).mp hreal)
      (hv.tree b (Config.inTree_of_mem_path hleaf hb) e he)

/-- What was served is a leaf still. -/
theorem View.Leaves.served (hv : View.Leaves c f v) (hleaf : leaf < 2 ^ (c.height - 1))
    (hop : LeafOp op) (htrimmed : Trimmed c v leaf v₁) (h : Absorbs c.toConfig v₁ leaf stash)
    (id : ℕ) :
    (op.serve stash).lookup id = op.apply (storeOf f) id ∧
      ∀ d, (op.serve stash).lookup id = some d → d.length = 8 := by
  have habsorbed := hv.absorbed hleaf htrimmed h
  -- the other IDs are served as they were absorbed
  by_cases hid : id = op.block
  · cases op with
    | read block => exact ⟨habsorbed id, fun d hd => length_of_storeOf (habsorbed id ▸ hd)⟩
    | write block data =>
      obtain rfl : id = block := hid
      obtain ⟨l, rfl⟩ := hop id data rfl
      rw [Op.serve, AList.lookup_insert, Op.apply_write_self]
      refine ⟨rfl, fun d hd => ?_⟩
      rw [← Option.some.inj hd, length_leafBytes]
  · rw [Op.lookup_serve_of_ne op hid, Op.apply_of_ne op hid]
    exact ⟨habsorbed id, fun d hd => length_of_storeOf (habsorbed id ▸ hd)⟩

/-- **Nothing is evicted.** After an access the stash holds what was served, and the tree is
as empty as before. -/
theorem View.Leaves.access (hc : c.Valid) (hv : View.Leaves c f v) (hop : op.block < c.blocks)
    (hid : op.block ≤ 10 ^ 12) (hop' : LeafOp op) (h : Access c v op leaf stash response v') :
    View.Sound c v' ∧ (∀ b, InTree c.height b → ∀ e ∈ v'.tree b, ¬Block.Real e) ∧
      (∀ id, v'.stash.lookup id = op.apply (storeOf f) id) ∧
      v'.stash.keys.length ≤ c.stashCapacity ∧
      response = (op.apply (storeOf f) op.block).getD [] := by
  have hsound := hv.sound.access hop hid h
  obtain @⟨v₁, op₁, htrimmed, hfitted, hbase, hevicts, -, hroom⟩ := h
  have hleaf : leaf < 2 ^ (c.height - 1) :=
    (htrimmed.valid hv.sound.valid).leaf_lt (hfitted.block_eq.symm ▸ hop) hbase.pos
  obtain rfl := hv.fitted hleaf hop' hfitted
  have hserved := hv.served hleaf hop' htrimmed hbase.absorbs.toAbsorbs
  -- A block on the path would be a leaf of full length.
  have hpath : ∀ b ∈ c.path leaf, ∀ e ∈ v'.tree b, ¬Block.Real e := fun b hb e he hreal => by
    have hlength := (hserved e.1).2 e.2 (hevicts.source b hb e he hreal)
    rw [hevicts.sized b hb e he hreal] at hlength
    exact (lt_dataSize hc).ne' hlength
  have hkept : ∀ id, v'.stash.lookup id = (op₁.serve stash).lookup id := fun id => by
    refine Option.ext fun d => ⟨hevicts.kept id d, fun hd => ?_⟩
    by_contra hnot
    have hlost : id ∉ v'.stash := fun hmem => by
      obtain ⟨d', hd'⟩ := exists_lookup hmem
      rw [Option.some.inj ((hevicts.kept id d' hd').symm.trans hd)] at hd'
      exact hnot hd'
    obtain ⟨b, hb, e, he, hreal, -⟩ := hevicts.lost id (mem_of_lookup hd) hlost
    exact hpath b hb e he hreal
  have hsub : v'.stash.keys ⊆ (op₁.serve stash).keys := fun id hmem => by
    obtain ⟨d, hd⟩ := exists_lookup (s := v'.stash) hmem
    exact mem_of_lookup (s := op₁.serve stash) (hkept id ▸ hd)
  refine ⟨hsound, fun b hb e he => ?_, fun id => (hkept id).trans (hserved id).1, ?_, ?_⟩
  · by_cases hmem : b ∈ c.path leaf
    · exact hpath b hmem e he
    · rw [hevicts.off_path b hmem, htrimmed.off_path hmem] at he
      exact hv.tree b hb e he
  · exact (v'.stash.keys_nodup.subperm hsub).length_le.trans (hroom hv.room)
  · rw [hbase.response_eq, (hserved op₁.block).1]

theorem View.Leaves.synced (hc : c.Valid) (hv : View.Leaves c f v)
    (h : Synced c.toConfig v v') : View.Leaves c f v' where
  sound := hv.sound.synced hc h
  tree b hb e he := by
    rw [hv.sound.tree_sync hc h.toSync hb] at he
    exact hv.tree b hb e he
  stash := h.stash' ▸ hv.stash
  room := h.stash' ▸ hv.room

theorem View.Leaves.fresh (hc : c.Valid) {coins : Stream' ℕ} (h : v.Fresh c.toConfig coins) :
    View.Leaves c (fun _ => none) v where
  sound := View.Sound.fresh hc h
  tree _ hb _ he := h.not_real hb he
  stash id := AList.lookup_eq_none.mpr (h.not_mem_stash id)
  room := by
    have hnil : v.stash.keys = [] :=
      List.eq_nil_iff_forall_not_mem.mpr fun id hid => h.not_mem_stash id hid
    rw [hnil]
    exact Nat.zero_le _

/-- An access is cut short only by a leaf that the stash has no room for. -/
theorem View.Leaves.overflow (hv : View.Leaves c f v) (hleaf : leaf < 2 ^ (c.height - 1))
    (h : Overflow c v op leaf) :
    v.stash.keys.length = c.stashCapacity ∧ ∃ id ∉ v.stash, ∃ data, op = .write id data := by
  obtain ⟨stash, hfull, hnear, id, hnot, hid⟩ := h
  -- Only what is in the stash is near.
  have hmem : ∀ id, View.Near c v leaf id → id ∈ v.stash := fun id hnear =>
    hnear.elim (fun h => h) fun ⟨b, hb, e, he, hreal, _⟩ =>
      absurd hreal (hv.tree b (Config.inTree_of_mem_path hleaf hb) e he)
  have hsub : stash.keys ⊆ v.stash.keys := fun id' hid' => hmem id' (hnear id' hid')
  have hsubperm := stash.keys_nodup.subperm hsub
  have hle := hsubperm.length_le
  have hperm := hsubperm.perm_of_length_le (hv.room.trans hfull.ge)
  have hnot' : id ∉ v.stash := fun h => hnot (hperm.mem_iff.mpr h)
  refine ⟨le_antisymm hv.room (hfull ▸ hle), id, hnot', ?_⟩
  exact hid.resolve_left fun h => hnot' (hmem id h)

end Access

/-- The shorthand constructor passes the sizes on as in the other variant. -/
theorem shorthand_valid {logCapacity blockSize Z : ℕ} {crypto : Crypto}
    {hmac : Bytes → Bytes → Bytes} {key : Bytes} {r : Random} {c : Config}
    (hc : Config.shorthand logCapacity blockSize Z crypto hmac key r = .ok c)
    (hpos : 1 ≤ logCapacity) (hle : logCapacity ≤ 31) (hcrypto : crypto.Lawful)
    (hblocks : 2 ^ logCapacity * Z < 2 ^ 64) :
    c.Valid ∧ c.height = logCapacity ∧ c.Z = Z ∧
      c.stashCapacity = 3 * logCapacity * Z % 2 ^ 64 := by
  obtain ⟨base, hbase, hc⟩ := Returns.exists_of_bind_ok hc
  cases hc
  exact Config.shorthand_valid hbase hpos hle hcrypto hblocks

/-! ### The calls of the map -/

namespace ORAMPositionMapAdapter

variable {c : Config} {M : Type} {pm : AbsPositionMapAdapter M} {bound : ℕ}
  {R : (ℕ → Option ℕ) → M → Prop} {mayThrow : Prop} {s : ORAM M} {f : ℕ → Option ℕ}
  {S : Finset ℕ} {block leaf : ℕ}

/-- The inner ORAM holds the leaves `f`. -/
def Holds (c : Config) (R : (ℕ → Option ℕ) → M → Prop) (f : ℕ → Option ℕ) (s : ORAM M) : Prop :=
  (∃ v, ORAM.Shows c R v s ∧ View.Leaves c f v) ∧ ∀ id leaf, f id = some leaf → leaf < 2 ^ 64

/-- **Reading a leaf** never throws. -/
theorem get_spec (hc : c.Valid) (hpm : pm.Implements c.blocks bound R mayThrow)
    (hbound : 2 ^ (c.height - 1) ≤ bound) (hs : Holds c R f s) (hblock : block < c.blocks)
    (hid : block ≤ 10 ^ 12) :
    wp ((adapter c pm).get block)
      (fun l s' => (∀ leaf, f block = some leaf → l = leaf) ∧ Holds c R f s')
      (fun _ _ => mayThrow) s := by
  obtain ⟨⟨v, hshows, hv⟩, hlt⟩ := hs
  have hin : (Op.read block).block < c.blocks := hblock
  have hop : LeafOp (.read block) := fun _ _ h => by cases h
  refine wp_bind (wp_mono (ORAM.getBlock_spec hc hpm hbound hv.sound hshows hblock hid) ?_ ?_)
  · rintro returned s' ⟨leaf, stash, v₁, v', haccess, hsynced, hs'⟩
    obtain ⟨hsound, htree, hstash, hroom, hreturned⟩ := hv.access hc hin hid hop haccess
    have hv' : View.Leaves c f v' :=
      View.Leaves.synced hc ⟨hsound, htree, hstash, hroom⟩ hsynced
    refine wp_bind (wp_modifyGet (wp_pure ⟨fun l hl => ?_, ⟨v', ?_, hv'⟩, hlt⟩))
    · have hheld : (Op.apply (.read block) (storeOf f) block).getD [] = leafBytes l := by
        change ((f block).map leafBytes).getD [] = leafBytes l
        rw [hl]
        rfl
      have hreturned : returned = leafBytes l := hreturned.trans hheld
      rw [hreturned]
      exact readLeaf_of_padding (hlt block l hl) (Padding.refl c.dataSize _) _
    · exact ⟨PathORAM.ORAMPositionMapAdapter.shows_garbage hs'.toShows 8, hs'.isInitializing⟩
  · rintro e _ (hthrow | ⟨-, l, hpos, hoverflow⟩)
    · exact hthrow
    -- only a put can overflow, and this is a get
    · obtain ⟨-, _, -, _, hwrite⟩ :=
        hv.overflow (hv.sound.valid.leaf_lt hblock hpos) hoverflow
      cases hwrite

/-- **Writing a leaf** throws only if there are more IDs than the stash has room for. -/
theorem set_spec (hc : c.Valid) (hpm : pm.Implements c.blocks bound R mayThrow)
    (hbound : 2 ^ (c.height - 1) ≤ bound) (hs : Holds c R f s) (hblock : block < c.blocks)
    (hid : block ≤ 10 ^ 12) (hleaf : leaf < 2 ^ 64)
    (hS : ∀ id, (f id).isSome = true → id ∈ S) (hblockS : block ∈ S) :
    wp ((adapter c pm).set block leaf)
      (fun _ s' => Holds c R (Function.update f block (some leaf)) s')
      (fun _ _ => mayThrow ∨ c.stashCapacity < S.card) s := by
  obtain ⟨⟨v, hshows, hv⟩, hlt⟩ := hs
  have hop : LeafOp (.write block (leafBytes leaf)) := fun _ _ h => by
    cases h
    exact ⟨leaf, rfl⟩
  have hin : (Op.write block (leafBytes leaf)).block < c.blocks := hblock
  refine wp_mono (ORAM.putBlock_spec hc hpm hbound hv.sound hshows hblock hid _) ?_ ?_
  · rintro _ s' ⟨l, stash, response, v₁, v', haccess, hsynced, hs'⟩
    obtain ⟨hsound, htree, hstash, hroom, -⟩ := hv.access hc hin hid hop haccess
    refine ⟨⟨v', hs', View.Leaves.synced hc ⟨hsound, htree, ?_, hroom⟩ hsynced⟩, fun id l hl => ?_⟩
    · rw [storeOf_update]
      exact hstash
    · by_cases hne : id = block
      · rw [hne, Function.update_self, Option.some.injEq] at hl
        exact hl ▸ hleaf
      · rw [Function.update_of_ne hne] at hl
        exact hlt id l hl
  · rintro e _ (hthrow | ⟨-, l, hpos, hoverflow⟩)
    · exact Or.inl hthrow
    · obtain ⟨hfull, id, hnot, data, hwrite⟩ :=
        hv.overflow (hv.sound.valid.leaf_lt hblock hpos) hoverflow
      cases hwrite
      -- The stash holds IDs of `S` only, and lacks the one that is written.
      have hsub : insert block v.stash.keys.toFinset ⊆ S := by
        refine Finset.insert_subset hblockS fun id' hid' => hS id' ?_
        obtain ⟨d, hd⟩ := exists_lookup (s := v.stash) (List.mem_toFinset.mp hid')
        obtain ⟨l', hl', -⟩ := Option.map_eq_some_iff.mp ((hv.stash id').symm.trans hd)
        rw [hl']
        rfl
      have hcard := Finset.card_le_card hsub
      rw [Finset.card_insert_of_notMem (fun h => hnot (List.mem_toFinset.mp h)),
        List.toFinset_card_of_nodup v.stash.keys_nodup, hfull] at hcard
      exact Or.inr hcard

/-- A freshly initialised inner ORAM holds no leaf. -/
theorem holds_new (hc : c.Valid) (hpm : pm.Implements c.blocks bound R mayThrow)
    (hbound : 2 ^ (c.height - 1) ≤ bound) {g : ℕ → Option ℕ} (hR : R g s.map)
    (hstash : s.stash = ∅) (hcache : s.cache = ∅) :
    wp (ORAM.new c pm true) (fun _ s' => Holds c R (fun _ => none) s')
      (fun _ _ => mayThrow) s := by
  refine wp_mono (ORAM.new_spec hc hpm hbound hR hstash hcache) ?_ fun _ _ h => h
  rintro _ s' ⟨v, hfresh, hs'⟩
  exact ⟨⟨v, hs', View.Leaves.fresh hc hfresh⟩, fun _ _ h => by cases h⟩

/-! ### Runs -/

/-- The IDs that are set fit in the stash if and only if no call of a run throws. -/
theorem run_iff (hc : c.Valid) (hpm : pm.Implements c.blocks bound R False)
    (hbound : 2 ^ (c.height - 1) ≤ bound) (hs : Holds c R (fun _ => none) s) {calls : List MapCall}
    (hcalls : ∀ call ∈ calls, call.block < c.blocks ∧ call.block ≤ 10 ^ 12 ∧ call.LeafInRange) :
    ((MapCall.sets calls).card ≤ c.stashCapacity →
      ∃ f, Judged MapCall.Answers (fun _ => none) calls
        (runCatching (MapCall.exec (adapter c pm)) calls s).1 f) ∧
    ((∀ o ∈ (runCatching (MapCall.exec (adapter c pm)) calls s).1, ∃ r, o = .ok r) →
      (MapCall.sets calls).card ≤ c.stashCapacity) := by
  set S := MapCall.sets calls with hS
  have hadmit : ∀ call ∈ calls, call ∈ calls ∧ call.block < c.blocks ∧ call.block ≤ 10 ^ 12 ∧
      call.LeafInRange := fun call hcall => ⟨hcall, hcalls call hcall⟩
  -- Besides the leaves, the invariant says that all IDs with a leaf are in `S`.
  have hget : ∀ f m block, (Holds c R f m ∧ ∀ id, (f id).isSome = true → id ∈ S) →
      (MapCall.get block ∈ calls ∧ block < c.blocks ∧ block ≤ 10 ^ 12 ∧ True) →
      wp ((adapter c pm).get block)
        (fun leaf m' => (∀ l, f block = some l → leaf = l) ∧ Holds c R f m' ∧
          ∀ id, (f id).isSome = true → id ∈ S)
        (fun _ _ => c.stashCapacity < S.card) m := fun f m block hm hcall =>
    wp_mono (get_spec hc hpm hbound hm.1 hcall.2.1 hcall.2.2.1) (fun _ _ h => ⟨h.1, h.2, hm.2⟩)
      fun _ _ h => h.elim
  have hset : ∀ f m block leaf, (Holds c R f m ∧ ∀ id, (f id).isSome = true → id ∈ S) →
      (MapCall.set block leaf ∈ calls ∧ block < c.blocks ∧ block ≤ 10 ^ 12 ∧ leaf < 2 ^ 64) →
      wp ((adapter c pm).set block leaf)
        (fun _ m' => Holds c R (Function.update f block (some leaf)) m' ∧
          ∀ id, (Function.update f block (some leaf) id).isSome = true → id ∈ S)
        (fun _ _ => c.stashCapacity < S.card) m := by
    rintro f m block leaf ⟨hm, hf⟩ ⟨hcall, hblock, hid, hleaf⟩
    have hblockS : block ∈ S := MapCall.mem_sets hcall
    refine wp_mono (set_spec hc hpm hbound hm hblock hid hleaf hf hblockS) ?_
      fun _ _ h => h.resolve_left id
    refine fun _ m' h => ⟨h, fun id hid => ?_⟩
    by_cases hne : id = block
    · exact hne ▸ hblockS
    · rw [Function.update_of_ne hne] at hid
      exact hf id hid
  refine ⟨fun hcard => ?_, fun hok => ?_⟩
  · exact MapCall.run_answers (adapter c pm)
      (fun f m block hm hcall => wp_mono (hget f m block hm hcall) (fun _ _ h => h)
        fun _ _ h => (not_lt.mpr hcard) h)
      (fun f m block leaf hm hcall => wp_mono (hset f m block leaf hm hcall) (fun _ _ h => h)
        fun _ _ h => (not_lt.mpr hcard) h)
      hadmit ⟨hs, fun _ h => by cases h⟩
  · obtain ⟨f, hjudged, ⟨⟨v, -, hv⟩, -⟩, -⟩ := MapCall.run_returned (adapter c pm) hget hset hadmit
      ⟨hs, fun _ h => by cases h⟩ hok
    -- At the end, all IDs that were set are in the stash.
    refine le_trans ?_ hv.room
    rw [← List.toFinset_card_of_nodup v.stash.keys_nodup]
    refine Finset.card_le_card fun id hid => List.mem_toFinset.mpr ?_
    obtain ⟨l, hl⟩ := Option.isSome_iff_exists.mp
      ((MapCall.isSome_of_judged hjudged).mpr (Or.inr hid))
    have hlookup : v.stash.lookup id = some (leafBytes l) := by
      rw [hv.stash, storeOf, hl, Option.map_some]
    exact mem_of_lookup hlookup

/-- What holds of a run of the map that the shorthand constructor built. -/
theorem shorthand_run_iff {h size Z : ℕ} (hpos : 1 ≤ h) (hle : h ≤ 31) {crypto : Crypto}
    (hcrypto : crypto.Lawful) {hmac : Bytes → Bytes → Bytes} {key : Bytes} {r : Random}
    {c : Config} (hc : Config.shorthand h size Z crypto hmac key r = .ok c)
    {s₀ : ORAM InMemoryPositionMapAdapter} (hmap : 2 ^ h * Z ≤ s₀.map.capacity)
    (hstash : s₀.stash = ∅) (hcache : s₀.cache = ∅) {calls : List MapCall}
    (hcalls : ∀ call ∈ calls, call.block < 2 ^ h * Z ∧ call.block < 2 ^ 31 ∧ call.LeafInRange) :
    ∃ s₁, ORAM.new c InMemoryPositionMapAdapter.adapter true s₀ = .ok () s₁ ∧
      ((MapCall.sets calls).card ≤ 3 * h * Z % 2 ^ 64 →
        ∃ f, Judged MapCall.Answers (fun _ => none) calls
          (runCatching (MapCall.exec (adapter c InMemoryPositionMapAdapter.adapter)) calls s₁).1 f) ∧
      ((∀ o ∈ (runCatching (MapCall.exec (adapter c InMemoryPositionMapAdapter.adapter))
          calls s₁).1, ∃ r, o = .ok r) →
        (MapCall.sets calls).card ≤ 3 * h * Z % 2 ^ 64) := by
  have hblocks : 2 ^ h * Z < 2 ^ 64 := hmap.trans_lt s₀.map.capacity_lt
  obtain ⟨hvalid, hheight, hZ, hcapacity⟩ := shorthand_valid hc hpos hle hcrypto hblocks
  have heq : c.blocks = 2 ^ h * Z := by rw [hvalid.blocks_eq, hheight, hZ]
  -- the map below the ORAM is kept in memory, so it never throws in range
  have hpm := InMemoryPositionMapAdapter.implements c.blocks (2 ^ (c.height - 1))
  have hholds : InMemoryPositionMapAdapter.Holds c.blocks s₀.map.map s₀.map := ⟨rfl, heq ▸ hmap⟩
  obtain ⟨_, s₁, hnew, hs₁⟩ := (holds_new hvalid hpm le_rfl hholds hstash hcache).exists_ok
  refine ⟨s₁, hnew, hcapacity ▸ run_iff hvalid hpm le_rfl hs₁ fun call hcall => ?_⟩
  obtain ⟨hblock, hid, hleaf⟩ := hcalls call hcall
  exact ⟨heq ▸ hblock, by omega, hleaf⟩

/-- **When the two position maps agree.** Both are kept in ORAMs that the shorthand constructor
built. If the one of the other variant throws nothing, this one throws nothing and all reads
return the same if and only if the IDs that are set fit in the stash. The states before
construction are arbitrary but for empty stashes and caches and room in the position maps. -/
theorem agrees_iff {h size Z : ℕ} (hpos : 1 ≤ h) (hle : h ≤ 31) {crypto crypto' : Crypto}
    (hcrypto : crypto.Lawful) (hcrypto' : crypto'.Lawful) {hmac : Bytes → Bytes → Bytes}
    {key : Bytes} {r r' : Random} {c : PathORAM.Config} {c' : Config}
    (hc : PathORAM.Config.shorthand h size Z crypto r = .ok c)
    (hc' : Config.shorthand h size Z crypto' hmac key r' = .ok c')
    {s₀ : PathORAM.ORAM InMemoryPositionMapAdapter} {s₀' : ORAM InMemoryPositionMapAdapter}
    (hmap : 2 ^ h * Z ≤ s₀.map.capacity) (hmap' : 2 ^ h * Z ≤ s₀'.map.capacity)
    (hstash : s₀.stash = ∅) (hstash' : s₀'.stash = ∅) (hcache : s₀.cache = ∅)
    (hcache' : s₀'.cache = ∅) {calls : List MapCall}
    (hcalls : ∀ call ∈ calls, call.block < 2 ^ h * Z ∧ call.block < 2 ^ 31 ∧ call.LeafInRange)
    (hreads : MapCall.ReadsSet ∅ calls) :
    ∃ s₁ s₁', PathORAM.ORAM.new c InMemoryPositionMapAdapter.adapter true s₀ = .ok () s₁ ∧
      ORAM.new c' InMemoryPositionMapAdapter.adapter true s₀' = .ok () s₁' ∧
      ((∀ o ∈ (runCatching (MapCall.exec (PathORAM.ORAMPositionMapAdapter.adapter c
          InMemoryPositionMapAdapter.adapter)) calls s₁).1, ∃ r, o = .ok r) →
        ((runCatching (MapCall.exec (adapter c' InMemoryPositionMapAdapter.adapter)) calls s₁').1 =
            (runCatching (MapCall.exec (PathORAM.ORAMPositionMapAdapter.adapter c
              InMemoryPositionMapAdapter.adapter)) calls s₁).1 ↔
          (MapCall.sets calls).card ≤ 3 * h * Z % 2 ^ 64)) := by
  have hblocks : 2 ^ h * Z < 2 ^ 64 := hmap.trans_lt s₀.map.capacity_lt
  obtain ⟨hvalid, hheight, hZ, -⟩ := Config.shorthand_valid hc hpos hle hcrypto hblocks
  have heq : c.blocks = 2 ^ h * Z := by rw [hvalid.blocks_eq, hheight, hZ]
  have hpm := InMemoryPositionMapAdapter.implements c.blocks (2 ^ (c.height - 1))
  have hholds : InMemoryPositionMapAdapter.Holds c.blocks s₀.map.map s₀.map := ⟨rfl, heq ▸ hmap⟩
  obtain ⟨_, s₁, hnew, hs₁⟩ := (PathORAM.ORAMPositionMapAdapter.holds_new hvalid hpm le_rfl hholds
    hstash hcache (MapCall.sets calls)).exists_ok
  obtain ⟨s₁', hnew', hanswers, hfits⟩ :=
    shorthand_run_iff hpos hle hcrypto' hc' hmap' hstash' hcache' hcalls
  refine ⟨s₁, s₁', hnew, hnew', fun hok => ⟨fun heq => hfits (heq ▸ hok), fun hcard => ?_⟩⟩
  -- In the other variant, a run that throws nothing is answered.
  obtain ⟨f, hjudged, -⟩ := MapCall.run_returned _
    (A := fun call => call ∈ calls ∧ call.block < 2 ^ h * Z ∧ call.block < 2 ^ 31 ∧
      call.LeafInRange)
    (fun f m block hm hcall => PathORAM.ORAMPositionMapAdapter.get_spec hvalid hpm le_rfl hm
      (heq ▸ hcall.2.1) hcall.2.2.1)
    (fun f m block leaf hm hcall => PathORAM.ORAMPositionMapAdapter.set_spec hvalid hpm le_rfl hm
      (heq ▸ hcall.2.1) hcall.2.2.1 (MapCall.mem_sets hcall.1) hcall.2.2.2)
    (fun call hcall => ⟨hcall, hcalls call hcall⟩) hs₁ hok
  obtain ⟨f', hjudged'⟩ := hanswers hcard
  exact MapCall.outcomes_unique hreads (fun _ h => absurd h (Finset.notMem_empty _)) hjudged'
    hjudged

/-! ### Two small maps -/

/-- What the shorthand constructor sets for `Z = 1` and blocks of 32 bytes. -/
def members (height : ℕ) : Config :=
  { Config.tiny height (3 * height) with batchSize := 1 }

theorem seventeen_lt_two_pow : 17 < 2 ^ 64 := by norm_num

/-- The inner ORAM of the other variant before its constructor ran. Its random words spread the
IDs over the leaves. -/
def unbuiltBase : PathORAM.ORAM InMemoryPositionMapAdapter :=
  .unbuilt (.allocate 17 seventeen_lt_two_pow 0) (Random.ofLeaves Stream'.nats)

/-- The inner ORAM before its constructor ran. -/
def unbuilt : ORAM InMemoryPositionMapAdapter :=
  .unbuilt (.allocate 17 seventeen_lt_two_pow 0) (Random.ofLeaves Stream'.nats)

theorem members_lawful (height : ℕ) : (members height).crypto.Lawful := fun h => absurd rfl h

/-- Whether a run in the other variant throws nothing can be computed. -/
theorem base_returns {height : ℕ} {calls : List MapCall}
    {s : PathORAM.ORAM InMemoryPositionMapAdapter}
    (hnew : PathORAM.ORAM.new (members height).toConfig InMemoryPositionMapAdapter.adapter true
      unbuiltBase = .ok () s)
    (h : ∀ o ∈ (runCatching (MapCall.exec (PathORAM.ORAMPositionMapAdapter.adapter
      (members height).toConfig InMemoryPositionMapAdapter.adapter)) calls
        (leaves (PathORAM.ORAM.new (members height).toConfig InMemoryPositionMapAdapter.adapter true)
          unbuiltBase)).1, o.toBool = true) :
    ∀ o ∈ (runCatching (MapCall.exec (PathORAM.ORAMPositionMapAdapter.adapter
      (members height).toConfig InMemoryPositionMapAdapter.adapter)) calls s).1, ∃ r, o = .ok r := by
  rw [leaves, hnew] at h
  exact ok_of_toBool h

theorem agrees_iff_tiny :
    ∃ s₁ s₁', PathORAM.ORAM.new (members 1).toConfig InMemoryPositionMapAdapter.adapter true
        unbuiltBase = .ok () s₁ ∧
      ORAM.new (members 1) InMemoryPositionMapAdapter.adapter true unbuilt = .ok () s₁' ∧
      (runCatching (MapCall.exec (adapter (members 1) InMemoryPositionMapAdapter.adapter))
          [.set 0 5, .get 0] s₁').1 =
        (runCatching (MapCall.exec (PathORAM.ORAMPositionMapAdapter.adapter
          (members 1).toConfig InMemoryPositionMapAdapter.adapter)) [.set 0 5, .get 0] s₁).1 := by
  -- height 1, one block to a bucket: the set of one ID stays within the bound
  obtain ⟨s₁, s₁', hnew, hnew', hiff⟩ := @agrees_iff 1 32 1 le_rfl (by norm_num) _ _
    (members_lawful 1) (members_lawful 1) _ _ unbuilt.random unbuilt.random (members 1).toConfig
    (members 1) rfl rfl unbuiltBase unbuilt (by decide) (by decide) rfl rfl rfl rfl
    [.set 0 5, .get 0] (by decide) (by decide)
  exact ⟨s₁, s₁', hnew, hnew', (hiff (base_returns hnew (by decide +kernel))).mpr (by decide)⟩

/-- Thirteen leaves. -/
def thirteenLeaves : List MapCall := (List.range 13).map fun block => .set block 0

/-- **One leaf too many.** The stash of the inner ORAM has room for twelve IDs of the sixteen. -/
theorem thirteenth_leaf_throws :
    ∃ s₁ s₁',
      PathORAM.Config.shorthand 4 32 1 (members 4).crypto unbuiltBase.random =
        .ok (members 4).toConfig ∧
      Config.shorthand 4 32 1 (members 4).crypto (members 4).hmac (members 4).key unbuilt.random =
        .ok (members 4) ∧
      PathORAM.ORAM.new (members 4).toConfig InMemoryPositionMapAdapter.adapter true unbuiltBase =
        .ok () s₁ ∧
      ORAM.new (members 4) InMemoryPositionMapAdapter.adapter true unbuilt = .ok () s₁' ∧
      (∀ call ∈ thirteenLeaves,
        call.block < 2 ^ 4 * 1 ∧ call.block < 2 ^ 31 ∧ call.LeafInRange) ∧
      MapCall.ReadsSet ∅ thirteenLeaves ∧
      (∀ o ∈ (runCatching (MapCall.exec (PathORAM.ORAMPositionMapAdapter.adapter
        (members 4).toConfig InMemoryPositionMapAdapter.adapter)) thirteenLeaves s₁).1,
          ∃ r, o = .ok r) ∧
      ¬∀ o ∈ (runCatching (MapCall.exec (adapter (members 4) InMemoryPositionMapAdapter.adapter))
        thirteenLeaves s₁').1, ∃ r, o = .ok r := by
  have hcalls : ∀ call ∈ thirteenLeaves,
      call.block < 2 ^ 4 * 1 ∧ call.block < 2 ^ 31 ∧ call.LeafInRange := by decide
  obtain ⟨s₁', hnew', -, hfits⟩ := @shorthand_run_iff 4 32 1 (by norm_num) (by norm_num) _
    (members_lawful 4) _ _ unbuilt.random (members 4) rfl unbuilt (by decide) rfl rfl
    thirteenLeaves hcalls
  have hnew : PathORAM.ORAM.new (members 4).toConfig InMemoryPositionMapAdapter.adapter true
      unbuiltBase = .ok () _ := eq_ok_of_returned (by decide +kernel)
  refine ⟨_, s₁', rfl, rfl, hnew, hnew', hcalls, by decide,
    base_returns hnew (by decide +kernel), fun hok => ?_⟩
  -- A run that throws nothing would have all thirteen in the stash.
  exact absurd (hfits hok) (by decide)

end ORAMPositionMapAdapter

end CloakQueryPathORAM
