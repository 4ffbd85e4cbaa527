import PathOram.Protocol
import Mathlib.Algebra.Order.BigOperators.Group.Finset
import Mathlib.Order.Interval.Finset.Nat

/-!
# The invariants of the protocol

What every move of the protocol keeps. A view is `Valid` in every state; `Tracks` is
the invariant that relates it to the key-value store, and `Once` says that no block is
ever duplicated. `Tracks` exempts a set `T` of IDs, which is empty as long as no access
is cut short: an `Overflow` adds the ID it was about, since that ID has a new leaf while
its blocks are still on the path of the old one.

* `View.Tracks.access` — an access keeps `Tracks` for the store after the operation, and
  an operation on an ID outside `T` is answered as the store answers it.
* `View.Once.access` — an access keeps `Once`.
* `View.Tracks.overflow` — an access cut short costs the ID it was about, and nothing
  else.
-/

namespace PathORAM

open HeapTree

namespace View

variable (c : Config)

/-- Every leaf is in range and every bucket of the tree has `Z` blocks with IDs in
range and dummies of at most the block size. -/
structure Valid (v : View) : Prop where
  pos : ∀ id < c.blocks, ∃ leaf < 2 ^ (c.height - 1), v.pos id = some leaf
  length : ∀ b, InTree c.height b → (v.tree b).length = c.Z
  dummy : ∀ b, InTree c.height b → ∀ e ∈ v.tree b, ¬Block.Real e → e.2.length ≤ c.dataSize
  tree_id : ∀ b, InTree c.height b → ∀ e ∈ v.tree b, Block.Real e → e.1 < c.blocks
  stash_id : ∀ id ∈ v.stash, id < c.blocks
  cached : ∀ b ∈ v.cached, InTree c.height b

/-- Every ID with a block satisfies `P`. -/
structure Within (P : ℕ → Prop) (v : View) : Prop where
  tree : ∀ b, InTree c.height b → ∀ e ∈ v.tree b, Block.Real e → P e.1
  stash : ∀ id ∈ v.stash, P id

/-- The view holds the store `kv`, with the IDs in `T` exempt. -/
structure Tracks (kv : Store) (T : Set ℕ) (v : View) : Prop where
  onPath : ∀ b, InTree c.height b → ∀ e ∈ v.tree b, Block.Real e → e.1 ∉ T →
    ∃ leaf, v.pos e.1 = some leaf ∧ OnPath c.height b leaf
  tree : ∀ b, InTree c.height b → ∀ e ∈ v.tree b, Block.Real e → e.1 ∉ T →
    ∃ p, kv e.1 = some p ∧ Padding c.dataSize p e.2
  stash : ∀ id d, v.stash.lookup id = some d → id ∉ T →
    ∃ p, kv id = some p ∧ Padding c.dataSize p d
  present : ∀ id p, kv id = some p → id ∉ T →
    id ∈ v.stash ∨ ∃ b, InTree c.height b ∧ ∃ e ∈ v.tree b, Block.Real e ∧ e.1 = id

/-- How often an ID occurs in the tree. -/
def copies (v : View) (id : ℕ) : ℕ :=
  ∑ b ∈ Finset.Ico 1 (2 ^ c.height), (v.tree b).countP (·.1 = id)

/-- Every ID that was put occurs once in tree and stash together, and no other does. -/
def Once (kv : Store) (v : View) : Prop :=
  ∀ id, id ≠ ULONG_MAX →
    v.copies c id + (if id ∈ v.stash then 1 else 0) = if (kv id).isSome then 1 else 0

end View

variable {c : Config} {v v' : View} {op : Op} {leaf : ℕ} {stash : InMemoryStashAdapter}
  {response : Bytes} {kv : Store} {T : Set ℕ} {P : ℕ → Prop}

/-! ### Paths -/

theorem Config.mem_path {b : ℕ} : b ∈ c.path leaf ↔ b ∈ HeapTree.path c.height leaf :=
  List.mem_toFinset

theorem Config.inTree_of_mem_path {b : ℕ} (hleaf : leaf < 2 ^ (c.height - 1))
    (h : b ∈ c.path leaf) : InTree c.height b :=
  HeapTree.inTree_of_mem_path hleaf (Config.mem_path.mp h)

theorem Config.mem_path_iff_onPath {b : ℕ} (hleaf : leaf < 2 ^ (c.height - 1))
    (hb : InTree c.height b) : b ∈ c.path leaf ↔ OnPath c.height b leaf := by
  rw [Config.mem_path, onPath_iff_mem_path hleaf hb]

theorem Config.path_subset (hleaf : leaf < 2 ^ (c.height - 1)) :
    c.path leaf ⊆ Finset.Ico 1 (2 ^ c.height) := fun _ hb =>
  Finset.mem_Ico.mpr (Config.inTree_of_mem_path hleaf hb)

/-- A leaf that the position map holds is in range. -/
theorem View.Valid.leaf_lt (hv : v.Valid c) {id : ℕ} (hid : id < c.blocks)
    (hpos : v.pos id = some leaf) : leaf < 2 ^ (c.height - 1) := by
  obtain ⟨l, hl, hl'⟩ := hv.pos id hid
  rw [hpos, Option.some.injEq] at hl'
  exact hl' ▸ hl

theorem View.remap_pos_of_ne {id block : ℕ} (h : id ≠ block) :
    (v.remap c block).pos id = v.pos id :=
  Function.update_of_ne h _ _

theorem View.remap_pos_self {block : ℕ} :
    (v.remap c block).pos block = some (v.coins.head % 2 ^ (c.height - 1)) :=
  Function.update_self _ _ _

/-- A remapped position map is in range. -/
theorem View.Valid.remap_pos (hv : v.Valid c) (block : ℕ) :
    ∀ id < c.blocks, ∃ leaf < 2 ^ (c.height - 1), (v.remap c block).pos id = some leaf := by
  intro id hid
  -- Either the ID was given a new leaf, or it has its old one.
  by_cases h : id = block
  · subst h
    exact ⟨_, Nat.mod_lt _ (Nat.two_pow_pos _), View.remap_pos_self⟩
  · rw [View.remap_pos_of_ne h]
    exact hv.pos id hid

/-! ### Reading the stash after the path was absorbed -/

theorem mem_of_lookup {s : InMemoryStashAdapter} {id : ℕ} {d : Bytes}
    (h : s.lookup id = some d) : id ∈ s :=
  AList.lookup_isSome.mp (by rw [h]; rfl)

theorem exists_lookup {s : InMemoryStashAdapter} {id : ℕ} (h : id ∈ s) :
    ∃ d, s.lookup id = some d :=
  Option.isSome_iff_exists.mp (AList.lookup_isSome.mpr h)

theorem Op.mem_serve {id : ℕ} :
    id ∈ op.serve stash ↔ id ∈ stash ∨ ∃ data, op = .write id data := by
  cases op with
  | read block => simp [Op.serve]
  | write block data =>
    rw [Op.serve, AList.mem_insert, or_comm]
    simp [eq_comm]

/-- An absorbed ID was in the stash or has a block on the path. -/
theorem Absorbs.mem (h : Absorbs c v leaf stash) {id : ℕ} (hid : id ∈ stash) :
    id ∈ v.stash ∨ ∃ b ∈ c.path leaf, ∃ e ∈ v.tree b, Block.Real e ∧ e.1 = id := by
  obtain ⟨d, hd⟩ := exists_lookup hid
  -- What the stash holds it held before, or it comes from a bucket of the path.
  rcases h.source id d hd with hs | ⟨hreal, b, hb, hmem⟩
  · exact Or.inl (mem_of_lookup hs)
  · exact Or.inr ⟨b, hb, (id, d), hmem, hreal, rfl⟩

theorem Absorbs.keep_mem (h : Absorbs c v leaf stash) {id : ℕ} (hid : id ∈ v.stash) :
    id ∈ stash := by
  obtain ⟨d, hd⟩ := exists_lookup hid
  exact mem_of_lookup (h.keep id d hd)

theorem Evicts.kept_mem {tree : ℕ → Bucket} {pos : ℕ → Option ℕ}
    (h : Evicts c pos leaf stash tree v') {id : ℕ} (hid : id ∈ v'.stash) : id ∈ stash := by
  obtain ⟨d, hd⟩ := exists_lookup hid
  exact mem_of_lookup (h.kept id d hd)

/-! ### IDs -/

/-- An operation writes only to its own ID. -/
theorem Op.forall_write (hop : P op.block) : ∀ id data, op = .write id data → P id := by
  rintro id data rfl
  exact hop

/-- What holds of all IDs with a block holds of all IDs that are absorbed. -/
theorem View.Within.absorbs (hw : v.Within c P) (hleaf : leaf < 2 ^ (c.height - 1))
    (h : Absorbs c v leaf stash) : ∀ id ∈ stash, P id := by
  intro id hid
  rcases h.mem hid with hs | ⟨b, hb, e, he, hreal, rfl⟩
  · exact hw.stash id hs
  · exact hw.tree b (Config.inTree_of_mem_path hleaf hb) e he hreal

theorem View.Within.serve (h : ∀ id ∈ stash, P id)
    (hop : ∀ id data, op = .write id data → P id) : ∀ id ∈ op.serve stash, P id := by
  intro id hid
  rcases Op.mem_serve.mp hid with hid | ⟨data, hwrite⟩
  · exact h id hid
  · exact hop id data hwrite

theorem View.Within.access (hw : v.Within c P) (hleaf : leaf < 2 ^ (c.height - 1))
    (hop : ∀ id data, op = .write id data → P id) (h : Access c v op leaf stash response v') :
    v'.Within c P where
  tree b hb e he hreal := by
    -- On the path the blocks come from the stash, and off it from the old tree.
    by_cases hpath : b ∈ c.path leaf
    · have hsource := h.evicts.source b hpath e he hreal
      exact View.Within.serve (hw.absorbs hleaf h.absorbs.toAbsorbs) hop e.1
        (mem_of_lookup hsource)
    · rw [h.evicts.off_path b hpath] at he
      exact hw.tree b hb e he hreal
  stash id hid := View.Within.serve (hw.absorbs hleaf h.absorbs.toAbsorbs) hop id
    (h.evicts.kept_mem hid)

theorem View.Within.overflow (hw : v.Within c P) (hleaf : leaf < 2 ^ (c.height - 1))
    (h : Overflow c v op leaf v') : v'.Within c P where
  tree b hb e he hreal := by
    rw [h.tree'] at he
    exact hw.tree b hb e he hreal
  stash := hw.absorbs hleaf h.absorbs

/-- A block of a padded bucket comes from a block with the same ID. -/
theorem Sync.exists_block (h : Sync c v v') {b : ℕ} {e' : Block} (he : e' ∈ v'.tree b) :
    ∃ e ∈ v.tree b, AbsStorageAdapter.Touched c.storage e e' :=
  exists_left_of_forall₂ (h.tree' b) he

theorem Block.real_of_touched {e e' : Block} (h : AbsStorageAdapter.Touched c.storage e e') :
    Block.Real e' ↔ Block.Real e := by
  unfold Block.Real
  rw [h.1]

theorem View.Within.sync (hw : v.Within c P) (h : Sync c v v') : v'.Within c P where
  tree b hb e' he' hreal := by
    obtain ⟨e, he, htouched⟩ := h.exists_block he'
    rw [htouched.1]
    exact hw.tree b hb e he ((Block.real_of_touched htouched).mp hreal)
  stash id hid := hw.stash id (h.stash' ▸ hid)

theorem View.Within.fetch (hw : v.Within c P) (locations : Finset ℕ) :
    (v.fetch locations).Within c P :=
  ⟨hw.tree, hw.stash⟩

theorem View.Valid.within (hv : v.Valid c) : v.Within c (· < c.blocks) :=
  ⟨hv.tree_id, hv.stash_id⟩

/-! ### Validity -/

theorem View.fetch_cached_inTree (hv : v.Valid c) {locations : Finset ℕ}
    (hlocations : ∀ b ∈ locations, InTree c.height b) :
    ∀ b ∈ (v.fetch locations).cached, InTree c.height b := by
  intro b hb
  rcases Finset.mem_union.mp hb with hb | hb
  · exact hv.cached b hb
  · exact hlocations b hb

theorem View.Valid.fetch (hv : v.Valid c) {locations : Finset ℕ}
    (hlocations : ∀ b ∈ locations, InTree c.height b) : (v.fetch locations).Valid c :=
  { hv with cached := View.fetch_cached_inTree hv hlocations }

theorem View.Valid.access (hv : v.Valid c) (hop : op.block < c.blocks)
    (h : Access c v op leaf stash response v') : v'.Valid c := by
  have hleaf := hv.leaf_lt hop h.pos
  have hwithin := hv.within.access hleaf (Op.forall_write hop) h
  refine ⟨h.pos' ▸ hv.remap_pos op.block, ?_, ?_, hwithin.tree, hwithin.stash, ?_⟩
  · intro b hb
    by_cases hpath : b ∈ c.path leaf
    · exact h.evicts.length b hpath
    · rw [h.evicts.off_path b hpath]
      exact hv.length b hb
  · intro b hb e he hdummy
    by_cases hpath : b ∈ c.path leaf
    · exact (h.evicts.dummy b hpath e he hdummy).le
    · rw [h.evicts.off_path b hpath] at he
      exact hv.dummy b hb e he hdummy
  · rw [h.cached']
    exact View.fetch_cached_inTree hv fun b hb => Config.inTree_of_mem_path hleaf hb

theorem View.Valid.overflow (hv : v.Valid c) (hop : op.block < c.blocks)
    (h : Overflow c v op leaf v') : v'.Valid c := by
  have hleaf := hv.leaf_lt hop h.pos
  have hwithin := hv.within.overflow hleaf h
  refine ⟨h.pos' ▸ hv.remap_pos op.block, ?_, ?_, hwithin.tree, hwithin.stash, ?_⟩
  · rw [h.tree']
    exact hv.length
  · rw [h.tree']
    exact hv.dummy
  · rw [h.cached']
    exact View.fetch_cached_inTree hv fun b hb => Config.inTree_of_mem_path hleaf hb

theorem View.Valid.sync (hc : c.Valid) (hv : v.Valid c) (h : Sync c v v')
    (hcached : v'.cached ⊆ v.cached) : v'.Valid c := by
  have hwithin := hv.within.sync h
  refine ⟨h.pos' ▸ hv.pos, ?_, ?_, hwithin.tree, hwithin.stash, fun b hb =>
    hv.cached b (hcached hb)⟩
  · intro b hb
    rw [← (h.tree' b).length_eq, hv.length b hb]
  · intro b hb e' he' hdummy
    obtain ⟨e, he, htouched⟩ := h.exists_block he'
    have hlen := hv.dummy b hb e he fun hreal => hdummy
      ((Block.real_of_touched htouched).mpr hreal)
    -- A dummy may be padded, which is never beyond the block size.
    rcases htouched.2 with heq | ⟨hle, heq⟩
    · rw [heq]
      exact hlen
    · rw [heq, AbsStorageAdapter.length_padTo hle, hc.dataSize_eq]

/-- The locations downloaded ahead are nodes of the tree. -/
theorem inTree_of_prefetched (hv : v.Valid c) {requests : List Block}
    (hrequests : ∀ request ∈ requests, request.1 < c.blocks) :
    ∀ b ∈ prefetched c v requests, InTree c.height b := by
  induction requests with
  | nil => exact fun b hb => absurd hb (Finset.notMem_empty b)
  | cons request requests ih =>
    intro b hb
    rcases Finset.mem_union.mp hb with hb | hb
    · obtain ⟨leaf, hleaf, hpos⟩ := hv.pos request.1 (hrequests request List.mem_cons_self)
      rw [hpos] at hb
      exact Config.inTree_of_mem_path hleaf hb
    · exact ih (fun r hr => hrequests r (List.mem_cons_of_mem _ hr)) b hb

/-! ### The invariant of the store -/

/-- More IDs may be exempt. -/
theorem View.Tracks.mono {U : Set ℕ} (h : v.Tracks c kv T) (hsub : T ⊆ U) : v.Tracks c kv U where
  onPath b hb e he hreal hU := h.onPath b hb e he hreal fun hT => hU (hsub hT)
  tree b hb e he hreal hU := h.tree b hb e he hreal fun hT => hU (hsub hT)
  stash id d hd hU := h.stash id d hd fun hT => hU (hsub hT)
  present id p hp hU := h.present id p hp fun hT => hU (hsub hT)

/-- An ID of which all blocks are right need not be exempt. -/
theorem View.Tracks.diff_singleton (h : v.Tracks c kv T) {id : ℕ} {p : Bytes}
    (hp : kv id = some p)
    (htree : ∀ b, InTree c.height b → ∀ e ∈ v.tree b, e.1 = id →
      (∃ leaf, v.pos id = some leaf ∧ OnPath c.height b leaf) ∧ e.2 = p)
    (hstash : ∀ d, v.stash.lookup id = some d → d = p)
    (hpresent : id ∈ v.stash ∨
      ∃ b, InTree c.height b ∧ ∃ e ∈ v.tree b, Block.Real e ∧ e.1 = id) :
    v.Tracks c kv (T \ {id}) := by
  have hnot : ∀ {id'}, id' ≠ id → id' ∉ T \ {id} → id' ∉ T := fun hne hT hmem => hT ⟨hmem, hne⟩
  refine ⟨fun b hb e he hreal hT => ?_, fun b hb e he hreal hT => ?_, fun id' d hd hT => ?_,
    fun id' p' hp' hT => ?_⟩
  · by_cases hid : e.1 = id
    · exact hid ▸ (htree b hb e he hid).1
    · exact h.onPath b hb e he hreal (hnot hid hT)
  · by_cases hid : e.1 = id
    · refine ⟨p, hid ▸ hp, ?_⟩
      rw [(htree b hb e he hid).2]
      exact Padding.refl _ _
    · exact h.tree b hb e he hreal (hnot hid hT)
  · by_cases hid : id' = id
    · subst hid
      exact ⟨p, hp, hstash d hd ▸ Padding.refl _ _⟩
    · exact h.stash id' d hd (hnot hid hT)
  · by_cases hid : id' = id
    · exact hid ▸ hpresent
    · exact h.present id' p' hp' (hnot hid hT)

/-- What an absorbed and served stash holds. -/
theorem View.Tracks.serve (ht : v.Tracks c kv T) (op : Op) (hleaf : leaf < 2 ^ (c.height - 1))
    (h : Absorbs c v leaf stash) {id : ℕ} {d : Bytes}
    (hd : (op.serve stash).lookup id = some d) (hT : id ∉ T) :
    ∃ p, op.apply kv id = some p ∧ Padding c.dataSize p d := by
  -- Before the operation is served, the stash holds what was in it or on the path.
  have habsorbed : ∀ d, stash.lookup id = some d →
      ∃ p, kv id = some p ∧ Padding c.dataSize p d := by
    intro d hd
    rcases h.source id d hd with hs | ⟨hreal, b, hb, hmem⟩
    · exact ht.stash id d hs hT
    · exact ht.tree b (Config.inTree_of_mem_path hleaf hb) (id, d) hmem hreal hT
  -- A write gives its own ID the new payload, and leaves the others alone.
  rcases Op.lookup_serve_cases hd with rfl | ⟨hd, happly⟩
  · exact ⟨d, Op.apply_write_self _ _ _, Padding.refl _ _⟩
  · rw [happly]
    exact habsorbed d hd

/-- All blocks of the ID of the operation are on the path that is read. -/
theorem View.Tracks.mem_path_of_block (ht : v.Tracks c kv T) (hpos : v.pos op.block = some leaf)
    (hleaf : leaf < 2 ^ (c.height - 1)) (hT : op.block ∉ T) {b : ℕ} (hb : InTree c.height b)
    {e : Block} (he : e ∈ v.tree b) (hreal : Block.Real e) (hid : e.1 = op.block) :
    b ∈ c.path leaf := by
  -- The block lies on the path of the leaf that its ID has.
  obtain ⟨l, hl, honPath⟩ := ht.onPath b hb e he hreal (by rwa [hid])
  rw [hid, hpos, Option.some.injEq] at hl
  rw [Config.mem_path_iff_onPath hleaf hb, hl]
  exact honPath

/-- An ID with a block on the path or in the stash is absorbed; any other ID that was put
keeps its block off the path. -/
theorem View.Tracks.present_absorbed (ht : v.Tracks c kv T) (h : AbsorbsAll c v leaf stash)
    {id : ℕ} {p : Bytes} (hkv : kv id = some p) (hT : id ∉ T) :
    id ∈ stash ∨ ∃ b, InTree c.height b ∧ b ∉ c.path leaf ∧
      ∃ e ∈ v.tree b, Block.Real e ∧ e.1 = id := by
  rcases ht.present id p hkv hT with hs | ⟨b, hb, e, he, hreal, rfl⟩
  · exact Or.inl (h.keep_mem hs)
  · by_cases hpath : b ∈ c.path leaf
    · exact Or.inl (h.all b hpath e he hreal)
    · exact Or.inr ⟨b, hb, hpath, e, he, hreal, rfl⟩

/-- An evicted ID is on the path or in the stash. -/
theorem Evicts.present {pos : ℕ → Option ℕ} {tree : ℕ → Bucket}
    (h : Evicts c pos leaf stash tree v') (hsmall : ∀ id ∈ stash, id < 2 ^ 31) {id : ℕ}
    (hid : id ∈ stash) :
    id ∈ v'.stash ∨ ∃ b ∈ c.path leaf, ∃ e ∈ v'.tree b, e.1 = id := by
  -- Placed and kept together make one, so one of the two happened.
  have honce := h.once hsmall id hid
  by_cases hs : id ∈ v'.stash
  · exact Or.inl hs
  · rw [if_neg hs, Nat.add_zero] at honce
    obtain ⟨b, hb, hcount⟩ := Finset.exists_ne_zero_of_sum_ne_zero (by rw [honce]; decide)
    obtain ⟨e, he, heq⟩ := List.countP_pos_iff.mp (Nat.pos_of_ne_zero hcount)
    exact Or.inr ⟨b, hb, e, he, of_decide_eq_true heq⟩

/-- An access keeps the invariant of the store, if it loses no ID outside `T`. -/
theorem View.Tracks.access_of_present (hc : c.Valid) (hv : v.Valid c) (ht : v.Tracks c kv T)
    (hop : op.block < c.blocks) (h : Access c v op leaf stash response v')
    (hpresent : ∀ id ∈ op.serve stash, id ∉ T →
      id ∈ v'.stash ∨ ∃ b ∈ c.path leaf, ∃ e ∈ v'.tree b, e.1 = id) :
    v'.Tracks c (op.apply kv) T := by
  have hleaf := hv.leaf_lt hop h.pos
  -- A block off the path is not one of the operation's ID.
  have hoff : ∀ b, InTree c.height b → b ∉ c.path leaf → ∀ e ∈ v.tree b, Block.Real e →
      e.1 ∉ T → e.1 ≠ op.block := fun b hb hpath e he hreal hT heq =>
    hpath (ht.mem_path_of_block h.pos hleaf (heq ▸ hT) hb he hreal heq)
  refine ⟨?_, ?_, ?_, ?_⟩
  -- The blocks that were placed fit, and the others are not those of the remapped ID.
  · intro b hb e he hreal hT
    by_cases hpath : b ∈ c.path leaf
    · exact h.evicts.fits b hpath e he hreal
    · rw [h.evicts.off_path b hpath] at he
      rw [h.pos', View.remap_pos_of_ne (hoff b hb hpath e he hreal hT)]
      exact ht.onPath b hb e he hreal hT
  -- The payloads are those of the served stash, or those of an untouched bucket.
  · intro b hb e he hreal hT
    by_cases hpath : b ∈ c.path leaf
    · exact ht.serve op hleaf h.absorbs.toAbsorbs (h.evicts.source b hpath e he hreal) hT
    · rw [h.evicts.off_path b hpath] at he
      rw [Op.apply_of_ne op (hoff b hb hpath e he hreal hT)]
      exact ht.tree b hb e he hreal hT
  · intro id d hd hT
    exact ht.serve op hleaf h.absorbs.toAbsorbs (h.evicts.kept id d hd) hT
  · intro id p hkv hT
    -- Either the ID is in the stash when the path is written, or its block is off the path.
    have hserved : id ∈ op.serve stash ∨ ∃ b, InTree c.height b ∧ b ∉ c.path leaf ∧
        ∃ e ∈ v.tree b, Block.Real e ∧ e.1 = id := by
      by_cases hwrite : ∃ data, op = .write id data
      · exact Or.inl (Op.mem_serve.mpr (Or.inr hwrite))
      · have hkv' : kv id = some p := by
          cases op with
          | read block => exact hkv
          | write block data =>
            have hne : id ≠ block := fun heq => hwrite ⟨data, by rw [heq]⟩
            rwa [Op.apply_of_ne (.write block data) hne] at hkv
        exact (ht.present_absorbed h.absorbs hkv' hT).imp_left fun hid =>
          Op.mem_serve.mpr (Or.inl hid)
    rcases hserved with hid | ⟨b, hb, hpath, e, he, hreal, heq⟩
    · refine (hpresent id hid hT).imp_right ?_
      rintro ⟨b, hb, e, he, rfl⟩
      -- The copy on the path is a block, since no ID in range is that of a dummy.
      have hlt : e.1 < c.blocks :=
        View.Within.serve (hv.within.absorbs hleaf h.absorbs.toAbsorbs) (Op.forall_write hop)
          e.1 hid
      exact ⟨b, Config.inTree_of_mem_path hleaf hb, e, he, hc.ne_ULONG_MAX hlt, rfl⟩
    · refine Or.inr ⟨b, hb, e, ?_, hreal, heq⟩
      rwa [h.evicts.off_path b hpath]

/-- **An access keeps the invariant of the store**, for the store after the operation. -/
theorem View.Tracks.access (hc : c.Valid) (hv : v.Valid c) (ht : v.Tracks c kv T)
    (hsmall : v.Within c (· < 2 ^ 31)) (hop : op.block < c.blocks)
    (hop' : op.block < 2 ^ 31) (h : Access c v op leaf stash response v') :
    v'.Tracks c (op.apply kv) T := by
  have hleaf := hv.leaf_lt hop h.pos
  have hsmall' : ∀ id ∈ op.serve stash, id < 2 ^ 31 :=
    View.Within.serve (hsmall.absorbs hleaf h.absorbs.toAbsorbs) (Op.forall_write hop')
  exact ht.access_of_present hc hv hop h fun id hid _ => h.evicts.present hsmall' hid

/-- **An operation is answered as the store answers it.** -/
theorem View.Tracks.answered (hv : v.Valid c) (ht : v.Tracks c kv T) (hop : op.block < c.blocks)
    (hT : op.block ∉ T) (h : Access c v op leaf stash response v') :
    op.Answered c.dataSize kv response := by
  have hleaf := hv.leaf_lt hop h.pos
  cases op with
  | write block data =>
    rw [h.response_eq, Op.serve, Op.block, AList.lookup_insert]
    rfl
  | read block =>
    -- A read is answered from the stash in which the path was absorbed.
    have hresponse : response = (stash.lookup block).getD [] := h.response_eq
    have hserve : ∀ d, stash.lookup block = some d → block ∉ T →
        ∃ p, kv block = some p ∧ Padding c.dataSize p d := fun d hd hT =>
      ht.serve (.read block) hleaf h.absorbs.toAbsorbs hd hT
    cases hlookup : stash.lookup block with
    | some d =>
      obtain ⟨p, hp, hpadding⟩ := hserve d hlookup hT
      rw [Op.answered_read_some hp, hresponse, hlookup]
      exact hpadding
    | none =>
      -- The stash has no block of the ID, and there is none off the path either.
      have hnone : kv block = none := by
        rw [Option.eq_none_iff_forall_ne_some]
        intro p hp
        rcases ht.present_absorbed h.absorbs hp hT with hid | ⟨b, hb, hpath, e, he, hreal, hid⟩
        · exact absurd (AList.lookup_eq_none.mp hlookup) (not_not.mpr hid)
        · exact hpath (ht.mem_path_of_block h.pos hleaf hT hb he hreal hid)
      rw [Op.answered_read_none hnone, hresponse, hlookup]
      rfl

/-- **An access cut short costs the ID it was about, and nothing else.** -/
theorem View.Tracks.overflow (hv : v.Valid c) (ht : v.Tracks c kv T) (hop : op.block < c.blocks)
    (h : Overflow c v op leaf v') : v'.Tracks c kv (insert op.block T) := by
  have hleaf := hv.leaf_lt hop h.pos
  -- The leaf of the ID has changed, but not those of the others.
  have hT' : ∀ {id}, id ∉ insert op.block T → id ≠ op.block ∧ id ∉ T := fun h =>
    ⟨fun heq => h (Or.inl heq), fun hT => h (Or.inr hT)⟩
  refine ⟨?_, ?_, ?_, ?_⟩
  · intro b hb e he hreal hT
    rw [h.tree'] at he
    rw [h.pos', View.remap_pos_of_ne (hT' hT).1]
    exact ht.onPath b hb e he hreal (hT' hT).2
  · intro b hb e he hreal hT
    rw [h.tree'] at he
    exact ht.tree b hb e he hreal (hT' hT).2
  · intro id d hd hT
    exact ht.serve (.read op.block) hleaf h.absorbs hd (hT' hT).2
  · intro id p hkv hT
    rw [h.tree']
    exact (ht.present id p hkv (hT' hT).2).imp_left h.absorbs.keep_mem

/-- A padded block holds a padding of the same payload. -/
theorem Padding.touched (hc : c.Valid) {p : Bytes} {e e' : Block}
    (h : Padding c.dataSize p e.2) (htouched : AbsStorageAdapter.Touched c.storage e e') :
    Padding c.dataSize p e'.2 := by
  rcases htouched.2 with heq | ⟨hle, heq⟩
  · rwa [heq]
  -- The zero bytes of both paddings together.
  · obtain ⟨zeros, hzeros, -⟩ := h
    refine ⟨zeros + (c.storage.userBlockSize - e.2.length), ?_, ?_⟩
    · rw [heq, AbsStorageAdapter.padTo, List.replicate_add, ← List.append_assoc, ← hzeros]
    · rw [heq, AbsStorageAdapter.length_padTo hle, hc.dataSize_eq]
      exact le_max_left _ _

theorem View.Tracks.sync (hc : c.Valid) (ht : v.Tracks c kv T) (h : Sync c v v') :
    v'.Tracks c kv T := by
  refine ⟨?_, ?_, ?_, ?_⟩
  · intro b hb e' he' hreal hT
    -- A padded block comes from a block with the same ID.
    obtain ⟨e, he, htouched⟩ := h.exists_block he'
    rw [h.pos', htouched.1]
    exact ht.onPath b hb e he ((Block.real_of_touched htouched).mp hreal) (htouched.1 ▸ hT)
  · intro b hb e' he' hreal hT
    obtain ⟨e, he, htouched⟩ := h.exists_block he'
    obtain ⟨p, hp, hpadding⟩ :=
      ht.tree b hb e he ((Block.real_of_touched htouched).mp hreal) (htouched.1 ▸ hT)
    exact ⟨p, htouched.1 ▸ hp, hpadding.touched hc htouched⟩
  · rw [h.stash']
    exact ht.stash
  · intro id p hkv hT
    rw [h.stash']
    refine (ht.present id p hkv hT).imp_right ?_
    rintro ⟨b, hb, e, he, hreal, heq⟩
    obtain ⟨e', he', htouched⟩ := exists_right_of_forall₂ (h.tree' b) he
    exact ⟨b, hb, e', he', (Block.real_of_touched htouched).mpr hreal, htouched.1.trans heq⟩

theorem View.Tracks.fetch (ht : v.Tracks c kv T) (locations : Finset ℕ) :
    (v.fetch locations).Tracks c kv T :=
  ⟨ht.onPath, ht.tree, ht.stash, ht.present⟩

/-! ### No duplicates -/

/-- The copies of an ID on the path and off it. -/
theorem View.copies_eq (v : View) (hleaf : leaf < 2 ^ (c.height - 1)) (id : ℕ) :
    v.copies c id = ∑ b ∈ c.path leaf, (v.tree b).countP (·.1 = id) +
      ∑ b ∈ Finset.Ico 1 (2 ^ c.height) \ c.path leaf, (v.tree b).countP (·.1 = id) := by
  unfold View.copies
  rw [add_comm, Finset.sum_sdiff (Config.path_subset hleaf)]

theorem sum_countP_eq_zero {s : Finset ℕ} {tree : ℕ → Bucket} {id : ℕ}
    (h : ∀ b ∈ s, ∀ e ∈ tree b, e.1 ≠ id) : ∑ b ∈ s, (tree b).countP (·.1 = id) = 0 := by
  refine Finset.sum_eq_zero fun b hb => List.countP_eq_zero.mpr fun e he => ?_
  simpa using h b hb e he

theorem sum_countP_pos {s : Finset ℕ} {tree : ℕ → Bucket} {b : ℕ} {e : Block} (hb : b ∈ s)
    (he : e ∈ tree b) : 1 ≤ ∑ b ∈ s, (tree b).countP (·.1 = e.1) := by
  have hpos : 0 < (tree b).countP (·.1 = e.1) :=
    List.countP_pos_iff.mpr ⟨e, he, decide_eq_true rfl⟩
  exact hpos.trans_le
    (Finset.single_le_sum (f := fun b => (tree b).countP (·.1 = e.1)) (fun _ _ => Nat.zero_le _) hb)

/-- A served ID has no copy off the path: the only one was on the path or in the stash, or
the ID is that of the operation, whose blocks are all on the path. -/
theorem View.Once.off_path_eq_zero (ht : v.Tracks c kv ∅) (honce : v.Once c kv)
    (hleaf : leaf < 2 ^ (c.height - 1)) (h : Access c v op leaf stash response v') {id : ℕ}
    (hid : id ≠ ULONG_MAX) (hserved : id ∈ op.serve stash) :
    ∑ b ∈ Finset.Ico 1 (2 ^ c.height) \ c.path leaf, (v.tree b).countP (·.1 = id) = 0 := by
  by_cases hblock : id = op.block
  · refine sum_countP_eq_zero fun b hb e he heq => ?_
    obtain ⟨hb, hpath⟩ := Finset.mem_sdiff.mp hb
    exact hpath (ht.mem_path_of_block h.pos hleaf (Set.notMem_empty _)
      (Finset.mem_Ico.mp hb) he (by rwa [Block.Real, heq]) (heq.trans hblock))
  · have habsorbed : id ∈ stash := by
      rcases Op.mem_serve.mp hserved with hmem | ⟨data, rfl⟩
      · exact hmem
      · exact absurd rfl hblock
    -- One copy is counted in the stash or on the path, which leaves none for the other buckets.
    have hbefore := honce id hid
    rw [v.copies_eq hleaf] at hbefore
    have hle : (if (kv id).isSome then 1 else 0) ≤ 1 := by split <;> omega
    rcases h.absorbs.mem habsorbed with hs | ⟨b, hb, e, he, -, rfl⟩
    · rw [if_pos hs] at hbefore
      omega
    · have hpos := sum_countP_pos hb he
      omega

/-- An ID that is not served is neither in the stash nor on the path, before and after. -/
theorem Access.not_served (h : Access c v op leaf stash response v') {id : ℕ}
    (hid : id ≠ ULONG_MAX) (hserved : id ∉ op.serve stash) :
    (id ∉ v.stash ∧ ∑ b ∈ c.path leaf, (v.tree b).countP (·.1 = id) = 0) ∧
      id ∉ v'.stash ∧ ∑ b ∈ c.path leaf, (v'.tree b).countP (·.1 = id) = 0 := by
  have hnot : id ∉ stash := fun hmem => hserved (Op.mem_serve.mpr (Or.inl hmem))
  refine ⟨⟨fun hmem => hnot (h.absorbs.keep_mem hmem), ?_⟩,
    fun hmem => hserved (h.evicts.kept_mem hmem), ?_⟩
  · -- A block on the path would have been absorbed.
    refine sum_countP_eq_zero fun b hb e he heq => hnot ?_
    subst heq
    exact h.absorbs.all b hb e he hid
  · -- A block that was placed comes from the stash.
    refine sum_countP_eq_zero fun b hb e he heq => hserved ?_
    subst heq
    exact mem_of_lookup (h.evicts.source b hb e he hid)

/-- **An access duplicates and loses nothing.** -/
theorem View.Once.access (hv : v.Valid c) (ht : v.Tracks c kv ∅) (honce : v.Once c kv)
    (hsmall : v.Within c (· < 2 ^ 31)) (hop : op.block < c.blocks)
    (hop' : op.block < 2 ^ 31) (h : Access c v op leaf stash response v') :
    v'.Once c (op.apply kv) := by
  have hleaf := hv.leaf_lt hop h.pos
  have hsmall' : ∀ id ∈ op.serve stash, id < 2 ^ 31 :=
    View.Within.serve (hsmall.absorbs hleaf h.absorbs.toAbsorbs) (Op.forall_write hop')
  intro id hid
  -- Off the path nothing changes.
  have hoff : ∑ b ∈ Finset.Ico 1 (2 ^ c.height) \ c.path leaf, (v'.tree b).countP (·.1 = id) =
      ∑ b ∈ Finset.Ico 1 (2 ^ c.height) \ c.path leaf, (v.tree b).countP (·.1 = id) :=
    Finset.sum_congr rfl fun b hb => by
      rw [h.evicts.off_path b (Finset.mem_sdiff.mp hb).2]
  rw [v'.copies_eq hleaf, hoff]
  by_cases hserved : id ∈ op.serve stash
  · -- The ID is placed once or kept, and it is in the store.
    have honce' := h.evicts.once hsmall' id hserved
    obtain ⟨d, hd⟩ := exists_lookup hserved
    obtain ⟨p, hp, -⟩ := ht.serve op hleaf h.absorbs.toAbsorbs hd (Set.notMem_empty id)
    rw [honce.off_path_eq_zero ht hleaf h hid hserved, hp]
    simpa using honce'
  · -- The ID is as it was before.
    obtain ⟨⟨hstash, hpath⟩, hstash', hpath'⟩ := h.not_served hid hserved
    have hbefore := honce id hid
    rw [v.copies_eq hleaf, if_neg hstash, hpath] at hbefore
    have hkv : op.apply kv id = kv id := by
      cases op with
      | read block => rfl
      | write block data =>
        refine Op.apply_of_ne (.write block data) (fun heq => hserved ?_) kv
        exact Op.mem_serve.mpr (Or.inr ⟨data, by rw [heq]; rfl⟩)
    rw [if_neg hstash', hpath', hkv]
    exact hbefore

theorem View.Once.sync (honce : v.Once c kv) (h : Sync c v v') : v'.Once c kv := by
  intro id hid
  have hcount : ∀ b, (v'.tree b).countP (·.1 = id) = (v.tree b).countP (·.1 = id) := by
    intro b
    have hmap : (v'.tree b).map Prod.fst = (v.tree b).map Prod.fst :=
      map_eq_of_forall₂ (fun _ _ htouched => htouched.1) (h.tree' b)
    have hcountP : ∀ bucket : Bucket,
        bucket.countP (·.1 = id) = (bucket.map Prod.fst).countP (· = id) := fun bucket => by
      rw [List.countP_map]
      rfl
    rw [hcountP, hcountP, hmap]
  rw [h.stash', ← honce id hid]
  unfold View.copies
  simp only [hcount]

theorem View.Once.fetch (honce : v.Once c kv) (locations : Finset ℕ) :
    (v.fetch locations).Once c kv :=
  honce

end PathORAM
