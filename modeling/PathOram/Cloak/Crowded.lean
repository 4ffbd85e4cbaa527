import PathOram.Cloak.Populate

/-!
# Crowded views

A populated tree has a block in every place that the paths do not need, and no access ever
loses the last block of an ID. So a path that is read together with the stash never comes out
empty, and a payload that is shorter than a block is padded on its way to the stash
(`Access.resized`): it is served as if it had the block size.

* `View.Crowded` — every ID that the tree was populated with has a block.
* `View.Crowded.not_bare` — the pigeonhole: the buckets off a path cannot hold all of them.
* `View.Tidy` — no block of an ID is off the path of its leaf. Where this holds of an ID once,
  it holds ever after, so that the first put of the ID leaves no stale copy behind.
* `View.Carries` — all payloads have the block size and a property. This is all that reads keep
  of a view whose parts do not belong together.
* `View.Packed` — the invariant of any calls: the view carries its payloads, and stays crowded.
* `View.Stocked` — the invariant of a store: what was put is as the store has it, and the IDs
  of a set are tidy.
-/

namespace CloakQueryPathORAM

open PathORAM HeapTree ORAMTestSSS

namespace InMemoryStashAdapter

theorem resize_resize (size : ℕ) (data : Bytes) :
    resize size (resize size data) = resize size data := by
  have hlength : (resize size data).length = size := length_resize size data
  have hself := resize_length (resize size data)
  rwa [hlength] at hself

/-- A payload that is not too long is padded. -/
theorem resize_eq_append {size : ℕ} {data : Bytes} (h : data.length ≤ size) :
    resize size data = data ++ List.replicate (size - data.length) 0 := by
  rw [resize, List.take_of_length_le h]

end InMemoryStashAdapter

/-- The ID has a block somewhere. -/
def View.Has (c : Config) (v : View) (id : ℕ) : Prop :=
  id ∈ v.stash ∨ ∃ b, InTree c.height b ∧ ∃ e ∈ v.tree b, e.1 = id

/-- All IDs that the tree was populated with have a block. Those of bucket 0 were not used. -/
def View.Crowded (c : Config) (v : View) : Prop :=
  ∀ id, c.Z ≤ id → id < c.blocks → View.Has c v id

/-- No block of the ID is off the path of its leaf. -/
def View.Tidy (c : Config) (v : View) (id : ℕ) : Prop :=
  ∀ leaf, v.pos id = some leaf → View.Settled c v id leaf

/-- The operation with a payload of the block size. -/
def Op.padded (c : Config) : Op → Op
  | .read block => .read block
  | .write block data => .write block (InMemoryStashAdapter.resize c.dataSize data)

section Padded

variable {c : Config} {op : Op}

@[simp] theorem Op.block_padded : (Op.padded c op).block = op.block := by
  cases op <;> rfl

theorem Op.full_padded : (Op.padded c op).Full c.dataSize := by
  cases op with
  | read block => exact Op.full_read block _
  | write block data => exact InMemoryStashAdapter.length_resize c.dataSize data

end Padded

/-! ### The pigeonhole -/

section Crowded

variable {c : Config} {v v' : View} {op : Op} {leaf id : ℕ} {stash : InMemoryStashAdapter}
  {response : Bytes}

/-- The root is on every path. -/
theorem one_mem_path (hc : c.Valid) (hleaf : leaf < 2 ^ (c.height - 1)) :
    1 ∈ c.path leaf := by
  rw [Config.mem_path, HeapTree.mem_path]
  have hheight := hc.height_pos
  refine ⟨0, hheight, ?_⟩
  have hlt : HeapTree.node c.height 0 leaf < 2 ^ (0 + 1) := node_lt hheight hleaf
  have hpos : 0 < HeapTree.node c.height 0 leaf := node_pos hheight
  omega

/-- **The budget of a bare view.** If nothing is in the stash or on the path, the buckets off
the path would have to hold the blocks of all IDs, and there is a bucket too few. -/
theorem View.Crowded.not_bare (hc : c.Valid) (hv : v.Valid c.toConfig) (hcrowded : View.Crowded c v)
    (hleaf : leaf < 2 ^ (c.height - 1)) : ¬View.Bare c v leaf := by
  rintro ⟨hstash, hpath⟩
  have hsub : Finset.Ico c.Z c.blocks ⊆
      (Finset.Ico 2 (2 ^ c.height)).biUnion fun b => ((v.tree b).map Prod.fst).toFinset := by
    intro id hid
    obtain ⟨hZ, hlt⟩ := Finset.mem_Ico.mp hid
    rcases hcrowded id hZ hlt with hmem | ⟨b, hb, e, he, rfl⟩
    · rw [hstash] at hmem
      exact absurd hmem (AList.notMem_empty id)
    · -- A block of the root would be on the path.
      have hne : b ≠ 1 := by
        rintro rfl
        exact hpath 1 (one_mem_path hc hleaf) e he (hc.ne_ULONG_MAX hlt)
      refine Finset.mem_biUnion.mpr ⟨b, Finset.mem_Ico.mpr ⟨?_, hb.2⟩, ?_⟩
      · have := hb.1
        omega
      · exact List.mem_toFinset.mpr (List.mem_map_of_mem he)
  have hbucket : ∀ b ∈ Finset.Ico 2 (2 ^ c.height),
      ((v.tree b).map Prod.fst).toFinset.card ≤ c.Z := by
    intro b hb
    obtain ⟨htwo, hlt⟩ := Finset.mem_Ico.mp hb
    calc ((v.tree b).map Prod.fst).toFinset.card
        ≤ ((v.tree b).map Prod.fst).length := List.toFinset_card_le _
      _ = c.Z := by rw [List.length_map, hv.length b ⟨by omega, hlt⟩]
  have hcard := (Finset.card_le_card hsub).trans (Finset.card_biUnion_le_card_mul _ _ _ hbucket)
  rw [Nat.card_Ico, Nat.card_Ico, hc.blocks_eq, Nat.sub_mul] at hcard
  -- There are `2 ^ height - 1` buckets' worth of IDs and `2 ^ height - 2` buckets.
  have hZ := hc.Z_pos
  have htwo : 2 ≤ 2 ^ c.height := by
    calc 2 = 2 ^ 1 := rfl
      _ ≤ 2 ^ c.height := Nat.pow_le_pow_right Nat.two_pos hc.height_pos
  have hroom : 2 * c.Z ≤ 2 ^ c.height * c.Z := Nat.mul_le_mul_right c.Z htwo
  omega

/-- **A short payload is served as a padded one.** -/
theorem Access.resized (hfull : View.Full c v) (hbare : ¬View.Bare c v leaf)
    (h : Access c v op leaf stash response v') :
    Access c v (Op.padded c op) leaf stash response v' := by
  obtain ⟨htrimmed, hfitted, hbase, hevicts, hfitting, hroom⟩ := h
  refine ⟨htrimmed, ?_, hbase, hevicts, hfitting, hroom⟩
  cases hfitted with
  | read block => exact .read block
  | @write size block data hsize =>
    have hsize' := hsize.resolve_left fun hsome => hbare hsome.1
    -- the stash is not bare and its entries are full, so the size enforced is the payload's
    obtain rfl := hfull.fitting hsize'.2
    have hfitted : FittedOp c v leaf (Op.padded c (.write block data))
        (.write block (InMemoryStashAdapter.resize c.dataSize
          (InMemoryStashAdapter.resize c.dataSize data))) := .write block _ (.inr hsize')
    rwa [InMemoryStashAdapter.resize_resize] at hfitted

/-! ### What an access keeps -/

/-- **No ID loses its last block.** -/
theorem View.Has.access (hc : c.Valid) (hv : v.Valid c.toConfig) (hsmall : c.blocks ≤ 2 ^ 32)
    (hblock : op.block < c.blocks) (hpos : v.pos op.block = some leaf) (hid : id < c.blocks)
    (hbase : PathORAM.Access c.toConfig v op leaf stash response v')
    (hevicts : Evicts c v'.pos leaf (op.serve stash) v.tree v') (h : View.Has c v id) :
    View.Has c v' id := by
  have hleaf := hv.leaf_lt hblock hpos
  have hserved : ∀ id ∈ op.serve stash, id < 2 ^ 32 := by
    intro id hmem
    have hlt := View.Within.serve (hv.within.absorbs hleaf hbase.absorbs.toAbsorbs)
      (Op.forall_write hblock) id hmem
    omega
  -- What was read is in the stash, or was placed on the path.
  have hread : id ∈ stash → View.Has c v' id := by
    intro hmem
    have hmem' : id ∈ op.serve stash := by
      cases op with
      | read block => exact hmem
      | write block data => exact AList.mem_insert _ |>.mpr (.inr hmem)
    by_cases hkept : id ∈ v'.stash
    · exact .inl hkept
    · obtain ⟨-, b, hb, e, he, heq⟩ := hevicts.placed hserved hmem' hkept
      exact .inr ⟨b, Config.inTree_of_mem_path hleaf hb, e, he, heq⟩
  rcases h with hmem | ⟨b, hb, e, he, rfl⟩
  · exact hread (hbase.absorbs.keep_mem hmem)
  · by_cases hpath : b ∈ c.path leaf
    · exact hread (hbase.absorbs.all b hpath e he (hc.ne_ULONG_MAX hid))
    · exact .inr ⟨b, hb, e, by rwa [hevicts.off_path b hpath], rfl⟩

/-- **A tidy ID stays tidy**: its blocks are where they were, or were placed with regard to its
leaf. -/
theorem View.Tidy.access (hc : c.Valid) (hv : v.Valid c.toConfig)
    (hblock : op.block < c.blocks) (hpos : v.pos op.block = some leaf) (hid : id < c.blocks)
    (hbase : PathORAM.Access c.toConfig v op leaf stash response v')
    (hevicts : Evicts c v'.pos leaf (op.serve stash) v.tree v') (h : View.Tidy c v id) :
    View.Tidy c v' id := by
  intro leaf' hpos' b hb e he heq
  have hleaf := hv.leaf_lt hblock hpos
  have hreal : Block.Real e := by
    rw [Block.Real, heq]
    exact hc.ne_ULONG_MAX hid
  have hmoved : ∀ id, id ≠ op.block → v'.pos id = v.pos id := by
    intro id hne
    rw [hbase.pos']
    exact Function.update_of_ne hne _ _
  by_cases hpath : b ∈ c.path leaf
  · obtain ⟨l, hl, hon⟩ := hevicts.fits b hpath e he hreal
    rw [heq, hpos'] at hl
    obtain rfl := Option.some.inj hl
    have hlt : leaf' < 2 ^ (c.height - 1) := by
      by_cases hne : id = op.block
      · have hdraw : v'.pos id = some (v.coins.head % 2 ^ (c.height - 1)) := by
          rw [hne, hbase.pos']
          exact Function.update_self _ _ _
        rw [hdraw] at hpos'
        exact Option.some.inj hpos' ▸ Nat.mod_lt _ (Nat.two_pow_pos _)
      · rw [hmoved id hne] at hpos'
        exact hv.leaf_lt hid hpos'
    exact Config.mem_path.mpr ((onPath_iff_mem_path hlt hb).mp hon)
  · rw [hevicts.off_path b hpath] at he
    by_cases hne : id = op.block
    -- All its blocks were on the path that was read.
    · subst hne
      exact absurd (h leaf hpos b hb e he heq) hpath
    · rw [hmoved id hne] at hpos'
      exact h leaf' hpos' b hb e he heq

end Crowded

/-! ### The invariants -/

/-- The view is sound, and its payloads have the block size and the property `P`. -/
structure View.Carries (c : Config) (P : Bytes → Prop) (v : View) : Prop where
  sound : View.Sound c v
  full : View.Full c v
  tree : ∀ b, InTree c.height b → ∀ e ∈ v.tree b, Block.Real e → P e.2
  stash : ∀ id d, v.stash.lookup id = some d → P d

/-- The view carries its payloads, and is crowded. -/
structure View.Packed (c : Config) (P : Bytes → Prop) (v : View) : Prop
    extends View.Carries c P v where
  crowded : View.Crowded c v

section Packed

variable {c : Config} {P : Bytes → Prop} {v v' : View} {op : Op} {leaf : ℕ}
  {stash : InMemoryStashAdapter} {response : Bytes}

/-- **An access moves payloads**, and makes none but the one that is put. -/
theorem View.Carries.access (hv : View.Carries c P v) (hop : op.Full c.dataSize)
    (hblock : op.block < c.blocks) (hid : op.block ≤ 10 ^ 12)
    (hP : ∀ data, op = .write op.block data → P data)
    (h : Access c v op leaf stash response v') : View.Carries c P v' := by
  have hpos := h.pos_eq
  have hleaf := hv.sound.valid.leaf_lt hblock hpos
  obtain ⟨hbase, hevicts, hlength⟩ := h.of_full hv.sound hv.full hop hblock hpos
  -- what the stash serves was kept, read from the path or just put
  have hserved : ∀ id d, (op.serve stash).lookup id = some d → P d := by
    intro id d hd
    have hread : stash.lookup id = some d → P d := by
      intro hd
      rcases hbase.absorbs.source id d hd with hkept | ⟨hne, b, hb, he⟩
      · exact hv.stash id d hkept
      · exact hv.tree b (Config.inTree_of_mem_path hleaf hb) (id, d) he hne
    cases op with
    | read block => exact hread hd
    | write block data =>
      change (AList.insert block data stash).lookup id = some d at hd
      by_cases hself : id = block
      · rw [hself, AList.lookup_insert] at hd
        exact Option.some.inj hd ▸ hP data rfl
      · rw [AList.lookup_insert_ne hself] at hd
        exact hread hd
  refine ⟨hv.sound.access hblock hid h, View.Full.access hop hlength hevicts,
    fun b hb e he hreal => ?_, fun id d hd => hserved id d (hevicts.kept id d hd)⟩
  -- a bucket of the path gets its blocks from the stash, the others keep theirs
  by_cases hpath : b ∈ c.path leaf
  · exact hserved e.1 e.2 (hevicts.source b hpath e he hreal)
  · rw [hevicts.off_path b hpath] at he
    exact hv.tree b hb e he hreal

/-- The upload changes nothing. -/
theorem View.Carries.synced (hc : c.Valid) (hv : View.Carries c P v)
    (h : Synced c.toConfig v v') : View.Carries c P v' := by
  refine ⟨hv.sound.synced hc h, fun id d hd => hv.full id d (h.stash' ▸ hd),
    fun b hb e he hreal => ?_, fun id d hd => hv.stash id d (h.stash' ▸ hd)⟩
  rw [hv.sound.tree_sync hc h.toSync hb] at he
  exact hv.tree b hb e he hreal

/-- What a read returns is a payload, or nothing. -/
theorem View.Carries.answered (hv : View.Carries c P v) {block : ℕ} (hblock : block < c.blocks)
    (h : Access c v (.read block) leaf stash response v') : response = [] ∨ P response := by
  have hpos := h.pos_eq
  have hleaf := hv.sound.valid.leaf_lt hblock hpos
  obtain ⟨hbase, -, -⟩ := h.of_full hv.sound hv.full (Op.full_read block _) hblock hpos
  have hresponse := hbase.response_eq
  change response = (stash.lookup block).getD [] at hresponse
  -- a block that is nowhere is answered with no bytes
  cases hlookup : stash.lookup block with
  | none =>
    rw [hlookup] at hresponse
    exact .inl hresponse
  | some d =>
    rw [hlookup, Option.getD_some] at hresponse
    rw [hresponse]
    rcases hbase.absorbs.source block d hlookup with hkept | ⟨hne, b, hb, he⟩
    · exact .inr (hv.stash block d hkept)
    · exact .inr (hv.tree b (Config.inTree_of_mem_path hleaf hb) (block, d) he hne)

/-- An access of a packed view is one of a padded operation. -/
theorem View.Packed.padded (hc : c.Valid) (hv : View.Packed c P v) (hblock : op.block < c.blocks)
    (h : Access c v op leaf stash response v') :
    Access c v (Op.padded c op) leaf stash response v' := by
  have hleaf := hv.sound.valid.leaf_lt hblock h.pos_eq
  exact h.resized hv.full (hv.crowded.not_bare hc hv.sound.valid hleaf)

/-- So it is one of the protocol. -/
theorem View.Packed.base (hc : c.Valid) (hv : View.Packed c P v) (hblock : op.block < c.blocks)
    (h : Access c v op leaf stash response v') :
    PathORAM.Access c.toConfig v (Op.padded c op) leaf stash response v' ∧
      Evicts c v'.pos leaf ((Op.padded c op).serve stash) v.tree v' ∧
      ∀ id d, stash.lookup id = some d → d.length = c.dataSize := by
  have hblock' : (Op.padded c op).block < c.blocks := by rwa [Op.block_padded]
  have hpos' : v.pos (Op.padded c op).block = some leaf := by
    rw [Op.block_padded]
    exact h.pos_eq
  exact (hv.padded hc hblock h).of_full hv.sound hv.full Op.full_padded hblock' hpos'

/-- **An access keeps a view packed.** -/
theorem View.Packed.access (hc : c.Valid) (hsmall : c.blocks ≤ 2 ^ 32) (hv : View.Packed c P v)
    (hblock : op.block < c.blocks) (hid : op.block ≤ 10 ^ 12)
    (hP : ∀ data, op = .write op.block data → P (InMemoryStashAdapter.resize c.dataSize data))
    (h : Access c v op leaf stash response v') : View.Packed c P v' := by
  obtain ⟨hbase, hevicts, -⟩ := hv.base hc hblock h
  have hblock' : (Op.padded c op).block < c.blocks := by rwa [Op.block_padded]
  refine ⟨hv.toCarries.access Op.full_padded hblock' (by rwa [Op.block_padded])
    (fun data hwrite => ?_) (hv.padded hc hblock h), fun id hZ hlt => ?_⟩
  · cases op with
    | read block => cases hwrite
    | write block data' =>
      obtain ⟨-, rfl⟩ := Op.write.inj hwrite
      exact hP data' rfl
  -- the other half: an ID that shares its bucket stays crowded
  · exact (hv.crowded id hZ hlt).access hc hv.sound.valid hsmall hblock' hbase.pos hlt hbase hevicts

/-- The upload changes nothing. -/
theorem View.Packed.synced (hc : c.Valid) (hv : View.Packed c P v)
    (h : Synced c.toConfig v v') : View.Packed c P v' := by
  refine ⟨hv.toCarries.synced hc h, fun id hZ hlt => ?_⟩
  rcases hv.crowded id hZ hlt with hmem | ⟨b, hb, e, he, heq⟩
  · exact .inl (h.stash' ▸ hmem)
  · exact .inr ⟨b, hb, e, by rwa [hv.sound.tree_sync hc h.toSync hb], heq⟩

end Packed

/-- The view follows the store `kv`, is packed, and keeps the IDs of `T` tidy. -/
structure View.Stocked (c : Config) (P : Bytes → Prop) (T : Set ℕ) (kv : Store) (v : View) :
    Prop where
  follows : View.Follows c kv v
  packed : View.Packed c P v
  tidy : ∀ id ∈ T, id < c.blocks → View.Tidy c v id

section Stocked

variable {c : Config} {P : Bytes → Prop} {T : Set ℕ} {kv : Store} {v v' : View} {op : Op}
  {leaf : ℕ} {stash : InMemoryStashAdapter} {response : Bytes}

/-- **An access keeps the invariant**, if what it puts for the first time is tidy. -/
theorem View.Stocked.access (hc : c.Valid) (hsmall : c.blocks ≤ 2 ^ 32)
    (hv : View.Stocked c P T kv v) (hblock : op.block < c.blocks) (hid : op.block ≤ 10 ^ 12)
    (hnew : ∀ data, op = .write op.block data → kv op.block = none → op.block ∈ T)
    (hP : ∀ data, op = .write op.block data → P (InMemoryStashAdapter.resize c.dataSize data))
    (h : Access c v op leaf stash response v') :
    View.Stocked c P T ((Op.padded c op).apply kv) v' := by
  have hpos := h.pos_eq
  have hblock' : (Op.padded c op).block < c.blocks := by rwa [Op.block_padded]
  have hpos' : v.pos (Op.padded c op).block = some leaf := by rwa [Op.block_padded]
  obtain ⟨hbase, hevicts, -⟩ := hv.packed.base hc hblock h
  refine ⟨View.Follows.access hc hv.follows hblock' hpos' ?_ hsmall (by rwa [Op.block_padded])
    Op.full_padded (hv.packed.padded hc hblock h), hv.packed.access hc hsmall hblock hid hP h,
    fun id hT hlt => ?_⟩
  · intro data hwrite hnone
    rw [Op.block_padded] at hnone hwrite ⊢
    -- the first put of an ID: it must be one whose old block is on its path
    refine hv.tidy op.block ?_ hblock leaf hpos
    cases op with
    | read block => cases hwrite
    | write block data => exact hnew data rfl hnone
  · exact (hv.tidy id hT hlt).access hc hv.follows.sound.valid hblock' hpos' hlt hbase hevicts

/-- The upload changes nothing. -/
theorem View.Stocked.synced (hc : c.Valid) (hv : View.Stocked c P T kv v)
    (h : Synced c.toConfig v v') : View.Stocked c P T kv v' := by
  refine ⟨hv.follows.synced hc h, hv.packed.synced hc h,
    fun id hT hlt leaf hpos b hb e he heq => ?_⟩
  rw [hv.follows.sound.tree_sync hc h.toSync hb] at he
  rw [h.pos'] at hpos
  exact hv.tidy id hT hlt leaf hpos b hb e he heq

end Stocked

/-! ### The populated view -/

section Populated

variable {c : Config} {secretSharesSize : ℕ} {coins : Stream' ℕ} {v : View}

/-- The IDs whose bucket, as `populateStorage` chose it, is on the path of the leaf that the
constructor drew. -/
def Rooted (c : Config) (coins : Stream' ℕ) : Set ℕ :=
  {id | id < c.Z ∨ id / c.Z ∈ c.path (coins.get id % 2 ^ (c.height - 1))}

/-- Those of bucket 0, which is not in the tree, and of the root are among them. -/
theorem mem_Rooted_of_lt (hc : c.Valid) {id : ℕ} (hid : id < 2 * c.Z) : id ∈ Rooted c coins := by
  by_cases hZ : id < c.Z
  · exact .inl hZ
  · have hone : id / c.Z = 1 := Nat.div_eq_of_lt_le (by omega) (by omega)
    refine .inr ?_
    rw [hone]
    exact one_mem_path hc (Nat.mod_lt _ (Nat.two_pow_pos _))

theorem View.Populated.stocked (hc : Configured secretSharesSize c) {P : Bytes → Prop}
    (hP : P (List.replicate BLOCK_SIZE 0)) (h : View.Populated c coins v) :
    View.Stocked c P (Rooted c coins) Store.empty v := by
  have hZ : c.Z = 3 := hc.Z_eq
  have hfollows := h.follows hc
  refine ⟨hfollows, ⟨⟨hfollows.sound, hfollows.full, fun b hb e he _ => ?_, fun id d hd => ?_⟩,
    fun id hid hlt => .inr ⟨id / 3, ?_, (id, List.replicate BLOCK_SIZE 0), ?_, rfl⟩⟩,
    fun id hT hlt leaf hpos b hb e he heq => ?_⟩
  · obtain ⟨j, -, rfl⟩ := (h.mem_tree hc hb).mp he
    exact hP
  · rw [h.stash, AList.lookup_empty] at hd
    cases hd
  · rw [hc.valid.blocks_eq, hZ] at hlt
    rw [hZ] at hid
    exact ⟨by omega, by omega⟩
  · refine (h.mem_tree hc ?_).mpr ⟨id % 3, Nat.mod_lt _ (by decide), ?_⟩
    · rw [hc.valid.blocks_eq, hZ] at hlt
      rw [hZ] at hid
      exact ⟨by omega, by omega⟩
    · show (id, _) = (id / 3 * 3 + id % 3, _)
      rw [Nat.div_add_mod']
  -- block `b * 3 + j` lies in bucket `b`, so `b` is the bucket of the ID
  · obtain ⟨j, hj, rfl⟩ := (h.mem_tree hc hb).mp he
    have hj3 : j < 3 := hj
    have hid : b * 3 + j = id := heq
    have hbucket : id / c.Z = b := by
      rw [hZ]
      omega
    rw [h.pos id hlt] at hpos
    obtain rfl := Option.some.inj hpos
    rcases hT with hsmall | hrooted
    · have := hb.1
      rw [hZ] at hsmall
      omega
    · rwa [hbucket] at hrooted

end Populated

end CloakQueryPathORAM
