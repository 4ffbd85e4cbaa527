import PathOram.Cloak.Tree
import PathOram.Correctness

/-!
# The protocol with fitted payloads

Whatever enters the stash of this variant is cut off or padded to the length of some entry,
and what has not the block size is never evicted. So an access is an access of the protocol
from a view in which the payloads of the path were fitted first.

* `View.Fitting` — the lengths that payloads are fitted to.
* `Trimmed`, `FittedOp` — the path and the operation with fitted payloads.
* `Access` — one completed access: an access of the protocol from the trimmed view.
* `Overflow` — an access cut short because the stash is full.

* `View.Sound` — what holds of every view: blocks of the tree have the block size, and IDs
  are not suspicious.
-/

namespace CloakQueryPathORAM

open PathORAM Hoare HeapTree AbsStorageAdapter

/-! ### Fitted payloads -/

namespace InMemoryStashAdapter

theorem length_resize (size : ℕ) (data : Bytes) : (resize size data).length = size := by
  rw [resize, List.length_append, List.length_take, List.length_replicate]
  omega

@[simp] theorem resize_length (data : Bytes) : resize data.length data = data := by
  rw [resize, List.take_length, Nat.sub_self, List.replicate_zero, List.append_nil]

/-- What the stash begins with is an entry, if there is any. -/
theorem beginEntry_some {stash : InMemoryStashAdapter} {r : Random} {entry : Block}
    (h : (beginEntry stash r).1 = some entry) : stash.lookup entry.1 = some entry.2 :=
  UnorderedMap.mem_toList.mp
    ((Random.perm_iterate stash.toList r).subset (List.mem_of_mem_head? h))

theorem beginEntry_none {stash : InMemoryStashAdapter} {r : Random}
    (h : (beginEntry stash r).1 = none) : stash = ∅ := by
  have hnil : (Random.iterate stash.toList r).1 = [] := List.head?_eq_none_iff.mp h
  have hperm := Random.perm_iterate stash.toList r
  rw [hnil] at hperm
  exact AList.ext (List.map_eq_nil_iff.mp hperm.symm.eq_nil)

/-- A payload is fitted to the length of an entry, or taken as it is by an empty stash. -/
theorem exists_adjusted (stash : InMemoryStashAdapter) (r : Random) (data : Bytes) :
    ∃ size, adjusted (beginEntry stash r).1 data = resize size data ∧
      ((∃ id d, stash.lookup id = some d ∧ d.length = size) ∨
        stash = ∅ ∧ size = data.length) := by
  cases hfirst : (beginEntry stash r).1 with
  | some entry => exact ⟨entry.2.length, rfl, Or.inl ⟨_, _, beginEntry_some hfirst, rfl⟩⟩
  | none => exact ⟨data.length, (resize_length data).symm, Or.inr ⟨beginEntry_none hfirst, rfl⟩⟩

end InMemoryStashAdapter

/-- The lengths that payloads are fitted to on their way to the stash: those of its entries,
or the block size while there are none. -/
def View.Fitting (c : Config) (v : View) (size : ℕ) : Prop :=
  (∃ id d, v.stash.lookup id = some d ∧ d.length = size) ∨ v.stash = ∅ ∧ size = c.dataSize

/-- All blocks of the tree have the block size. -/
def View.Sized (c : Config) (v : View) : Prop :=
  ∀ b, InTree c.height b → ∀ e ∈ v.tree b, e.2.length = c.dataSize

/-- What holds of every view: all blocks of the tree have the block size, and no ID is one
that the stash would skip. -/
structure View.Sound (c : Config) (v : View) : Prop where
  valid : v.Valid c.toConfig
  ids : v.Within c.toConfig (· ≤ 10 ^ 12)
  sized : View.Sized c v

/-- The view `v'` is `v` with blocks of the path fitted. Those of an ID in the stash are not
looked at. -/
structure Trimmed (c : Config) (v : View) (leaf : ℕ) (v' : View) : Prop where
  tree : ∀ b, List.Forall₂ (fun e e' => e'.1 = e.1 ∧ (e'.2 = e.2 ∨
    b ∈ c.path leaf ∧ Block.Real e ∧ e.1 ∉ v.stash ∧
      ∃ size, View.Fitting c v size ∧ e'.2 = InMemoryStashAdapter.resize size e.2))
    (v.tree b) (v'.tree b)
  rest : v' = { v with tree := v'.tree }

/-- No block is in the stash or on the path. -/
def View.Bare (c : Config) (v : View) (leaf : ℕ) : Prop :=
  v.stash = ∅ ∧ ∀ b ∈ c.path leaf, ∀ e ∈ v.tree b, ¬Block.Real e

/-- The operation `op'` is `op` with its payload fitted. A payload that finds no other block
is taken as it is. -/
inductive FittedOp (c : Config) (v : View) (leaf : ℕ) : Op → Op → Prop
  | read (block : ℕ) : FittedOp c v leaf (.read block) (.read block)
  | write {size : ℕ} (block : ℕ) (data : Bytes)
      (h : View.Bare c v leaf ∧ size = data.length ∨
        ¬View.Bare c v leaf ∧ View.Fitting c v size) :
      FittedOp c v leaf (.write block data) (.write block (InMemoryStashAdapter.resize size data))

/-- An eviction of this variant: what has not the block size stays in the stash. -/
structure Evicts (c : Config) (pos : ℕ → Option ℕ) (leaf : ℕ) (stash : InMemoryStashAdapter)
    (tree : ℕ → Bucket) (v' : View) : Prop
    extends PathORAM.Evicts c.toConfig pos leaf stash tree v' where
  sized : ∀ b ∈ c.path leaf, ∀ e ∈ v'.tree b, Block.Real e → e.2.length = c.dataSize
  /-- What is not kept was deleted under the ID of a block that was placed, as it comes back
  from the conversion to `int`. -/
  lost : ∀ id ∈ stash, id ∉ v'.stash →
    ∃ b ∈ c.path leaf, ∃ e ∈ v'.tree b, Block.Real e ∧ ofInt (toInt e.1) = id
  /-- The bucket of the leaf has all blocks of the leaf, if they are no more than it holds. -/
  leaf_bucket : ∀ ids : Finset ℕ, ids.card ≤ c.Z →
    (∀ id d, stash.lookup id = some d → pos id = some leaf → id ∈ ids) →
    ∀ id d, stash.lookup id = some d → d.length = c.dataSize → pos id = some leaf →
      (id, d) ∈ v'.tree (node c.height (c.height - 1) leaf)

/-- **One access**: an access of the protocol, for fitted payloads. -/
inductive Access (c : Config) (v : View) (op : Op) (leaf : ℕ) (stash : InMemoryStashAdapter)
    (response : Bytes) (v' : View) : Prop
  | intro {v₁ : View} {op₁ : Op} (trimmed : Trimmed c v leaf v₁)
      (fitted : FittedOp c v leaf op op₁)
      (base : PathORAM.Access c.toConfig v₁ op₁ leaf stash response v')
      (evicts : Evicts c v'.pos leaf (op₁.serve stash) v₁.tree v')
      (fitting : ∀ id d, stash.lookup id = some d → View.Fitting c v d.length)
      (room : v.stash.keys.length ≤ c.stashCapacity →
        (op₁.serve stash).keys.length ≤ c.stashCapacity)

/-- The ID has a block in the stash or on the path. -/
def View.Near (c : Config) (v : View) (leaf id : ℕ) : Prop :=
  id ∈ v.stash ∨ ∃ b ∈ c.path leaf, ∃ e ∈ v.tree b, Block.Real e ∧ e.1 = id

/-- **An access cut short**: a stash of IDs near by is full, and another one needs room. -/
def Overflow (c : Config) (v : View) (op : Op) (leaf : ℕ) : Prop :=
  ∃ stash : InMemoryStashAdapter, stash.keys.length = c.stashCapacity ∧
    (∀ id ∈ stash, View.Near c v leaf id) ∧
    ∃ id ∉ stash, View.Near c v leaf id ∨ ∃ data, op = .write id data

/-! ### Trimmed views -/

section Trimmed

variable {c : Config} {v v' : View} {leaf : ℕ} {op op' : Op} {P : ℕ → Prop}

theorem FittedOp.block_eq (h : FittedOp c v leaf op op') : op'.block = op.block := by
  cases h <;> rfl

theorem Trimmed.pos (h : Trimmed c v leaf v') : v'.pos = v.pos := by
  rw [h.rest]

theorem Trimmed.stash (h : Trimmed c v leaf v') : v'.stash = v.stash := by
  rw [h.rest]

theorem Trimmed.cached (h : Trimmed c v leaf v') : v'.cached = v.cached := by
  rw [h.rest]

/-- Off the path no block is trimmed. -/
theorem Trimmed.off_path (h : Trimmed c v leaf v') {b : ℕ} (hb : b ∉ c.path leaf) :
    v'.tree b = v.tree b := by
  have hsame : List.Forall₂ (· = ·) (v.tree b) (v'.tree b) :=
    (h.tree b).imp fun e e' htrim =>
      Prod.ext htrim.1.symm (htrim.2.resolve_right fun h => hb h.1).symm
  exact (List.forall₂_eq_eq_eq ▸ hsame : v.tree b = v'.tree b).symm

/-- A block of the trimmed view comes from a block with the same ID. -/
theorem Trimmed.exists_block (h : Trimmed c v leaf v') {b : ℕ} {e' : Block}
    (he' : e' ∈ v'.tree b) : ∃ e ∈ v.tree b, e'.1 = e.1 ∧ (e'.2 = e.2 ∨
      b ∈ c.path leaf ∧ Block.Real e ∧ e.1 ∉ v.stash ∧
        ∃ size, View.Fitting c v size ∧ e'.2 = InMemoryStashAdapter.resize size e.2) :=
  exists_left_of_forall₂ (h.tree b) he'

theorem Trimmed.exists_trimmed (h : Trimmed c v leaf v') {b : ℕ} {e : Block}
    (he : e ∈ v.tree b) : ∃ e' ∈ v'.tree b, e'.1 = e.1 := by
  obtain ⟨e', he', hid, -⟩ := exists_right_of_forall₂ (h.tree b) he
  exact ⟨e', he', hid⟩

theorem real_of_fst_eq {e e' : Block} (h : e'.1 = e.1) : Block.Real e' ↔ Block.Real e := by
  rw [Block.Real, Block.Real, h]

theorem Trimmed.within (h : Trimmed c v leaf v') (hw : v.Within c.toConfig P) :
    v'.Within c.toConfig P where
  tree b hb e' he' hreal := by
    obtain ⟨e, he, hid, -⟩ := h.exists_block he'
    rw [hid]
    exact hw.tree b hb e he ((real_of_fst_eq hid).mp hreal)
  stash id hid := hw.stash id (h.stash ▸ hid)

theorem Trimmed.valid (h : Trimmed c v leaf v') (hv : v.Valid c.toConfig) :
    v'.Valid c.toConfig := by
  have hwithin := h.within hv.within
  refine ⟨h.pos ▸ hv.pos, fun b hb => ?_, fun b hb e' he' hdummy => ?_, hwithin.tree,
    hwithin.stash, h.cached ▸ hv.cached⟩
  · rw [← (h.tree b).length_eq]
    exact hv.length b hb
  · obtain ⟨e, he, hid, htrim⟩ := h.exists_block he'
    have hdummy' : ¬Block.Real e := fun hreal => hdummy ((real_of_fst_eq hid).mpr hreal)
    -- Only blocks with an ID are trimmed.
    rw [htrim.resolve_right fun h => hdummy' h.2.1]
    exact hv.dummy b hb e he hdummy'

end Trimmed

/-! ### Sound views -/

section Sound

variable {c : Config} {v v' : View} {leaf : ℕ} {op : Op} {stash : InMemoryStashAdapter}
  {response : Bytes} {P : ℕ → Prop}

/-- The path is that of the leaf that the ID had. -/
theorem Access.pos_eq (h : Access c v op leaf stash response v') : v.pos op.block = some leaf := by
  obtain ⟨htrimmed, hfitted, hbase, -, -, -⟩ := h
  rw [← htrimmed.pos, ← hfitted.block_eq]
  exact hbase.pos

/-- Its new leaf is drawn. -/
theorem Access.remapped (h : Access c v op leaf stash response v') :
    v'.pos op.block = some (v.coins.head % 2 ^ (c.height - 1)) := by
  obtain ⟨htrimmed, hfitted, hbase, -, -, -⟩ := h
  rw [hbase.pos', hfitted.block_eq, View.remap_pos_self, htrimmed.rest]

/-- What holds of all IDs with a block still holds after an access. -/
theorem Access.within (h : Access c v op leaf stash response v') (hv : v.Valid c.toConfig)
    (hop : op.block < c.blocks) (hw : v.Within c.toConfig P)
    (hP : ∀ id data, op = .write id data → P id) : v'.Within c.toConfig P := by
  obtain ⟨htrimmed, hfitted, hbase, -, -, -⟩ := h
  have hblock := hfitted.block_eq
  refine (htrimmed.within hw).access ((htrimmed.valid hv).leaf_lt (by rwa [hblock]) hbase.pos) ?_
    hbase
  rintro id data rfl
  cases hfitted with
  | write block data' _ => exact hP id data' rfl

theorem View.Sound.access (hv : View.Sound c v) (hop : op.block < c.blocks)
    (hid : op.block ≤ 10 ^ 12) (h : Access c v op leaf stash response v') :
    View.Sound c v' := by
  have hids := h.within hv.valid hop hv.ids (Op.forall_write hid)
  obtain ⟨htrimmed, hfitted, hbase, hevicts, -, -⟩ := h
  have hop₁ := hfitted.block_eq.symm ▸ hop
  refine ⟨(htrimmed.valid hv.valid).access hop₁ hbase, hids, fun b hb e he => ?_⟩
  -- The buckets of the path were filled anew, with blocks and dummies of the block size.
  by_cases hpath : b ∈ c.path leaf
  · by_cases hreal : Block.Real e
    · exact hevicts.sized b hpath e he hreal
    · exact hevicts.dummy b hpath e he hreal
  · rw [hevicts.off_path b hpath, htrimmed.off_path hpath] at he
    exact hv.sized b hb e he

/-- In a sound view no payload is too long, so the upload does not fail. -/
theorem View.Sound.not_syncFailed (hv : View.Sound c v) {e : Exception} :
    ¬SyncFailed c.toConfig v e v' := by
  intro h
  obtain ⟨b, hb, block, hblock, hlong, -⟩ := h.offending
  exact hlong.ne' (hv.sized b (hv.valid.cached b hb) block hblock)

/-- Nor is any payload padded. -/
theorem View.Sound.tree_sync (hc : c.Valid) (hv : View.Sound c v) (h : Sync c.toConfig v v')
    {b : ℕ} (hb : InTree c.height b) : v'.tree b = v.tree b := by
  refine (List.forall₂_eq_eq_eq ▸ ?_ : v.tree b = v'.tree b).symm
  refine (List.forall₂_iff_get.mpr ⟨(h.tree' b).length_eq, fun i hi hi' => ?_⟩)
  have htouched := (List.forall₂_iff_get.mp (h.tree' b)).2 i hi hi'
  refine Prod.ext htouched.1.symm ?_
  rcases htouched.2 with heq | ⟨-, heq⟩
  · exact heq.symm
  · have hlength := hv.sized b hb _ (List.get_mem (v.tree b) ⟨i, hi⟩)
    rw [heq, hc.dataSize_eq, padTo_of_le hlength.ge]

theorem View.Sound.synced (hc : c.Valid) (hv : View.Sound c v) (h : Synced c.toConfig v v') :
    View.Sound c v' := by
  refine ⟨hv.valid.sync hc h.toSync (h.cached' ▸ Finset.empty_subset _), hv.ids.sync h.toSync,
    fun b hb e he => ?_⟩
  rw [hv.tree_sync hc h.toSync hb] at he
  exact hv.sized b hb e he

/-- A freshly initialised view is sound. -/
theorem View.Sound.fresh (hc : c.Valid) {coins : Stream' ℕ} (h : v.Fresh c.toConfig coins) :
    View.Sound c v := by
  refine ⟨h.valid hc, h.within _, fun b hb e he => ?_⟩
  rw [h.dummy hb he, ← hc.dataSize_eq]
  exact length_padTo (Nat.zero_le _)

end Sound

end CloakQueryPathORAM
