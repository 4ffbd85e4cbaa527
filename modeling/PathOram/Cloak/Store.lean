import PathOram.Cloak.Calls

/-!
# When the variant keeps what is put

A payload that enters the stash is cut off to the length of an entry that may be shorter,
and the block of one ID may be deleted in place of another, since IDs pass through an `int`.
So the variant does not keep what is put. It does in every run whose calls are `Harmless`:
no entry of the stash is shorter than a payload that is fitted to it, and no two IDs are
confused.

* `View.Keeps` — the invariant. IDs that come back from the conversion to `int` are in the
  tree or in the stash, as `View.Tracks` says; the others never leave the stash.
* `View.Keeps.access`, `View.Keeps.answered` — a harmless access keeps it, and is answered
  as the store answers it.
* `harmless_run_keeps` — the run of a freshly initialised ORAM.
* `short_payload_truncates` — a run that is not harmless.
-/

namespace PathORAM

theorem Padding.trans {n : ℕ} {p p' d : Bytes} (h : Padding n p p') (h' : Padding n p' d) :
    Padding n p d := by
  obtain ⟨zeros, rfl, hle⟩ := h
  obtain ⟨zeros', rfl, hle'⟩ := h'
  refine ⟨zeros + zeros', ?_, ?_⟩
  · rw [List.append_assoc, List.replicate_append_replicate]
  · omega

/-- The view holds any store whose payloads those it holds are paddings of. -/
theorem View.Tracks.of_padding {c : Config} {kv kv' : Store} {T : Set ℕ} {v : View}
    (h : v.Tracks c kv T)
    (hto : ∀ id p, kv id = some p → ∃ p', kv' id = some p' ∧ Padding c.dataSize p' p)
    (hfrom : ∀ id p', kv' id = some p' → ∃ p, kv id = some p) : v.Tracks c kv' T where
  onPath := h.onPath
  tree b hb e he hreal hT := by
    obtain ⟨p, hp, hpadding⟩ := h.tree b hb e he hreal hT
    obtain ⟨p', hp', hpadding'⟩ := hto _ p hp
    exact ⟨p', hp', hpadding'.trans hpadding⟩
  stash id d hd hT := by
    obtain ⟨p, hp, hpadding⟩ := h.stash id d hd hT
    obtain ⟨p', hp', hpadding'⟩ := hto _ p hp
    exact ⟨p', hp', hpadding'.trans hpadding⟩
  -- every ID of the new store is one of the old
  present id p' hp' hT := by
    obtain ⟨p, hp⟩ := hfrom id p' hp'
    exact h.present id p hp hT

end PathORAM

namespace CloakQueryPathORAM

open PathORAM Hoare HeapTree AbsStorageAdapter

/-- Fitting a padded payload only changes how far it is padded, if the length suffices. -/
theorem padding_resize {n size : ℕ} {p d : Bytes} (h : Padding n p d) (hle : p.length ≤ size)
    (hsize : size ≤ n) : Padding n p (InMemoryStashAdapter.resize size d) := by
  obtain ⟨zeros, rfl, -⟩ := h
  refine ⟨size - p.length, ?_, by rw [InMemoryStashAdapter.length_resize]; omega⟩
  rw [InMemoryStashAdapter.resize, List.take_append, List.take_of_length_le hle,
    List.append_assoc, List.take_replicate, List.replicate_append_replicate, List.length_append,
    List.length_replicate]
  congr 2
  omega

/-- The IDs that the conversion to `int` changes. -/
def Wrapped : Set ℕ := {id | ofInt (toInt id) ≠ id}

/-- The IDs that were put, or are put by the operation. -/
def Used (kv : Store) (op : Op) (id : ℕ) : Prop :=
  (∃ p, kv id = some p) ∨ ∃ data, op = .write id data

/-- The access cuts off no payload, and deletes no ID in place of another. -/
structure View.Harmless (c : Config) (kv : Store) (v : View) (op : Op) (leaf : ℕ) : Prop where
  payload : ∀ id d, v.stash.lookup id = some d →
    ∀ block data, op = .write block data → data.length ≤ d.length
  path : ∀ id d, v.stash.lookup id = some d → ∀ b ∈ c.path leaf, ∀ e ∈ v.tree b,
    Block.Real e → e.1 ∉ v.stash → ∀ p, kv e.1 = some p → p.length ≤ d.length
  distinct : ∀ id id', Used kv op id → Used kv op id' → ofInt (toInt id) = id' → id = id'

/-- The IDs that the conversion to `int` changes are in the stash once they were put. -/
structure View.Pinned (c : Config) (kv : Store) (v : View) : Prop where
  stash : ∀ id d, v.stash.lookup id = some d → id ∈ Wrapped →
    ∃ p, kv id = some p ∧ Padding c.dataSize p d
  present : ∀ id p, kv id = some p → id ∈ Wrapped → id ∈ v.stash
  tree : ∀ b, InTree c.height b → ∀ e ∈ v.tree b, Block.Real e → e.1 ∈ Wrapped → e.1 ∈ v.stash

/-- The view keeps the store `kv`; every ID with a block is in `S`. -/
structure View.Keeps (c : Config) (S : Finset ℕ) (kv : Store) (v : View) : Prop where
  sound : View.Sound c v
  within : v.Within c.toConfig (· ∈ S)
  short : ∀ id d, v.stash.lookup id = some d → d.length ≤ c.dataSize
  tracks : v.Tracks c.toConfig kv Wrapped
  pinned : View.Pinned c kv v
  bounded : kv.Bounded c.dataSize

section Access

variable {c : Config} {S : Finset ℕ} {kv : Store} {v v' v₁ : View} {op op₁ : Op} {leaf size : ℕ}
  {stash : InMemoryStashAdapter} {response : Bytes}

/-! ### One access -/

/-- No length is beyond the block size. -/
theorem View.Keeps.fitting_le (hv : View.Keeps c S kv v) (h : View.Fitting c v size) :
    size ≤ c.dataSize := by
  rcases h with ⟨id, d, hd, rfl⟩ | ⟨-, rfl⟩
  · exact hv.short id d hd
  · exact le_rfl

/-- The trimmed view still holds the store. -/
theorem View.Keeps.trimmed (hv : View.Keeps c S kv v) (hh : View.Harmless c kv v op leaf)
    (h : Trimmed c v leaf v₁) : v₁.Tracks c.toConfig kv Wrapped where
  -- trimming changes payloads, never IDs or places
  onPath b hb e' he' hreal hT := by
    obtain ⟨e, he, hid, -⟩ := h.exists_block he'
    rw [hid, h.pos]
    exact hv.tracks.onPath b hb e he ((real_of_fst_eq hid).mp hreal) (hid ▸ hT)
  tree b hb e' he' hreal hT := by
    obtain ⟨e, he, hid, htrim⟩ := h.exists_block he'
    obtain ⟨p, hp, hpadding⟩ :=
      hv.tracks.tree b hb e he ((real_of_fst_eq hid).mp hreal) (hid ▸ hT)
    refine ⟨p, hid ▸ hp, ?_⟩
    rcases htrim with heq | ⟨hpath, hreal', hnot, size, hsize, heq⟩
    · rwa [heq]
    · -- The length is that of an entry which is not too short, or the block size.
      rw [heq]
      refine padding_resize hpadding ?_ (hv.fitting_le hsize)
      rcases hsize with ⟨id, d, hd, rfl⟩ | ⟨-, rfl⟩
      -- a harmless call does not cut a payload on the path to the length of a shorter entry
      · exact hh.path id d hd b hpath e he hreal' hnot p hp
      · exact hv.bounded e.1 p hp
  stash id d hd hT := by
    rw [h.stash] at hd
    exact hv.tracks.stash id d hd hT
  present id p hp hT := by
    rw [h.stash]
    refine (hv.tracks.present id p hp hT).imp_right ?_
    rintro ⟨b, hb, e, he, hreal, rfl⟩
    obtain ⟨e', he', hid⟩ := h.exists_trimmed he
    exact ⟨b, hb, e', he', (real_of_fst_eq hid).mpr hreal, hid⟩

/-- The payload of the operation is not cut off. -/
theorem View.Keeps.fitted (hv : View.Keeps c S kv v) (hh : View.Harmless c kv v op leaf)
    (hfits : op.Fits c.dataSize) (h : FittedOp c v leaf op op₁) :
    (∀ id p, op₁.apply kv id = some p →
      ∃ p', op.apply kv id = some p' ∧ Padding c.dataSize p' p) ∧
    (∀ id p', op.apply kv id = some p' → ∃ p, op₁.apply kv id = some p) ∧ op₁.Fits c.dataSize := by
  cases h with
  | read block =>
    exact ⟨fun id p hp => ⟨p, hp, Padding.refl _ _⟩, fun id p' hp' => ⟨p', hp'⟩, trivial⟩
  | @write size block data hsize =>
    -- the payload is padded, not cut
    have hle : data.length ≤ size ∧ size ≤ c.dataSize := by
      rcases hsize with ⟨-, rfl⟩ | ⟨-, hfitting⟩
      · exact ⟨le_rfl, hfits⟩
      · refine ⟨?_, hv.fitting_le hfitting⟩
        rcases hfitting with ⟨id, d, hd, rfl⟩ | ⟨-, rfl⟩
        · exact hh.payload id d hd block data rfl
        · exact hfits
    refine ⟨fun id p hp => ?_, fun id p' hp' => ?_, ?_⟩
    -- the two stores differ on the ID that is put, by padding only
    · by_cases hid : id = block
      · subst hid
        rw [Op.apply_write_self, Option.some.injEq] at hp
        subst hp
        exact ⟨data, Op.apply_write_self _ _ _, padding_resize (Padding.refl _ _) hle.1 hle.2⟩
      · rw [Op.apply_of_ne (.write block _) hid] at hp
        rw [Op.apply_of_ne (.write block data) hid]
        exact ⟨p, hp, Padding.refl _ _⟩
    · by_cases hid : id = block
      · subst hid
        exact ⟨_, Op.apply_write_self _ _ _⟩
      · rw [Op.apply_of_ne (.write block data) hid] at hp'
        rw [Op.apply_of_ne (.write block _) hid]
        exact ⟨p', hp'⟩
    · change (InMemoryStashAdapter.resize size data).length ≤ _
      rw [InMemoryStashAdapter.length_resize]
      exact hle.2

/-- Reading a path does not change what the stash holds for an ID that never leaves it. -/
theorem View.Pinned.lookup (hp : View.Pinned c kv v) (hleaf : leaf < 2 ^ (c.height - 1))
    (htrimmed : Trimmed c v leaf v₁) (habsorbs : Absorbs c.toConfig v₁ leaf stash) {id : ℕ}
    (hT : id ∈ Wrapped) : stash.lookup id = v.stash.lookup id := by
  have hkeep : ∀ d, v.stash.lookup id = some d → stash.lookup id = some d := fun d hd =>
    habsorbs.keep id d (by rwa [htrimmed.stash])
  cases hd : stash.lookup id with
  | none =>
    cases hd' : v.stash.lookup id with
    | none => rfl
    | some d' => rw [hkeep d' hd'] at hd; cases hd
  | some d =>
    -- Were it new, it would come from a block on the path, but then it was in the stash.
    have hmem : id ∈ v.stash := by
      rcases habsorbs.mem (mem_of_lookup hd) with hs | ⟨b, hb, e', he', hreal, rfl⟩
      · rwa [htrimmed.stash] at hs
      · obtain ⟨e, he, heq, -⟩ := htrimmed.exists_block he'
        rw [heq] at hT ⊢
        exact hp.tree b (Config.inTree_of_mem_path hleaf hb) e he ((real_of_fst_eq heq).mp hreal)
          hT
    obtain ⟨d', hd'⟩ := exists_lookup hmem
    rw [hd', ← hkeep d' hd', hd]

/-- What is in the stash when the path is written back was put. -/
theorem View.Keeps.used (hv : View.Keeps c S kv v) (hh : View.Harmless c kv v op leaf)
    (hleaf : leaf < 2 ^ (c.height - 1)) (htrimmed : Trimmed c v leaf v₁)
    (hfitted : FittedOp c v leaf op op₁) (habsorbs : Absorbs c.toConfig v₁ leaf stash) {id : ℕ}
    (hid : id ∈ op₁.serve stash) : Used kv op id := by
  -- it was in the stash or on the path, or it is the one that is put
  rcases Op.mem_serve.mp hid with hmem | ⟨data, hwrite⟩
  · obtain ⟨d, hd⟩ := exists_lookup hmem
    by_cases hT : id ∈ Wrapped
    · rw [hv.pinned.lookup hleaf htrimmed habsorbs hT] at hd
      obtain ⟨p, hp, -⟩ := hv.pinned.stash id d hd hT
      exact Or.inl ⟨p, hp⟩
    · obtain ⟨p, hp, -⟩ := (hv.trimmed hh htrimmed).serve (.read id) hleaf habsorbs hd hT
      exact Or.inl ⟨p, hp⟩
  · cases hfitted with
    | read _ => cases hwrite
    | write block data' _ =>
      cases hwrite
      exact Or.inr ⟨data', rfl⟩

/-- The block of an ID is lost from the stash only by being placed. -/
theorem View.Keeps.lost (hv : View.Keeps c S kv v) (hh : View.Harmless c kv v op leaf)
    (hleaf : leaf < 2 ^ (c.height - 1)) (htrimmed : Trimmed c v leaf v₁)
    (hfitted : FittedOp c v leaf op op₁) (habsorbs : Absorbs c.toConfig v₁ leaf stash)
    {pos : ℕ → Option ℕ} (hevicts : Evicts c pos leaf (op₁.serve stash) v₁.tree v') {id : ℕ}
    (hid : id ∈ op₁.serve stash) (hlost : id ∉ v'.stash) :
    id ∉ Wrapped ∧ ∃ b ∈ c.path leaf, ∃ e ∈ v'.tree b, e.1 = id := by
  obtain ⟨b, hb, e, he, hreal, heq⟩ := hevicts.lost id hid hlost
  have hmem : e.1 ∈ op₁.serve stash := mem_of_lookup (hevicts.source b hb e he hreal)
  -- the conversion to `int` separates the IDs in use, so the block that was written is the ID's
  -- own
  have hsame : e.1 = id := hh.distinct e.1 id
    (hv.used hh hleaf htrimmed hfitted habsorbs hmem)
    (hv.used hh hleaf htrimmed hfitted habsorbs hid) heq
  exact ⟨fun hT => hT (hsame ▸ heq), b, hb, e, he, hsame⟩

/-- The IDs that never leave the stash are served as the store serves them. -/
theorem View.Pinned.serve (hp : View.Pinned c kv v) (hleaf : leaf < 2 ^ (c.height - 1))
    (htrimmed : Trimmed c v leaf v₁) (habsorbs : Absorbs c.toConfig v₁ leaf stash) {id : ℕ}
    {d : Bytes} (hd : (op₁.serve stash).lookup id = some d) (hT : id ∈ Wrapped) :
    ∃ p, op₁.apply kv id = some p ∧ Padding c.dataSize p d := by
  rcases Op.lookup_serve_cases hd with rfl | ⟨hd, happly⟩
  · exact ⟨d, Op.apply_write_self _ _ _, Padding.refl _ _⟩
  · rw [hp.lookup hleaf htrimmed habsorbs hT] at hd
    rw [happly]
    exact hp.stash id d hd hT

/-- They are still in the stash afterwards. -/
theorem View.Keeps.pinned_access (hv : View.Keeps c S kv v)
    (hh : View.Harmless c kv v op leaf) (hleaf : leaf < 2 ^ (c.height - 1))
    (htrimmed : Trimmed c v leaf v₁) (hfitted : FittedOp c v leaf op op₁)
    (hbase : PathORAM.Access c.toConfig v₁ op₁ leaf stash response v')
    (hevicts : Evicts c v'.pos leaf (op₁.serve stash) v₁.tree v') :
    View.Pinned c (op₁.apply kv) v' := by
  have habsorbs := hbase.absorbs.toAbsorbs
  -- a pinned ID is never written, so it is never deleted either
  have hstay : ∀ id ∈ op₁.serve stash, id ∈ Wrapped → id ∈ v'.stash := fun id hid hT => by
    by_contra hlost
    exact (hv.lost hh hleaf htrimmed hfitted habsorbs hevicts hid hlost).1 hT
  have hkept : ∀ id ∈ v.stash, id ∈ op₁.serve stash := fun id hid =>
    Op.mem_serve.mpr (Or.inl (habsorbs.keep_mem (htrimmed.stash ▸ hid)))
  refine ⟨fun id d hd hT => ?_, fun id p hp hT => hstay id ?_ hT, fun b hb e he hreal hT => ?_⟩
  · exact hv.pinned.serve hleaf htrimmed habsorbs (hevicts.kept id d hd) hT
  -- an ID of the store is served from the stash, or just put
  · by_cases hid : id = op₁.block
    · cases op₁ with
      | read block => exact hkept id (hv.pinned.present id p hp hT)
      | write block data =>
        exact Op.mem_serve.mpr (Or.inr ⟨data, congrArg (Op.write · data) hid.symm⟩)
    · rw [Op.apply_of_ne op₁ hid] at hp
      exact hkept id (hv.pinned.present id p hp hT)
  -- on the path every bucket was written from the stash; off the path nothing changed
  · by_cases hpath : b ∈ c.path leaf
    · exact hstay e.1 (mem_of_lookup (hevicts.source b hpath e he hreal)) hT
    · rw [hevicts.off_path b hpath, htrimmed.off_path hpath] at he
      exact hstay e.1 (hkept e.1 (hv.pinned.tree b hb e he hreal hT)) hT

theorem View.Pinned.of_padding {kv' : Store} (h : View.Pinned c kv v)
    (hto : ∀ id p, kv id = some p → ∃ p', kv' id = some p' ∧ Padding c.dataSize p' p)
    (hfrom : ∀ id p', kv' id = some p' → ∃ p, kv id = some p) : View.Pinned c kv' v where
  stash id d hd hT := by
    obtain ⟨p, hp, hpadding⟩ := h.stash id d hd hT
    obtain ⟨p', hp', hpadding'⟩ := hto _ p hp
    exact ⟨p', hp', hpadding'.trans hpadding⟩
  present id p' hp' hT := by
    obtain ⟨p, hp⟩ := hfrom id p' hp'
    exact h.present id p hp hT
  tree := h.tree

/-- **A harmless access keeps what was put.** -/
theorem View.Keeps.access (hc : c.Valid) (hv : View.Keeps c S kv v)
    (hh : View.Harmless c kv v op leaf) (hop : op.block < c.blocks) (hid : op.block ≤ 10 ^ 12)
    (hfits : op.Fits c.dataSize) (hS : ∀ id data, op = .write id data → id ∈ S)
    (hpos : v.pos op.block = some leaf) (h : Access c v op leaf stash response v') :
    View.Keeps c S (op.apply kv) v' := by
  have hleaf := hv.sound.valid.leaf_lt hop hpos
  have hsound := hv.sound.access hop hid h
  have hwithin := h.within hv.sound.valid hop hv.within hS
  obtain @⟨v₁, op₁, htrimmed, hfitted, hbase, hevicts, hfitting, -⟩ := h
  -- the payload that arrives in the stash pads the one that was put
  obtain ⟨hto, hfrom, hfits₁⟩ := hv.fitted hh hfits hfitted
  have habsorbs := hbase.absorbs.toAbsorbs
  refine ⟨hsound, hwithin, fun id d hd => ?_, ?_, ?_, hv.bounded.apply hfits⟩
  · -- An entry is the fitted payload, or one of the entries that the path was fitted to.
    rcases Op.lookup_serve_cases (hevicts.kept id d hd) with rfl | ⟨hd, -⟩
    · exact hfits₁
    · exact hv.fitting_le (hfitting id d hd)
  -- the protocol's lemma, once it is known that nothing gets lost
  · refine (View.Tracks.access_of_present hc (htrimmed.valid hv.sound.valid) (hv.trimmed hh htrimmed)
      (by rw [hfitted.block_eq]; exact hop) hbase fun id hid _ => ?_).of_padding hto hfrom
    by_cases hstash : id ∈ v'.stash
    · exact Or.inl hstash
    · exact Or.inr (hv.lost hh hleaf htrimmed hfitted habsorbs hevicts hid hstash).2
  · exact (hv.pinned_access hh hleaf htrimmed hfitted hbase hevicts).of_padding hto hfrom

/-- **A read is answered as the store answers it.** -/
theorem View.Keeps.answered (hv : View.Keeps c S kv v) {block : ℕ}
    (hh : View.Harmless c kv v (.read block) leaf) (hop : block < c.blocks)
    (hpos : v.pos block = some leaf) (h : Access c v (.read block) leaf stash response v') :
    (Op.read block).Answered c.dataSize kv response := by
  have hleaf := hv.sound.valid.leaf_lt hop hpos
  obtain ⟨htrimmed, hfitted, hbase, hevicts, hfitting, -⟩ := h
  cases hfitted with
  | read _ =>
    by_cases hT : block ∈ Wrapped
    · have hresponse : response = (stash.lookup block).getD [] := hbase.response_eq
      rw [hv.pinned.lookup hleaf htrimmed hbase.absorbs.toAbsorbs hT] at hresponse
      cases hd : v.stash.lookup block with
      -- a pinned ID is answered from the stash
      | some d =>
        obtain ⟨p, hp, hpadding⟩ := hv.pinned.stash block d hd hT
        rw [Op.answered_read_some hp, hresponse, hd]
        exact hpadding
      -- and was never put if it is not there
      | none =>
        have hnone : kv block = none := by
          rw [Option.eq_none_iff_forall_ne_some]
          intro p hp
          exact absurd (AList.lookup_eq_none.mp hd) (not_not.mpr (hv.pinned.present block p hp hT))
        rw [Op.answered_read_none hnone, hresponse, hd]
        rfl
    · exact (hv.trimmed hh htrimmed).answered (htrimmed.valid hv.sound.valid) hop hT hbase

/-- The upload changes nothing. -/
theorem View.Keeps.synced (hc : c.Valid) (hv : View.Keeps c S kv v)
    (h : Synced c.toConfig v v') : View.Keeps c S kv v' where
  sound := hv.sound.synced hc h
  within := hv.within.sync h.toSync
  short id d hd := hv.short id d (h.stash' ▸ hd)
  tracks := hv.tracks.sync hc h.toSync
  pinned :=
    { stash := fun id d hd => hv.pinned.stash id d (h.stash' ▸ hd)
      present := fun id p hp hT => h.stash' ▸ hv.pinned.present id p hp hT
      -- the upload does not change the tree as it is seen
      tree := fun b hb e he hreal hT => by
        rw [hv.sound.tree_sync hc h.toSync hb] at he
        rw [h.stash']
        exact hv.pinned.tree b hb e he hreal hT }
  bounded := hv.bounded

/-- A freshly initialised view keeps the empty store. -/
theorem View.Keeps.fresh (hc : c.Valid) {coins : Stream' ℕ} (h : v.Fresh c.toConfig coins)
    (S : Finset ℕ) : View.Keeps c S Store.empty v where
  sound := View.Sound.fresh hc h
  within := h.within _
  short id _ hd := absurd (mem_of_lookup hd) (h.not_mem_stash id)
  tracks := h.tracks _
  pinned :=
    { stash := fun id _ hd => absurd (mem_of_lookup hd) (h.not_mem_stash id)
      present := fun _ _ hp => absurd hp (by simp [Store.empty])
      tree := fun _ hb _ he hreal => absurd hreal (h.not_real hb he) }
  bounded _ _ hp := absurd hp (by simp [Store.empty])

/-- No access is cut short when the stash has room for all IDs. -/
theorem View.Sound.not_overflow (hv : View.Sound c v) (hwithin : v.Within c.toConfig (· ∈ S))
    (hop : op.block < c.blocks) (hS : ∀ id data, op = .write id data → id ∈ S)
    (hcard : S.card ≤ c.stashCapacity) (hpos : v.pos op.block = some leaf) :
    ¬Overflow c v op leaf := by
  rintro ⟨stash, hfull, hnear, id, hnot, hid⟩
  have hleaf := hv.valid.leaf_lt hop hpos
  -- everything near the path is one of the IDs in `S`, of which the stash has room for all
  have hmem : ∀ id, View.Near c v leaf id → id ∈ S := by
    rintro id (hs | ⟨b, hb, e, he, hreal, rfl⟩)
    · exact hwithin.stash id hs
    · exact hwithin.tree b (Config.inTree_of_mem_path hleaf hb) e he hreal
  have hidS : id ∈ S := hid.elim (hmem id) fun ⟨data, hwrite⟩ => hS id data hwrite
  have hlt := InMemoryStashAdapter.length_lt_card (fun id hid => hmem id (hnear id hid)) hidS hnot
  rw [hfull] at hlt
  exact absurd hcard (not_le.mpr hlt)

end Access

/-! ### Runs -/

namespace ORAM

variable {c : Config} {M : Type} {pm : AbsPositionMapAdapter M} {bound : ℕ}
  {R : (ℕ → Option ℕ) → M → Prop} {s : ORAM M} {kv : Store} {S : Finset ℕ} {call : Call}

/-- A call that finds no entry of the stash shorter than a payload that may be fitted to it,
and no two IDs of which the conversion to `int` makes one the other. `kv` is what was put. -/
structure Harmless (c : Config) (pm : AbsPositionMapAdapter M) (kv : Store) (s : ORAM M)
    (call : Call) : Prop where
  payload : ∀ entry ∈ s.stash.toList, ∀ block data, call = .put block data →
    data.length ≤ entry.2.length
  path : ∀ entry ∈ s.stash.toList, ∀ op ∈ call.ops, ∀ leaf,
    returned (pm.get op.block) s.map = some leaf → ∀ b ∈ c.path leaf,
      ∀ e ∈ content c.storage c.crypto s.storage b, Block.Real e → e.1 ∉ s.stash →
        ∀ p, kv e.1 = some p → p.length ≤ entry.2.length
  distinct : ∀ op ∈ call.ops, ∀ id id', Used kv op id → Used kv op id' →
    ofInt (toInt id) = id' → id = id'

/-- The state of an ORAM between calls that keeps the store `kv`. -/
def Keeps (c : Config) (R : (ℕ → Option ℕ) → M → Prop) (S : Finset ℕ) (kv : Store)
    (s : ORAM M) : Prop :=
  ∃ v, Shows c R v s ∧ View.Keeps c S kv v ∧ v.cached = ∅

/-- The leaf that the position map returns is the one that the view has. -/
theorem returned_get (hpm : pm.Implements c.blocks bound R False) {f : ℕ → Option ℕ} {m : M}
    (hR : R f m) {block leaf : ℕ} (hblock : block < c.blocks) (hleaf : f block = some leaf) :
    returned (pm.get block) m = some leaf := by
  obtain ⟨l, m', hget, hl, -⟩ := (hpm.get_spec f m block hR hblock).exists_ok
  rw [returned, hget, hl leaf hleaf]

/-- Between calls the tree is what is stored. -/
theorem tree_of_cached_eq_empty {v : View} (hs : Shows c R v s) (hcached : v.cached = ∅) (b : ℕ) :
    v.tree b = content c.storage c.crypto s.storage b := by
  have hnone : s.cache.lookup b = none := AList.lookup_eq_none.mpr fun hb =>
    Finset.notMem_empty b (hcached ▸ (hs.cached b).mpr hb)
  rw [hs.tree b, hnone]
  rfl

/-- What is harmless in a state between calls is harmless in the view it shows. -/
theorem Harmless.view (hpm : pm.Implements c.blocks bound R False) {v : View}
    (hs : Shows c R v s) (hcached : v.cached = ∅) (h : Harmless c pm kv s call) {op : Op}
    (hcall : call.ops = [op]) (hsingle : call.Single) (hblock : op.block < c.blocks) {leaf : ℕ}
    (hleaf : v.pos op.block = some leaf) : View.Harmless c kv v op leaf := by
  have hop : op ∈ call.ops := hcall ▸ List.mem_singleton_self op
  -- the stash of the view is the one of the state
  have hentry : ∀ id d, v.stash.lookup id = some d → (id, d) ∈ s.stash.toList := fun id d hd =>
    UnorderedMap.mem_toList.mpr (hs.stash ▸ hd)
  refine ⟨fun id d hd block data hwrite => ?_, fun id d hd b hb e he hreal hnot p hp => ?_,
    h.distinct op hop⟩
  -- a call with one write is a put
  · have hput : call = .put block data := by
      subst hwrite
      cases call with
      | get _ => cases List.singleton_injective hcall
      | put _ _ => cases List.singleton_injective hcall; rfl
      | multiple _ => exact hsingle.elim
    exact h.payload _ (hentry id d hd) block data hput
  · exact h.path _ (hentry id d hd) op hop leaf (returned_get hpm hs.pos hblock hleaf) b hb e
      (tree_of_cached_eq_empty hs hcached b ▸ he) hreal (hs.stash ▸ hnot) p hp

/-- The calls that the results of this module are about: to `get` and `put`, with IDs in range
that are not suspicious and payloads of at most the block size. -/
structure Plain (c : Config) (call : Call) : Prop where
  single : call.Single
  inRange : ∀ op ∈ call.ops, op.block < c.blocks
  ids : ∀ op ∈ call.ops, op.block ≤ 10 ^ 12
  fits : ∀ op ∈ call.ops, op.Fits c.dataSize

instance (c : Config) (call : Call) : Decidable (Plain c call) :=
  decidable_of_iff (call.Single ∧ (∀ op ∈ call.ops, op.block < c.blocks) ∧
      (∀ op ∈ call.ops, op.block ≤ 10 ^ 12) ∧ ∀ op ∈ call.ops, op.Fits c.dataSize)
    ⟨fun h => ⟨h.1, h.2.1, h.2.2.1, h.2.2.2⟩, fun h => ⟨h.single, h.inRange, h.ids, h.fits⟩⟩

/-- **One harmless call** returns, and is answered as the store answers it. -/
theorem exec_harmless (hc : c.Valid) (hpm : pm.Implements c.blocks bound R False)
    (hbound : 2 ^ (c.height - 1) ≤ bound) (hcard : S.card ≤ c.stashCapacity)
    (hcall : Plain c call) (hputs : ∀ op ∈ call.ops, ∀ id data, op = .write id data → id ∈ S)
    (hs : Keeps c R S kv s) (hh : Harmless c pm kv s call) :
    wp (exec c pm call)
      (fun responses s' => call.Answered c.dataSize kv responses ∧ Keeps c R S (call.apply kv) s')
      (fun _ _ => False) s := by
  obtain ⟨v, hshows, hv, hcached⟩ := hs
  obtain ⟨op, hops⟩ := hcall.single.exists_ops
  have hmem : op ∈ call.ops := hops ▸ List.mem_singleton_self op
  have hop := hcall.inRange op hmem
  have hid := hcall.ids op hmem
  have hview : ∀ {leaf}, v.pos op.block = some leaf → View.Harmless c kv v op leaf := fun hpos =>
    hh.view hpm hshows hcached hops hcall.single hop hpos
  -- the call is one access of the protocol and an upload
  refine wp_mono (exec_spec hc hpm hbound hv.sound hshows hops hcall.single hop hid) ?_ ?_
  · rintro _ s' ⟨leaf, stash, response, v₁, v', haccess, hsynced, hs', rfl⟩
    have hpos : v.pos op.block = some leaf := haccess.pos_eq
    have hv₁ := hv.access hc (hview hpos) hop hid (hcall.fits op hmem) (hputs op hmem) hpos haccess
    have happly : call.apply kv = op.apply kv := by rw [Call.apply, hops]; rfl
    refine ⟨?_, v', hs', happly ▸ hv₁.synced hc hsynced, hsynced.cached'⟩
    cases call with
    | get block =>
      obtain rfl : op = .read block := (List.singleton_injective hops).symm
      exact ⟨response, [], rfl, hv.answered (hview hpos) hop hpos haccess, rfl⟩
    | put block data => rfl
    | multiple requests => exact hcall.single.elim
  -- neither of the two reasons to throw applies
  · rintro e _ (hthrow | ⟨-, leaf, hpos, hoverflow⟩)
    · exact hthrow
    · exact hv.sound.not_overflow hv.within hop (hputs op hmem) hcard hpos hoverflow

/-- **Harmless runs keep what is put.** In every run of a freshly initialised ORAM whose calls
are all harmless in the states that they find, no call throws, and every `get` returns the
payload put last under its ID, followed only by zeros. -/
theorem harmless_run_keeps (hc : c.Valid) (hpm : pm.Implements c.blocks bound R False)
    (hbound : 2 ^ (c.height - 1) ≤ bound) {s₀ : ORAM M} {f : ℕ → Option ℕ} (hR : R f s₀.map)
    (hstash : s₀.stash = ∅) (hcache : s₀.cache = ∅) {calls : List Call}
    (hcalls : ∀ call ∈ calls, Plain c call)
    (hcapacity : (Call.puts calls).card ≤ c.stashCapacity) :
    ∃ s₁, new c pm true s₀ = .ok () s₁ ∧
      (Admitted (exec c pm) (Harmless c pm) Call.apply calls Store.empty s₁ →
        ∃ kv, Judged (Call.Serves c.dataSize) Store.empty calls
          (runCatching (exec c pm) calls s₁).1 kv) := by
  obtain ⟨_, s₁, hnew, v, hfresh, hs₁⟩ :=
    (new_spec hc hpm hbound hR hstash hcache).exists_ok
  refine ⟨s₁, hnew, fun hadmitted => ?_⟩
  -- all IDs that are written are put by one of the calls
  have hputs : ∀ call ∈ calls, ∀ op ∈ call.ops, ∀ id data, op = .write id data →
      id ∈ Call.puts calls := by
    rintro call hcall op hop id data rfl
    exact Call.mem_puts hcall hop
  have hfresh' : Keeps c R (Call.puts calls) Store.empty s₁ :=
    ⟨v, hs₁, View.Keeps.fresh hc hfresh _, hfresh.cached⟩
  -- the run, call by call, each harmless in the state that it finds
  refine (runCatching_admitted (fun kv call s hs hA => ?_) calls Store.empty s₁ hfresh'
    (hadmitted.and fun call hcall => And.intro (hcalls call hcall) (hputs call hcall))).imp
      fun _ h => h.1
  obtain ⟨hharmless, hplain, hS⟩ := hA
  refine wp_mono (exec_harmless hc hpm hbound hcapacity hplain hS hs hharmless) ?_
    fun _ _ h => h.elim
  rintro responses s' ⟨hanswered, hs'⟩
  exact ⟨⟨responses, rfl, hanswered, rfl⟩, hs'⟩

/-- While the stash is empty, a call is harmless if there is only one ID. -/
theorem Harmless.of_empty (hstash : s.stash.toList = [])
    (hids : ∀ op ∈ call.ops, ∀ id, Used kv op id → id = 0) : Harmless c pm kv s call where
  payload entry hentry := by
    rw [hstash] at hentry
    exact absurd hentry List.not_mem_nil
  path entry hentry := by
    rw [hstash] at hentry
    exact absurd hentry List.not_mem_nil
  distinct op hop id id' hid hid' _ := (hids op hop id hid).trans (hids op hop id' hid').symm

/-- Calls with one ID, whose payload fills a block. -/
def fullBlock : List Call := [.put 0 (List.replicate 32 7), .get 0]

theorem harmless_run_keeps_tiny :
    ∃ s₁, new (Config.tiny 1 2) InMemoryPositionMapAdapter.adapter true unbuiltTiny = .ok () s₁ ∧
      ∃ kv, Judged (Call.Serves (Config.tiny 1 2).dataSize) Store.empty fullBlock
        (runCatching (exec (Config.tiny 1 2) InMemoryPositionMapAdapter.adapter) fullBlock s₁).1
        kv := by
  have hrun : ∃ s₁, new (Config.tiny 1 2) InMemoryPositionMapAdapter.adapter true unbuiltTiny =
      .ok () s₁ ∧ (Admitted (exec (Config.tiny 1 2) InMemoryPositionMapAdapter.adapter)
        (Harmless (Config.tiny 1 2) InMemoryPositionMapAdapter.adapter) Call.apply fullBlock
          Store.empty s₁ →
        ∃ kv, Judged (Call.Serves (Config.tiny 1 2).dataSize) Store.empty fullBlock
          (runCatching (exec (Config.tiny 1 2) InMemoryPositionMapAdapter.adapter) fullBlock s₁).1
          kv) :=
    harmless_run_keeps (PathORAM.Config.tiny_valid le_rfl (by norm_num) 2)
      (InMemoryPositionMapAdapter.implements 2 1) le_rfl (f := unbuiltTiny.map.map) ⟨rfl, le_rfl⟩
      rfl rfl (by decide) (by decide)
  obtain ⟨s₁, hnew, hrun⟩ := hrun
  have hs₁ : s₁ = leaves (new (Config.tiny 1 2) InMemoryPositionMapAdapter.adapter true)
      unbuiltTiny := by
    rw [leaves, hnew]
  refine ⟨s₁, hnew, hrun ⟨.of_empty ?_ ?_, .of_empty ?_ ?_, trivial⟩⟩
  · rw [hs₁]
    decide +kernel
  · rintro op hop id (⟨p, hp⟩ | ⟨data, rfl⟩)
    · cases hp
    · cases List.mem_singleton.mp hop
      rfl
  · rw [hs₁]
    decide +kernel
  · rintro op hop id (⟨p, hp⟩ | ⟨data, rfl⟩)
    · by_contra hne
      rw [show Call.apply (.put 0 (List.replicate 32 7)) Store.empty id = none from
        Function.update_of_ne hne _ _] at hp
      cases hp
    · cases List.mem_singleton.mp hop

/-! ### A run that is not harmless -/

/-- The calls: the first payload has one byte and stays alone in the stash. -/
def shortFirst : List Call := [.put 0 [1], .put 1 (List.replicate 32 2), .get 1]

/-- The second payload is cut off to the length of the first. -/
theorem short_payload_truncates :
    ∃ s₁, new (Config.tiny 1 2) InMemoryPositionMapAdapter.adapter true unbuiltTiny = .ok () s₁ ∧
      (Call.puts shortFirst).card ≤ (Config.tiny 1 2).stashCapacity ∧
      (∀ call ∈ shortFirst, Plain (Config.tiny 1 2) call) ∧
      ¬∃ kv, Judged (Call.Serves (Config.tiny 1 2).dataSize) Store.empty shortFirst
        (runCatching (exec (Config.tiny 1 2) InMemoryPositionMapAdapter.adapter) shortFirst s₁).1
        kv := by
  have hnew : new (Config.tiny 1 2) InMemoryPositionMapAdapter.adapter true unbuiltTiny =
      .ok () _ := eq_ok_of_returned (by decide +kernel)
  have houtcomes : (runCatching (exec (Config.tiny 1 2) InMemoryPositionMapAdapter.adapter)
      shortFirst (leaves (new (Config.tiny 1 2) InMemoryPositionMapAdapter.adapter true)
        unbuiltTiny)).1 = [.ok [], .ok [], .ok [[2]]] := by
    decide +kernel
  refine ⟨_, hnew, by decide, by decide, ?_⟩
  rintro ⟨kv, hjudged⟩
  rw [houtcomes] at hjudged
  obtain _ | ⟨⟨_, -, -, rfl⟩, htail⟩ := hjudged
  obtain _ | ⟨⟨_, -, -, rfl⟩, htail⟩ := htail
  obtain _ | ⟨⟨responses, hresponses, hanswered, -⟩, -⟩ := htail
  obtain ⟨response, rfl, hanswer⟩ := Call.answered_get hanswered
  obtain rfl : [2] = response := List.singleton_injective (Except.ok.inj hresponses)
  -- What was put under the ID 1 has 32 bytes, so its padding has at least as many.
  obtain ⟨zeros, heq, -⟩ := (Op.answered_read_some (p := List.replicate 32 2) rfl).mp hanswer
  exact absurd (congrArg List.length heq) (by simp)

end ORAM

end CloakQueryPathORAM
