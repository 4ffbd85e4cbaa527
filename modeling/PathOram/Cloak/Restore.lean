import PathOram.Cloak.Backup

/-!
# What a restored share server returns

A run of `putContainer` and `getContainer` keeps one of two things. If all payloads in the stash
have the block size, the view follows a store of what was put, as in `PathOram.Cloak.Populate`.
If one has not, it was put when the ORAM was bare; it is never evicted, all later payloads are
fitted to it, and nothing leaves the stash any more (`View.Stuck`).

* `View.Served`, `Served` — the invariant of a run, of the view and of the state.
* `Served.getBlock_alike` — states with the same content answer alike.
* `backup_lossless` — a state that is `Restorable` is restored without a loss.
* `backup_loses_container` — a run after which it is not: the MAC of a bucket is missing.
-/

namespace CloakQueryPathORAM

open PathORAM Hoare HeapTree

/-! ### A stash that nothing leaves -/

/-- There are payloads in the stash, all of the same length, which is not the block size. -/
def View.Stuck (c : Config) (v : View) : Prop :=
  ∃ size ≠ c.dataSize, (∃ id, id ∈ v.stash) ∧ ∀ id d, v.stash.lookup id = some d → d.length = size

section Stuck

variable {c : Config} {v v' v₁ : View} {op op₁ : Op} {leaf size : ℕ}
  {stash : InMemoryStashAdapter} {response : Bytes}

/-- Payloads of another length than the block size are not evicted. -/
theorem Evicts.stuck {pos : ℕ → Option ℕ} {tree : ℕ → Bucket}
    (h : Evicts c pos leaf stash tree v') (hne : size ≠ c.dataSize) (hid : ∃ id, id ∈ stash)
    (hsize : ∀ id d, stash.lookup id = some d → d.length = size) : View.Stuck c v' := by
  obtain ⟨id, hid⟩ := hid
  refine ⟨size, hne, ⟨id, ?_⟩, fun id d hd => hsize id d (h.kept id d hd)⟩
  by_contra hlost
  obtain ⟨b, hb, e, he, hreal, -⟩ := h.lost id hid hlost
  exact hne ((hsize _ _ (h.source b hb e he hreal)).symm.trans (h.sized b hb e he hreal))

/-- What is in the stash is served. -/
theorem mem_serve_of_mem (htrimmed : Trimmed c v leaf v₁)
    (habsorbs : Absorbs c.toConfig v₁ leaf stash) (op : Op) {id : ℕ} (hid : id ∈ v.stash) :
    id ∈ op.serve stash :=
  Op.mem_serve.mpr (.inl (habsorbs.keep_mem (htrimmed.stash ▸ hid)))

/-- **A stuck stash stays stuck.** -/
theorem View.Stuck.access (hv : View.Stuck c v) (h : Access c v op leaf stash response v') :
    View.Stuck c v' := by
  obtain ⟨size, hne, ⟨id, hid⟩, hsize⟩ := hv
  obtain @⟨v₁, op₁, htrimmed, hfitted, hbase, hevicts, hfitting, -⟩ := h
  have hnonempty : v.stash ≠ ∅ := fun hempty => AList.notMem_empty id (hempty ▸ hid)
  -- the size that an access enforces is read from the stash, where all have the wrong one
  have hfit : ∀ {n}, View.Fitting c v n → n = size := by
    rintro n (⟨id, d, hd, rfl⟩ | ⟨hempty, -⟩)
    · exact hsize id d hd
    · exact absurd hempty hnonempty
  refine hevicts.stuck hne ⟨id, mem_serve_of_mem htrimmed hbase.absorbs.toAbsorbs op₁ hid⟩
    fun id d hd => ?_
  rcases Op.lookup_serve_cases hd with rfl | ⟨hd, -⟩
  · -- The payload that is put is fitted too.
    cases hfitted with
    | @write n _ data hn =>
      rw [InMemoryStashAdapter.length_resize]
      exact hfit (hn.resolve_left fun hbare => hnonempty hbare.1.1).2
  · exact hfit (hfitting id d hd)

/-- A payload of another length, put in a bare ORAM, makes the stash stuck. Otherwise the access
is one with a payload of the block size. -/
theorem View.Full.access_cases (hv : View.Full c v) (h : Access c v op leaf stash response v') :
    View.Stuck c v' ∨ ∃ op₁ : Op, Access c v op₁ leaf stash response v' ∧ op₁.Full c.dataSize ∧
      op₁.block = op.block ∧ ((∃ data, op = .write op.block data) → ∃ data,
        op₁ = .write op.block data) := by
  obtain ⟨htrimmed, hfitted, hbase, hevicts, hfitting, hroom⟩ := h
  cases hfitted with
  | read block =>
    exact .inr ⟨_, ⟨htrimmed, .read block, hbase, hevicts, hfitting, hroom⟩,
      Op.full_read block _, rfl, id⟩
  | @write size block data hsize =>
    have hlength := InMemoryStashAdapter.length_resize size data
    by_cases hne : size = c.dataSize
    · refine .inr ⟨.write block (InMemoryStashAdapter.resize size data),
        ⟨htrimmed, ?_, hbase, hevicts, hfitting, hroom⟩, hlength.trans hne, rfl, fun _ => ⟨_, rfl⟩⟩
      -- Fitted once more, the payload stays as it is.
      have hself := FittedOp.write (c := c) block (InMemoryStashAdapter.resize size data)
        (hsize.imp (fun h => ⟨h.1, hlength.symm⟩) id)
      have hagain := InMemoryStashAdapter.resize_length (InMemoryStashAdapter.resize size data)
      rw [hlength] at hagain
      rwa [hagain] at hself
    · refine .inl ?_
      have hbare : View.Bare c v leaf :=
        (hsize.resolve_right fun h => hne (hv.fitting h.2)).1
      -- There is nothing but the payload that is put.
      have hstash : ∀ id, id ∉ stash := fun id hid => by
        rcases hbase.absorbs.toAbsorbs.mem hid with hmem | ⟨b, hb, e', he', hreal, -⟩
        · rw [htrimmed.stash, hbare.1] at hmem
          exact AList.notMem_empty id hmem
        · obtain ⟨e, he, heq, -⟩ := htrimmed.exists_block he'
          exact hbare.2 b hb e he ((real_of_fst_eq heq).mp hreal)
      refine hevicts.stuck hne ⟨block, Op.mem_serve.mpr (.inr ⟨_, rfl⟩)⟩ fun id d hd => ?_
      by_cases hblock : id = block
      · subst hblock
        rw [Op.serve, AList.lookup_insert, Option.some.injEq] at hd
        rw [← hd, hlength]
      · exact absurd (mem_of_lookup ((AList.lookup_insert_ne hblock).symm.trans hd)) (hstash id)

end Stuck

/-! ### The invariant of a run -/

/-- What holds of the view between calls. `used` are the IDs that a container was put under. -/
structure View.Served (c : Config) (used : Finset ℕ) (v : View) : Prop where
  sound : View.Sound c v
  room : v.stash.keys.length ≤ c.stashCapacity
  served : View.Stuck c v ∨ ∃ kv, View.Follows c kv v ∧
    v.Within c.toConfig (fun id => (kv id).isSome) ∧ ∀ id ∈ used, (kv id).isSome

section Served

variable {c : Config} {used used' : Finset ℕ} {v v' : View} {op : Op} {leaf : ℕ}
  {stash : InMemoryStashAdapter} {response : Bytes}

/-- What is kept of a stash has no more entries. -/
theorem length_keys_le {stash stash' : InMemoryStashAdapter}
    (h : ∀ id ∈ stash', id ∈ stash) : stash'.keys.length ≤ stash.keys.length :=
  (List.subperm_of_subset stash'.keys_nodup fun id hid =>
    AList.mem_keys.mp (h id (AList.mem_keys.mpr hid))).length_le

/-- **An access keeps the invariant.** -/
theorem View.Served.access (hc : c.Valid) (hsmall : c.blocks ≤ 2 ^ 32)
    (hv : View.Served c used v) (hblock : op.block < c.blocks) (hid : op.block ≤ 10 ^ 12)
    (hused : ∀ id ∈ used', id ∈ used ∨ id = op.block ∧ ∃ data, op = .write op.block data)
    (h : Access c v op leaf stash response v') : View.Served c used' v' := by
  refine ⟨hv.sound.access hblock hid h, ?_, ?_⟩
  · obtain ⟨-, -, -, hevicts, -, hroom⟩ := h
    exact (length_keys_le fun id hid => hevicts.kept_mem hid).trans (hroom hv.room)
  -- a stuck ORAM stays stuck; otherwise the access may get stuck or follow the store
  · rcases hv.served with hstuck | ⟨kv, hfollows, hwithin, hput⟩
    · exact .inl (hstuck.access h)
    refine (hfollows.full.access_cases h).imp_right ?_
    rintro ⟨op₁, h₁, hfull, hop, hwrite⟩
    have hblock₁ : op₁.block < c.blocks := hop.symm ▸ hblock
    -- a call never takes an ID out of the store
    have hkept : ∀ id, (kv id).isSome → (op₁.apply kv id).isSome := fun id hid => by
      cases op₁ with
      | read _ => exact hid
      | write block data =>
        by_cases hne : id = block
        · rw [hne, Op.apply_write_self]
          rfl
        · rwa [Op.apply_of_ne (.write block data) hne]
    have hwritten : ∀ id data, op₁ = .write id data → (op₁.apply kv id).isSome := by
      rintro id data rfl
      rw [Op.apply_write_self]
      rfl
    refine ⟨op₁.apply kv, View.Follows.access hc hfollows hblock₁ h₁.pos_eq ?_ hsmall
      (hop.symm ▸ hid) hfull h₁, h₁.within hfollows.sound.valid hblock₁
        ⟨fun b hb e he hreal => hkept _ (hwithin.tree b hb e he hreal),
          fun id hid => hkept _ (hwithin.stash id hid)⟩ hwritten, fun id hid => ?_⟩
    · -- An ID that was not put has no block at all.
      intro data _ hnone b hb e he heq
      have hreal : Block.Real e := by
        rw [Block.Real, heq]
        exact hc.ne_ULONG_MAX hblock₁
      have hsome := hwithin.tree b hb e he hreal
      rw [heq, hnone] at hsome
      cases hsome
    · rcases hused id hid with hold | ⟨rfl, hdata⟩
      · exact hkept id (hput id hold)
      · obtain ⟨data, heq⟩ := hwrite hdata
        exact hwritten _ data heq

/-- The upload changes nothing. -/
theorem View.Served.synced (hc : c.Valid) (hv : View.Served c used v)
    (h : Synced c.toConfig v v') : View.Served c used v' where
  sound := hv.sound.synced hc h
  room := h.stash' ▸ hv.room
  served := by
    refine hv.served.imp ?_ ?_
    · rintro ⟨size, hne, hid, hsize⟩
      exact ⟨size, hne, h.stash' ▸ hid, h.stash' ▸ hsize⟩
    · rintro ⟨kv, hfollows, hwithin, hput⟩
      exact ⟨kv, hfollows.synced hc h, hwithin.sync h.toSync, hput⟩

/-- A freshly initialised view. -/
theorem View.Served.fresh (hc : c.Valid) {coins : Stream' ℕ} (h : v.Fresh c.toConfig coins) :
    View.Served c ∅ v where
  sound := .fresh hc h
  room := by
    rw [h.stash]
    exact Nat.zero_le _
  served := by
    -- nothing has been put yet: the empty store and the empty stash
    have hempty : ∀ id d, v.stash.lookup id ≠ some d := fun id d hd =>
      h.not_mem_stash id (mem_of_lookup hd)
    refine .inr ⟨Store.empty, ⟨.fresh hc h, fun id d hd => absurd hd (hempty id d),
      fun id p hp => ?_, h.tracks _, fun id p hp => ?_⟩, h.within _,
      fun id hid => absurd hid (Finset.notMem_empty id)⟩
    · cases hp
    · cases hp

end Served

/-! ### Views of the same blocks -/

section SameBlocks

variable {c : Config} {kv : Store} {v v' v₁ : View} {leaf block : ℕ} {op : Op}
  {stash : InMemoryStashAdapter} {response : Bytes}

theorem View.Sound.of_sameBlocks (hv : View.Sound c v) (h : v.SameBlocks c.toConfig v') :
    View.Sound c v' :=
  ⟨h.valid hv.valid, h.within hv.ids, fun b hb e he => hv.sized b hb e ((h.mem_tree hb).mp he)⟩

theorem View.Follows.of_sameBlocks (hv : View.Follows c kv v) (h : v.SameBlocks c.toConfig v') :
    View.Follows c kv v' where
  sound := hv.sound.of_sameBlocks h
  full id d hd := hv.full id d ((h.stash id).symm.trans hd)
  sized := hv.sized
  tracks := h.tracks hv.sound.valid hv.tracks
  pinned id p hp hT := (h.stash id).trans (hv.pinned id p hp hT)

/-- The same IDs are near. -/
theorem near_of_sameBlocks (h : v.SameBlocks c.toConfig v') (hleaf : leaf < 2 ^ (c.height - 1))
    {id : ℕ} (hid : View.Near c v' leaf id) : View.Near c v leaf id := by
  refine hid.imp (h.mem_stash id).mp ?_
  rintro ⟨b, hb, e, he, hreal⟩
  exact ⟨b, hb, e, (h.mem_tree (Config.inTree_of_mem_path hleaf hb)).mp he, hreal⟩

/-- So the same accesses are cut short. -/
theorem overflow_of_sameBlocks (h : v.SameBlocks c.toConfig v')
    (hleaf : leaf < 2 ^ (c.height - 1)) (hover : Overflow c v' op leaf) :
    Overflow c v op leaf := by
  obtain ⟨stash, hfull, hnear, id, hid, hblocked⟩ := hover
  exact ⟨stash, hfull, fun id hid => near_of_sameBlocks h hleaf (hnear id hid), id, hid,
    hblocked.imp_left (near_of_sameBlocks h hleaf)⟩

/-- **A read that returned had room for all IDs near by.** -/
theorem Access.not_overflow (h : Access c v (.read block) leaf stash response v₁)
    (hroom : v.stash.keys.length ≤ c.stashCapacity) : ¬Overflow c v (.read block) leaf := by
  obtain ⟨htrimmed, hfitted, hbase, -, -, hserved⟩ := h
  cases hfitted
  -- what is near the path is in the stash once the path is read
  have hnear : ∀ id, View.Near c v leaf id → id ∈ stash.keys.toFinset := by
    rintro id (hid | ⟨b, hb, e, he, hreal, rfl⟩)
    · exact List.mem_toFinset.mpr (AList.mem_keys.mpr
        (hbase.absorbs.toAbsorbs.keep_mem (htrimmed.stash ▸ hid)))
    · obtain ⟨e', he', hid⟩ := htrimmed.exists_trimmed he
      exact List.mem_toFinset.mpr (AList.mem_keys.mpr
        (hid ▸ hbase.absorbs.all b hb e' he' ((real_of_fst_eq hid).mpr hreal)))
  rintro ⟨full, hfull, hmem, id, hid, hblocked⟩
  -- so the blocked ID comes on top of a full stash, against the room that is left
  have hlt := PathORAM.InMemoryStashAdapter.length_lt_card (fun id hid => hnear id (hmem id hid))
    (hnear id (hblocked.resolve_right fun ⟨_, hwrite⟩ => by cases hwrite)) hid
  rw [List.toFinset_card_of_nodup stash.keys_nodup, hfull] at hlt
  exact absurd (hserved hroom) (not_le.mpr hlt)

end SameBlocks

namespace ORAMTestSSS

/-! ### Runs -/

/-- The calls of a client. -/
inductive ContainerCall where
  | put (block : ℕ) (container : Container)
  | get (block : ℕ)

namespace ContainerCall

/-- The ID of a call. -/
def block : ContainerCall → ℕ
  | put block _ => block
  | get block => block

/-- The call itself. What it returns is for the client. -/
def run {M : Type} (c : Config) (pm : AbsPositionMapAdapter M) : ContainerCall → OramM M Unit
  | put block container => ORAM.putContainer c pm block container
  | get block => (fun _ => ()) <$> ORAM.getContainer c pm block

end ContainerCall

/-- The states between calls of an ORAM that `initialize` builds, as long as no call throws. -/
inductive Reached (secretSharesSize : ℕ) (c : Config) : ORAM InMemoryPositionMapAdapter → Prop
  | built {s₀ s₁ : ORAM InMemoryPositionMapAdapter} (unbuilt : Unbuilt secretSharesSize s₀)
      (macMap : s₀.macMap = ∅) (usedBlockIDs : s₀.usedBlockIDs = ∅)
      (new : ORAM.new c InMemoryPositionMapAdapter.adapter true s₀ = .ok () s₁) :
      Reached secretSharesSize c s₁
  | call {s s' : ORAM InMemoryPositionMapAdapter} (call : ContainerCall)
      (reached : Reached secretSharesSize c s)
      (inRange : call.block < CAPACITY secretSharesSize * Z)
      (run : call.run c InMemoryPositionMapAdapter.adapter s = .ok () s') :
      Reached secretSharesSize c s'

/-- The invariant of a run. -/
structure Served (c : Config) (capacity : ℕ) (s : ORAM InMemoryPositionMapAdapter) : Prop where
  view : ∃ v, ORAM.Shows c (Allocated c.blocks capacity) v s ∧ View.Served c s.usedBlockIDs v ∧
    v.cached = ∅
  used : ∀ id ∈ s.usedBlockIDs, id < c.blocks
  locations : ∀ b ∈ s.macMap, b < 2 ^ c.height
  macs : ∀ b mac, s.macMap.lookup b = some mac → ∃ data, mac = c.hmac c.key data

section Run

variable {secretSharesSize capacity : ℕ} {c : Config} {s s' : ORAM InMemoryPositionMapAdapter}

/-- What a single call does to a state of a run: an access of the path of its leaf, and the
MACs of that path. -/
theorem Served.call (hc : Configured secretSharesSize c) (hs : Served c capacity s) (op : Op)
    (hblock : op.block < c.blocks) {α : Type} {x : OramM InMemoryPositionMapAdapter α}
    (hspec : ∀ v, View.Sound c v → ORAM.Shows c (Allocated c.blocks capacity) v s →
      wp x (fun _ s' => ∃ leaf stash response v₁ v', Access c v op leaf stash response v₁ ∧
        Synced c.toConfig v₁ v' ∧ ORAM.Shows c (Allocated c.blocks capacity) v' s')
        (fun _ _ => True) s)
    (hsealed : ∀ leaf, leaf < 2 ^ (c.height - 1) →
      returned (InMemoryPositionMapAdapter.adapter.get op.block) s.map = some leaf →
      wp x (fun _ s' => ORAM.Sealed c (· ∈ c.path leaf) s s') (fun _ _ => True) s) :
    wp x (fun _ s' => s'.usedBlockIDs = s.usedBlockIDs ∧ ∀ used : Finset ℕ,
      (∀ id ∈ used, id ∈ s.usedBlockIDs ∨ id = op.block ∧ ∃ data, op = .write op.block data) →
      Served c capacity { s' with usedBlockIDs := used }) (fun _ _ => True) s := by
  obtain ⟨v, hshows, hv, hcached⟩ := hs.view
  obtain ⟨leaf, hleaf, hpos⟩ := hv.sound.valid.pos op.block hblock
  have hreturned := ORAM.returned_get (implements_allocated c.blocks (2 ^ (c.height - 1)) capacity)
    hshows.pos hblock hpos
  -- one run gives both the access and the locations that got a MAC
  refine wp_mono (wp_and (hspec v hv.sound hshows) (hsealed leaf hleaf hreturned)) ?_
    fun _ _ _ => trivial
  rintro _ s' ⟨⟨leaf', stash, response, v₁, v', haccess, hsynced, hs'⟩, hmacs⟩
  refine ⟨hmacs.used, fun used hused => ⟨⟨v', ⟨hs'.toShows, hs'.isInitializing⟩, ?_,
    hsynced.cached'⟩, fun id hid => ?_, fun b hb => ?_, fun b mac hmac => ?_⟩⟩
  · have hle := hc.blocks_le
    exact (hv.access hc.valid (by omega) hblock (by omega) hused haccess).synced hc.valid hsynced
  · rcases hused id hid with hold | ⟨rfl, -⟩
    · exact hs.used id hold
    · exact hblock
  -- a new location lies on the path, so it is in the tree
  · rcases (hmacs.mem b).mp hb with hold | hpath
    · exact hs.locations b hold
    · exact (Config.inTree_of_mem_path hleaf hpath).2
  · exact (hmacs.lookup b mac hmac).elim (hs.macs b mac) id

/-- **A call keeps the invariant.** -/
theorem Served.run (hc : Configured secretSharesSize c) (hs : Served c capacity s)
    {call : ContainerCall} (hblock : call.block < c.blocks) :
    wp (call.run c InMemoryPositionMapAdapter.adapter) (fun _ s' => Served c capacity s')
      (fun _ _ => True) s := by
  have hle := hc.blocks_le
  have hid : call.block ≤ 10 ^ 12 := by omega
  have hpm := implements_allocated c.blocks (2 ^ (c.height - 1)) capacity
  cases call with
  | put block container =>
    refine wp_bind (wp_mono (hs.call hc (.write block (dataWithSize container)) hblock
      (fun v hv hshows => wp_mono (ORAM.putBlock_spec hc.valid hpm le_rfl hv hshows hblock hid _)
        (fun _ _ h => h) fun _ _ _ => trivial)
      fun leaf hleaf hpos => ORAM.putBlock_sealed hc.valid hleaf hpos _) ?_ fun _ _ h => h)
    rintro _ s' ⟨hused, hs'⟩
    refine wp_modify (hs' _ fun id hid => ?_)
    -- the ID that is put is the one that joins the used ones
    rcases Finset.mem_insert.mp hid with rfl | hold
    · exact .inr ⟨rfl, _, rfl⟩
    · exact .inl (hused ▸ hold)
  | get block =>
    have hget := hs.call hc (.read block) hblock (fun v hv hshows => wp_mono
      (ORAM.getBlock_spec hc.valid hpm le_rfl hv hshows hblock hid)
        (fun response _ ⟨leaf, stash, v₁, v', h⟩ => ⟨leaf, stash, response, v₁, v', h⟩)
        fun _ _ _ => trivial)
      fun leaf hleaf hpos => ORAM.getBlock_sealed hc.valid hleaf hpos []
    refine wp_map (wp_bind (wp_mono hget ?_ fun _ _ h => h))
    rintro response s' ⟨hused, hs'⟩
    exact wp_pure (hs' s'.usedBlockIDs fun id hid => .inl (hused ▸ hid))

/-- Construction stores no MAC. -/
theorem keeps_new {M : Type} (pm : AbsPositionMapAdapter M) (init : Bool) :
    Hoare.Keeps ORAM.seals (ORAM.new c pm init) := by
  refine keeps_bind (keeps_modify fun _ => rfl) fun _ => ?_
  split
  · refine keeps_bind (keeps_zoom (fun _ _ => rfl) _) fun _ => keeps_forM (fun _ => ?_) _
    exact keeps_bind (keeps_modifyGet fun _ => rfl) fun _ => keeps_zoom (fun _ _ => rfl) _
  · exact keeps_pure _

/-- **Every state of a run satisfies the invariant.** -/
theorem Reached.served (hc : Configured secretSharesSize c)
    (hle : LOG_CAPACITY secretSharesSize ≤ 30) (h : Reached secretSharesSize c s) :
    Served c (totalBlocks secretSharesSize * Z + Z) s := by
  -- on the run: the new ORAM, then one call after the other
  induction h with
  | @built s₀ s₁ hs₀ hmacs hused hnew =>
    obtain ⟨v, hfresh, hs₁⟩ := (ORAM.new_spec hc.valid (implements_allocated _ _ _) le_rfl
      ⟨⟨rfl, hs₀.blocks_le hc⟩, hs₀.capacity⟩ hs₀.stash hs₀.cache).ok hnew
    obtain ⟨hmacs₁, hused₁⟩ := Prod.mk.inj ((keeps_new _ true s₀).ok hnew)
    rw [hmacs] at hmacs₁
    rw [hused] at hused₁
    refine ⟨⟨v, hs₁, hused₁ ▸ .fresh hc.valid hfresh, hfresh.cached⟩, fun id hid => ?_,
      fun b hb => ?_, fun b mac hmac => ?_⟩
    · rw [hused₁] at hid
      exact absurd hid (Finset.notMem_empty id)
    · rw [hmacs₁] at hb
      exact absurd hb (AList.notMem_empty b)
    · rw [hmacs₁, AList.lookup_empty] at hmac
      cases hmac
  | call call _ inRange run ih =>
    exact (ih.run hc ((hc.blocks_eq hle).symm ▸ inRange)).ok run

/-! ### Reading -/

theorem getContainer_ok {block : ℕ} {container : Option Container} :
    ORAM.getContainer c InMemoryPositionMapAdapter.adapter block s = .ok container s' ↔
      ∃ response, ORAM.getBlock c InMemoryPositionMapAdapter.adapter block [] s =
        .ok response s' ∧ containerOf response = container := by
  unfold ORAM.getContainer
  constructor
  · intro h
    -- decoding the response cannot fail, only the access can
    cases hget : ORAM.getBlock c InMemoryPositionMapAdapter.adapter block [] s with
    | ok response t =>
      rw [bind_of_ok hget] at h
      cases h
      exact ⟨response, rfl, rfl⟩
    | error e t =>
      rw [bind_of_error hget] at h
      cases h
  · rintro ⟨response, hget, rfl⟩
    exact bind_of_ok hget _

/-- With payloads of the block size the stash is not stuck. -/
theorem not_stuck {v : View} (hshows : v.stash = s.stash)
    (hpayloads : ∀ entry ∈ s.stash.toList, entry.2.length = c.dataSize) : ¬View.Stuck c v := by
  rintro ⟨size, hne, ⟨id, hid⟩, hsize⟩
  obtain ⟨d, hd⟩ := exists_lookup hid
  exact hne ((hsize id d hd).symm.trans
    (hpayloads (id, d) (UnorderedMap.mem_toList.mpr (hshows ▸ hd))))

/-- **States with the content of a state of a run answer alike.** -/
theorem Served.getBlock_alike (hc : Configured secretSharesSize c) (hs : Served c capacity s)
    (hpayloads : ∀ entry ∈ s.stash.toList, entry.2.length = c.dataSize) {id : ℕ}
    (hid : id ∈ s.usedBlockIDs) {s₁ s₂ t : ORAM InMemoryPositionMapAdapter}
    (h₁ : s.SameContent c.toConfig s₁.toORAM) (hinit₁ : s₁.isInitializing = true)
    (h₂ : s.SameContent c.toConfig s₂.toORAM) (hinit₂ : s₂.isInitializing = true) {response : Bytes}
    (hget : ORAM.getBlock c InMemoryPositionMapAdapter.adapter id [] s₁ = .ok response t) :
    ∃ t', ORAM.getBlock c InMemoryPositionMapAdapter.adapter id [] s₂ = .ok response t' := by
  obtain ⟨v, hshows, hv, hcached⟩ := hs.view
  obtain ⟨kv, hfollows, -, hput⟩ := hv.served.resolve_left (not_stuck hshows.stash hpayloads)
  obtain ⟨p, hp⟩ := Option.isSome_iff_exists.mp (hput id hid)
  have hblock : id < c.blocks := hs.used id hid
  have hle := hc.blocks_le
  have hid' : id ≤ 10 ^ 12 := by omega
  have hpm := InMemoryPositionMapAdapter.implements c.blocks (2 ^ (c.height - 1))
  have hholds : PathORAM.Shows c.toConfig (InMemoryPositionMapAdapter.Holds c.blocks) v s.toORAM :=
    { hshows.toShows with pos := hshows.pos.1 }
  obtain ⟨v₁, hs₁, hsame₁⟩ := h₁.exists_shows hholds hcached
  obtain ⟨v₂, hs₂, hsame₂⟩ := h₂.exists_shows hholds hcached
  -- The first state returns what was put, and has room for the path.
  obtain ⟨leaf, stash, v', -, haccess, -⟩ := (ORAM.getBlock_spec hc.valid hpm le_rfl
    (hv.sound.of_sameBlocks hsame₁) ⟨hs₁, hinit₁⟩ hblock hid').ok hget
  have hpos : v.pos id = some leaf := (hsame₁.pos id hblock).symm.trans haccess.pos_eq
  have hleaf := hv.sound.valid.leaf_lt hblock hpos
  obtain rfl : response = p :=
    (hfollows.of_sameBlocks hsame₁).answered hblock haccess.pos_eq hp haccess
  have hroom : ¬Overflow c v (.read id) leaf := fun hover =>
    haccess.not_overflow ((length_keys_le fun id hid => (hsame₁.mem_stash id).mp hid).trans hv.room)
      (overflow_of_sameBlocks (hsame₁.symm hcached) hleaf hover)
  -- So does the second.
  have hreturns : wp (ORAM.getBlock c InMemoryPositionMapAdapter.adapter id [])
      (fun response' _ => response' = response) (fun _ _ => False) s₂ := by
    refine wp_mono (ORAM.getBlock_spec hc.valid hpm le_rfl (hv.sound.of_sameBlocks hsame₂)
      ⟨hs₂, hinit₂⟩ hblock hid') ?_ ?_
    · rintro response' _ ⟨leaf', stash', v', -, haccess', -⟩
      exact (hfollows.of_sameBlocks hsame₂).answered hblock haccess'.pos_eq hp haccess'
    · rintro e _ (hthrow | ⟨-, leaf', hpos', hover⟩)
      · exact hthrow
      obtain rfl : leaf = leaf' :=
        Option.some.inj (hpos.symm.trans ((hsame₂.pos id hblock).symm.trans hpos'))
      exact hroom (overflow_of_sameBlocks hsame₂ hleaf hover)
  obtain ⟨_, t', hget', rfl⟩ := hreturns.exists_ok
  exact ⟨t', hget'⟩

end Run

/-! ### Restoring -/

section Restore

variable {secretSharesSize capacity : ℕ} {crypto : Crypto} {hmac : Bytes → Bytes → Bytes}
  {key : Bytes} {r : Random} {c : Config} {s : ORAM InMemoryPositionMapAdapter} {files : Backup}

/-- **The MACs come back.** -/
theorem Saved.loadMacMap (hc : Configured secretSharesSize c)
    (hlocations : ∀ b ∈ s.macMap, b < 2 ^ c.height)
    (hmacs : ∀ b mac, s.macMap.lookup b = some mac → ∃ data, mac = c.hmac c.key data)
    (hhmac : ∀ data, (c.hmac c.key data).length < 2 ^ 64) (hsaved : Saved c s files) :
    ∃ macMap, ORAM.loadMacMap files.macMap ∅ = some macMap ∧
      ∀ b, macMap.lookup b = s.macMap.lookup b := by
  obtain ⟨entries, hperm, hfile⟩ := hsaved.macMap
  have htwo : 2 ^ c.height ≤ 2 ^ 31 := Nat.pow_le_pow_right Nat.two_pos hc.valid.height_le
  -- one MAC per location of the tree, so the count fits its four bytes
  have hcount : s.macMap.toList.length ≤ 2 ^ c.height := by
    have hsub : (s.macMap.toList.map Prod.fst).toFinset ⊆ Finset.range (2 ^ c.height) := by
      intro b hb
      obtain ⟨e, he, rfl⟩ := List.mem_map.mp (List.mem_toFinset.mp hb)
      exact Finset.mem_range.mpr (hlocations _ (mem_of_lookup (UnorderedMap.mem_toList.mp he)))
    have hcard := Finset.card_le_card hsub
    rwa [List.toFinset_card_of_nodup (UnorderedMap.nodup_keys_toList s.macMap), List.length_map,
      Finset.card_range] at hcard
  have hsizes : ∀ b mac, s.macMap.lookup b = some mac → mac.length < 2 ^ 64 := fun b mac hmac => by
    obtain ⟨data, rfl⟩ := hmacs b mac hmac
    exact hhmac data
  have hload := ORAM.loadMacMap_macFile (by omega)
    (fun b hb => (hlocations b hb).trans_le (by omega)) hsizes hperm ∅
  refine ⟨_, hfile ▸ hload, fun b => ?_⟩
  rw [UnorderedMap.lookup_assignAll_perm hperm, AList.lookup_empty, Option.or_none]

theorem Served.loadMacMap (hc : Configured secretSharesSize c) (hs : Served c capacity s)
    (hhmac : ∀ data, (c.hmac c.key data).length < 2 ^ 64) (hsaved : Saved c s files) :
    ∃ macMap, ORAM.loadMacMap files.macMap ∅ = some macMap ∧ ∀ b, b ∈ macMap ↔ b ∈ s.macMap := by
  obtain ⟨macMap, hload, hlookup⟩ := hsaved.loadMacMap hc hs.locations hs.macs hhmac
  refine ⟨macMap, hload, fun b => ?_⟩
  rw [← AList.lookup_isSome, hlookup b, AList.lookup_isSome]

/-- **A state of a run that is `Restorable` is restored.** The position map, the stash, the MACs
and the used IDs are read back from their files, and the storage is opened over the buckets that
the run has left; what the files do not keep, the cache and the random source, no later call
depends on. -/
theorem Served.lossless (hc : Configured secretSharesSize c)
    (hconfig : config secretSharesSize crypto hmac key r = .ok c)
    (hhmac : ∀ data, (c.hmac c.key data).length < 2 ^ 64)
    (hs : Served c (totalBlocks secretSharesSize * Z + Z) s) (hr : Restorable c s) :
    Lossless secretSharesSize c s := by
  intro r'
  have hle := hc.blocks_le
  have hused : ∀ id ∈ s.usedBlockIDs, id ∈ Finset.range c.blocks := fun id hid =>
    Finset.mem_range.mpr (hs.used id hid)
  have hcard := Finset.card_le_card hused
  rw [Finset.card_range] at hcard
  have hsize : InMemoryStashAdapter.Uniform s.stash BLOCK_SIZE := fun id d hd =>
    hr.payloads (id, d) (UnorderedMap.mem_toList.mpr hd)
  obtain ⟨files, hfiles⟩ := exists_backup (c := c) hsize r'
  have hsaved := backupGenerator_ok hfiles
  obtain ⟨macMap, hload, hmacs⟩ := hs.loadMacMap hc hhmac hsaved
  refine ⟨files, hfiles, hsaved.loadUsedBlockIDs
    (fun id hid => (hs.used id hid).trans_le (by omega)) (by omega), fun map r'' hmap => ?_⟩
  have hbuilt : initializeFromBackup secretSharesSize c.crypto c.hmac c.key files s.storage.blocks
      map r'' = .ok (c, ORAM.verifying (loaded files s.storage.blocks map r'')) := by
    rw [initializeFromBackup_eq (hsaved.storage_eq hconfig hr.key r''), configOver_self hconfig]
  refine ⟨c, _, macMap, hbuilt, hload, fun id hid r₁ r₂ container t hrun => ?_⟩
  obtain ⟨response, hget, hcontainer⟩ := getContainer_ok.mp hrun
  obtain ⟨v, hshows, hv, hcached⟩ := hs.view
  have hsame := hsaved.sameContent hc.valid hshows.toShows hcached hv.sound hr hmap r''
  -- The restored ORAM, but for the verification.
  let w : ORAM InMemoryPositionMapAdapter :=
    { loaded files s.storage.blocks map r'' with
      macMap := macMap, random := r₂, isInitializing := true }
  have hw : s.SameContent c.toConfig w.toORAM :=
    ⟨hsame.blocks, hsame.stash, hsame.leaves, hsame.capacity, hsame.cache⟩
  have hs₁ : s.SameContent c.toConfig { s with random := r₁ }.toORAM := .withRandom s.toORAM r₁
  obtain ⟨t', hget'⟩ := hs.getBlock_alike hc (hc.dataSize_eq ▸ hr.payloads) hid hs₁
    hshows.isInitializing hw rfl hget
  -- The MACs are there, so the verification changes nothing.
  obtain ⟨leaf, hleaf, hpos⟩ := hv.sound.valid.pos id (hs.used id hid)
  have hreturned := ORAM.returned_get (implements_allocated c.blocks (2 ^ (c.height - 1)) _)
    hshows.pos (hs.used id hid) hpos
  have hreturned' : returned (InMemoryPositionMapAdapter.adapter.get id) w.map = some leaf := by
    refine ORAM.returned_get (implements_allocated c.blocks (2 ^ (c.height - 1)) _)
      (f := w.map.map) ⟨⟨rfl, ?_⟩, hmap⟩ (hs.used id hid) ?_
    · exact hshows.pos.1.2.trans_eq hsame.capacity.symm
    · exact (hsame.leaves id (hs.used id hid)).trans ((congrFun hshows.pos.1.1 id).trans hpos)
  have hlenient : ORAM.Lenient c leaf w := ⟨rfl, fun b hb =>
    (hr.macs id hid leaf hreturned b hb).imp (hmacs _).mpr (hmacs _).mpr⟩
  obtain ⟨-, -, hverified⟩ :=
    (ORAM.getBlock_verifying hc.valid hleaf hlenient hreturned' []).ok hget'
  exact ⟨_, getContainer_ok.mpr ⟨response, hverified, hcontainer⟩⟩

/-- **An ID in use is lost if a bucket of its path has no MAC.** -/
theorem Served.not_lossless (hc : Configured secretSharesSize c)
    (hle : LOG_CAPACITY secretSharesSize ≤ 30)
    (hhmac : ∀ data, (c.hmac c.key data).length < 2 ^ 64)
    (hs : Served c (totalBlocks secretSharesSize * Z + Z) s) {id leaf b : ℕ}
    (hid : id ∈ s.usedBlockIDs) (hget : ∃ container t,
      ORAM.getContainer c InMemoryPositionMapAdapter.adapter id s = .ok container t)
    (hleaf : s.map.map id = some leaf) (hb : b ∈ c.path leaf) (hmac : b ∉ s.macMap) :
    ¬Lossless secretSharesSize c s := by
  intro hlossless
  obtain ⟨container, t, hget⟩ := hget
  obtain ⟨v, hshows, hv, -⟩ := hs.view
  obtain ⟨⟨hpos, hroom⟩, hcapacity⟩ := hshows.pos
  obtain ⟨files, hfiles, -, hrestored⟩ := hlossless s.random
  have hsaved := backupGenerator_ok hfiles
  obtain ⟨c', s', macMap, hbuilt, hload, hsame⟩ := hrestored s.map s.random hcapacity
  obtain ⟨storage, hstorage⟩ := exists_storage secretSharesSize (loadKey files.key) s.random
  rw [initializeFromBackup_eq hstorage] at hbuilt
  obtain ⟨hc'_eq, rfl⟩ := Prod.mk.inj (Except.ok.inj hbuilt)
  have hc' : Configured secretSharesSize c' := hc'_eq ▸ configured_configOver
    hc.valid.crypto_lawful (hc.height ▸ hc.valid.height_pos) hle hstorage
  have hheight : c'.height = c.height := hc'.height.trans hc.height.symm
  have hblocks : c'.blocks = c.blocks := (hc'.blocks_eq hle).trans (hc.blocks_eq hle).symm
  obtain ⟨t', hrun⟩ := hsame id hid s.random s.random container t hget
  obtain ⟨_, hget', -⟩ := getContainer_ok.mp hrun
  -- The ORAM that is built has the leaf and the MACs, so it does not return.
  obtain ⟨macMap', hload', hmacs⟩ := hs.loadMacMap hc hhmac hsaved
  obtain rfl : macMap = macMap' := Option.some.inj (hload.symm.trans hload')
  have hlt : leaf < 2 ^ (c.height - 1) :=
    hv.sound.valid.leaf_lt (hs.used id hid) (hpos ▸ hleaf)
  have hmap : (InMemoryPositionMapAdapter.loadFromFile files.positionMap s.map).map id =
      some leaf := by
    rw [hsaved.positionMap]
    exact InMemoryPositionMapAdapter.map_loadFromFile_storeToFile rfl
      ((hs.used id hid).trans_le hroom) hleaf
      (hlt.trans (Nat.pow_lt_pow_right (by norm_num) (by have := hc.valid.height_le; omega)))
  have hholds : InMemoryPositionMapAdapter.Holds c'.blocks _
      (InMemoryPositionMapAdapter.loadFromFile files.positionMap s.map) :=
    ⟨rfl, hblocks.trans_le hroom⟩
  have hreturned := ORAM.returned_get
    (InMemoryPositionMapAdapter.implements c'.blocks (2 ^ (c'.height - 1))) hholds
    (hblocks.symm ▸ hs.used id hid) hmap
  have hb' : b ∈ c'.path leaf := by
    rwa [Config.mem_path, hheight, ← Config.mem_path]
  exact (ORAM.getBlock_lacks hc'.valid (hheight.symm ▸ hlt) hb'
    ⟨fun hmem => hmac ((hmacs b).mp hmem), rfl⟩ hreturned []).ok hget'

end Restore

/-! ### Runs of one put -/

section FirstPut

variable {secretSharesSize : ℕ} {c : Config}

/-- The state after a put in an ORAM that was just built. -/
structure FirstPut (secretSharesSize : ℕ) (c : Config) (coins : Stream' ℕ) (block : ℕ)
    (data : Bytes) (s : ORAM InMemoryPositionMapAdapter) (v v₁ v' : View) (leaf : ℕ) : Prop where
  reached : Reached secretSharesSize c s
  fresh : v.Fresh c.toConfig coins
  access : ∃ stash response, Access c v (.write block data) leaf stash response v₁
  synced : Synced c.toConfig v₁ v'
  shows : ORAM.Shows c (InMemoryPositionMapAdapter.Holds c.blocks) v' s
  used : s.usedBlockIDs = {block}
  macs : ∀ b, b ∈ s.macMap ↔ b ∈ c.path leaf

/-- **The first put** does not throw. -/
theorem exists_firstPut (hc : Configured secretSharesSize c)
    (hle : LOG_CAPACITY secretSharesSize ≤ 30) {s₀ : ORAM InMemoryPositionMapAdapter}
    (hs₀ : Unbuilt secretSharesSize s₀) (hmacs₀ : s₀.macMap = ∅) (hused₀ : s₀.usedBlockIDs = ∅)
    {block : ℕ} (hblock : block < c.blocks) (container : Container) :
    ∃ s v v₁ v' leaf, FirstPut secretSharesSize c s₀.random.ulongs block (dataWithSize container) s
      v v₁ v' leaf := by
  have hpm := InMemoryPositionMapAdapter.implements c.blocks (2 ^ (c.height - 1))
  obtain ⟨_, s₁, hnew, v, hfresh, hs₁⟩ := (ORAM.new_spec hc.valid hpm le_rfl
    (f := s₀.map.map) ⟨rfl, hs₀.blocks_le hc⟩ hs₀.stash hs₀.cache).exists_ok
  obtain ⟨hmacs₁, hused₁⟩ := Prod.mk.inj ((keeps_new _ true s₀).ok hnew)
  have hsound : View.Sound c v := .fresh hc.valid hfresh
  obtain ⟨leaf, hleaf, hpos⟩ := hsound.valid.pos block hblock
  have hcard : ({block} : Finset ℕ).card ≤ c.stashCapacity := by
    rw [Finset.card_singleton, hc.stashCapacity]
    omega
  have hblocks := hc.blocks_le
  -- There is room for the only block.
  have hroom : ∀ leaf', v.pos block = some leaf' →
      ¬Overflow c v (.write block (dataWithSize container)) leaf' := fun leaf' hpos' =>
    hsound.not_overflow (hfresh.within (· ∈ ({block} : Finset ℕ))) hblock
      (Op.forall_write (Finset.mem_singleton_self block)) hcard hpos'
  obtain ⟨_, s₂, hput, leaf', stash, response, v₁, v', haccess, hsynced, hs₂⟩ :=
    (wp_mono (ORAM.putBlock_spec hc.valid hpm le_rfl hsound hs₁ hblock (by omega)
      (dataWithSize container)) (fun _ _ h => h) fun e _ h => h.elim id
        fun ⟨_, leaf', hpos', hover⟩ => hroom leaf' hpos' hover).exists_ok
  obtain rfl : leaf = leaf' := Option.some.inj (hpos.symm.trans haccess.pos_eq)
  have hsealed := (ORAM.putBlock_sealed hc.valid hleaf
    (ORAM.returned_get hpm hs₁.pos hblock hpos) _).ok hput
  have hrun : (ContainerCall.put block container).run c InMemoryPositionMapAdapter.adapter s₁ =
      .ok () { s₂ with usedBlockIDs := insert block s₂.usedBlockIDs } := bind_of_ok hput _
  refine ⟨_, v, v₁, v', leaf, .call _ (.built hs₀ hmacs₀ hused₀ hnew)
    ((hc.blocks_eq hle) ▸ hblock) hrun, hfresh, ⟨stash, response, haccess⟩, hsynced,
    ⟨hs₂.toShows, hs₂.isInitializing⟩, ?_, fun b => ?_⟩
  · show insert block s₂.usedBlockIDs = _
    rw [hsealed.used, hused₁, hused₀]
    rfl
  · refine (hsealed.mem b).trans (or_iff_right ?_)
    rw [hmacs₁, hmacs₀]
    exact AList.notMem_empty b

/-- A checksum in the place of the HMAC. -/
def digest (key data : Bytes) : Bytes := List.replicate 32 ((key ++ data).foldl (· ^^^ ·) 0)

theorem length_digest_lt (key data : Bytes) : (digest key data).length < 2 ^ 64 := by
  rw [digest, List.length_replicate]
  norm_num

/-- A container that fills its block. -/
def fullContainer : Container := [List.replicate 17599 0]

theorem length_fullContainer : (dataWithSize fullContainer).length = BLOCK_SIZE := by
  rw [length_dataWithSize, serialize, fullContainer, List.flatMap_cons, List.flatMap_nil,
    List.append_nil, Records.length_flatMap fun _ _ => LittleEndian.length_encode 8 _,
    List.length_replicate]
  rfl

variable {coins : Stream' ℕ} {s : ORAM InMemoryPositionMapAdapter} {v v₁ v' : View} {leaf : ℕ}

/-- With a single bucket its MAC is there after the first put. -/
theorem FirstPut.restorable (hc : Configured 2000 c) (hkey : c.key = c.storage.key)
    (h : FirstPut 2000 c coins 0 (dataWithSize fullContainer) s v v₁ v' leaf) :
    Restorable c s := by
  have hheight : c.height = 1 := hc.height.trans (by decide)
  have hblock : 0 < c.blocks := (hc.blocks_eq (by decide)).symm ▸ by decide
  have hsound : View.Sound c v := .fresh hc.valid h.fresh
  obtain ⟨stash, response, haccess⟩ := h.access
  obtain ⟨w, hw, hserved, -⟩ := (h.reached.served hc (by decide)).view
  -- height 1: there is one leaf, and its path is the root
  have hzero : ∀ {leaf : ℕ}, leaf < 2 ^ (c.height - 1) → leaf = 0 := fun hlt => by
    rw [hheight] at hlt
    exact Nat.lt_one_iff.mp hlt
  obtain rfl := hzero (hsound.valid.leaf_lt hblock haccess.pos_eq)
  have hpath : ∀ b, b ∈ c.path 0 ↔ b = 1 := fun b => by
    rw [Config.mem_path, hheight]
    exact List.mem_singleton
  refine ⟨hkey, fun e he => ?_, ?_, fun id hid leaf hleaf b hb => ?_⟩
  · -- A full payload keeps the payloads full.
    have hfull : View.Full c v := fun id d hd => by
      rw [h.fresh.stash] at hd
      cases hd
    have hop : (Op.write 0 (dataWithSize fullContainer)).Full c.dataSize :=
      length_fullContainer.trans hc.dataSize_eq.symm
    obtain ⟨-, hevicts, hlength⟩ := haccess.of_full hsound hfull hop hblock haccess.pos_eq
    have hlookup := UnorderedMap.mem_toList.mp he
    rw [← h.shows.stash, h.synced.stash'] at hlookup
    exact (View.Full.access hop hlength hevicts e.1 e.2 hlookup).trans hc.dataSize_eq
  -- at most 13 entries of one block and an ID each
  · have hlength : s.stash.toList.length = s.stash.keys.length := by
      rw [← UnorderedMap.keys_toList, List.length_map]
    have hroom := hserved.room
    rw [hw.stash, hc.stashCapacity] at hroom
    have htotal : totalBlocks 2000 + 10 = 13 := rfl
    have hsize : BLOCK_SIZE = 140800 := rfl
    rw [hlength, hsize]
    omega
  · rw [h.used, Finset.mem_singleton] at hid
    subst hid
    obtain ⟨leaf', hlt, hpos⟩ := hserved.sound.valid.pos 0 hblock
    have hreturned := ORAM.returned_get
      (implements_allocated c.blocks (2 ^ (c.height - 1)) _) hw.pos hblock hpos
    obtain rfl : leaf = leaf' := Option.some.inj (hleaf.symm.trans hreturned)
    obtain rfl := hzero hlt
    obtain rfl := (hpath b).mp hb
    have hmem : 1 ∈ s.macMap := (h.macs 1).mpr ((hpath 1).mpr rfl)
    have hfound : ORAM.lookedUp c.height 1 = 1 := by
      rw [hheight]
      decide
    exact ⟨hmem, hfound.symm ▸ hmem⟩

/-- The ORAM itself returns what was put. -/
theorem FirstPut.exists_get (hc : Configured secretSharesSize c) {block : ℕ} {data : Bytes}
    (hblock : block < c.blocks) (h : FirstPut secretSharesSize c coins block data s v v₁ v' leaf) :
    ∃ container t, ORAM.getContainer c InMemoryPositionMapAdapter.adapter block s =
      .ok container t := by
  obtain ⟨stash, response, haccess⟩ := h.access
  have hsound : View.Sound c v := .fresh hc.valid h.fresh
  have hle := hc.blocks_le
  have hop : (Op.write block data).block < c.blocks := hblock
  have hid : (Op.write block data).block ≤ 10 ^ 12 := by omega
  have hsound' := (hsound.access hop hid haccess).synced hc.valid h.synced
  have hwithin := (haccess.within hsound.valid hop (h.fresh.within (· ∈ ({block} : Finset ℕ)))
    (Op.forall_write (Finset.mem_singleton_self block))).sync h.synced.toSync
  -- one ID was put, and the stash has room for it
  have hcard : ({block} : Finset ℕ).card ≤ c.stashCapacity := by
    rw [Finset.card_singleton, hc.stashCapacity]
    omega
  have hroom : ∀ leaf, v'.pos block = some leaf → ¬Overflow c v' (.read block) leaf :=
    fun leaf hpos => hsound'.not_overflow hwithin hblock (fun _ _ hwrite => by cases hwrite)
      hcard hpos
  obtain ⟨response', t, hget, -⟩ := (wp_mono (ORAM.getBlock_spec hc.valid
    (InMemoryPositionMapAdapter.implements _ _) le_rfl hsound' h.shows hblock hid)
    (fun _ _ h => h) fun e _ h => h.elim id
      fun ⟨_, leaf, hpos, hover⟩ => hroom leaf hpos hover).exists_ok
  exact ⟨_, t, getContainer_ok.mpr ⟨response', hget, rfl⟩⟩

/-- The ID had the leaf that was drawn for it. -/
theorem FirstPut.leaf_eq {block : ℕ} {data : Bytes} (hblock : block < c.blocks)
    (h : FirstPut secretSharesSize c coins block data s v v₁ v' leaf) :
    leaf = coins.get block % 2 ^ (c.height - 1) := by
  obtain ⟨stash, response, haccess⟩ := h.access
  exact Option.some.inj (haccess.pos_eq.symm.trans (h.fresh.pos block hblock))

/-- It has the one that is drawn next. -/
theorem FirstPut.map_eq {block : ℕ} {data : Bytes}
    (h : FirstPut secretSharesSize c coins block data s v v₁ v' leaf) :
    s.map.map block = some (coins.get c.blocks % 2 ^ (c.height - 1)) := by
  obtain ⟨stash, response, haccess⟩ := h.access
  have hremapped := haccess.remapped
  rw [h.fresh.coins, Stream'.head_drop] at hremapped
  rw [h.shows.pos.1, h.synced.pos']
  exact hremapped

/-- With three buckets the new leaf may be the other one. The MAC of its bucket is missing. -/
theorem FirstPut.not_lossless (hc : Configured 5000 c)
    (hhmac : ∀ data, (c.hmac c.key data).length < 2 ^ 64) {data : Bytes}
    (h : FirstPut 5000 c coins 0 data s v v₁ v' leaf) (hfirst : coins.get 0 % 2 = 0)
    (hnext : coins.get 12 % 2 = 1) : ¬Lossless 5000 c s := by
  have hheight : c.height = 2 := hc.height.trans (by decide)
  have hleaves : 2 ^ (c.height - 1) = 2 := hheight.symm ▸ rfl
  have hblocks : c.blocks = 12 := (hc.blocks_eq (by decide)).trans (by decide)
  have hblock : 0 < c.blocks := by omega
  have hleaf := h.leaf_eq hblock
  have hmap := h.map_eq
  rw [hleaves, hfirst] at hleaf
  rw [hleaves, hblocks, hnext] at hmap
  subst hleaf
  refine (h.reached.served hc (by decide)).not_lossless hc (by decide) hhmac
    (h.used ▸ Finset.mem_singleton_self 0) (h.exists_get hc hblock) hmap (b := 3) ?_ fun hmem => ?_
  -- bucket 3 is on the path of the new leaf, but only the old path got MACs
  · rw [Config.mem_path, hheight]
    decide
  · have hpath := (h.macs 3).mp hmem
    rw [Config.mem_path, hheight] at hpath
    exact absurd hpath (by decide)

end FirstPut

/-! ### What is restored, and what is not -/

section Main

variable {secretSharesSize : ℕ} {crypto : Crypto} {hmac : Bytes → Bytes → Bytes} {key : Bytes}
  {r : Random} {c : Config} {s : ORAM InMemoryPositionMapAdapter}

/-- **Backup and restore lose nothing** in the states of a run in which no call throws, as long
as the key of the MACs is that of the storage, the payloads in the stash have the block size, and
the MACs are there that are looked up on the paths of the IDs in use. -/
theorem backup_lossless (hcrypto : crypto.Lawful)
    (hhmac : ∀ key data, (hmac key data).length < 2 ^ 64)
    (hpos : 1 ≤ LOG_CAPACITY secretSharesSize) (hle : LOG_CAPACITY secretSharesSize ≤ 30)
    (hc : config secretSharesSize crypto hmac key r = .ok c)
    (hs : Reached secretSharesSize c s) (hr : Restorable c s) :
    Lossless secretSharesSize c s := by
  have hconfigured := config_spec hcrypto hpos hle hc
  have hhmac_eq : c.hmac = hmac := congrArg Config.hmac (config_eq hc).1
  exact (hs.served hconfigured hle).lossless hconfigured hc
    (fun data => hhmac_eq ▸ hhmac c.key data) hr

/-- The key that is drawn for the storage. -/
def drawnKey : Bytes := ((Random.ofLeaves (Stream'.const 0)).getRandomBlock KEYSIZE).1

theorem unbuilt_allocate {capacity : ℕ} (hcapacity : capacity < 2 ^ 64)
    (hsize : capacity = totalBlocks secretSharesSize * Z + Z) (random : Random) :
    Unbuilt secretSharesSize (.unbuilt (.allocate capacity hcapacity 0) random) :=
  ⟨hsize, rfl, rfl⟩

/-- A server whose MACs have the key of the storage, after a put that fills a block. -/
theorem backup_lossless_firstPut :
    ∃ c s, config 2000 .none digest drawnKey (Random.ofLeaves (Stream'.const 0)) = .ok c ∧
      Reached 2000 c s ∧ s.usedBlockIDs = {0} ∧ Lossless 2000 c s := by
  obtain ⟨c, hc⟩ := config_ok 2000 .none digest drawnKey (Random.ofLeaves (Stream'.const 0))
  have hlawful : Crypto.none.Lawful := fun h => absurd rfl h
  have hconfigured := config_spec hlawful (by decide) (by decide) hc
  obtain ⟨heq, hstorage⟩ := config_eq hc
  have hkey : c.key = c.storage.key := by
    rw [StorageConfig.key_of_new (Random.length_getRandomBlock _ _) hstorage, heq]
    rfl
  have hblock : 0 < c.blocks := (hconfigured.blocks_eq (by decide)).symm ▸ by decide
  obtain ⟨s, v, v₁, v', leaf, h⟩ := exists_firstPut hconfigured (by decide)
    (unbuilt_allocate (by norm_num : 12 < 2 ^ 64) rfl (Random.ofLeaves (Stream'.const 0))) rfl rfl
    hblock fullContainer
  exact ⟨c, s, hc, h.reached, h.used, backup_lossless hlawful length_digest_lt (by decide)
    (by decide) hc h.reached (h.restorable hconfigured hkey)⟩

end Main

/-- Mask every byte with one of the key. -/
def mask (key input : Bytes) : Bytes := input.mapIdx fun i b => b ^^^ key.getD (i % KEYSIZE) 0

/-- A cipher that masks. -/
def masking : Crypto where
  aes := ⟨fun key _ => mask key, fun key _ => mask key, fun key _ => mask key⟩
  blockCipherMode := .CBC

theorem length_mask (key input : Bytes) : (mask key input).length = input.length :=
  List.length_mapIdx

theorem mask_mask (key input : Bytes) : mask key (mask key input) = input := by
  unfold mask
  refine List.ext_getElem (by rw [List.length_mapIdx, List.length_mapIdx]) fun i hi hi' => ?_
  rw [List.getElem_mapIdx, List.getElem_mapIdx, UInt8.xor_assoc, UInt8.xor_self, UInt8.xor_zero]

/-- Another key does not give the plaintext back. -/
theorem mask_ne {key key' input : Bytes} (hkey : key.length = KEYSIZE)
    (hkey' : key'.length = KEYSIZE) (hne : key ≠ key') (hlength : KEYSIZE ≤ input.length) :
    mask key' (mask key input) ≠ input := by
  intro hsame
  -- Masked with the other key, the ciphertexts are the same.
  have hcipher : mask key input = mask key' input := by
    rw [← mask_mask key' (mask key input), hsame]
  refine hne (List.ext_getElem (hkey.trans hkey'.symm) fun i hi hi' => ?_)
  have hbyte : (mask key input)[i]? = (mask key' input)[i]? := congrArg (·[i]?) hcipher
  have hmod : i % KEYSIZE = i := Nat.mod_eq_of_lt (by omega)
  unfold mask at hbyte
  rw [List.getElem?_mapIdx, List.getElem?_mapIdx, List.getElem?_eq_getElem (by omega),
    hmod] at hbyte
  simpa [hi, hi'] using hbyte

theorem masking_lawful : masking.Lawful := fun _ =>
  { length_cbcEncrypt := fun key _ input _ => length_mask key input
    length_ctr := fun key _ input _ => length_mask key input
    cbcDecrypt_cbcEncrypt := fun key _ input _ => mask_mask key input
    ctr_ctr := fun key _ input _ => mask_mask key input }

/-- The first draw after those of the construction is another leaf. -/
def secondLeaf : Stream' ℕ := fun i => if i = 12 then 1 else 0

/-- **A container that is lost**: the MAC of a bucket on its path is missing. The cipher decrypts
what was encrypted with the same key, and with another key does not. -/
theorem backup_loses_container :
    masking.Lawful ∧
    (∀ key key' iv input : Bytes, key.length = KEYSIZE → key'.length = KEYSIZE → key ≠ key' →
      KEYSIZE ≤ input.length →
      masking.aes.cbcDecrypt key' iv (masking.aes.cbcEncrypt key iv input) ≠ input) ∧
    ∃ c s, config 5000 masking digest (List.replicate KEYSIZE 1)
        (Random.ofLeaves (Stream'.const 0)) = .ok c ∧
      Reached 5000 c s ∧ ¬Lossless 5000 c s := by
  refine ⟨masking_lawful, fun key key' _ input => mask_ne, ?_⟩
  obtain ⟨c, hc⟩ := config_ok 5000 masking digest (List.replicate KEYSIZE 1)
    (Random.ofLeaves (Stream'.const 0))
  have hconfigured := config_spec masking_lawful (by decide) (by decide) hc
  have heq := (config_eq hc).1
  have hblock : 0 < c.blocks := (hconfigured.blocks_eq (by decide)).symm ▸ by decide
  obtain ⟨s, v, v₁, v', leaf, h⟩ := exists_firstPut hconfigured (by decide)
    (unbuilt_allocate (by norm_num : 21 < 2 ^ 64) rfl (Random.ofLeaves secondLeaf)) rfl rfl
    hblock [List.replicate 16 7]
  have hhmac : ∀ data, (c.hmac c.key data).length < 2 ^ 64 := by
    rw [heq]
    exact length_digest_lt _
  exact ⟨c, s, hc, h.reached, h.not_lossless hconfigured hhmac rfl rfl⟩

end ORAMTestSSS

end CloakQueryPathORAM
