import PathOram.Cloak.Access

/-!
# Calls run the protocol

* `syncCache_spec` — uploading the cache, which never fails in a sound view.
* `getBlock_spec`, `putBlock_spec`, `exec_spec` — a `get` or a `put` is an `Access` and an
  upload if it returns. If it throws, the access was an `Overflow`, or the position map threw.
* `new_spec` — construction leaves a fresh view, and no MAC is verified.
-/

namespace CloakQueryPathORAM

open PathORAM Hoare HeapTree AbsStorageAdapter

namespace ORAM

variable {c : Config} {M : Type} {pm : AbsPositionMapAdapter M} {bound : ℕ}
  {R : (ℕ → Option ℕ) → M → Prop} {mayThrow : Prop} {v : View} {s : ORAM M}

/-- **Uploading the cache.** -/
theorem syncCache_spec (hc : c.Valid) (hv : View.Sound c v) (hs : Shows c R v s) :
    wp (syncCache c)
      (fun _ s' => ∃ v', Synced c.toConfig v v' ∧ Shows c R v' s') (fun _ _ => False) s := by
  refine wp_zoom (wp_mono (PathORAM.ORAM.syncCache_spec hc hv.valid hs.toShows) ?_ ?_)
  · rintro _ t ⟨v', hsynced, ht⟩
    exact ⟨v', hsynced, ht, hs.isInitializing⟩
  · rintro e t ⟨v', hfailed, -⟩
    exact hv.not_syncFailed hfailed

/-- An access and an upload. -/
theorem single_spec (hc : c.Valid) (hpm : pm.Implements c.blocks bound R mayThrow)
    (hbound : 2 ^ (c.height - 1) ≤ bound) (hv : View.Sound c v) (hs : Shows c R v s) (read : Bool)
    {block : ℕ} (hblock : block < c.blocks) (hid : block ≤ 10 ^ 12) (data : Bytes) :
    wp (access c pm read block data [])
      (fun response s₁ => wp (syncCache c)
        (fun _ s' => ∃ leaf stash v₁ v',
          Access c v (PathORAM.ORAM.opOfAccess read block data) leaf stash response v₁ ∧
            Synced c.toConfig v₁ v' ∧ Shows c R v' s')
        (fun _ _ => False) s₁)
      (fun e _ => mayThrow ∨ e = .overCapacity c.stashCapacity ∧ ∃ leaf,
        v.pos block = some leaf ∧
          Overflow c v (PathORAM.ORAM.opOfAccess read block data) leaf) s := by
  refine wp_mono (access_spec hc hpm hbound hv.valid hs hv.sized hv.ids read hblock data) ?_
    fun _ _ h => h
  rintro response s₁ ⟨leaf, stash, v₁, haccess, hs₁⟩
  have hopblock := PathORAM.ORAM.block_opOfAccess read block data
  have hv₁ := hv.access (hopblock.symm ▸ hblock) (hopblock.symm ▸ hid) haccess
  refine wp_mono (syncCache_spec hc hv₁ hs₁) ?_ fun _ _ h => h.elim
  rintro _ s' ⟨v', hsynced, hs'⟩
  exact ⟨leaf, stash, v₁, v', haccess, hsynced, hs'⟩

theorem getBlock_spec (hc : c.Valid) (hpm : pm.Implements c.blocks bound R mayThrow)
    (hbound : 2 ^ (c.height - 1) ≤ bound) (hv : View.Sound c v) (hs : Shows c R v s) {block : ℕ}
    (hblock : block < c.blocks) (hid : block ≤ 10 ^ 12) :
    wp (getBlock c pm block [])
      (fun response s' => ∃ leaf stash v₁ v',
        Access c v (.read block) leaf stash response v₁ ∧ Synced c.toConfig v₁ v' ∧ Shows c R v' s')
      (fun e _ => mayThrow ∨ e = .overCapacity c.stashCapacity ∧ ∃ leaf,
        v.pos block = some leaf ∧ Overflow c v (.read block) leaf) s := by
  refine wp_bind (wp_mono (single_spec hc hpm hbound hv hs true hblock hid []) ?_ fun _ _ h => h)
  exact fun _ _ h => wp_bind (wp_mono h (fun _ _ h => wp_pure h) fun _ _ h => h.elim)

theorem putBlock_spec (hc : c.Valid) (hpm : pm.Implements c.blocks bound R mayThrow)
    (hbound : 2 ^ (c.height - 1) ≤ bound) (hv : View.Sound c v) (hs : Shows c R v s) {block : ℕ}
    (hblock : block < c.blocks) (hid : block ≤ 10 ^ 12) (data : Bytes) :
    wp (putBlock c pm block data)
      (fun _ s' => ∃ leaf stash response v₁ v',
        Access c v (.write block data) leaf stash response v₁ ∧ Synced c.toConfig v₁ v' ∧
          Shows c R v' s')
      (fun e _ => mayThrow ∨ e = .overCapacity c.stashCapacity ∧ ∃ leaf,
        v.pos block = some leaf ∧ Overflow c v (.write block data) leaf) s := by
  refine wp_bind (wp_mono (single_spec hc hpm hbound hv hs false hblock hid data) ?_
    fun _ _ h => h)
  intro response _ h
  refine wp_mono h ?_ fun _ _ h => h.elim
  rintro _ s' ⟨leaf, stash, v₁, v', h⟩
  exact ⟨leaf, stash, response, v₁, v', h⟩

/-- **One call.** -/
theorem exec_spec (hc : c.Valid) (hpm : pm.Implements c.blocks bound R mayThrow)
    (hbound : 2 ^ (c.height - 1) ≤ bound) (hv : View.Sound c v) (hs : Shows c R v s) {call : Call}
    {op : Op} (hcall : call.ops = [op]) (hsingle : call.Single) (hop : op.block < c.blocks)
    (hid : op.block ≤ 10 ^ 12) :
    wp (exec c pm call)
      (fun responses s' => ∃ leaf stash response v₁ v',
        Access c v op leaf stash response v₁ ∧ Synced c.toConfig v₁ v' ∧ Shows c R v' s' ∧
          responses = call.report [response])
      (fun e _ => mayThrow ∨ e = .overCapacity c.stashCapacity ∧ ∃ leaf,
        v.pos op.block = some leaf ∧ Overflow c v op leaf) s := by
  cases call with
  | get block =>
    obtain rfl : op = .read block := (List.singleton_injective hcall).symm
    refine wp_map (wp_mono (getBlock_spec hc hpm hbound hv hs hop hid) ?_ fun _ _ h => h)
    rintro response s' ⟨leaf, stash, v₁, v', haccess, hsynced, hs'⟩
    exact ⟨leaf, stash, response, v₁, v', haccess, hsynced, hs', rfl⟩
  | put block data =>
    obtain rfl : op = .write block data := (List.singleton_injective hcall).symm
    refine wp_map (wp_mono (putBlock_spec hc hpm hbound hv hs hop hid data) ?_ fun _ _ h => h)
    rintro _ s' ⟨leaf, stash, response, v₁, v', haccess, hsynced, hs'⟩
    exact ⟨leaf, stash, response, v₁, v', haccess, hsynced, hs', rfl⟩
  | multiple requests => exact hsingle.elim

/-- **Construction leaves a fresh view.** -/
theorem new_spec (hc : c.Valid) (hpm : pm.Implements c.blocks bound R mayThrow)
    (hbound : 2 ^ (c.height - 1) ≤ bound) {f : ℕ → Option ℕ} (hR : R f s.map)
    (hstash : s.stash = ∅) (hcache : s.cache = ∅) :
    wp (new c pm true)
      (fun _ s' => ∃ v, v.Fresh c.toConfig s.random.ulongs ∧ Shows c R v s')
      (fun _ _ => mayThrow) s := by
  unfold new
  refine wp_bind (wp_modify ?_)
  rw [if_pos rfl]
  -- The rest is the body of the other constructor, on the members that both variants have.
  have hloop : ((List.range c.blocks).forM fun i =>
      withRandom (Random.getRandomULong (intShl (c.height - 1))) >>= fun leaf =>
        zoom mapLens (pm.set i leaf) : OramM M Unit) =
      zoom baseLens ((List.range c.blocks).forM fun i =>
        PathORAM.ORAM.withRandom (Random.getRandomULong (intShl (c.height - 1))) >>= fun leaf =>
          zoom PathORAM.ORAM.mapLens (pm.set i leaf)) := by
    rw [zoom_forM (fun _ _ _ => rfl) fun _ => rfl]
    refine congrArg _ (funext fun i => ?_)
    rw [zoom_bind fun _ _ _ => rfl]
    refine congrArg _ (funext fun leaf => ?_)
    exact (zoom_zoom (fun _ => rfl) (fun _ _ => rfl) _).symm
  change wp (zoom baseLens _ >>= fun _ => _) _ _ _
  rw [hloop, ← zoom_bind fun _ _ _ => rfl]
  refine wp_zoom (wp_mono (PathORAM.ORAM.initialize_spec hc hpm hbound hR hstash hcache
    (blank_of_zeros hc.crypto_lawful le_rfl s.storage s.random)) ?_ fun _ _ h => h)
  rintro _ t ⟨v, hfresh, ht⟩
  exact ⟨v, hfresh, ht, rfl⟩

end ORAM

end CloakQueryPathORAM
