import PathOram.Cloak.Access
import PathOram.Cloak.Macs
import PathOram.Eviction

/-!
# The records to delete of both variants

`writePath` of either variant collects the IDs that it placed in a `vector<int>` and deletes
them from the stash afterwards. `separated_iff` says for which stashes that is the right set
of IDs: those whose IDs survive the conversion, of which the variant with MACs needs only the
entries that it does not skip.
-/

namespace CloakQueryPathORAM

open Hoare HeapTree PathORAM

namespace ORAM

variable {c : Config} {M : Type} {pm : AbsPositionMapAdapter M} {n bound : ℕ}
  {R : (ℕ → Option ℕ) → M → Prop} {leaf : ℕ} {f : ℕ → Option ℕ}

/-- Entries of another size are skipped, and stay in the stash whatever their IDs. -/
theorem writePath_separated_iff (hpos : 1 ≤ c.height) (hheight : c.height ≤ 31) (hZ : 0 < c.Z)
    (hleaf : leaf < 2 ^ (c.height - 1)) (hpm : pm.Implements n bound R False)
    (hn : n ≤ ULONG_MAX) {s : ORAM M} (hR : R f s.map)
    (hstash : ∀ id ∈ s.stash, id < n ∧ ∃ leaf' < 2 ^ (c.height - 1), f id = some leaf') :
    (∀ r, wp (writePath c pm leaf)
        (fun _ s' => PathORAM.ORAM.Separated c.toConfig leaf s.stash s'.cache s'.stash)
        (fun _ _ => False) { s with random := r }) ↔
      ∀ id d, s.stash.lookup id = some d → d.length = c.dataSize →
        id < 2 ^ 31 ∨ 2 ^ 64 - 2 ^ 31 ≤ id := by
  have hroot : ∀ k e, fits c f leaf k e = true → fits c f leaf 0 e = true := fun k e h =>
    fits_iff.mpr ⟨(fits_iff.mp h).1, PathORAM.ORAM.fits_root_of_fits k (fits_iff.mp h).2⟩
  refine (PathORAM.ORAM.forall_separated_iff hpos hZ hroot
    (fun id hid => (hstash id hid).1.trans_le hn) fun r => ?_).trans
    ⟨fun h id d hd hlength => ?_, fun h e he hfit => ?_⟩
  · refine writePath_filled (s := { s with random := r }) hheight hZ hleaf hpm
      (fun _ _ h => h) hR rfl ?_ ?_
    · intro e he
      obtain ⟨hlt, leaf', -, hleaf'⟩ := hstash e.1
        (PathORAM.ORAM.mem_stash_of_perm (InMemoryStashAdapter.perm_getAll s.stash r) he)
      exact ⟨hlt, leaf', hleaf'⟩
    · intro bucket m r' macs _ _ hfilled
      refine ⟨bucket, hfilled, fun k hk => ?_, PathORAM.ORAM.lookup_deletePlaced _ _⟩
      rw [PathORAM.ORAM.bucketForLevelLeaf_eq hpos hheight hleaf]
      exact PathORAM.ORAM.lookup_assignAll_requests hleaf hk bucket s.cache
  · obtain ⟨hlt, leaf', hlt', hleaf'⟩ := hstash id (mem_of_lookup hd)
    exact h (id, d) (UnorderedMap.mem_toList.mpr hd) (fits_iff.mpr
      ⟨⟨(hlt.trans_le hn).ne, hlength⟩,
        PathORAM.ORAM.fits_root hpos hheight hleaf hlt' hleaf'⟩)
  · exact h e.1 e.2 (UnorderedMap.mem_toList.mp he) (fits_iff.mp hfit).1.2

/-- **The records to delete, in both variants.** For a stash with IDs that the position map
accepts, `writePath` deletes exactly what it wrote, whatever the order of the stash is, if and
only if the IDs that may be evicted survive the conversion to `int`. -/
theorem writePaths_separated_iff (hpos : 1 ≤ c.height) (hheight : c.height ≤ 31) (hZ : 0 < c.Z)
    (hleaf : leaf < 2 ^ (c.height - 1)) (hpm : pm.Implements n bound R False)
    (hn : n ≤ ULONG_MAX) {s : PathORAM.ORAM M} {s' : ORAM M} (hR : R f s.map) (hR' : R f s'.map)
    (hsame : s'.stash = s.stash)
    (hstash : ∀ id ∈ s.stash, id < n ∧ ∃ leaf' < 2 ^ (c.height - 1), f id = some leaf') :
    ((∀ r, wp (PathORAM.ORAM.writePath c.toConfig pm leaf)
        (fun _ t => PathORAM.ORAM.Separated c.toConfig leaf s.stash t.cache t.stash)
        (fun _ _ => False) { s with random := r }) ↔
      ∀ id ∈ s.stash, id < 2 ^ 31 ∨ 2 ^ 64 - 2 ^ 31 ≤ id) ∧
    ((∀ r, wp (writePath c pm leaf)
        (fun _ t => PathORAM.ORAM.Separated c.toConfig leaf s'.stash t.cache t.stash)
        (fun _ _ => False) { s' with random := r }) ↔
      ∀ id d, s'.stash.lookup id = some d → d.length = c.dataSize →
        id < 2 ^ 31 ∨ 2 ^ 64 - 2 ^ 31 ≤ id) :=
  ⟨PathORAM.ORAM.writePath_separated_iff hpos hheight hZ hleaf hpm hn hR hstash,
    writePath_separated_iff hpos hheight hZ hleaf hpm hn hR' (hsame ▸ hstash)⟩

/-! ### A block beyond `INT_MAX` -/

/-- The tallest tree with two blocks in a bucket, so that IDs go up to `2 ^ 32`. -/
def tallest : Config :=
  { Config.tiny 31 4 with
    Z := 2
    storage := { (Config.tiny 31 4).storage with Z := 2, Z_pos := Nat.two_pos } }

theorem pow_lt_two_pow : 2 ^ 32 < 2 ^ 64 := by norm_num

/-- A position map array with leaf 0 for all IDs. -/
def leafZero : InMemoryPositionMapAdapter :=
  { InMemoryPositionMapAdapter.allocate (2 ^ 32) pow_lt_two_pow 0 with map := fun _ => some 0 }

/-- The stash holds the block `id`. -/
def holding (id : ℕ) : ORAM InMemoryPositionMapAdapter :=
  { ORAM.unbuilt leafZero (Random.ofLeaves (Stream'.const 0)) with
    stash := AList.insert id (List.replicate 32 7) ∅ }

/-- The same stash in the variant without MACs. -/
def holdingBase (id : ℕ) : PathORAM.ORAM InMemoryPositionMapAdapter := (holding id).toORAM

/-- Block `2 ^ 31` is written to a bucket of the path and stays in the stash. -/
theorem written_and_kept :
    (returned (PathORAM.ORAM.writePath tallest.toConfig InMemoryPositionMapAdapter.adapter 0)
        (holdingBase (2 ^ 31))).isSome ∧
      PathORAM.ORAM.Written tallest.toConfig 0
        (leaves (PathORAM.ORAM.writePath tallest.toConfig InMemoryPositionMapAdapter.adapter 0)
          (holdingBase (2 ^ 31))).cache (2 ^ 31) ∧
      2 ^ 31 ∈ (leaves (PathORAM.ORAM.writePath tallest.toConfig
        InMemoryPositionMapAdapter.adapter 0) (holdingBase (2 ^ 31))).stash ∧
    (returned (writePath tallest InMemoryPositionMapAdapter.adapter 0)
        (holding (2 ^ 31))).isSome ∧
      PathORAM.ORAM.Written tallest.toConfig 0
        (leaves (writePath tallest InMemoryPositionMapAdapter.adapter 0)
          (holding (2 ^ 31))).cache (2 ^ 31) ∧
      2 ^ 31 ∈ (leaves (writePath tallest InMemoryPositionMapAdapter.adapter 0)
        (holding (2 ^ 31))).stash := by
  decide +kernel

/-- The largest ID that survives as a positive `int`. -/
theorem writePaths_separated_iff_tallest :
    ((∀ r, wp (PathORAM.ORAM.writePath tallest.toConfig InMemoryPositionMapAdapter.adapter 0)
        (fun _ t => PathORAM.ORAM.Separated tallest.toConfig 0 (holdingBase (2 ^ 31 - 1)).stash
          t.cache t.stash)
        (fun _ _ => False) { holdingBase (2 ^ 31 - 1) with random := r }) ↔
      ∀ id ∈ (holdingBase (2 ^ 31 - 1)).stash, id < 2 ^ 31 ∨ 2 ^ 64 - 2 ^ 31 ≤ id) ∧
    ((∀ r, wp (writePath tallest InMemoryPositionMapAdapter.adapter 0)
        (fun _ t => PathORAM.ORAM.Separated tallest.toConfig 0 (holding (2 ^ 31 - 1)).stash
          t.cache t.stash)
        (fun _ _ => False) { holding (2 ^ 31 - 1) with random := r }) ↔
      ∀ id d, (holding (2 ^ 31 - 1)).stash.lookup id = some d → d.length = tallest.dataSize →
        id < 2 ^ 31 ∨ 2 ^ 64 - 2 ^ 31 ≤ id) := by
  refine writePaths_separated_iff (by decide) (by decide) (by decide) (by decide)
    (InMemoryPositionMapAdapter.implements (2 ^ 32) (2 ^ 64)) (by decide) ⟨rfl, le_rfl⟩
    ⟨rfl, le_rfl⟩ rfl fun id hid => ⟨?_, 0, by decide, rfl⟩
  rcases (AList.mem_insert _).mp hid with rfl | hid
  · decide
  · exact absurd hid (AList.notMem_empty id)

end ORAM

end CloakQueryPathORAM
