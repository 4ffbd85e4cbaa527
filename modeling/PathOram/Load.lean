import PathOram.Failure

/-!
# Bulk load

`load` spreads `bucketCount` buckets over the locations of the tree by a fractional step,
and draws the leaf of each record below its bucket.

* `loadLocation_lt`, `inTree_loadLocation` — the locations are pairwise distinct, and all
  of them are nodes of the tree unless there are as many buckets as locations. In that
  case the last bucket goes to location `2 ^ height`, just behind the tree.
* `loadRecord_spec`, `loadRecord_fails` — one turn of the loop over the records.
* `Loaded` — what a load leaves, as a move of the protocol. `View.Fresh.holds_loaded`
  relates it to the key-value store.
* `load_correct_iff` — a load does what it should exactly if a bucket is left over.
-/

namespace PathORAM

open Hoare HeapTree AbsStorageAdapter

variable {c : Config} {M : Type} {pm : AbsPositionMapAdapter M} {bound : ℕ}
  {R : (ℕ → Option ℕ) → M → Prop} {s : ORAM M}

namespace ORAM

/-! ### The locations of the buckets -/

section Locations

variable {bucketCount i j : ℕ}

theorem loadLocation_eq (hheight : c.height ≤ 30) (bucketCount i : ℕ) :
    loadLocation c bucketCount i = 1 + i * 2 ^ c.height / bucketCount := by
  unfold loadLocation
  rw [intShl_eq (by omega)]

/-- With at most one bucket for each location, the step is at least one. -/
theorem loadLocation_lt (hheight : c.height ≤ 30) (hpos : 0 < bucketCount)
    (hle : bucketCount ≤ 2 ^ c.height) (hij : i < j) :
    loadLocation c bucketCount i < loadLocation c bucketCount j := by
  rw [loadLocation_eq hheight, loadLocation_eq hheight]
  -- one bucket further is at least one location further, as the buckets are no more than the
  -- locations
  have hstep : i * 2 ^ c.height + bucketCount ≤ j * 2 ^ c.height :=
    calc i * 2 ^ c.height + bucketCount ≤ i * 2 ^ c.height + 2 ^ c.height :=
          Nat.add_le_add_left hle _
      _ = (i + 1) * 2 ^ c.height := (Nat.succ_mul _ _).symm
      _ ≤ j * 2 ^ c.height := Nat.mul_le_mul_right _ hij
  have hdiv : i * 2 ^ c.height / bucketCount + 1 ≤ j * 2 ^ c.height / bucketCount := by
    rw [← Nat.add_div_right _ hpos]
    exact Nat.div_le_div_right hstep
  omega

/-- Every bucket goes to a node of the tree, but for the last of `2 ^ height`. -/
theorem inTree_loadLocation (hheight : c.height ≤ 30) (hle : bucketCount ≤ 2 ^ c.height)
    (hi : i < bucketCount) (hi' : i + 1 < 2 ^ c.height) :
    InTree c.height (loadLocation c bucketCount i) := by
  have hpos : 0 < bucketCount := by omega
  rw [loadLocation_eq hheight]
  refine ⟨Nat.le_add_right _ _, ?_⟩
  rcases hle.eq_or_lt with heq | hlt
  · -- the step is one
    rw [heq, Nat.mul_div_cancel _ (Nat.two_pow_pos _)]
    omega
  · -- the last bucket is more than one location away from the end
    have hmul : i * 2 ^ c.height + 2 ^ c.height ≤ bucketCount * 2 ^ c.height :=
      calc i * 2 ^ c.height + 2 ^ c.height = (i + 1) * 2 ^ c.height := (Nat.succ_mul _ _).symm
        _ ≤ bucketCount * 2 ^ c.height := Nat.mul_le_mul_right _ hi
    have hsub : (2 ^ c.height - 1) * bucketCount = bucketCount * 2 ^ c.height - bucketCount := by
      rw [Nat.sub_mul, Nat.one_mul, Nat.mul_comm]
    have hdiv : i * 2 ^ c.height / bucketCount < 2 ^ c.height - 1 := by
      rw [Nat.div_lt_iff_lt_mul hpos, hsub]
      omega
    omega

/-- The last of `2 ^ height` buckets goes to a location below which there are no leaves:
the shift count wraps around. -/
theorem leavesForLocation_behind (hheight : c.height ≤ 30) :
    leavesForLocation c.height (loadLocation c (2 ^ c.height) (2 ^ c.height - 1)) =
      .error (.outOfRangeShift (2 ^ 64 - 1)) := by
  -- the last of `2 ^ height` buckets is put right behind the tree
  have hlocation : loadLocation c (2 ^ c.height) (2 ^ c.height - 1) = 2 ^ c.height := by
    rw [loadLocation_eq hheight, Nat.mul_div_cancel _ (Nat.two_pow_pos _)]
    have := Nat.two_pow_pos c.height
    omega
  -- the level is the height, and the difference wraps around below zero
  have hcount : (c.height + 2 ^ 64 - c.height - 1) % 2 ^ 64 = 2 ^ 64 - 1 := by omega
  rw [hlocation]
  unfold leavesForLocation
  simp only [Nat.log2_two_pow, hcount]
  rfl

end Locations

/-! ### Padding the last bucket -/

/-- **The padding loop fills the bucket.** As long as the bucket is too short the bound
wraps around and is out of reach for the counter; once it is full the bound is zero. -/
theorem padBucket_eq (hZ : c.Z < 2 ^ 63) (fuel i : ℕ) {bucket : Bucket} (hi : i < 2 ^ 32)
    (hle : bucket.length ≤ c.Z) (hfuel : c.Z - bucket.length < fuel) :
    padBucket c fuel i bucket =
      .ok (bucket ++ List.replicate (c.Z - bucket.length) (ULONG_MAX, [])) := by
  -- on the fuel; the bucket grows by one block at each step
  induction fuel generalizing i bucket with
  | zero => omega
  | succ fuel ih =>
    rw [padBucket]
    rcases hle.eq_or_lt with heq | hlt
    -- full: the difference of the sizes is zero, and the loop ends
    · have hbound : (bucket.length + 2 ^ 64 - c.Z) % 2 ^ 64 = 0 := by omega
      rw [hbound, if_neg (Nat.not_lt_zero _), heq, Nat.sub_self, List.replicate_zero,
        List.append_nil]
    -- not full: it wraps around, so that any counter is below it
    · have hbound : i < (bucket.length + 2 ^ 64 - c.Z) % 2 ^ 64 := by omega
      have hlength : (bucket ++ [(ULONG_MAX, [])]).length = bucket.length + 1 := by simp
      have hsucc : c.Z - bucket.length = (c.Z - (bucket.length + 1)) + 1 := by omega
      rw [if_pos hbound, ih _ (Nat.mod_lt _ (by norm_num)) (by omega) (by omega), hlength, hsucc,
        List.append_assoc, List.replicate_succ]
      rfl

/-! ### The loop over the records -/

/-- The loop has put the records `done` in buckets, and drawn their leaves into `f`. -/
structure Filling (c : Config) (bucketCount : ℕ) (f : ℕ → Option ℕ) (done : List Block)
    (l : LoadState) : Prop where
  locations : l.writeRequests.map Prod.fst =
    (List.range l.iteration).map (loadLocation c bucketCount)
  full : ∀ q ∈ l.writeRequests, q.2.length = c.Z
  notFull : l.bucket.length < c.Z
  records : l.writeRequests.flatMap Prod.snd ++ l.bucket = done
  pos : ∀ id < c.blocks, ∃ leaf < 2 ^ (c.height - 1), f id = some leaf
  onPath : ∀ q ∈ l.writeRequests ++ [(loadLocation c bucketCount l.iteration, l.bucket)],
    ∀ e ∈ q.2, ∃ leaf, f e.1 = some leaf ∧ OnPath c.height q.1 leaf

/-- `s'` differs from `s` in the position map and the random source only. -/
structure SameStores (s s' : ORAM M) : Prop where
  storage : s'.storage = s.storage
  stash : s'.stash = s.stash
  cache : s'.cache = s.cache

theorem SameStores.trans {s s₁ s' : ORAM M} (h : SameStores s s₁) (h' : SameStores s₁ s') :
    SameStores s s' :=
  ⟨h'.storage.trans h.storage, h'.stash.trans h.stash, h'.cache.trans h.cache⟩

section Loop

variable {bucketCount : ℕ} {f : ℕ → Option ℕ} {done : List Block} {l : LoadState}
  {record : Block}

theorem length_flatMap_snd {requests : List (ℕ × Bucket)}
    (h : ∀ q ∈ requests, q.2.length = c.Z) :
    (requests.flatMap Prod.snd).length = requests.length * c.Z := by
  induction requests with
  | nil => simp
  | cons q requests ih =>
    rw [List.flatMap_cons, List.length_append, h q List.mem_cons_self,
      ih fun q hq => h q (List.mem_cons_of_mem _ hq), List.length_cons, Nat.succ_mul, Nat.add_comm]

/-- The number of records tells how many buckets are full. -/
theorem Filling.length (hl : Filling c bucketCount f done l) :
    done.length = l.iteration * c.Z + l.bucket.length := by
  have hrequests : l.writeRequests.length = l.iteration := by
    have h := congrArg List.length hl.locations
    rwa [List.length_map, List.length_map, List.length_range] at h
  rw [← hl.records, List.length_append, length_flatMap_snd hl.full, hrequests]

/-- The bucket that is filled is one of the tree, while there are records left for it. -/
theorem Filling.inTree (hheight : c.height ≤ 30) (hle : bucketCount ≤ 2 ^ c.height)
    (hl : Filling c bucketCount f done l) (hlen : done.length < bucketCount * c.Z)
    (hlen' : done.length < (2 ^ c.height - 1) * c.Z) :
    InTree c.height (loadLocation c bucketCount l.iteration) := by
  have hlength := hl.length
  have hi : l.iteration < bucketCount := lt_of_mul_lt_mul_right
    ((Nat.le_add_right _ _).trans_lt (hlength ▸ hlen)) (Nat.zero_le c.Z)
  have hi' : l.iteration < 2 ^ c.height - 1 := lt_of_mul_lt_mul_right
    ((Nat.le_add_right _ _).trans_lt (hlength ▸ hlen')) (Nat.zero_le c.Z)
  exact inTree_loadLocation hheight hle hi (by omega)

/-- Putting a record in the current bucket, with a leaf below it. -/
theorem Filling.onPath_append (hl : Filling c bucketCount f done l)
    (hnew : record.1 ∉ done.map Prod.fst) {leaf : ℕ}
    (hleaf : OnPath c.height (loadLocation c bucketCount l.iteration) leaf) :
    ∀ q ∈ l.writeRequests ++ [(loadLocation c bucketCount l.iteration, l.bucket ++ [record])],
      ∀ e ∈ q.2, ∃ leaf', Function.update f record.1 (some leaf) e.1 = some leaf' ∧
        OnPath c.height q.1 leaf' := by
  have hother : ∀ q ∈ l.writeRequests ++ [(loadLocation c bucketCount l.iteration, l.bucket)],
      ∀ e ∈ q.2, ∃ leaf', Function.update f record.1 (some leaf) e.1 = some leaf' ∧
        OnPath c.height q.1 leaf' := by
    intro q hq e he
    -- the leaf of a record that was placed before stays
    have hne : e.1 ≠ record.1 := by
      rintro heq
      refine hnew (heq ▸ List.mem_map_of_mem ?_)
      rw [← hl.records, List.mem_append, List.mem_flatMap]
      rcases List.mem_append.mp hq with hq | hq
      · exact Or.inl ⟨q, hq, he⟩
      · obtain rfl := List.mem_singleton.mp hq
        exact Or.inr he
    rw [Function.update_of_ne hne]
    exact hl.onPath q hq e he
  intro q hq e he
  rcases List.mem_append.mp hq with hq | hq
  · exact hother q (List.mem_append_left _ hq) e he
  · obtain rfl := List.mem_singleton.mp hq
    rcases List.mem_append.mp he with he | he
    · exact hother _ (List.mem_append_right _ List.mem_cons_self) e he
    · obtain rfl := List.mem_singleton.mp he
      exact ⟨leaf, Function.update_self _ _ _, hleaf⟩

/-- The record goes to the current bucket; a bucket that is full is requested. -/
theorem Filling.next (hl : Filling c bucketCount f done l)
    (hnew : record.1 ∉ done.map Prod.fst) {leaf : ℕ} (hlt : leaf < 2 ^ (c.height - 1))
    (hleaf : OnPath c.height (loadLocation c bucketCount l.iteration) leaf) :
    Filling c bucketCount (Function.update f record.1 (some leaf)) (done ++ [record])
      (if (l.bucket ++ [record]).length = c.Z then
        ⟨l.iteration + 1, [],
          l.writeRequests ++ [(loadLocation c bucketCount l.iteration, l.bucket ++ [record])]⟩
      else ⟨l.iteration, l.bucket ++ [record], l.writeRequests⟩) := by
  have honPath := hl.onPath_append hnew hleaf
  -- only the leaf of this record changes
  have hpos : ∀ id < c.blocks, ∃ leaf' < 2 ^ (c.height - 1),
      Function.update f record.1 (some leaf) id = some leaf' := by
    intro id hid
    by_cases heq : id = record.1
    · exact ⟨leaf, hlt, by rw [heq, Function.update_self]⟩
    · rw [Function.update_of_ne heq]
      exact hl.pos id hid
  have hrecords : l.writeRequests.flatMap Prod.snd ++ (l.bucket ++ [record]) =
      done ++ [record] := by
    rw [← List.append_assoc, hl.records]
  split
  -- the bucket is full and becomes a request
  · next hfull =>
    refine ⟨?_, ?_, (Nat.zero_le _).trans_lt hl.notFull, ?_, hpos, ?_⟩
    · rw [List.map_append, hl.locations, List.range_succ, List.map_append]
      rfl
    · intro q hq
      rcases List.mem_append.mp hq with hq | hq
      · exact hl.full q hq
      · obtain rfl := List.mem_singleton.mp hq
        exact hfull
    · rw [List.flatMap_append, List.append_nil, List.flatMap_singleton]
      exact hrecords
    · intro q hq e he
      rcases List.mem_append.mp hq with hq | hq
      · exact honPath q hq e he
      · obtain rfl := List.mem_singleton.mp hq
        exact absurd he List.not_mem_nil
  · next hfull =>
    have hlength : (l.bucket ++ [record]).length = l.bucket.length + 1 := by simp
    have hlt : (l.bucket ++ [record]).length < c.Z := by
      have := hl.notFull
      omega
    exact ⟨hl.locations, hl.full, hlt, hrecords, hpos, honPath⟩

/-- **One turn of the loop.** -/
theorem loadRecord_spec (hc : c.Valid) (hheight : c.height ≤ 30)
    (hpm : pm.Implements c.blocks bound R False) (hbound : 2 ^ (c.height - 1) ≤ bound)
    (hR : R f s.map) (hl : Filling c bucketCount f done l)
    (hlocation : InTree c.height (loadLocation c bucketCount l.iteration))
    (hid : record.1 < c.blocks) (hnew : record.1 ∉ done.map Prod.fst) :
    wp (loadRecord c pm bucketCount l record)
      (fun l' s' => ∃ f', Filling c bucketCount f' (done ++ [record]) l' ∧ R f' s'.map ∧
        SameStores s s') (fun _ _ => False) s := by
  obtain ⟨lo, hi, hleaves, hle, hlt, honPath⟩ :=
    leavesForLocation_spec hc.height_pos hheight hlocation
  have hpow : 2 ^ (c.height - 1) ≤ 2 ^ 31 := two_pow_le_of_height (by omega)
  have hwidth : (hi + 2 ^ 64 - lo + 1) % 2 ^ 64 = hi - lo + 1 := by omega
  unfold loadRecord
  refine wp_bind (wp_liftExcept_ok hleaves (wp_bind (wp_withRandom (wp_bind ?_))))
  simp only [hwidth]
  set draw := (Random.getRandomULong (hi - lo + 1) s.random).1 with hdraw
  -- the draw stays inside the range of the location
  have hdrawLt : draw < hi - lo + 1 := Nat.mod_lt _ (Nat.succ_pos _)
  have hleaf : (draw + lo) % 2 ^ 64 = draw + lo := by omega
  rw [hleaf]
  refine wp_mapSet hpm (by exact hR) hid (by omega) (fun m hR' => ?_) fun _ _ h => h
  have hlt' : draw + lo < 2 ^ (c.height - 1) := by omega
  have hnext := hl.next hnew hlt' (honPath (draw + lo) (by omega) (by omega))
  rw [if_pos hl.notFull]
  split
  · next hfull =>
    rw [if_pos hfull] at hnext
    exact wp_pure ⟨_, hnext, hR', rfl, rfl, rfl⟩
  · next hfull =>
    rw [if_neg hfull] at hnext
    exact wp_pure ⟨_, hnext, hR', rfl, rfl, rfl⟩

/-- **The loop** over records that leave the last location free. -/
theorem loadAll_spec (hc : c.Valid) (hheight : c.height ≤ 30)
    (hpm : pm.Implements c.blocks bound R False) (hbound : 2 ^ (c.height - 1) ≤ bound)
    (hR : R f s.map) (hpos : ∀ id < c.blocks, ∃ leaf < 2 ^ (c.height - 1), f id = some leaf)
    (hle : bucketCount ≤ 2 ^ c.height) {data : List Block} (hnodup : (data.map Prod.fst).Nodup)
    (hids : ∀ record ∈ data, record.1 < c.blocks) (hlen : data.length ≤ bucketCount * c.Z)
    (hlen' : data.length ≤ (2 ^ c.height - 1) * c.Z) :
    wp (data.foldlM (loadRecord c pm bucketCount) ⟨0, [], []⟩)
      (fun l s' => ∃ f', Filling c bucketCount f' data l ∧ R f' s'.map ∧ SameStores s s')
      (fun _ _ => False) s := by
  have hinit : Filling c bucketCount f [] ⟨0, [], []⟩ :=
    ⟨rfl, by simp, hc.Z_pos, rfl, hpos, by simp⟩
  -- the invariant of the loop: `done` is placed, `rest` is to come
  refine wp_mono (wp_foldlM (fun rest l s' => ∃ done f', done ++ rest = data ∧
    Filling c bucketCount f' done l ∧ R f' s'.map ∧ SameStores s s') ?_ data _ s
    ⟨[], f, rfl, hinit, hR, rfl, rfl, rfl⟩) ?_ fun _ _ h => h
  · rintro record rest l s₁ ⟨done, f', rfl, hl, hR, hsame⟩
    have hlt : done.length < (done ++ record :: rest).length := by simp
    have hnew : record.1 ∉ done.map Prod.fst := by
      rw [List.map_append, List.map_cons] at hnodup
      exact fun hmem => (List.disjoint_of_nodup_append hnodup) hmem List.mem_cons_self
    refine wp_mono (loadRecord_spec hc hheight hpm hbound hR hl
      (hl.inTree hheight hle (hlt.trans_le hlen) (hlt.trans_le hlen'))
      (hids record (List.mem_append_right _ List.mem_cons_self)) hnew) ?_ fun _ _ h => h
    rintro l' s' ⟨f'', hl', hR', hsame'⟩
    exact ⟨done ++ [record], f'', by simp, hl', hR', hsame.trans hsame'⟩
  · rintro l s' ⟨done, f', hdone, hl, hR, hsame⟩
    rw [List.append_nil] at hdone
    exact ⟨f', hdone ▸ hl, hR, hsame⟩

/-- **The loop fails** when the last location is needed, at the first record of its
bucket. -/
theorem loadAll_fails (hc : c.Valid) (hheight : c.height ≤ 30)
    (hpm : pm.Implements c.blocks bound R False) (hbound : 2 ^ (c.height - 1) ≤ bound)
    (hR : R f s.map) (hpos : ∀ id < c.blocks, ∃ leaf < 2 ^ (c.height - 1), f id = some leaf)
    {data : List Block} (hnodup : (data.map Prod.fst).Nodup)
    (hids : ∀ record ∈ data, record.1 < c.blocks)
    (hlen : (2 ^ c.height - 1) * c.Z < data.length) :
    wp (data.foldlM (loadRecord c pm (2 ^ c.height)) ⟨0, [], []⟩) (fun _ _ => False)
      (fun e _ => e = .outOfRangeShift (2 ^ 64 - 1)) s := by
  obtain ⟨record, rest, hrest⟩ : ∃ record rest,
      data.drop ((2 ^ c.height - 1) * c.Z) = record :: rest :=
    List.exists_cons_of_ne_nil fun h => by
      have := List.drop_eq_nil_iff.mp h
      omega
  set placed := data.take ((2 ^ c.height - 1) * c.Z) with hplaced
  have hsplit : placed ++ record :: rest = data := by
    rw [← hrest, hplaced, List.take_append_drop]
  have hlength : placed.length = (2 ^ c.height - 1) * c.Z := by
    rw [hplaced, List.length_take, min_eq_left hlen.le]
  have hsub : ∀ record ∈ placed, record.1 < c.blocks := fun record hmem =>
    hids record (List.mem_of_mem_take hmem)
  have hnodup' : (placed.map Prod.fst).Nodup := by
    rw [← hsplit, List.map_append] at hnodup
    exact hnodup.of_append_left
  rw [← hsplit, List.foldlM_append]
  refine wp_bind (wp_mono (loadAll_spec hc hheight hpm hbound hR hpos le_rfl hnodup' hsub
    (hlength.trans_le (Nat.mul_le_mul_right _ (Nat.sub_le _ _))) hlength.le) ?_
    fun _ _ h => h.elim)
  rintro l s₁ ⟨f', hl, hR', hsame⟩
  -- all buckets of the tree are full
  have hiteration : l.iteration = 2 ^ c.height - 1 := by
    have hlen := hl.length
    have hnotFull := hl.notFull
    rw [hlength] at hlen
    have hle : l.iteration * c.Z < (2 ^ c.height - 1 + 1) * c.Z := by
      rw [Nat.succ_mul, hlen]
      omega
    have hge : (2 ^ c.height - 1) * c.Z < (l.iteration + 1) * c.Z := by
      rw [Nat.succ_mul, hlen]
      omega
    have := lt_of_mul_lt_mul_right hle (Nat.zero_le _)
    have := lt_of_mul_lt_mul_right hge (Nat.zero_le _)
    omega
  have hfails := leavesForLocation_behind (c := c) hheight
  rw [List.foldlM_cons]
  refine wp_bind ?_
  unfold loadRecord
  rw [hiteration]
  exact wp_bind (wp_liftExcept_error hfails rfl)

end Loop

/-! ### The requests -/

/-- The SET requests of a load once the last bucket is padded. -/
def LoadState.requests (c : Config) (bucketCount : ℕ) (l : LoadState) : List (ℕ × Bucket) :=
  if l.bucket.length > 0 then
    l.writeRequests ++ [(loadLocation c bucketCount l.iteration,
      l.bucket ++ List.replicate (c.Z - l.bucket.length) (ULONG_MAX, []))]
  else l.writeRequests

section Requests

variable {bucketCount : ℕ} {f : ℕ → Option ℕ} {data : List Block} {l : LoadState}

theorem Filling.map_fst_requests (hl : Filling c bucketCount f data l)
    (hlen : data.length ≤ bucketCount * c.Z) :
    ∃ count ≤ bucketCount, (l.requests c bucketCount).map Prod.fst =
      (List.range count).map (loadLocation c bucketCount) := by
  have hlength := hl.length
  have hZ : 0 < c.Z := (Nat.zero_le _).trans_lt hl.notFull
  unfold LoadState.requests
  split
  -- a last bucket that is partly filled counts as well
  · next hpos =>
    refine ⟨l.iteration + 1, ?_, ?_⟩
    · exact lt_of_mul_lt_mul_right (a := c.Z) (by omega) (Nat.zero_le _)
    · rw [List.map_append, hl.locations, List.range_succ, List.map_append]
      rfl
  · next hpos =>
    refine ⟨l.iteration, ?_, hl.locations⟩
    exact le_of_mul_le_mul_right (a := c.Z) (by omega) hZ

theorem Filling.nodup_requests (hheight : c.height ≤ 30) (hle : bucketCount < 2 ^ c.height)
    (hl : Filling c bucketCount f data l) (hlen : data.length ≤ bucketCount * c.Z) :
    ((l.requests c bucketCount).map Prod.fst).Nodup := by
  obtain ⟨count, hcount, hfst⟩ := hl.map_fst_requests hlen
  rw [hfst]
  rcases Nat.eq_zero_or_pos bucketCount with rfl | hpos
  · obtain rfl : count = 0 := Nat.le_zero.mp hcount
    exact List.nodup_nil
  · have hmono : StrictMono (loadLocation c bucketCount) := fun i j hij =>
      loadLocation_lt hheight hpos hle.le hij
    exact List.nodup_range.map hmono.injective

theorem Filling.inTree_requests (hheight : c.height ≤ 30) (hle : bucketCount < 2 ^ c.height)
    (hl : Filling c bucketCount f data l) (hlen : data.length ≤ bucketCount * c.Z) :
    ∀ q ∈ l.requests c bucketCount, InTree c.height q.1 := by
  obtain ⟨count, hcount, hfst⟩ := hl.map_fst_requests hlen
  intro q hq
  have hmem : q.1 ∈ (l.requests c bucketCount).map Prod.fst := List.mem_map_of_mem hq
  rw [hfst, List.mem_map] at hmem
  obtain ⟨i, hi, hlocation⟩ := hmem
  have hi := List.mem_range.mp hi
  rw [← hlocation]
  exact inTree_loadLocation hheight hle.le (by omega) (by omega)

theorem Filling.length_requests (hl : Filling c bucketCount f data l) :
    ∀ q ∈ l.requests c bucketCount, q.2.length = c.Z := by
  unfold LoadState.requests
  intro q hq
  split at hq
  · rcases List.mem_append.mp hq with hq | hq
    · exact hl.full q hq
    · obtain rfl := List.mem_singleton.mp hq
      have := hl.notFull
      rw [List.length_append, List.length_replicate]
      omega
  · exact hl.full q hq

/-- The requests hold the records, and dummies in the last bucket. -/
theorem Filling.flatMap_requests (hl : Filling c bucketCount f data l) :
    ∃ dummies < c.Z, (l.requests c bucketCount).flatMap Prod.snd =
      data ++ List.replicate dummies (ULONG_MAX, []) := by
  have hnotFull := hl.notFull
  unfold LoadState.requests
  split
  -- the blocks behind the records are the padding of the last bucket
  · next hpos =>
    refine ⟨c.Z - l.bucket.length, by omega, ?_⟩
    rw [List.flatMap_append, List.flatMap_singleton, ← List.append_assoc, hl.records]
  · next hpos =>
    have hnil : l.bucket = [] := List.length_eq_zero_iff.mp (by omega)
    have hrecords := hl.records
    rw [hnil, List.append_nil] at hrecords
    exact ⟨0, by omega, by rw [hrecords, List.replicate_zero, List.append_nil]⟩

theorem Filling.onPath_requests (hl : Filling c bucketCount f data l) :
    ∀ q ∈ l.requests c bucketCount, ∀ e ∈ q.2, Block.Real e →
      ∃ leaf, f e.1 = some leaf ∧ OnPath c.height q.1 leaf := by
  unfold LoadState.requests
  intro q hq e he hreal
  split at hq
  · rcases List.mem_append.mp hq with hq | hq
    · exact hl.onPath q (List.mem_append_left _ hq) e he
    · obtain rfl := List.mem_singleton.mp hq
      rcases List.mem_append.mp he with he | he
      · exact hl.onPath _ (List.mem_append_right _ List.mem_cons_self) e he
      · -- padding is not real
        rw [List.eq_of_mem_replicate he] at hreal
        exact absurd rfl hreal
  · exact hl.onPath q (List.mem_append_left _ hq) e he

end Requests

end ORAM

/-! ### The load as a move of the protocol -/

/-- **A load.** The requests hold the records in buckets of `Z` at pairwise distinct nodes,
each record on the path of its leaf. The rest of the tree is as it was. -/
structure Loaded (c : Config) (records : List Block) (requests : List (ℕ × Bucket))
    (v v' : View) : Prop where
  nodup : (requests.map Prod.fst).Nodup
  inTree : ∀ q ∈ requests, InTree c.height q.1
  length : ∀ q ∈ requests, q.2.length = c.Z
  records : ∃ shuffled dummies, shuffled.Perm records ∧ dummies < c.Z ∧
    requests.flatMap Prod.snd = shuffled ++ List.replicate dummies (ULONG_MAX, [])
  pos : ∀ id < c.blocks, ∃ leaf < 2 ^ (c.height - 1), v'.pos id = some leaf
  onPath : ∀ q ∈ requests, ∀ e ∈ q.2, Block.Real e →
    ∃ leaf, v'.pos e.1 = some leaf ∧ OnPath c.height q.1 leaf
  written : ∀ q ∈ requests, v'.tree q.1 = padded c.storage q.2
  other : ∀ b ∉ requests.map Prod.fst, v'.tree b = v.tree b
  stash' : v'.stash = v.stash
  cached' : v'.cached = v.cached
  touched' : v'.touched = v.touched ++ [.write (requests.map Prod.fst).toFinset]

/-- The store after every record was put. -/
def Store.ofRecords (records : List Block) : Store :=
  Op.applyAll (records.map fun record => .write record.1 record.2) Store.empty

theorem applyAll_writes {records : List Block} (hnodup : (records.map Prod.fst).Nodup)
    (kv : Store) (id : ℕ) (p : Bytes) :
    Op.applyAll (records.map fun record => .write record.1 record.2) kv id = some p ↔
      (id, p) ∈ records ∨ (id ∉ records.map Prod.fst ∧ kv id = some p) := by
  -- one write after the other; no ID occurs twice, so none is overwritten
  induction records generalizing kv with
  | nil => simp
  | cons record records ih =>
    rw [List.map_cons, List.nodup_cons] at hnodup
    rw [List.map_cons, Op.applyAll_cons, ih hnodup.2, Op.apply, List.map_cons, List.mem_cons,
      List.mem_cons]
    by_cases hid : id = record.1
    · subst hid
      have hrecord : (record.1, p) = record ↔ record.2 = p := by
        rw [Prod.ext_iff]
        exact ⟨fun h => h.2.symm, fun h => ⟨rfl, h.symm⟩⟩
      have hnot : (record.1, p) ∉ records := fun h =>
        hnodup.1 (List.mem_map.mpr ⟨_, h, rfl⟩)
      simp [hrecord, hnot, hnodup.1]
    -- this write leaves the ID alone
    · have hrecord : (id, p) ≠ record := fun h => hid (congrArg Prod.fst h)
      simp [hid, hrecord]

theorem Store.ofRecords_eq_some {records : List Block} (hnodup : (records.map Prod.fst).Nodup)
    {id : ℕ} {p : Bytes} : Store.ofRecords records id = some p ↔ (id, p) ∈ records := by
  rw [Store.ofRecords, applyAll_writes hnodup]
  simp [Store.empty]

section Loaded

variable {v v' : View} {records : List Block} {requests : List (ℕ × Bucket)}
  {coins : Stream' ℕ}

/-- The blocks of a request are records or padding. -/
theorem Loaded.mem_records (h : Loaded c records requests v v') {q : ℕ × Bucket}
    (hq : q ∈ requests) {e : Block} (he : e ∈ q.2) : e ∈ records ∨ e = (ULONG_MAX, []) := by
  obtain ⟨shuffled, dummies, hperm, -, hflatMap⟩ := h.records
  have hmem : e ∈ requests.flatMap Prod.snd := List.mem_flatMap.mpr ⟨q, hq, he⟩
  rw [hflatMap, List.mem_append] at hmem
  exact hmem.imp hperm.mem_iff.mp List.eq_of_mem_replicate

theorem Loaded.exists_request (h : Loaded c records requests v v') {record : Block}
    (hrecord : record ∈ records) : ∃ q ∈ requests, record ∈ q.2 := by
  obtain ⟨shuffled, dummies, hperm, -, hflatMap⟩ := h.records
  refine List.mem_flatMap.mp ?_
  rw [hflatMap]
  exact List.mem_append_left _ (hperm.mem_iff.mpr hrecord)

/-- Every block of the tree after a load was empty before, or belongs to a request. -/
theorem Loaded.mem_tree (h : Loaded c records requests v v') (hv : v.Fresh c coins) {b : ℕ}
    (hb : InTree c.height b) {e : Block} (he : e ∈ v'.tree b) :
    e = emptyBlock c.storage ∨ ∃ q ∈ requests, q.1 = b ∧
      ∃ e₀ ∈ q.2, e = (e₀.1, padTo c.storage.userBlockSize e₀.2) := by
  by_cases hmem : b ∈ requests.map Prod.fst
  · obtain ⟨q, hq, rfl⟩ := List.mem_map.mp hmem
    rw [h.written q hq, padded, List.mem_map] at he
    obtain ⟨e₀, he₀, rfl⟩ := he
    exact Or.inr ⟨q, hq, rfl, e₀, he₀, rfl⟩
  · rw [h.other b hmem] at he
    exact Or.inl (hv.dummy hb he)

/-- A block of the tree after a load that is not empty is one of the records. -/
theorem Loaded.mem_tree_real (h : Loaded c records requests v v') (hv : v.Fresh c coins)
    {b : ℕ} (hb : InTree c.height b) {e : Block} (he : e ∈ v'.tree b) (hreal : Block.Real e) :
    ∃ q ∈ requests, q.1 = b ∧ ∃ e₀ ∈ q.2, e₀ ∈ records ∧
      e = (e₀.1, padTo c.storage.userBlockSize e₀.2) := by
  rcases h.mem_tree hv hb he with rfl | ⟨q, hq, hqb, e₀, he₀, rfl⟩
  · exact absurd rfl hreal
  · rcases h.mem_records hq he₀ with hrecord | rfl
    · exact ⟨q, hq, hqb, e₀, he₀, hrecord, rfl⟩
    · exact absurd rfl hreal

theorem Loaded.within (h : Loaded c records requests v v') (hv : v.Fresh c coins)
    {P : ℕ → Prop} (hP : ∀ record ∈ records, P record.1) : v'.Within c P where
  tree b hb e he hreal := by
    obtain ⟨q, -, -, e₀, -, hrecord, rfl⟩ := h.mem_tree_real hv hb he hreal
    exact hP e₀ hrecord
  stash id hid := by
    rw [h.stash'] at hid
    exact absurd hid (hv.not_mem_stash id)

theorem Loaded.valid (h : Loaded c records requests v v') (hc : c.Valid) (hv : v.Fresh c coins)
    (hids : ∀ record ∈ records, record.1 < c.blocks)
    (hfits : ∀ record ∈ records, record.2.length ≤ c.dataSize) : v'.Valid c := by
  have hwithin : v'.Within c (· < c.blocks) := h.within hv hids
  refine ⟨h.pos, fun b hb => ?_, fun b hb e he _ => ?_, hwithin.tree, hwithin.stash, ?_⟩
  -- a bucket that was written has the blocks of its request, any other is as in the fresh tree
  · by_cases hmem : b ∈ requests.map Prod.fst
    · obtain ⟨q, hq, rfl⟩ := List.mem_map.mp hmem
      rw [h.written q hq, padded, List.length_map, h.length q hq]
    · rw [h.other b hmem, hv.tree b hb, List.length_replicate]
  -- dummies are padded from nothing, records from at most the block size
  · rcases h.mem_tree hv hb he with rfl | ⟨q, hq, -, e₀, he₀, rfl⟩
    · rw [← hc.dataSize_eq]
      exact (length_padTo (Nat.zero_le _)).le
    · have hlength : e₀.2.length ≤ c.storage.userBlockSize := by
        rw [hc.dataSize_eq]
        rcases h.mem_records hq he₀ with hrecord | rfl
        · exact hfits e₀ hrecord
        · exact Nat.zero_le _
      rw [← hc.dataSize_eq]
      exact (length_padTo hlength).le
  · rw [h.cached', hv.cached]
    exact fun b hb => absurd hb (Finset.notMem_empty b)

/-- **After a load the tree holds the records.** -/
theorem Loaded.tracks (h : Loaded c records requests v v') (hc : c.Valid)
    (hv : v.Fresh c coins) (hnodup : (records.map Prod.fst).Nodup)
    (hids : ∀ record ∈ records, record.1 < c.blocks)
    (hfits : ∀ record ∈ records, record.2.length ≤ c.dataSize) :
    v'.Tracks c (Store.ofRecords records) ∅ where
  onPath b hb e he hreal _ := by
    obtain ⟨q, hq, rfl, e₀, he₀, -, rfl⟩ := h.mem_tree_real hv hb he hreal
    exact h.onPath q hq e₀ he₀ hreal
  tree b hb e he hreal _ := by
    obtain ⟨q, -, -, e₀, -, hrecord, rfl⟩ := h.mem_tree_real hv hb he hreal
    refine ⟨e₀.2, (Store.ofRecords_eq_some hnodup).mpr hrecord,
      c.storage.userBlockSize - e₀.2.length, rfl, ?_⟩
    rw [← hc.dataSize_eq] at hfits ⊢
    rw [length_padTo (hfits e₀ hrecord)]
    exact le_max_left _ _
  stash id d hd _ := by
    rw [h.stash'] at hd
    exact absurd (mem_of_lookup hd) (hv.not_mem_stash id)
  present id p hkv _ := by
    have hrecord := (Store.ofRecords_eq_some hnodup).mp hkv
    -- every record is in some request, and its bucket is in the tree
    obtain ⟨q, hq, hmem⟩ := h.exists_request hrecord
    refine Or.inr ⟨q.1, h.inTree q hq, (id, padTo c.storage.userBlockSize p), ?_,
      hc.ne_ULONG_MAX (hids (id, p) hrecord), rfl⟩
    rw [h.written q hq]
    exact List.mem_map.mpr ⟨(id, p), hmem, rfl⟩

end Loaded

/-! ### The code of a load -/

namespace ORAM

section Code

variable {v : View} {coins : Stream' ℕ} {data : List Block}

/-- The number of buckets is enough for the records. -/
theorem le_bucketCount_mul (hZ : 0 < c.Z) (n : ℕ) : n ≤ (n + c.Z - 1) / c.Z * c.Z := by
  have := Nat.lt_div_mul_add (a := n + c.Z - 1) hZ
  omega

theorem bucketCount_le (hZ : 0 < c.Z) {n k : ℕ} (h : n ≤ k * c.Z) :
    (n + c.Z - 1) / c.Z ≤ k := by
  rw [← Nat.lt_succ_iff, Nat.div_lt_iff_lt_mul hZ, Nat.succ_mul]
  omega

/-- As many records as `count` buckets can hold, and no fewer, need `count` buckets. -/
theorem bucketCount_eq (hZ : 0 < c.Z) {n k : ℕ} (h : n ≤ (k + 1) * c.Z) (h' : k * c.Z < n) :
    (n + c.Z - 1) / c.Z = k + 1 := by
  refine le_antisymm (bucketCount_le hZ h) ?_
  rw [Nat.succ_le_iff, Nat.lt_iff_add_one_le, Nat.le_div_iff_mul_le hZ, Nat.succ_mul]
  omega

section Upload

variable {s₁ : ORAM M} {f : ℕ → Option ℕ} {bucketCount : ℕ} {shuffled : List Block}
  {l : LoadState}

/-- What is uploaded are the records, and dummies without payload. -/
theorem Filling.mem_requests (hl : Filling c bucketCount f shuffled l)
    (hperm : shuffled.Perm data) :
    ∀ q ∈ l.requests c bucketCount, ∀ e ∈ q.2, e ∈ data ∨ e = (ULONG_MAX, []) := by
  obtain ⟨dummies, -, hflatMap⟩ := hl.flatMap_requests
  intro q hq e he
  have hmem : e ∈ (l.requests c bucketCount).flatMap Prod.snd :=
    List.mem_flatMap.mpr ⟨q, hq, he⟩
  rw [hflatMap, List.mem_append] at hmem
  exact hmem.imp hperm.mem_iff.mp List.eq_of_mem_replicate

/-- **No request of a load is rejected.** -/
theorem Filling.not_rejects (hc : c.Valid) (hheight : c.height ≤ 30)
    (hl : Filling c bucketCount f shuffled l) (hperm : shuffled.Perm data)
    (hle : bucketCount < 2 ^ c.height) (hlen : shuffled.length ≤ bucketCount * c.Z)
    (hfits : ∀ record ∈ data, record.2.length ≤ c.dataSize) (e : Exception) :
    ¬Rejects c.storage (l.requests c bucketCount) e := by
  -- the three checks of the adapter: the location, the number of blocks, their sizes
  rintro ⟨q, hq, ⟨hcapacity, -⟩ | ⟨hZ, -⟩ | ⟨block, hblock, hlong, -⟩⟩
  · exact absurd (hc.lt_capacity (hl.inTree_requests hheight hle hlen q hq))
      (not_lt.mpr hcapacity)
  · exact absurd ((hl.length_requests q hq).trans hc.Z_eq.symm) hZ
  · rw [hc.dataSize_eq] at hlong
    obtain hdata | rfl := hl.mem_requests hperm q hq block hblock
    · exact absurd (hfits block hdata) (not_le.mpr hlong)
    · exact absurd hlong (Nat.not_lt_zero _)

/-- What the storage `storage'` left by the upload makes of a fresh ORAM. -/
theorem Filling.loaded (hheight : c.height ≤ 30) (hv : v.Fresh c coins) (hs : Shows c R v s)
    (hsame : SameStores s s₁) (hR : R f s₁.map) (hl : Filling c bucketCount f shuffled l)
    (hperm : shuffled.Perm data) (hle : bucketCount < 2 ^ c.height)
    (hlen : shuffled.length ≤ bucketCount * c.Z) {storage' : Storage} {r : Random}
    (hcalls : storage'.calls =
      s.storage.calls ++ [.set ((l.requests c bucketCount).map Prod.fst)])
    (hulongs : r.ulongs = s₁.random.ulongs)
    (hstored : Stored c.storage c.crypto (l.requests c bucketCount) s₁.storage storage') :
    ∃ v', Loaded c data (l.requests c bucketCount) v v' ∧
      Shows c R v' { s₁ with storage := storage', random := r } := by
  set requests := l.requests c bucketCount
  have hnodup : (requests.map Prod.fst).Nodup := hl.nodup_requests hheight hle hlen
  have hwritten := hstored.written hnodup
  -- outside the requests the storage is as it was
  have hother : ∀ b ∉ requests.map Prod.fst, storage'.blocks b = s.storage.blocks b :=
    fun b hb => by rw [hstored.other b hb, hsame.storage]
  have hcache : ∀ b, s₁.cache.lookup b = none := fun b => by
    rw [hsame.cache]
    refine AList.lookup_eq_none.mpr fun hb => ?_
    have hmem := (hs.cached b).mpr hb
    rw [hv.cached] at hmem
    exact Finset.notMem_empty b hmem
  obtain ⟨dummies, hdummies, hflatMap⟩ := hl.flatMap_requests
  refine ⟨⟨f, content c.storage c.crypto storage', v.stash, s₁.random.ulongs, v.cached,
    v.touched ++ [.write (requests.map Prod.fst).toFinset]⟩, ?_, ?_⟩
  · refine ⟨hnodup, hl.inTree_requests hheight hle hlen, hl.length_requests,
      ⟨shuffled, dummies, hperm, hdummies, hflatMap⟩, hl.pos, hl.onPath_requests,
      fun q hq => content_of_decodeBucket (hwritten q hq), fun b hb => ?_, rfl, rfl, rfl⟩
    rw [hs.tree b, ← hsame.cache, hcache b]
    exact content_congr (hother b hb)
  · refine ⟨hR, fun b => ?_, hs.stash.trans hsame.stash.symm, hulongs.symm, fun b => ?_, ?_,
      fun b hb => ?_⟩
    · show _ = (s₁.cache.lookup b).getD _
      rw [hcache b]
      rfl
    · rw [hs.cached b, ← hsame.cache]
    · show v.touched ++ _ = storage'.calls.map StorageCall.touch
      rw [hcalls, List.map_append, hs.touched]
      rfl
    · by_cases hmem : b ∈ requests.map Prod.fst
      · obtain ⟨q, hq, rfl⟩ := List.mem_map.mp hmem
        exact readable_of_decodeBucket (hwritten q hq)
      · exact (hs.readable b hb).congr (hother b hmem)

/-- The upload at the end of a load, for the leaves `f` that were drawn. -/
theorem loadUpload_spec (hc : c.Valid) (hheight : c.height ≤ 30) (hv : v.Fresh c coins)
    (hs : Shows c R v s) (hsame : SameStores s s₁) (hR : R f s₁.map)
    (hle : bucketCount < 2 ^ c.height) (hperm : shuffled.Perm data)
    (hlen : data.length ≤ bucketCount * c.Z) (hl : Filling c bucketCount f shuffled l)
    (hids : ∀ record ∈ data, record.1 < c.blocks)
    (hfits : ∀ record ∈ data, record.2.length ≤ c.dataSize) :
    wp (storageSet (AbsStorageAdapter.set c.storage c.crypto (l.requests c bucketCount))
        (fun _ s => s))
      (fun _ s' => ∃ requests v', Loaded c data requests v v' ∧ Shows c R v' s' ∧
        s'.storage.calls = s.storage.calls ++ [.set (requests.map Prod.fst)])
      (fun _ _ => False) s₁ := by
  have hlen' : shuffled.length ≤ bucketCount * c.Z := hperm.length_eq ▸ hlen
  -- every ID fits into 64 bits, that of a dummy included
  have hsmall : ∀ q ∈ l.requests c bucketCount, ∀ e ∈ q.2, e.1 < 2 ^ 64 := by
    intro q hq e he
    obtain hdata | rfl := hl.mem_requests hperm q hq e he
    · exact (hids e hdata).trans (hc.blocks_eq ▸ hc.blocks_lt)
    · decide
  obtain ⟨hcalls, hulongs, -, ⟨hok, hstored⟩ | ⟨e, -, -, hrejects⟩⟩ := set_spec (c := c.storage)
    hc.crypto_lawful (l.requests c bucketCount) hsmall s₁.storage s₁.random
  · refine wp_storageSet (fun _ => ?_) fun e he => absurd (hok.symm.trans he) (by simp)
    have hnoted := hcalls.trans (congrArg (·.calls ++ _) hsame.storage)
    obtain ⟨v', hloaded, hshows⟩ :=
      hl.loaded hheight hv hs hsame hR hperm hle hlen' hnoted hulongs hstored
    exact ⟨_, v', hloaded, hshows, hnoted⟩
  · exact absurd hrejects (hl.not_rejects hc hheight hperm hle hlen' hfits e)

end Upload

/-- **A load that leaves the last location free.** -/
theorem load_spec (hc : c.Valid) (hheight : c.height ≤ 30)
    (hpm : pm.Implements c.blocks bound R False) (hbound : 2 ^ (c.height - 1) ≤ bound)
    (hv : v.Fresh c coins) (hs : Shows c R v s) (hnodup : (data.map Prod.fst).Nodup)
    (hids : ∀ record ∈ data, record.1 < c.blocks)
    (hfits : ∀ record ∈ data, record.2.length ≤ c.dataSize)
    (hlen : data.length ≤ (2 ^ c.height - 1) * c.Z) :
    wp (load c pm data)
      (fun _ s' => ∃ requests v', Loaded c data requests v v' ∧ Shows c R v' s' ∧
        s'.storage.calls = s.storage.calls ++ [.set (requests.map Prod.fst)])
      (fun _ _ => False) s := by
  have hZ := hc.Z_pos
  have hpos := Nat.two_pow_pos c.height
  set bucketCount := (data.length + c.Z - 1) / c.Z with hbucketCount
  -- so no location is behind the tree
  have hcount : bucketCount < 2 ^ c.height := by
    have := bucketCount_le hZ hlen
    omega
  have henough : data.length ≤ bucketCount * c.Z := le_bucketCount_mul hZ _
  have hshift : intShl c.height = 2 ^ c.height := intShl_eq (by omega)
  unfold load
  simp only [hshift, ← hbucketCount]
  rw [if_neg (by omega)]
  refine wp_bind (wp_withRandom (wp_bind ?_))
  set shuffled := (Random.shuffle (data.length % 2 ^ 32) data s.random).1
  have hperm : shuffled.Perm data := Random.perm_shuffle _ _ _
  -- the loop over the shuffled records
  refine wp_mono (loadAll_spec hc hheight hpm hbound (f := v.pos) (by exact hs.pos)
    (hv.valid hc).pos hcount.le ((hperm.map _).nodup_iff.mpr hnodup)
    (fun record h => hids record (hperm.mem_iff.mp h)) (hperm.length_eq ▸ henough)
    (hperm.length_eq ▸ hlen)) ?_ fun _ _ h => h
  rintro l s₁ ⟨f, hl, hR, hsame⟩
  have hupload := loadUpload_spec hc hheight hv hs ⟨hsame.storage, hsame.stash, hsame.cache⟩
    hR hcount hperm henough hl hids hfits
  unfold LoadState.requests at hupload
  -- the last bucket is padded if there is one
  by_cases hbucket : l.bucket.length > 0
  · have hZ64 : c.Z < 2 ^ 63 := by
      have := hc.blocks_lt
      have : 2 ^ 1 * c.Z ≤ 2 ^ c.height * c.Z :=
        Nat.mul_le_mul_right _ (Nat.pow_le_pow_right (by norm_num) hc.height_pos)
      omega
    have hpad := padBucket_eq (c := c) hZ64 (c.Z + 1) 0 (by norm_num)
      hl.notFull.le (by omega)
    rw [if_pos hbucket] at hupload ⊢
    exact wp_bind (wp_liftExcept_ok hpad (wp_bind (wp_pure hupload)))
  · rw [if_neg hbucket] at hupload ⊢
    exact wp_bind (wp_pure hupload)

/-- **A load that needs the last location** fails, and never returns. -/
theorem load_fails (hc : c.Valid) (hheight : c.height ≤ 30)
    (hpm : pm.Implements c.blocks bound R False) (hbound : 2 ^ (c.height - 1) ≤ bound)
    (hv : v.Fresh c coins) (hs : Shows c R v s) (hnodup : (data.map Prod.fst).Nodup)
    (hids : ∀ record ∈ data, record.1 < c.blocks) (hle : data.length ≤ 2 ^ c.height * c.Z)
    (hlen : (2 ^ c.height - 1) * c.Z < data.length) :
    wp (load c pm data) (fun _ _ => False) (fun e _ => e = .outOfRangeShift (2 ^ 64 - 1)) s := by
  have hpos := Nat.two_pow_pos c.height
  -- as many buckets as the guard lets through
  have hcount : (data.length + c.Z - 1) / c.Z = 2 ^ c.height := by
    have hpred : 2 ^ c.height - 1 + 1 = 2 ^ c.height := by omega
    rw [bucketCount_eq hc.Z_pos (by rwa [hpred]) hlen, hpred]
  have hshift : intShl c.height = 2 ^ c.height := intShl_eq (by omega)
  unfold load
  simp only [hshift, hcount]
  rw [if_neg (lt_irrefl _)]
  refine wp_bind (wp_withRandom (wp_bind ?_))
  have hperm := Random.perm_shuffle (data.length % 2 ^ 32) data s.random
  -- the loop comes to the last bucket, whose location is behind the tree
  exact wp_mono (loadAll_fails hc hheight hpm hbound (f := v.pos) (by exact hs.pos)
    (hv.valid hc).pos ((hperm.map _).nodup_iff.mpr hnodup)
    (fun record h => hids record (hperm.mem_iff.mp h)) (by rwa [hperm.length_eq]))
    (fun _ _ h => h.elim) fun _ _ h => h

end Code

end ORAM

/-! ### What a load is for -/

/-- **A correct load** of `data` took the ORAM from `s` to `s'`. -/
structure ORAM.LoadedCorrectly (c : Config) (pm : AbsPositionMapAdapter M) (data : List Block)
    (s s' : ORAM M) : Prop where
  /-- One upload wrote buckets of `Z` entries to pairwise distinct nodes of the tree. They
  hold the records, followed by dummies in the last bucket, and every record lies on the
  path of the leaf that the position map returns for it. -/
  stored : ∃ requests : List (ℕ × Bucket),
    s'.storage.calls = s.storage.calls ++ [.set (requests.map Prod.fst)] ∧
    (requests.map Prod.fst).Nodup ∧
    (∃ shuffled dummies, shuffled.Perm data ∧ dummies < c.Z ∧
      requests.flatMap Prod.snd = shuffled ++ List.replicate dummies (ULONG_MAX, [])) ∧
    ∀ q ∈ requests, InTree c.height q.1 ∧ q.2.length = c.Z ∧
      content c.storage c.crypto s'.storage q.1 = padded c.storage q.2 ∧
      ∀ record ∈ q.2, Block.Real record → wp (pm.get record.1)
        (fun leaf _ => q.1 = ORAM.bucketForLevelLeaf c.height (Nat.log2 q.1) leaf)
        (fun _ _ => False) s'.map
  /-- Any later calls are judged by the store that holds the records. -/
  later : ∀ calls : List Call, (∀ call ∈ calls, call.Addressable c) →
    ∃ v, Judged (Call.Outcome c) (Store.ofRecords data, ∅) calls
      (runCatching (ORAM.exec c pm) calls s').1 v
  /-- When the stash has room for all IDs, any later calls are answered by that store. -/
  served : ∀ calls : List Call, (∀ call ∈ calls, call.Admissible c) →
    ((data.map Prod.fst).toFinset ∪ Call.puts calls).card ≤ c.stashCapacity →
    ∃ kv, Judged (Call.Serves c.dataSize) (Store.ofRecords data) calls
      (runCatching (ORAM.exec c pm) calls s').1 kv

/-- Every payload of the loaded store is one of the records. -/
theorem Store.bounded_ofRecords {data : List Block} (hnodup : (data.map Prod.fst).Nodup)
    {size : ℕ} (hfits : ∀ record ∈ data, record.2.length ≤ size) :
    (Store.ofRecords data).Bounded size :=
  fun id p hkv => hfits (id, p) ((Store.ofRecords_eq_some hnodup).mp hkv)

theorem Loaded.loadedCorrectly (hc : c.Valid) (hpm : pm.Implements c.blocks bound R False)
    (hbound : 2 ^ (c.height - 1) ≤ bound) {v v' : View} {coins : Stream' ℕ}
    (hv : v.Fresh c coins) {data : List Block} {requests : List (ℕ × Bucket)}
    (h : Loaded c data requests v v') {s s' : ORAM M} (hs' : Shows c R v' s')
    (hcalls : s'.storage.calls = s.storage.calls ++ [.set (requests.map Prod.fst)])
    (hnodup : (data.map Prod.fst).Nodup)
    (hids : ∀ record ∈ data, record.1 < c.blocks ∧ record.1 < 2 ^ 31)
    (hfits : ∀ record ∈ data, record.2.length ≤ c.dataSize) :
    ORAM.LoadedCorrectly c pm data s s' := by
  have hblocks : ∀ record ∈ data, record.1 < c.blocks := fun record hmem => (hids record hmem).1
  -- the loaded view holds the records as the store
  have hholds : v'.Holds c (Store.ofRecords data) ∅ :=
    ⟨h.valid hc hv hblocks hfits, h.within hv fun record hmem => (hids record hmem).2,
      h.tracks hc hv hnodup hblocks hfits⟩
  refine ⟨⟨requests, hcalls, h.nodup, h.records, fun q hq => ⟨h.inTree q hq, h.length q hq, ?_,
    fun record hrecord hreal => ?_⟩⟩, fun calls haddressable => ?_,
    fun calls hadmissible hstash => ?_⟩
  · -- nothing is cached
    have hcache : s'.cache.lookup q.1 = none := AList.lookup_eq_none.mpr fun hmem => by
      rw [← hs'.cached, h.cached', hv.cached] at hmem
      exact Finset.notMem_empty _ hmem
    have htree := hs'.tree q.1
    rw [hcache, h.written q hq] at htree
    exact htree.symm
  -- the position map names a leaf whose path goes through the bucket
  · obtain ⟨leaf, hpos, honPath⟩ := h.onPath q hq record hrecord hreal
    have hid : record.1 < c.blocks := by
      rcases h.mem_records hq hrecord with hmem | rfl
      · exact hblocks record hmem
      · exact absurd rfl hreal
    refine wp_mono (hpm.get_spec v'.pos s'.map record.1 hs'.pos hid) (fun l _ hl => ?_)
      fun _ _ h => h
    rw [hl.1 leaf hpos]
    exact eq_bucketForLevelLeaf hc (hholds.valid.leaf_lt hid hpos) honPath
  -- later calls: any run with outcomes, and an admissible run without exceptions
  · obtain ⟨v'', hjudged, -⟩ := ORAM.run_outcomes hc hpm hbound haddressable ⟨v', hs', hholds⟩
    exact ⟨v'', hjudged⟩
  · have hwithin : v'.Within c (· ∈ (data.map Prod.fst).toFinset ∪ Call.puts calls) :=
      h.within hv fun record hmem => Finset.mem_union_left _
        (List.mem_toFinset.mpr (List.mem_map_of_mem hmem))
    obtain ⟨kv, hjudged, -⟩ := ORAM.run_admissible hc hpm hbound hstash hadmissible
      Finset.subset_union_right
      ⟨v', hs', hholds, hwithin, Store.bounded_ofRecords hnodup hfits⟩
    exact ⟨kv, hjudged⟩

/-- Records with pairwise distinct IDs in range are never too much data. -/
theorem length_le_of_nodup {data : List Block} {n : ℕ} (hnodup : (data.map Prod.fst).Nodup)
    (hids : ∀ record ∈ data, record.1 < n) : data.length ≤ n := by
  have hsub : (data.map Prod.fst).toFinset ⊆ Finset.range n := fun id hid => by
    obtain ⟨record, hrecord, rfl⟩ := List.mem_map.mp (List.mem_toFinset.mp hid)
    exact Finset.mem_range.mpr (hids record hrecord)
  calc data.length = (data.map Prod.fst).length := by rw [List.length_map]
    _ = (data.map Prod.fst).toFinset.card := (List.toFinset_card_of_nodup hnodup).symm
    _ ≤ (Finset.range n).card := Finset.card_le_card hsub
    _ = n := Finset.card_range n

namespace ORAM

/-- A load that returns has left the last location free. -/
theorem le_of_load (hc : c.Valid) (hheight : c.height ≤ 30)
    (hpm : pm.Implements c.blocks bound R False) (hbound : 2 ^ (c.height - 1) ≤ bound)
    (hv : v.Fresh c coins) {s s' : ORAM M} (hs : Shows c R v s) {data : List Block}
    (hnodup : (data.map Prod.fst).Nodup) (hids : ∀ record ∈ data, record.1 < c.blocks)
    (hload : load c pm data s = .ok () s') : data.length ≤ (2 ^ c.height - 1) * c.Z := by
  by_contra hlen
  have hle : data.length ≤ 2 ^ c.height * c.Z := hc.blocks_eq ▸ length_le_of_nodup hnodup hids
  exact (load_fails hc hheight hpm hbound hv hs hnodup hids hle (not_le.mp hlen)).ok hload

/-- **A bulk load is correct exactly if it leaves the last location free.** `s₁` is a freshly
initialised ORAM, over a position map of any depth; its random source is arbitrary. The guard of
the source lets one bucket more through: with `2 ^ height` buckets the last one is put behind the
tree, where the shift for its leaves is out of range. -/
theorem load_correct_iff (hc : c.Valid) (hheight : c.height ≤ 30) (cs : List Config)
    (hserves : MapState.Serves cs c.blocks) (hstashes : ¬MapState.MayOverflow cs c.blocks)
    {s₀ s₁ : ORAM (MapState cs)} (hmap : MapState.Fresh cs c.blocks s₀.map)
    (hstash : s₀.stash = ∅) (hcache : s₀.cache = ∅)
    (hnew : new c (mapAdapter cs) true s₀ = .ok () s₁) {data : List Block}
    (hnodup : (data.map Prod.fst).Nodup)
    (hids : ∀ record ∈ data, record.1 < c.blocks ∧ record.1 < 2 ^ 31)
    (hfits : ∀ record ∈ data, record.2.length ≤ c.dataSize) :
    (∃ s₂, load c (mapAdapter cs) data s₁ = .ok () s₂ ∧
        LoadedCorrectly c (mapAdapter cs) data s₁ s₂) ↔
      data.length ≤ (2 ^ c.height - 1) * c.Z := by
  obtain ⟨f, hf⟩ := MapState.exists_holds hserves hmap
  have hpm := MapState.mapAdapter_implements hserves
  rw [eq_false hstashes] at hpm
  have hbound := MapState.two_pow_height_le hc
  obtain ⟨v, hv, hs⟩ := (new_spec hc hpm hbound hf hstash hcache).ok hnew
  have hblocks : ∀ record ∈ data, record.1 < c.blocks := fun record hmem => (hids record hmem).1
  constructor
  -- more records make the load throw
  · rintro ⟨s₂, hload, -⟩
    exact le_of_load hc hheight hpm hbound hv hs hnodup hblocks hload
  · intro hlen
    obtain ⟨_, s₂, hload, requests, v', hloaded, hs₂, hcalls⟩ :=
      (load_spec hc hheight hpm hbound hv hs hnodup hblocks hfits hlen).exists_ok
    exact ⟨s₂, hload, hloaded.loadedCorrectly hc hpm hbound hv hs₂ hcalls hnodup hids hfits⟩

theorem load_correct_iff_tiny :
    (∃ s₂, load (Config.tiny 2 4) (mapAdapter []) [(0, [7]), (3, [9]), (1, [8])]
          (ORAM.tiny 2 4 (Random.ofLeaves (Stream'.const 0))) = .ok () s₂ ∧
        LoadedCorrectly (Config.tiny 2 4) (mapAdapter []) [(0, [7]), (3, [9]), (1, [8])]
          (ORAM.tiny 2 4 (Random.ofLeaves (Stream'.const 0))) s₂) ↔
      3 ≤ (2 ^ 2 - 1) * 1 := by
  exact load_correct_iff (Config.tiny_valid (by norm_num) (by norm_num) 4) (by decide) []
    trivial not_false (by exact (by decide : 4 ≤ 8)) rfl rfl
    (new_tiny (by norm_num) (by norm_num) 4 _) (by decide) (by decide) (by decide)

/-- Two records for a tree of one bucket: two buckets pass the check for too much data, and
the second is to go to location 2, just behind the tree. -/
theorem load_shifts_out_of_range :
    ¬∃ s₂, load (Config.tiny 1 2) (mapAdapter []) [(0, [7]), (1, [9])]
        (ORAM.tiny 1 2 (Random.ofLeaves (Stream'.const 0))) = .ok () s₂ := by
  rintro ⟨s₂, h⟩
  have herror : (match load (Config.tiny 1 2) (mapAdapter []) [(0, [7]), (1, [9])]
      (ORAM.tiny 1 2 (Random.ofLeaves (Stream'.const 0))) with
    | .ok _ _ => false
    | .error e _ => e == .outOfRangeShift (2 ^ 64 - 1)) = true := by
    decide +kernel
  rw [h] at herror
  exact absurd herror Bool.false_ne_true

end ORAM

end PathORAM
