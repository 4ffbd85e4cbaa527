import PathOram.Recursion

/-!
# The work of the inner ORAM

When the position map of an ORAM is kept in another ORAM, every `get` and `set` of the
position map is a `get` or `put` of the inner ORAM. An access sets one leaf, the new one of
its ID. It gets the old leaf of its ID, and then one leaf for each stash entry and level
that `writePath` examines.

* `keeps_access`, `keeps_syncCache` — the parts of the state that the pieces of a call leave
  alone.
* `evictLevels_work`, `access_work` — how often the position map is used.
* `inner_work` — along any run, every `get` or `put` of the outer ORAM makes exactly one
  `put` on the inner one. How many `get`s it makes depends on the stash; their number is
  bounded by the IDs that were put so far.
-/

namespace PathORAM

open Hoare HeapTree AbsStorageAdapter

namespace ORAM

variable {c : Config} {M κ : Type} {pm : AbsPositionMapAdapter M} {n bound : ℕ}
  {R : (ℕ → Option ℕ) → M → Prop} {s : ORAM M}

/-! ### What the pieces of a call leave alone -/

section Frames

variable {g : ORAM M → κ}

/-- `g` does not look at what a call works on, except for the position map. -/
def IgnoresStores (g : ORAM M → κ) : Prop :=
  ∀ s storage stash cache random,
    g { s with storage := storage, stash := stash, cache := cache, random := random } = g s

/-- `g` does not look at what a call works on in memory. -/
def IgnoresMemory (g : ORAM M → κ) : Prop :=
  ∀ s stash cache random, g { s with stash := stash, cache := cache, random := random } = g s

theorem IgnoresStores.memory (hg : IgnoresStores g) : IgnoresMemory g :=
  fun s => hg s s.storage

/-- `g` does not look at the position map. -/
def IgnoresMap (g : ORAM M → κ) : Prop := ∀ s map, g { s with map := map } = g s

theorem keeps_withRandom (hg : IgnoresMemory g) {α : Type} (f : Random → α × Random) :
    Keeps g (withRandom f) :=
  keeps_modifyGet fun s => hg s s.stash s.cache _

theorem keeps_storageSet (hg : IgnoresStores g) {put : List (ℕ × Bucket) → ORAM M → ORAM M}
    (hput : ∀ requests s, g (put requests s) = g s) (f : Storage → Random → SetResult) :
    Keeps g (storageSet f put) := by
  intro s
  refine wp_storageSet (fun _ => ?_) fun _ _ => ?_
  all_goals
    rw [hput]
    exact hg s _ s.stash s.cache _

theorem keeps_syncCache (hg : IgnoresStores g) : Keeps g (syncCache c : OramM M Unit) := by
  unfold syncCache
  refine keeps_bind keeps_get fun s =>
    keeps_bind (keeps_withRandom hg.memory _) fun entries => ?_
  refine keeps_bind (keeps_storageSet hg (fun range s => ?_) _) fun _ => keeps_modify fun s => ?_
  · exact hg s s.storage s.stash _ s.random
  · exact hg s s.storage s.stash _ s.random

theorem keeps_getCache (hg : IgnoresStores g) (locations : List ℕ) (response : List Block)
    (dryRun : Bool) : Keeps g (getCache c locations response dryRun : OramM M _) := by
  unfold getCache
  -- the buckets are visited in some order, which is random
  refine keeps_bind (keeps_withRandom hg.memory _) fun visited => keeps_bind keeps_get fun s => ?_
  generalize lookupCache s.cache dryRun visited [] response = found
  obtain ⟨toGet, response⟩ := found
  show Keeps g (if toGet.length > 0 then _ else _)
  split
  -- a download goes to the storage and the cache, of which `g` is ignorant
  · refine keeps_bind (keeps_zoom (fun t s => hg s t s.stash s.cache s.random) _)
      fun downloaded => ?_
    exact keeps_bind (keeps_modify fun s => hg s s.storage s.stash _ s.random)
      fun _ => keeps_pure _
  · exact keeps_pure _

theorem keeps_addToStash (hg : IgnoresMemory g) (blocks : List Block) :
    Keeps g (addToStash c blocks : OramM M Unit) := by
  -- one block at a time; a dummy is not inserted
  induction blocks with
  | nil => exact keeps_pure _
  | cons block rest ih =>
    rw [addToStash]
    have hadd : Keeps g (zoom stashLens
        (InMemoryStashAdapter.add c.stashCapacity block.1 block.2) : OramM M Unit) :=
      keeps_zoom (fun t s => hg s t s.cache s.random) _
    by_cases hreal : block.1 ≠ ULONG_MAX
    · rw [if_pos hreal]
      exact keeps_bind hadd fun _ => ih
    · rw [if_neg hreal]
      exact ih

theorem keeps_readPath (hg : IgnoresStores g) (leaf : ℕ) (path : List ℕ) (putInStash : Bool) :
    Keeps g (readPath c leaf path putInStash : OramM M _) := by
  unfold readPath
  cases putInStash with
  | true =>
    exact keeps_bind (keeps_getCache hg _ _ _) fun blocks =>
      keeps_bind (keeps_addToStash hg.memory blocks) fun _ => keeps_pure _
  | false => exact keeps_pure _

theorem keeps_fillBucket (hg : IgnoresMemory g) (size : ℕ) (toInsert : List Block) :
    Keeps g (fillBucket c size toInsert : OramM M Bucket) := by
  induction size generalizing toInsert with
  | zero => exact keeps_pure _
  | succ size ih =>
    rw [fillBucket]
    split
    · exact keeps_bind (ih _) fun _ => keeps_pure _
    · exact keeps_bind (keeps_withRandom hg _) fun _ => keeps_bind (ih _) fun _ => keeps_pure _

theorem keeps_selectBlocks (hm : IgnoresMap g) (leaf level : ℕ) (l : List Block) (i : ℕ)
    (sel : Selection) : Keeps g (selectBlocks c pm leaf level l i sel) := by
  -- only the position map is asked
  induction l generalizing i sel with
  | nil => exact keeps_pure _
  | cons entry rest ih =>
    rw [selectBlocks]
    refine keeps_bind (keeps_zoom (fun t s => hm s t) _) fun entryLeaf => ?_
    split
    · dsimp only
      split
      · exact keeps_pure _
      · exact ih _ _
    · exact ih _ _

theorem keeps_evictLevels (hg : IgnoresMemory g) (hm : IgnoresMap g) (leaf levels : ℕ)
    (l : List Block) (toDelete : List (BitVec 32)) (requests : List (ℕ × Bucket)) :
    Keeps g (evictLevels c pm leaf levels l toDelete requests) := by
  induction levels generalizing l toDelete requests with
  | zero => exact keeps_pure _
  | succ level ih =>
    rw [evictLevels]
    exact keeps_bind (keeps_selectBlocks hm _ _ _ _ _) fun sel =>
      keeps_bind (keeps_fillBucket hg _ _) fun bucket => ih _ _ _

theorem keeps_writePath (hg : IgnoresMemory g) (hm : IgnoresMap g) (leaf : ℕ) :
    Keeps g (writePath c pm leaf) := by
  unfold writePath
  refine keeps_bind keeps_get fun s => keeps_bind (keeps_withRandom hg _) fun l =>
    keeps_bind (keeps_evictLevels hg hm _ _ _ _ _) fun result => ?_
  exact keeps_bind (keeps_modify fun s => hg s s.stash _ s.random) fun _ =>
    keeps_modify fun s => hg s _ s.cache s.random

/-- **An access** leaves alone whatever is neither a store, the position map nor the random
source. -/
theorem keeps_access (hg : IgnoresStores g) (hm : IgnoresMap g) (read : Bool) (block : ℕ)
    (data response : Bytes) : Keeps g (access c pm read block data response) := by
  unfold access
  refine keeps_bind (keeps_zoom (fun t s => hm s t) _) fun previousPosition =>
    keeps_bind (keeps_withRandom hg.memory _) fun leaf =>
      keeps_bind (keeps_zoom (fun t s => hm s t) _) fun _ =>
        keeps_bind (keeps_readPath hg _ _ _) fun _ => ?_
  -- what `read` and `write` have in common
  have hwrite : Keeps g (do
      let s ← get
      let response := InMemoryStashAdapter.get s.stash block response
      writePath c pm previousPosition
      return response) :=
    keeps_bind keeps_get fun s => keeps_bind (keeps_writePath hg.memory hm _) fun _ => keeps_pure _
  cases read with
  | true => exact hwrite
  | false =>
    exact keeps_bind (keeps_zoom (fun t s => hg s s.storage t s.cache s.random) _) fun _ => hwrite

end Frames

/-! ### How often the position map is used -/

/-- `gets` and `puts` count the operations on the position map that return. -/
structure Counts (pm : AbsPositionMapAdapter M) (gets puts : M → ℕ) : Prop where
  get_spec : ∀ block m, wp (pm.get block)
    (fun _ m' => gets m' = gets m + 1 ∧ puts m' = puts m) (fun _ _ => True) m
  set_spec : ∀ block leaf m, wp (pm.set block leaf)
    (fun _ m' => gets m' = gets m ∧ puts m' = puts m + 1) (fun _ _ => True) m

variable {gets puts : M → ℕ}

/-- Between `m` and `m'` the position map was read at most `count` times and not
written. -/
structure Consults (gets puts : M → ℕ) (count : ℕ) (m m' : M) : Prop where
  le : gets m ≤ gets m'
  le_add : gets m' ≤ gets m + count
  puts_eq : puts m' = puts m

theorem Consults.refl (count : ℕ) (m : M) : Consults gets puts count m m :=
  ⟨le_rfl, Nat.le_add_right _ _, rfl⟩

theorem Consults.trans {count count' : ℕ} {m m₁ m' : M} (h : Consults gets puts count m m₁)
    (h' : Consults gets puts count' m₁ m') : Consults gets puts (count + count') m m' where
  le := h.le.trans h'.le
  le_add := by
    calc gets m' ≤ gets m₁ + count' := h'.le_add
      _ ≤ gets m + count + count' := Nat.add_le_add_right h.le_add _
      _ = gets m + (count + count') := Nat.add_assoc _ _ _
  puts_eq := h'.puts_eq.trans h.puts_eq

theorem Consults.mono {count count' : ℕ} {m m' : M} (h : Consults gets puts count m m')
    (hle : count ≤ count') : Consults gets puts count' m m' :=
  ⟨h.le, h.le_add.trans (Nat.add_le_add_left hle _), h.puts_eq⟩

/-- A `get` of the position map, with its effect on the counters. -/
theorem wp_mapGet_counted (hpm : pm.Implements n bound R False) (hcounts : Counts pm gets puts)
    {f : ℕ → Option ℕ} (hR : R f s.map) {block : ℕ} (hblock : block < n)
    {Q : ℕ → ORAM M → Prop} {E : Exception → ORAM M → Prop}
    (hQ : ∀ leaf m, (∀ l, f block = some l → leaf = l) → R f m →
      gets m = gets s.map + 1 → puts m = puts s.map → Q leaf { s with map := m }) :
    wp (zoom mapLens (pm.get block)) Q E s := by
  refine wp_zoom (wp_mono (wp_and (hpm.get_spec f s.map block hR hblock)
    (hcounts.get_spec block s.map)) ?_ fun _ _ h => h.1.elim)
  rintro leaf m ⟨⟨hleaf, hR'⟩, hgets, hputs⟩
  exact hQ leaf m hleaf hR' hgets hputs

/-- A `set` of the position map, with its effect on the counters. -/
theorem wp_mapSet_counted (hpm : pm.Implements n bound R False) (hcounts : Counts pm gets puts)
    {f : ℕ → Option ℕ} (hR : R f s.map) {block leaf : ℕ} (hblock : block < n)
    (hleaf : leaf < bound) {Q : Unit → ORAM M → Prop} {E : Exception → ORAM M → Prop}
    (hQ : ∀ m, R (Function.update f block (some leaf)) m → gets m = gets s.map →
      puts m = puts s.map + 1 → Q () { s with map := m }) :
    wp (zoom mapLens (pm.set block leaf)) Q E s := by
  refine wp_zoom (wp_mono (wp_and (hpm.set_spec f s.map block leaf hR hblock hleaf)
    (hcounts.set_spec block leaf s.map)) ?_ fun _ _ h => h.1.elim)
  rintro _ m ⟨hR', hgets, hputs⟩
  exact hQ m hR' hgets hputs

/-- **The loop over the stash** reads at most one leaf for each entry. -/
theorem selectBlocks_work (hpm : pm.Implements n bound R False)
    (hcounts : Counts pm gets puts) {f : ℕ → Option ℕ} {leaf level : ℕ} {l : List Block}
    (hl : ∀ e ∈ l, e.1 < n) {i : ℕ} {sel : Selection} (hR : R f s.map) :
    wp (selectBlocks c pm leaf level l i sel)
      (fun _ s' => R f s'.map ∧ Consults gets puts l.length s.map s'.map) (fun _ _ => False) s := by
  -- each entry of the stash costs one `get` on the inner ORAM at most
  induction l generalizing i sel s with
  | nil => exact wp_pure ⟨hR, .refl 0 s.map⟩
  | cons entry rest ih =>
    rw [selectBlocks, List.length_cons, Nat.add_comm rest.length 1]
    refine wp_bind (wp_mapGet_counted hpm hcounts hR (hl entry List.mem_cons_self) ?_)
    intro entryLeaf m _ hR' hgets hputs
    have hread : Consults gets puts 1 s.map m := ⟨by omega, by omega, hputs⟩
    have hmore : ∀ i sel, wp (selectBlocks c pm leaf level rest i sel)
        (fun _ s' => R f s'.map ∧ Consults gets puts (1 + rest.length) s.map s'.map)
        (fun _ _ => False) { s with map := m } := fun i sel =>
      wp_mono (ih (s := { s with map := m }) (fun e he => hl e (List.mem_cons_of_mem _ he)) hR')
        (fun _ _ h => ⟨h.1, hread.trans h.2⟩) fun _ _ h => h
    split
    · dsimp only
      split
      · -- the bucket is full: the rest of the stash is not looked at
        exact wp_pure ⟨hR', hread.mono (Nat.le_add_right _ _)⟩
      · exact hmore _ _
    · exact hmore _ _

/-- What is left of the stash after a bucket was filled. -/
theorem foldl_eraseIdx_sublist (indices : List ℕ) (l : List Block) :
    (indices.foldl List.eraseIdx l).Sublist l := by
  induction indices generalizing l with
  | nil => exact List.Sublist.refl l
  | cons i indices ih => exact (ih (l.eraseIdx i)).trans (List.eraseIdx_sublist l i)

/-- **The loop over the levels** reads at most one leaf for each entry and level. -/
theorem evictLevels_work (hpm : pm.Implements n bound R False)
    (hcounts : Counts pm gets puts) {f : ℕ → Option ℕ} {leaf levels : ℕ} {l : List Block}
    (hl : ∀ e ∈ l, e.1 < n) {toDelete : List (BitVec 32)} {requests : List (ℕ × Bucket)}
    (hR : R f s.map) :
    wp (evictLevels c pm leaf levels l toDelete requests)
      (fun _ s' => Consults gets puts (levels * l.length) s.map s'.map)
      (fun _ s' => Consults gets puts (levels * l.length) s.map s'.map) s := by
  -- level by level, over the entries that are still there
  induction levels generalizing l toDelete requests s with
  | zero => exact wp_pure (.refl _ s.map)
  | succ level ih =>
    rw [evictLevels]
    refine wp_bind (wp_mono (selectBlocks_work hpm hcounts hl hR) ?_ fun _ _ h => h.elim)
    rintro sel s₁ ⟨hR₁, hreads⟩
    have hsub := foldl_eraseIdx_sublist (sel.toDeleteLocal.mergeSort (· ≥ ·)) l
    -- filling up a bucket with dummies does not ask the position map
    have hfill : Keeps ORAM.map (fillBucket c c.Z sel.toInsert : OramM M Bucket) :=
      keeps_fillBucket (fun _ _ _ _ => rfl) _ _
    rw [Nat.succ_mul, Nat.add_comm]
    -- what the levels above it cost is added to what this one has cost
    have hmore : ∀ s₂ s' : ORAM M, s₂.map = s₁.map →
        Consults gets puts (level * _) s₂.map s'.map →
        Consults gets puts (l.length + level * l.length) s.map s'.map := fun s₂ s' hmap h =>
      hreads.trans ((hmap ▸ h).mono (Nat.mul_le_mul_left _ hsub.length_le))
    refine wp_bind (wp_mono (hfill s₁) (fun bucket s₂ hmap => ?_) fun e s' hmap => ?_)
    · exact wp_mono (ih (fun e he => hl e (hsub.subset he)) (by rwa [hmap]))
        (fun _ s' h => hmore s₂ s' hmap h) fun _ s' h => hmore s₂ s' hmap h
    · exact hmore s' s' hmap (.refl _ _)

/-- **Writing a path** reads at most one leaf for each entry of the stash and level. -/
theorem writePath_work (hpm : pm.Implements n bound R False) (hcounts : Counts pm gets puts)
    {f : ℕ → Option ℕ} (hR : R f s.map) (hstash : ∀ id ∈ s.stash, id < n) (leaf : ℕ) :
    wp (writePath c pm leaf)
      (fun _ s' => Consults gets puts (c.height * s.stash.keys.length) s.map s'.map)
      (fun _ s' => Consults gets puts (c.height * s.stash.keys.length) s.map s'.map) s := by
  unfold writePath
  refine wp_bind (wp_get (wp_bind (wp_withRandom ?_)))
  set l := (InMemoryStashAdapter.getAll s.stash [] s.random).1
  -- the dump has the entries of the stash, in a random order
  have hl : l.Perm s.stash.toList := InMemoryStashAdapter.perm_getAll s.stash s.random
  have hlength : l.length = s.stash.keys.length := by
    rw [hl.length_eq, ← UnorderedMap.keys_toList, List.length_map]
  have hids : ∀ e ∈ l, e.1 < n := fun e he =>
    hstash e.1 (mem_of_lookup (UnorderedMap.mem_toList.mp (hl.subset he)))
  rw [← hlength]
  refine wp_bind (wp_mono (evictLevels_work hpm hcounts hids (by exact hR)) ?_ fun _ _ h => h)
  rintro ⟨requests, toDelete⟩ s₁ hreads
  exact wp_bind (wp_modify (wp_modify hreads))

/-- Between `m` and `m'` the position map was written once, and read once and at most
`count` times more. -/
structure Spends (gets puts : M → ℕ) (count : ℕ) (m m' : M) : Prop where
  lt : gets m < gets m'
  le_add : gets m' ≤ gets m + 1 + count
  puts_eq : puts m' = puts m + 1

theorem Spends.append {count : ℕ} {m m₁ m' : M} (h : Spends gets puts 0 m m₁)
    (h' : Consults gets puts count m₁ m') : Spends gets puts count m m' where
  lt := h.lt.trans_le h'.le
  le_add := h'.le_add.trans (Nat.add_le_add_right h.le_add _)
  puts_eq := h'.puts_eq.trans h.puts_eq

theorem card_keys_le {S : Finset ℕ} {stash : InMemoryStashAdapter} (h : ∀ id ∈ stash, id ∈ S) :
    stash.keys.length ≤ S.card := by
  rw [← List.toFinset_card_of_nodup stash.keys_nodup]
  exact Finset.card_le_card fun id hid => h id (List.mem_toFinset.mp hid)

/-- **An access** writes one leaf, and reads one leaf and those that `writePath` examines.
`S` holds every ID that has a block. -/
theorem access_work (hc : c.Valid) (hpm : pm.Implements c.blocks bound R False)
    (hcounts : Counts pm gets puts) (hbound : 2 ^ (c.height - 1) ≤ bound) {v : View}
    (hv : v.Valid c) {S : Finset ℕ} (hw : v.Within c (· ∈ S)) (hs : Shows c R v s)
    (read : Bool) {block : ℕ} (hblock : block < c.blocks) (hS : read = false → block ∈ S)
    (data response : Bytes) :
    wp (access c pm read block data response)
      (fun _ s' => Spends gets puts (c.height * S.card) s.map s'.map)
      (fun _ s' => Spends gets puts (c.height * S.card) s.map s'.map) s := by
  obtain ⟨leaf, hleaf, hpos⟩ := hv.pos block hblock
  unfold access
  refine wp_bind (wp_mapGet_counted hpm hcounts hs.pos hblock ?_)
  intro l m hl hR hgets hputs
  obtain rfl : l = leaf := hl leaf hpos
  refine wp_bind (wp_withRandom ?_)
  have hdraw : (Random.getRandomULong (intShl (c.height - 1)) s.random).1 < bound := by
    rw [hc.intShl_height]
    exact (Nat.mod_lt _ (Nat.two_pow_pos _)).trans_le hbound
  refine wp_bind (wp_mapSet_counted hpm hcounts (by exact hR) hblock hdraw ?_)
  intro m₁ hR₁ hgets₁ hputs₁
  have hgets₁ : gets m₁ = gets m := hgets₁
  have hputs₁ : puts m₁ = puts m + 1 := hputs₁
  have hspent : Spends gets puts 0 s.map m₁ := ⟨by omega, by omega, by omega⟩
  -- the position map is not used again before the path is written
  have hs₁ : Shows c (fun f m => R f m ∧ m = m₁)
      { v with
        pos := Function.update v.pos block
          (some (Random.getRandomULong (intShl (c.height - 1)) s.random).1)
        coins := v.coins.tail }
      { s with
        map := m₁
        random := (Random.getRandomULong (intShl (c.height - 1)) s.random).2 } :=
    ⟨⟨hR₁, rfl⟩, hs.tree, hs.stash, congrArg Stream'.tail hs.coins, hs.cached, hs.touched,
      hs.readable⟩
  refine wp_bind (readPath_spec hc hs₁ hleaf ?_ ?_)
  · intro _ stash s₂ hs₂ habsorbs
    have habsorbed : ∀ id ∈ s₂.stash, id < c.blocks ∧ id ∈ S := by
      rw [← hs₂.stash]
      intro id hid
      have habsorbs : Absorbs c v l stash := ⟨habsorbs.keep, habsorbs.source⟩
      exact ⟨hv.within.absorbs hleaf habsorbs id hid, hw.absorbs hleaf habsorbs id hid⟩
    have hwrite : ∀ s₃ : ORAM M, s₃.map = s₂.map → (∀ id ∈ s₃.stash, id < c.blocks ∧ id ∈ S) →
        wp (writePath c pm l >>= fun _ =>
            pure (InMemoryStashAdapter.get s₃.stash block response))
          (fun _ s' => Spends gets puts (c.height * S.card) s.map s'.map)
          (fun _ s' => Spends gets puts (c.height * S.card) s.map s'.map) s₃ := by
      intro s₃ hmap hstash
      have hm₁ : s₃.map = m₁ := hmap.trans hs₂.pos.2
      have hspends : ∀ s' : ORAM M,
          Consults gets puts (c.height * s₃.stash.keys.length) s₃.map s'.map →
          Spends gets puts (c.height * S.card) s.map s'.map := fun s' h =>
        hspent.append ((hm₁ ▸ h).mono
          (Nat.mul_le_mul_left _ (card_keys_le fun id hid => (hstash id hid).2)))
      exact wp_bind (wp_mono (writePath_work hpm hcounts (by rw [hm₁]; exact hR₁)
        (fun id hid => (hstash id hid).1) l) (fun _ s' h => wp_pure (hspends s' h))
        fun _ s' h => hspends s' h)
    cases read with
    | true => exact wp_bind (wp_get (hwrite s₂ rfl habsorbed))
    | false =>
      refine wp_bind (wp_zoom (InMemoryStashAdapter.wp_update ?_ fun _ _ => ?_))
      · refine wp_bind (wp_get (hwrite _ rfl fun id hid => ?_))
        rcases (AList.mem_insert _).mp hid with rfl | hid
        · exact ⟨hblock, hS rfl⟩
        · exact habsorbed id hid
      · show Spends gets puts (c.height * S.card) s.map s₂.map
        rw [hs₂.pos.2]
        exact hspent.append (.refl _ _)
  · intro stash s₂ hs₂ _ _ _
    show Spends gets puts (c.height * S.card) s.map s₂.map
    rw [hs₂.pos.2]
    exact hspent.append (.refl _ _)

/-! ### Calls -/

/-- The ghost counters. -/
def counters (s : ORAM M) : ℕ × ℕ := (s.gets, s.puts)

/-- **The operations on a position map in an ORAM** are calls to that ORAM. -/
theorem counts_adapter (c : Config) (pm : AbsPositionMapAdapter M) :
    Counts (ORAMPositionMapAdapter.adapter c pm) (ORAM.gets : ORAM M → ℕ) ORAM.puts where
  -- the counter is the first thing that is changed; the access and the upload leave it
  get_spec block s := by
    have haccess : Keeps counters (access c pm true block [] []) :=
      keeps_access (fun _ _ _ _ _ => rfl) (fun _ _ => rfl) _ _ _ _
    have hsync : Keeps counters (syncCache c : OramM M Unit) :=
      keeps_syncCache fun _ _ _ _ _ => rfl
    refine wp_bind (wp_bind (wp_modify (wp_bind (wp_mono (haccess _) ?_ fun _ _ _ => trivial))))
    intro response s₁ h₁
    refine wp_bind (wp_mono (hsync s₁) ?_ fun _ _ _ => trivial)
    intro _ s₂ h₂
    exact wp_pure (wp_bind (wp_withRandom (wp_pure (Prod.mk.inj (h₂.trans h₁)))))
  set_spec block leaf s := by
    have haccess : Keeps counters
        (access c pm false block (ORAMPositionMapAdapter.leafBytes leaf) []) :=
      keeps_access (fun _ _ _ _ _ => rfl) (fun _ _ => rfl) _ _ _ _
    have hsync : Keeps counters (syncCache c : OramM M Unit) :=
      keeps_syncCache fun _ _ _ _ _ => rfl
    refine wp_bind (wp_modify (wp_bind (wp_mono (haccess _) ?_ fun _ _ _ => trivial)))
    intro response s₁ h₁
    refine wp_mono (hsync s₁) (fun _ s₂ h₂ => ?_) fun _ _ _ => trivial
    exact Prod.mk.inj (h₂.trans h₁)

variable {S : Finset ℕ} {call : Call}

/-- Between two calls the state shows a valid view; every ID with a block is in `S`. -/
def Ready (c : Config) (R : (ℕ → Option ℕ) → M → Prop) (S : Finset ℕ) (s : ORAM M) : Prop :=
  ∃ v, Shows c R v s ∧ v.Valid c ∧ v.Within c (· ∈ S)

/-- Every call, completed or failed, leaves a state that is ready for the next one. -/
theorem exec_ready (hc : c.Valid) (hpm : pm.Implements c.blocks bound R False)
    (hbound : 2 ^ (c.height - 1) ≤ bound) (hs : s.Ready c R S) (hcall : call.InRange c)
    (hS : ∀ op ∈ call.ops, ∀ id data, op = .write id data → id ∈ S) :
    wp (exec c pm call) (fun _ s' => s'.Ready c R S) (fun _ s' => s'.Ready c R S) s := by
  obtain ⟨v, hshows, hv, hw⟩ := hs
  refine wp_mono (exec_spec hc hpm hbound hv hshows hcall) ?_ ?_
  · rintro responses s' ⟨v', hdone, hs'⟩
    exact ⟨v', hs', hv.done hc hcall hdone, hw.done hv hcall hS hdone⟩
  · rintro e s' (hthrow | ⟨v', hfailed, hs'⟩)
    · exact hthrow.elim
    · exact ⟨v', hs', hv.failed hc hcall hfailed,
        hw.failed hv hcall hS hfailed⟩

/-- **The work of a `get` or `put`**, completed or failed. -/
theorem exec_work (hc : c.Valid) (hpm : pm.Implements c.blocks bound R False)
    (hcounts : Counts pm gets puts) (hbound : 2 ^ (c.height - 1) ≤ bound) (hs : s.Ready c R S)
    (hsingle : call.Single) (hcall : call.InRange c)
    (hS : ∀ op ∈ call.ops, ∀ id data, op = .write id data → id ∈ S) :
    wp (exec c pm call) (fun _ s' => Spends gets puts (c.height * S.card) s.map s'.map)
      (fun _ s' => Spends gets puts (c.height * S.card) s.map s'.map) s := by
  obtain ⟨v, hshows, hv, hw⟩ := hs
  have hsync : Keeps ORAM.map (syncCache c : OramM M Unit) :=
    keeps_syncCache fun _ _ _ _ _ => rfl
  -- both calls count one `get` or one `put` of their own ORAM, then access the position map
  cases call with
  | get block =>
    have hblock : block < c.blocks := hcall (.read block) List.mem_cons_self
    have haccess := access_work hc hpm hcounts hbound hv hw
      (shows_counted hshows (s.gets + 1) s.puts) true hblock (fun h => absurd h (by simp)) [] []
    refine wp_map (wp_bind (wp_modify (wp_bind (wp_mono haccess (fun response s₁ h => ?_)
      fun _ _ h => h))))
    exact wp_bind (wp_mono (hsync s₁) (fun _ s' hmap => wp_pure (hmap ▸ h))
      fun _ s' hmap => hmap ▸ h)
  | put block data =>
    have hblock : block < c.blocks := hcall (.write block data) List.mem_cons_self
    have haccess := access_work hc hpm hcounts hbound hv hw
      (shows_counted hshows s.gets (s.puts + 1)) false hblock
      (fun _ => hS (.write block data) List.mem_cons_self block data rfl) data []
    refine wp_map (wp_bind (wp_modify (wp_bind (wp_mono haccess (fun response s₁ h => ?_)
      fun _ _ h => h))))
    exact wp_mono (hsync s₁) (fun _ s' hmap => hmap ▸ h) fun _ s' hmap => hmap ▸ h
  | multiple requests => exact hsingle.elim

/-! ### Runs -/

/-- How many `get`s and `put`s on the inner ORAM each call of a run makes. -/
def innerWork (c : Config) (pm : AbsPositionMapAdapter (ORAM M)) :
    List Call → ORAM (ORAM M) → List (ℕ × ℕ)
  | [], _ => []
  | call :: calls, s =>
    let s' := (runCatching (exec c pm) [call] s).2
    (s'.map.gets - s.map.gets, s'.map.puts - s.map.puts) :: innerWork c pm calls s'

/-- The work of a run: each call makes one `put`, one `get`, and at most `height` more `get`s
for each ID that was put by then. -/
def WorkBounded (c : Config) (calls : List Call) (work : List (ℕ × ℕ)) : Prop :=
  work.length = calls.length ∧ ∀ i w, work[i]? = some w →
    w.2 = 1 ∧ 1 ≤ w.1 ∧ w.1 ≤ 1 + c.height * (Call.puts (calls.take (i + 1))).card

section Run

variable {pm : AbsPositionMapAdapter (ORAM M)} {R : (ℕ → Option ℕ) → ORAM M → Prop}
  {s : ORAM (ORAM M)}

theorem Ready.mono (hs : s.Ready c R S) {S' : Finset ℕ} (h : S ⊆ S') : s.Ready c R S' := by
  obtain ⟨v, hshows, hv, hw⟩ := hs
  exact ⟨v, hshows, hv, fun b hb e he hreal => h (hw.tree b hb e he hreal),
    fun id hid => h (hw.stash id hid)⟩

/-- What holds of the state after a call, completed or not, holds after the run of it. -/
theorem of_wp_exec {call : Call} {Q : ORAM (ORAM M) → Prop}
    (h : wp (exec c pm call) (fun _ s' => Q s') (fun _ s' => Q s') s) :
    Q (runCatching (exec c pm) [call] s).2 := by
  cases hexec : exec c pm call s with
  | ok responses s' =>
    rw [runCatching_cons_ok hexec]
    exact h.ok hexec
  | error e s' =>
    rw [runCatching_cons_error hexec]
    exact h.error hexec

theorem puts_append (calls calls' : List Call) :
    Call.puts (calls ++ calls') = Call.puts calls ∪ Call.puts calls' := by
  unfold Call.puts
  rw [List.flatMap_append]
  induction calls.flatMap Call.ops with
  | nil => exact (Finset.empty_union _).symm
  | cons op ops ih =>
    cases op with
    | read block => exact ih
    | write block data =>
      rw [List.cons_append, Op.puts, Op.puts, ih, Finset.insert_union]

/-- **The work along a run**, for a state in which the IDs of `S` may have blocks. -/
theorem innerWork_spec (hc : c.Valid) (hpm : pm.Implements c.blocks bound R False)
    (hcounts : Counts pm ORAM.gets ORAM.puts) (hbound : 2 ^ (c.height - 1) ≤ bound)
    {calls : List Call} (hcalls : ∀ call ∈ calls, call.Single ∧ call.InRange c)
    (hs : s.Ready c R S) :
    (innerWork c pm calls s).length = calls.length ∧
      ∀ i w, (innerWork c pm calls s)[i]? = some w →
        w.2 = 1 ∧ 1 ≤ w.1 ∧
          w.1 ≤ 1 + c.height * (S ∪ Call.puts (calls.take (i + 1))).card := by
  -- on the calls; `S` are the IDs that may be in the stash by now
  induction calls generalizing S s with
  | nil => exact ⟨rfl, fun i w h => absurd h (by simp [innerWork])⟩
  | cons call calls ih =>
    obtain ⟨hsingle, hrange⟩ := hcalls call List.mem_cons_self
    have hs' : s.Ready c R (S ∪ Call.puts [call]) := hs.mono Finset.subset_union_left
    have hputs : ∀ op ∈ call.ops, ∀ id data, op = .write id data → id ∈ S ∪ Call.puts [call] := by
      rintro op hop id data rfl
      exact Finset.mem_union_right _ (Call.mem_puts List.mem_cons_self hop)
    have hspends := of_wp_exec (exec_work hc hpm hcounts hbound hs' hsingle hrange hputs)
    have hready := of_wp_exec (exec_ready hc hpm hbound hs' hrange hputs)
    obtain ⟨hlength, hrest⟩ := ih (fun call h => hcalls call (List.mem_cons_of_mem _ h)) hready
    refine ⟨by rw [innerWork, List.length_cons, hlength, List.length_cons], fun i w hw => ?_⟩
    rw [innerWork] at hw
    cases i with
    -- the first call: its own `get`, and one for each entry of the stash on each level
    | zero =>
      obtain rfl := Option.some.inj hw
      have hlt := hspends.lt
      have hle := hspends.le_add
      have heq := hspends.puts_eq
      have htake : Call.puts ((call :: calls).take (0 + 1)) = Call.puts [call] := rfl
      rw [htake]
      exact ⟨by dsimp only; omega, by dsimp only; omega, by dsimp only; omega⟩
    -- a later call is one of the remaining run, where the IDs of the first are in `S`
    | succ i =>
      obtain ⟨hput, hget, hle⟩ := hrest i w hw
      refine ⟨hput, hget, ?_⟩
      have htake : (call :: calls).take (i + 1 + 1) = [call] ++ calls.take (i + 1) := rfl
      rw [htake, puts_append, ← Finset.union_assoc]
      exact hle

end Run

/-- **Every call makes exactly one `put` on the inner ORAM**, whatever is requested and drawn.
`s₁` and `s₁'` are freshly initialised outer ORAMs over an ORAM-backed position map of any
depth. The number of `get`s is bounded by the IDs that were put by then. -/
theorem inner_work (hc : c.Valid) (ci : Config) (cs : List Config)
    (hserves : MapState.Serves (ci :: cs) c.blocks)
    (hstashes : ¬MapState.MayOverflow (ci :: cs) c.blocks)
    {s₀ s₁ s₀' s₁' : ORAM (ORAM (MapState cs))}
    (hmap : MapState.Fresh (ci :: cs) c.blocks s₀.map) (hstash : s₀.stash = ∅)
    (hcache : s₀.cache = ∅)
    (hnew : new c (ORAMPositionMapAdapter.adapter ci (mapAdapter cs)) true s₀ = .ok () s₁)
    (hmap' : MapState.Fresh (ci :: cs) c.blocks s₀'.map) (hstash' : s₀'.stash = ∅)
    (hcache' : s₀'.cache = ∅)
    (hnew' : new c (ORAMPositionMapAdapter.adapter ci (mapAdapter cs)) true s₀' = .ok () s₁')
    {calls calls' : List Call} (hlength : calls.length = calls'.length)
    (hcalls : ∀ call ∈ calls, call.Single ∧ call.InRange c)
    (hcalls' : ∀ call ∈ calls', call.Single ∧ call.InRange c) :
    (innerWork c (ORAMPositionMapAdapter.adapter ci (mapAdapter cs)) calls s₁).map Prod.snd =
        (innerWork c (ORAMPositionMapAdapter.adapter ci (mapAdapter cs)) calls' s₁').map
          Prod.snd ∧
      WorkBounded c calls
        (innerWork c (ORAMPositionMapAdapter.adapter ci (mapAdapter cs)) calls s₁) ∧
      WorkBounded c calls'
        (innerWork c (ORAMPositionMapAdapter.adapter ci (mapAdapter cs)) calls' s₁') := by
  have hpm : (ORAMPositionMapAdapter.adapter ci (mapAdapter cs)).Implements c.blocks (2 ^ 64)
      (MapState.Holds (ci :: cs) c.blocks) (MapState.MayOverflow (ci :: cs) c.blocks) :=
    MapState.mapAdapter_implements hserves
  rw [eq_false hstashes] at hpm
  have hbound := MapState.two_pow_height_le hc
  have hcounts := counts_adapter ci (mapAdapter cs)
  -- one run; both runs are instances
  have hrun : ∀ (s₀ s₁ : ORAM (ORAM (MapState cs))) (calls : List Call),
      MapState.Fresh (ci :: cs) c.blocks s₀.map → s₀.stash = ∅ → s₀.cache = ∅ →
      new c (ORAMPositionMapAdapter.adapter ci (mapAdapter cs)) true s₀ = .ok () s₁ →
      (∀ call ∈ calls, call.Single ∧ call.InRange c) →
      WorkBounded c calls
        (innerWork c (ORAMPositionMapAdapter.adapter ci (mapAdapter cs)) calls s₁) := by
    intro s₀ s₁ calls hmap hstash hcache hnew hcalls
    obtain ⟨f, hf⟩ := MapState.exists_holds hserves hmap
    obtain ⟨v, hfresh, hshows⟩ := (new_spec hc hpm hbound hf hstash hcache).ok hnew
    have hready : s₁.Ready c (MapState.Holds (ci :: cs) c.blocks) ∅ :=
      ⟨v, hshows, hfresh.valid hc, hfresh.within _⟩
    have hspec := innerWork_spec hc hpm hcounts hbound hcalls hready
    refine ⟨hspec.1, fun i w hw => ?_⟩
    have hwork := hspec.2 i w hw
    rwa [Finset.empty_union] at hwork
  have hwork := hrun s₀ s₁ calls hmap hstash hcache hnew hcalls
  have hwork' := hrun s₀' s₁' calls' hmap' hstash' hcache' hnew' hcalls'
  refine ⟨?_, hwork, hwork'⟩
  have hone : ∀ (calls : List Call) (work : List (ℕ × ℕ)), WorkBounded c calls work →
      work.map Prod.snd = List.replicate calls.length 1 := by
    rintro calls work ⟨hlen, hall⟩
    refine List.eq_replicate_iff.mpr ⟨by rw [List.length_map, hlen], fun b hb => ?_⟩
    obtain ⟨w, hw, rfl⟩ := List.mem_map.mp hb
    obtain ⟨i, hi⟩ := List.mem_iff_getElem?.mp hw
    exact (hall i w hi).1
  rw [hone _ _ hwork, hone _ _ hwork', hlength]

theorem inner_work_tiny :
    (innerWork (Config.tiny 1 2) (ORAMPositionMapAdapter.adapter (Config.tiny 1 2) (mapAdapter []))
        [.get 1] (MapState.tiny (Random.ofLeaves (Stream'.const 0)))).map Prod.snd =
      (innerWork (Config.tiny 1 2)
        (ORAMPositionMapAdapter.adapter (Config.tiny 1 2) (mapAdapter [])) [.put 1 [9]]
        (MapState.tiny (Random.ofLeaves (Stream'.const 0)))).map Prod.snd ∧
    WorkBounded (Config.tiny 1 2) [.get 1]
      (innerWork (Config.tiny 1 2)
        (ORAMPositionMapAdapter.adapter (Config.tiny 1 2) (mapAdapter [])) [.get 1]
        (MapState.tiny (Random.ofLeaves (Stream'.const 0)))) ∧
    WorkBounded (Config.tiny 1 2) [.put 1 [9]]
      (innerWork (Config.tiny 1 2)
        (ORAMPositionMapAdapter.adapter (Config.tiny 1 2) (mapAdapter [])) [.put 1 [9]]
        (MapState.tiny (Random.ofLeaves (Stream'.const 0)))) := by
  have hvalid := Config.tiny_valid le_rfl (by norm_num) 2
  have hserves : MapState.Serves [Config.tiny 1 2] 2 := ⟨hvalid, by decide, by norm_num, trivial⟩
  have hstashes : ¬MapState.MayOverflow [Config.tiny 1 2] (Config.tiny 1 2).blocks :=
    not_or.mpr ⟨not_false, by decide⟩
  have hfresh := MapState.fresh_built hserves not_false
    (ORAM.unbuilt (.allocate 2 (by decide) 0) (Random.ofLeaves (Stream'.const 0)))
    (le_refl 2) rfl rfl
  -- the constructor of the outer ORAM returns, since the map below it cannot throw
  obtain ⟨leaves, hleaves⟩ := MapState.exists_holds hserves hfresh
  have hpm := MapState.mapAdapter_implements hserves
  rw [eq_false (show ¬MapState.MayOverflow [Config.tiny 1 2] 2 from hstashes)] at hpm
  have hnew : new (Config.tiny 1 2) (mapAdapter [Config.tiny 1 2]) true
      (ORAM.unbuilt _ (Random.ofLeaves (Stream'.const 0))) =
        .ok () (MapState.tiny (Random.ofLeaves (Stream'.const 0))) :=
    new_eq_built hvalid hpm (MapState.two_pow_height_le hvalid) hleaves rfl rfl
  have hcalls : ∀ call : Call, call.Single → (∀ op ∈ call.ops, op.block < 2) →
      ∀ call' ∈ [call], call'.Single ∧ call'.InRange (Config.tiny 1 2) := by
    intro call hsingle hrange call' hcall'
    obtain rfl := List.mem_singleton.mp hcall'
    exact ⟨hsingle, hrange⟩
  refine inner_work hvalid (Config.tiny 1 2) [] hserves hstashes ?_ ?_ ?_ hnew ?_ ?_ ?_ hnew rfl
    (hcalls (.get 1) trivial (by decide)) (hcalls (.put 1 [9]) trivial (by decide))
  · exact hfresh
  · rfl
  · rfl
  · exact hfresh
  · rfl
  · rfl

/-- An access to an ID that was put examines its block in the stash, and gets its leaf. As
long as nothing was put the stash is empty. -/
theorem inner_gets_differ :
    innerWork (Config.tiny 1 2) (ORAMPositionMapAdapter.adapter (Config.tiny 1 2) (mapAdapter []))
        [.get 1, .get 0] (MapState.tiny (Random.ofLeaves (Stream'.const 0))) =
      [(1, 1), (1, 1)] ∧
    innerWork (Config.tiny 1 2) (ORAMPositionMapAdapter.adapter (Config.tiny 1 2) (mapAdapter []))
        [.put 1 [9], .put 0 [3]] (MapState.tiny (Random.ofLeaves (Stream'.const 0))) =
      [(2, 1), (2, 1)] := by
  constructor
  · decide +kernel
  · decide +kernel

end ORAM

end PathORAM
