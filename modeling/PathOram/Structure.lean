import PathOram.Recursion

/-!
# The structural invariant

What holds of the state of an ORAM between calls: the cache is empty, every bucket has `Z`
entries, every ID that was put occurs exactly once in tree and stash together and no other
does, and every ID in the tree lies on the path of its leaf.

`structural_invariant` is about every run of calls that complete, for an ORAM over a
position map of any depth. The leaf `map[id]` is what the position map's `get` returns.
-/

namespace PathORAM

open Hoare HeapTree AbsStorageAdapter

variable {c : Config} {M : Type} {pm : AbsPositionMapAdapter M} {bound : ℕ}
  {R : (ℕ → Option ℕ) → M → Prop} {mayThrow : Prop} {s : ORAM M} {kv : Store}

/-- How often an ID occurs in the stored buckets of the tree and in the stash. -/
def ORAM.occurrences (c : Config) (s : ORAM M) (id : ℕ) : ℕ :=
  ∑ b ∈ Finset.Ico 1 (2 ^ c.height),
      (content c.storage c.crypto s.storage b).countP (·.1 = id) +
    if id ∈ s.stash then 1 else 0

/-- The structural invariant for the leaves `map` and the IDs `puts` that were put. -/
structure ORAM.WellStructured (c : Config) (map : ℕ → ℕ) (puts : Finset ℕ) (s : ORAM M) :
    Prop where
  cache_empty : s.cache = ∅
  bucket_length : ∀ b, InTree c.height b →
    (content c.storage c.crypto s.storage b).length = c.Z
  at_most_once : ∀ id, id ≠ ULONG_MAX → s.occurrences c id ≤ 1
  on_path : ∀ b, InTree c.height b → ∀ e ∈ content c.storage c.crypto s.storage b,
    e.1 ≠ ULONG_MAX → b = ORAM.bucketForLevelLeaf c.height (Nat.log2 b) (map e.1)
  map_lt : ∀ id < c.blocks, map id < 2 ^ (c.height - 1)
  occurs_iff : ∀ id, id ≠ ULONG_MAX → (0 < s.occurrences c id ↔ id ∈ puts)

/-- `map` is what the position map's `get` returns for every ID of the ORAM. -/
def ORAM.Reads (c : Config) (pm : AbsPositionMapAdapter M) (mayThrow : Prop) (map : ℕ → ℕ)
    (s : ORAM M) : Prop :=
  ∀ id < c.blocks, wp (pm.get id) (fun leaf _ => leaf = map id) (fun _ _ => mayThrow) s.map

/-- The bucket of a node is where the node's level and a leaf put it. -/
theorem eq_bucketForLevelLeaf (hc : c.Valid) {b leaf : ℕ} (hleaf : leaf < 2 ^ (c.height - 1))
    (h : OnPath c.height b leaf) : b = ORAM.bucketForLevelLeaf c.height (Nat.log2 b) leaf := by
  rw [ORAM.bucketForLevelLeaf_eq hc.height_pos hc.height_le hleaf]
  exact h

/-- An ID is in the store after some operations if it was before or was written. -/
theorem Op.isSome_applyAll (ops : List Op) (kv : Store) (id : ℕ) :
    (Op.applyAll ops kv id).isSome ↔ id ∈ Op.puts ops ∨ (kv id).isSome := by
  induction ops generalizing kv with
  | nil => simp [Op.puts]
  | cons op ops ih =>
    rw [Op.applyAll_cons, ih]
    cases op with
    | read block => rfl
    | write block data =>
      rw [Op.puts, Finset.mem_insert, Op.apply]
      by_cases h : id = block
      · subst h
        simp
      · rw [Function.update_of_ne h]
        simp [h]

/-- The state between two calls: the view it shows holds the store `kv` without exempt or
duplicated IDs, and nothing is cached. -/
def ORAM.Settled (c : Config) (R : (ℕ → Option ℕ) → M → Prop) (kv : Store) (s : ORAM M) :
    Prop :=
  ∃ v, Shows c R v s ∧ v.Holds c kv ∅ ∧ v.Once c kv ∧ v.cached = ∅

namespace ORAM

/-- A call that completes leaves a settled state. -/
theorem exec_settled (hc : c.Valid) (hpm : pm.Implements c.blocks bound R mayThrow)
    (hbound : 2 ^ (c.height - 1) ≤ bound) {call : Call} (hcall : call.Addressable c)
    (hs : s.Settled c R kv) :
    wp (exec c pm call) (fun _ s' => s'.Settled c R (call.apply kv)) (fun _ _ => True) s := by
  obtain ⟨v, hshows, hv, honce, -⟩ := hs
  refine wp_mono (exec_spec hc hpm hbound hv.valid hshows hcall.inRange) ?_
    fun _ _ _ => trivial
  rintro responses s' ⟨v', hdone, hshows'⟩
  obtain ⟨v₁, answers, -, -, hsynced⟩ := hdone.served
  exact ⟨v', hshows', hv.done hc hcall hdone, honce.done hc hv hcall hdone, hsynced.cached'⟩

/-- **A run of calls that complete** leaves a settled state. -/
theorem run_settled (hc : c.Valid) (hpm : pm.Implements c.blocks bound R mayThrow)
    (hbound : 2 ^ (c.height - 1) ≤ bound) {calls : List Call}
    (hcalls : ∀ call ∈ calls, call.Addressable c) (hs : s.Settled c R kv)
    (hok : ∀ o ∈ (runCatching (exec c pm) calls s).1, ∃ responses, o = .ok responses) :
    (runCatching (exec c pm) calls s).2.Settled c R
      (Op.applyAll (calls.flatMap Call.ops) kv) := by
  induction calls generalizing kv s with
  | nil => exact hs
  | cons call calls ih =>
    have hstep := exec_settled hc hpm hbound (hcalls call List.mem_cons_self) hs
    cases hexec : exec c pm call s with
    | ok responses s' =>
      rw [runCatching_cons_ok hexec] at hok ⊢
      rw [List.flatMap_cons, Op.applyAll_append]
      exact ih (fun call' h => hcalls call' (List.mem_cons_of_mem _ h)) (hstep.ok hexec)
        fun o ho => hok o (List.mem_cons_of_mem _ ho)
    | error e s' =>
      -- a call that throws is excluded
      rw [runCatching_cons_error hexec] at hok
      obtain ⟨responses, h⟩ := hok _ List.mem_cons_self
      exact absurd h (by simp)

/-- What a settled state looks like from outside. -/
theorem Settled.wellStructured (hc : c.Valid) (hpm : pm.Implements c.blocks bound R mayThrow)
    (hs : s.Settled c R kv) {puts : Finset ℕ} (hputs : ∀ id, id ∈ puts ↔ (kv id).isSome) :
    ∃ map, s.Reads c pm mayThrow map ∧ s.WellStructured c map puts := by
  obtain ⟨v, hshows, hv, honce, hcached⟩ := hs
  have hempty : ∀ b, b ∉ s.cache := fun b hb => by
    have hmem := (hshows.cached b).mpr hb
    rw [hcached] at hmem
    exact Finset.notMem_empty b hmem
  -- nothing is cached, so the tree is what is stored
  have htree : ∀ b, v.tree b = content c.storage c.crypto s.storage b := fun b => by
    rw [hshows.tree b, AList.lookup_eq_none.mpr (hempty b)]
    rfl
  have hoccurrences : ∀ id, id ≠ ULONG_MAX →
      s.occurrences c id = if (kv id).isSome then 1 else 0 := fun id hid => by
    rw [← honce id hid, ORAM.occurrences, View.copies, hshows.stash]
    simp only [htree]
  refine ⟨fun id => (v.pos id).getD 0, fun id hid => ?_, ?_, ?_, ?_, ?_, ?_, ?_⟩
  · obtain ⟨leaf, -, hpos⟩ := hv.valid.pos id hid
    refine wp_mono (hpm.get_spec v.pos s.map id hshows.pos hid) (fun l _ h => ?_)
      fun _ _ h => h
    change l = (v.pos id).getD 0
    rw [hpos, Option.getD_some]
    exact h.1 leaf hpos
  · refine AList.ext (List.eq_nil_iff_forall_not_mem.mpr fun e he => hempty e.1 ?_)
    exact List.mem_map_of_mem he
  · intro b hb
    rw [← htree b]
    exact hv.valid.length b hb
  · intro id hid
    rw [hoccurrences id hid]
    split <;> omega
  · intro b hb e he hreal
    rw [← htree b] at he
    obtain ⟨leaf, hpos, honPath⟩ := hv.tracks.onPath b hb e he hreal (Set.notMem_empty _)
    have hleaf := hv.valid.leaf_lt (hv.valid.tree_id b hb e he hreal) hpos
    change b = bucketForLevelLeaf c.height (Nat.log2 b) ((v.pos e.1).getD 0)
    rw [hpos]
    exact eq_bucketForLevelLeaf hc hleaf honPath
  · intro id hid
    obtain ⟨leaf, hleaf, hpos⟩ := hv.valid.pos id hid
    rw [hpos]
    exact hleaf
  · intro id hid
    rw [hoccurrences id hid, hputs]
    split <;> simp [*]

/-- **The structural invariant of Path ORAM.** `s₀` is the ORAM before its constructor ran,
over a freshly initialised position map of any depth, `s₁` is what the constructor left,
and the state after any calls that complete is well structured. -/
theorem structural_invariant (hc : c.Valid) (cs : List Config)
    (hserves : MapState.Serves cs c.blocks) {s₀ s₁ : ORAM (MapState cs)}
    (hmap : MapState.Fresh cs c.blocks s₀.map) (hstash : s₀.stash = ∅) (hcache : s₀.cache = ∅)
    (hnew : new c (mapAdapter cs) true s₀ = .ok () s₁) {calls : List Call}
    (hcalls : ∀ call ∈ calls, call.Addressable c)
    (hok : ∀ o ∈ (runCatching (exec c (mapAdapter cs)) calls s₁).1,
      ∃ responses, o = .ok responses) :
    ∃ map, (runCatching (exec c (mapAdapter cs)) calls s₁).2.Reads c (mapAdapter cs)
        (MapState.MayOverflow cs c.blocks) map ∧
      (runCatching (exec c (mapAdapter cs)) calls s₁).2.WellStructured c map
        (Call.puts calls) := by
  obtain ⟨f, hf⟩ := MapState.exists_holds hserves hmap
  have hpm := MapState.mapAdapter_implements hserves
  have hbound := MapState.two_pow_height_le hc
  obtain ⟨v, hfresh, hshows⟩ := (new_spec hc hpm hbound hf hstash hcache).ok hnew
  have hs₁ : s₁.Settled c (MapState.Holds cs c.blocks) Store.empty :=
    ⟨v, hshows, hfresh.holds hc ∅, hfresh.once, hfresh.cached⟩
  refine (run_settled hc hpm hbound hcalls hs₁ hok).wellStructured hc hpm fun id => ?_
  rw [Op.isSome_applyAll]
  simp [Call.puts, Store.empty]

end ORAM

theorem structural_invariant_tiny :
    ∃ map, (runCatching (ORAM.exec (Config.tiny 1 2) (mapAdapter []))
          [.put 0 [7], .multiple [(0, []), (1, [9])]]
          (ORAM.tiny 1 2 (Random.ofLeaves (Stream'.const 0)))).2.Reads (Config.tiny 1 2)
        (mapAdapter []) False map ∧
      (runCatching (ORAM.exec (Config.tiny 1 2) (mapAdapter []))
          [.put 0 [7], .multiple [(0, []), (1, [9])]]
          (ORAM.tiny 1 2 (Random.ofLeaves (Stream'.const 0)))).2.WellStructured
        (Config.tiny 1 2) map {0, 1} := by
  exact ORAM.structural_invariant (Config.tiny_valid le_rfl (by norm_num) 2) [] trivial
    (by exact (by decide : 2 ≤ 8)) rfl rfl (ORAM.new_tiny le_rfl (by norm_num) 2 _) (by decide)
    (ok_of_toBool (by decide +kernel))

end PathORAM
