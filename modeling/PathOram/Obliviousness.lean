import PathOram.Recursion
import PathOram.Lib.Tape

/-!
# What the storage learns

The storage sees which locations are asked for. Everything else a run depends on is hidden
from it, so the question is how the locations depend on the requests.

* `View.Drawn` — the leaf of every ID is a draw of its own: of the constructor, or of the
  access that used the ID last.
* `trace_eq` — the trace of single calls is the list of the paths of the revealed draws.
* `access_pattern_oblivious` — for single calls with payloads that fit, every trace has the
  same number of tapes whatever is requested: no draw is revealed twice.
-/

namespace PathORAM

open Hoare HeapTree AbsStorageAdapter

/-! ### Traces -/

/-- The locations a storage call reads. -/
def Touch.reading : Touch → Finset ℕ
  | .read locations => locations
  | .write _ => ∅

/-- The locations a storage call writes. -/
def Touch.writing : Touch → Finset ℕ
  | .read _ => ∅
  | .write locations => locations

/-- The locations that are read, and those that are written, by some storage calls. -/
def pattern : List Touch → Finset ℕ × Finset ℕ
  | [] => (∅, ∅)
  | touch :: touches =>
    (touch.reading ∪ (pattern touches).1, touch.writing ∪ (pattern touches).2)

theorem pattern_reads_append (locations : Finset ℕ) (touches : List Touch) :
    pattern (Touch.reads locations ++ touches) =
      (locations ∪ (pattern touches).1, (pattern touches).2) := by
  unfold Touch.reads
  split
  · next h => rw [h, List.nil_append, Finset.empty_union]
  · show (locations ∪ (pattern touches).1, ∅ ∪ (pattern touches).2) = _
    rw [Finset.empty_union]

namespace ORAM

variable {c : Config} {M : Type} {pm : AbsPositionMapAdapter M} {bound : ℕ}
  {R : (ℕ → Option ℕ) → M → Prop} {s : ORAM M} {kv : Store} {S : Finset ℕ}
  {coins : Stream' ℕ} {σ : ℕ → ℕ} {k : ℕ} {call : Call} {calls : List Call}

/-- What a call asks the storage adapter for. -/
def touches (c : Config) (pm : AbsPositionMapAdapter M) (call : Call) (s : ORAM M) :
    List Touch :=
  ((runCatching (exec c pm) [call] s).2.storage.calls.drop s.storage.calls.length).map
    StorageCall.touch

/-- The trace of a run: what each call reads and writes. -/
def trace (c : Config) (pm : AbsPositionMapAdapter M) :
    List Call → ORAM M → List (Finset ℕ × Finset ℕ)
  | [], _ => []
  | call :: calls, s =>
    pattern (touches c pm call s) :: trace c pm calls (runCatching (exec c pm) [call] s).2

/-- A call asks for what its view records. -/
theorem touches_eq {v v' : View} {new : List Touch} (hs : Shows c R v s)
    (hs' : Shows c R v' (runCatching (exec c pm) [call] s).2)
    (h : v'.touched = v.touched ++ new) : touches c pm call s = new := by
  rw [touches, List.map_drop, ← hs'.touched, h]
  have hlength : s.storage.calls.length = v.touched.length := by
    rw [hs.touched, List.length_map]
  rw [hlength, List.drop_left]

end ORAM

/-! ### Leaves are draws -/

/-- The leaf that a draw gives. -/
def Config.leafAt (c : Config) (coins : Stream' ℕ) (draw : ℕ) : ℕ :=
  coins.get draw % 2 ^ (c.height - 1)

/-- What an access shows: the path of a leaf, read and written. -/
def Config.visit (c : Config) (leaf : ℕ) : Finset ℕ × Finset ℕ := (c.path leaf, c.path leaf)

/-- The leaf of every ID is a draw, the one of `id` is `σ id`; the next draw is `k`. -/
structure View.Drawn (c : Config) (coins : Stream' ℕ) (σ : ℕ → ℕ) (k : ℕ) (v : View) :
    Prop where
  pos : ∀ id < c.blocks, v.pos id = some (c.leafAt coins (σ id))
  coins : v.coins = coins.drop k

section Drawn

variable {c : Config} {coins : Stream' ℕ} {σ : ℕ → ℕ} {k : ℕ} {v v' : View} {op : Op}
  {leaf : ℕ} {stash : InMemoryStashAdapter} {response : Bytes}

/-- A fresh view holds the draws of the constructor. -/
theorem View.Fresh.drawn (h : v.Fresh c coins) : v.Drawn c coins id c.blocks :=
  ⟨h.pos, h.coins⟩

/-- **An access reveals the draw of its ID**, and the ID is drawn again. -/
theorem View.Drawn.access (hv : v.Drawn c coins σ k) (hop : op.block < c.blocks)
    (h : Access c v op leaf stash response v') :
    leaf = c.leafAt coins (σ op.block) ∧
      v'.Drawn c coins (Function.update σ op.block k) (k + 1) := by
  refine ⟨?_, fun id hid => ?_, ?_⟩
  · have hpos := h.pos
    rw [hv.pos op.block hop] at hpos
    exact (Option.some.inj hpos).symm
  -- the ID moves to the leaf that was drawn last
  · rw [h.pos']
    change Function.update v.pos op.block (some (v.coins.head % 2 ^ (c.height - 1))) id = _
    by_cases heq : id = op.block
    · rw [heq, Function.update_self, Function.update_self, hv.coins, Stream'.head_drop]
      rfl
    · rw [Function.update_of_ne heq, Function.update_of_ne heq]
      exact hv.pos id hid
  · rw [h.coins']
    change v.coins.tail = _
    rw [hv.coins, Stream'.tail_drop', Nat.add_comm]

/-- Uploading the cache draws nothing. -/
theorem View.Drawn.sync (hv : v.Drawn c coins σ k) (h : Sync c v v') :
    v'.Drawn c coins σ k := by
  refine ⟨fun id hid => ?_, ?_⟩
  · rw [h.pos']
    exact hv.pos id hid
  · rw [h.coins']
    exact hv.coins

end Drawn

/-! ### Single calls -/

section Single

variable {c : Config} {coins : Stream' ℕ} {σ : ℕ → ℕ} {k : ℕ} {v v₁ v' : View} {op : Op}
  {leaf : ℕ} {stash : InMemoryStashAdapter} {response : Bytes} {call : Call} {calls : List Call}
  {responses : List Bytes}

/-- The IDs of the operations of some calls. -/
def Call.ids (calls : List Call) : List ℕ := calls.flatMap fun call => call.ops.map Op.block

theorem Call.ids_cons (hops : call.ops = [op]) (calls : List Call) :
    Call.ids (call :: calls) = op.block :: Call.ids calls := by
  rw [Call.ids, List.flatMap_cons, hops]
  rfl

theorem Call.length_ids (hcalls : ∀ call ∈ calls, call.Single) :
    (Call.ids calls).length = calls.length := by
  induction calls with
  | nil => rfl
  | cons call calls ih =>
    obtain ⟨op, hops⟩ := (hcalls call List.mem_cons_self).exists_ops
    rw [Call.ids_cons hops, List.length_cons, List.length_cons,
      ih fun call' h => hcalls call' (List.mem_cons_of_mem _ h)]

/-- The IDs of calls in range are in range. -/
theorem Call.ids_lt (hcalls : ∀ call ∈ calls, call.InRange c) :
    ∀ id ∈ Call.ids calls, id < c.blocks := by
  intro id hid
  obtain ⟨call, hcall, hid⟩ := List.mem_flatMap.mp hid
  obtain ⟨op, hop, rfl⟩ := List.mem_map.mp hid
  exact hcalls call hcall op hop

/-- Only `multiple` downloads ahead. -/
theorem View.prefetch_single (hsingle : call.Single) : v.prefetch c call = v := by
  cases call with
  | get _ => rfl
  | put _ _ => rfl
  | multiple _ => exact hsingle.elim

/-- **An access with the upload reads and writes the path of the leaf of its ID**, and nothing
else, if nothing was cached. -/
theorem View.Drawn.visited (hv : v.Drawn c coins σ k) (hcached : v.cached = ∅)
    (hop : op.block < c.blocks) (haccess : Access c v op leaf stash response v₁)
    (hsynced : Synced c v₁ v') :
    v'.Drawn c coins (Function.update σ op.block k) (k + 1) ∧ v'.cached = ∅ ∧
      ∃ new, v'.touched = v.touched ++ new ∧
        pattern new = c.visit (c.leafAt coins (σ op.block)) := by
  obtain ⟨rfl, hv₁⟩ := hv.access hop haccess
  refine ⟨hv₁.sync hsynced.toSync, hsynced.cached',
    Touch.reads (c.path (c.leafAt coins (σ op.block)) \ v.cached) ++ [.write v₁.cached], ?_, ?_⟩
  · rw [hsynced.touched', haccess.touched']
    exact List.append_assoc _ _ _
  · -- nothing was cached: all of the path is downloaded, and all that is uploaded is the path
    have hcached₁ : v₁.cached = c.path (c.leafAt coins (σ op.block)) := by
      rw [haccess.cached']
      show v.cached ∪ _ = _
      rw [hcached, Finset.empty_union]
    rw [pattern_reads_append, hcached₁, hcached, Finset.sdiff_empty]
    show (c.path _ ∪ ∅, c.path _ ∪ ∅) = c.visit _
    rw [Finset.union_empty]
    rfl

/-- **So does a single call.** -/
theorem View.Drawn.done (hv : v.Drawn c coins σ k) (hcached : v.cached = ∅)
    (hsingle : call.Single) (hops : call.ops = [op]) (hop : op.block < c.blocks)
    (h : call.Done c v responses v') :
    v'.Drawn c coins (Function.update σ op.block k) (k + 1) ∧ v'.cached = ∅ ∧
      ∃ new, v'.touched = v.touched ++ new ∧
        pattern new = c.visit (c.leafAt coins (σ op.block)) := by
  obtain ⟨v₁, answers, hserved, -, hsynced⟩ := h.served
  rw [View.prefetch_single hsingle, hops] at hserved
  obtain _ | ⟨haccess, htail⟩ := hserved
  cases htail
  exact hv.visited hcached hop haccess hsynced

end Single

namespace ORAM

variable {c : Config} {M : Type} {pm : AbsPositionMapAdapter M} {bound : ℕ}
  {R : (ℕ → Option ℕ) → M → Prop} {s : ORAM M} {kv : Store} {S : Finset ℕ}
  {coins : Stream' ℕ} {σ : ℕ → ℕ} {k : ℕ} {call : Call} {calls : List Call}

/-- Between two single calls: the store is held, nothing is cached, and the leaves are
draws. -/
def Watched (c : Config) (R : (ℕ → Option ℕ) → M → Prop) (S : Finset ℕ) (coins : Stream' ℕ)
    (σ : ℕ → ℕ) (k : ℕ) (s : ORAM M) : Prop :=
  ∃ v kv, Shows c R v s ∧ v.Stores c S kv ∧ v.Drawn c coins σ k ∧ v.cached = ∅

/-- What a single call shows of the draws, and what it leaves. -/
theorem exec_watched (hc : c.Valid) (hpm : pm.Implements c.blocks bound R False)
    (hbound : 2 ^ (c.height - 1) ≤ bound) (hS : S.card ≤ c.stashCapacity) {op : Op}
    (hops : call.ops = [op]) (hsingle : call.Single) (hcall : call.Admissible c)
    (hputs : ∀ op ∈ call.ops, ∀ id data, op = .write id data → id ∈ S)
    (hs : s.Watched c R S coins σ k) :
    pattern (touches c pm call s) = c.visit (c.leafAt coins (σ op.block)) ∧
      (runCatching (exec c pm) [call] s).2.Watched c R S coins
        (Function.update σ op.block k) (k + 1) := by
  obtain ⟨v, kv, hshows, hv, hdrawn, hcached⟩ := hs
  have hexec := exec_spec hc hpm hbound hv.holds.valid hshows hcall.addressable.inRange
  cases hresult : exec c pm call s with
  | ok responses s' =>
    obtain ⟨v', hdone, hshows'⟩ := hexec.ok hresult
    have hop : op.block < c.blocks :=
      hcall.addressable.inRange op (hops ▸ List.mem_singleton_self op)
    obtain ⟨hdrawn', hcached', new, htouched, hpattern⟩ :=
      hdrawn.done hcached hsingle hops hop hdone
    obtain ⟨-, hv'⟩ := hv.done hc hcall hputs hdone
    have hrun : (runCatching (exec c pm) [call] s).2 = s' := by
      rw [runCatching_cons_ok hresult]
      rfl
    rw [touches_eq hshows (hrun ▸ hshows') htouched, hrun]
    exact ⟨hpattern, v', _, hshows', hv', hdrawn', hcached'⟩
  | error e s' =>
    -- the call does not throw: the stash has room, and the payload fits
    rcases hv.of_failed hc hcall hputs (hexec.error hresult) with hthrow | hlt
    · exact hthrow.elim
    · exact absurd hS (not_le.mpr hlt)

/-- **The trace of a run of single calls** is the list of the paths of the draws that are
revealed. -/
theorem trace_eq (hc : c.Valid) (hpm : pm.Implements c.blocks bound R False)
    (hbound : 2 ^ (c.height - 1) ≤ bound) (hS : S.card ≤ c.stashCapacity)
    (hcalls : ∀ call ∈ calls, call.Single ∧ call.Admissible c)
    (hputs : ∀ call ∈ calls, ∀ op ∈ call.ops, ∀ id data, op = .write id data → id ∈ S)
    (hs : s.Watched c R S coins σ k) :
    trace c pm calls s =
      (Tape.reveal σ k (Call.ids calls)).map fun draw => c.visit (c.leafAt coins draw) := by
  -- on the calls: each reveals the leaf of its ID and draws the next one
  induction calls generalizing s σ k with
  | nil => rfl
  | cons call calls ih =>
    obtain ⟨hsingle, hcall⟩ := hcalls call List.mem_cons_self
    obtain ⟨op, hops⟩ := hsingle.exists_ops
    obtain ⟨hpattern, hs'⟩ := exec_watched hc hpm hbound hS hops hsingle hcall
      (hputs call List.mem_cons_self) hs
    rw [trace, hpattern, Call.ids_cons hops, Tape.reveal, List.map_cons,
      ih (fun call' h => hcalls call' (List.mem_cons_of_mem _ h))
        (fun call' h => hputs call' (List.mem_cons_of_mem _ h)) hs']

end ORAM

/-! ### Tapes -/

/-- The leaf draws of a run: one of the constructor for each ID, and one for each of `n`
accesses. -/
abbrev Config.Tape (c : Config) (n : ℕ) : Type := Fin (c.blocks + n) → Fin (2 ^ (c.height - 1))

/-- `s` is a freshly initialised ORAM whose leaf draws are those of the tape. What is drawn
for other purposes, and what was in the memory before, is arbitrary. -/
def ORAM.Draws {n : ℕ} (c : Config) (cs : List Config) (τ : c.Tape n)
    (s : ORAM (MapState cs)) : Prop :=
  ∃ s₀ : ORAM (MapState cs), MapState.Fresh cs c.blocks s₀.map ∧ s₀.stash = ∅ ∧
    s₀.cache = ∅ ∧ ORAM.new c (mapAdapter cs) true s₀ = .ok () s ∧
    ∀ i : Fin (c.blocks + n), c.leafAt s₀.random.ulongs i = τ i

section Cells

variable {c : Config} {n : ℕ} {ids : List ℕ}

/-- The draws that a run reveals are distinct cells of its tape. -/
theorem Config.exists_cells (hids : ∀ id ∈ ids, id < c.blocks) (hlength : ids.length = n) :
    ∃ cells : List (Fin (c.blocks + n)), cells.map Fin.val = Tape.reveal id c.blocks ids ∧
      cells.Nodup ∧ cells.length = n := by
  have hdrawn : ∀ id' ∈ Set.Iio c.blocks, id id' < c.blocks := fun _ h => h
  -- the constructor draws one leaf for each block, and each call one more
  have hlt : ∀ draw ∈ Tape.reveal id c.blocks ids, draw < c.blocks + n := fun draw hdraw =>
    hlength ▸ Tape.lt_of_mem_reveal hdrawn hids hdraw
  have hcells : ((Tape.reveal id c.blocks ids).pmap Fin.mk hlt).map Fin.val =
      Tape.reveal id c.blocks ids := by
    rw [List.map_pmap]
    exact List.pmap_eq_self.mpr fun _ _ => rfl
  refine ⟨_, hcells, List.Nodup.of_map Fin.val ?_, ?_⟩
  · rw [hcells]
    exact Tape.nodup_reveal hdrawn (Set.injOn_id _) hids
  · rw [List.length_pmap, Tape.length_reveal, hlength]

end Cells

namespace ORAM

variable {c : Config} {cs : List Config} {n : ℕ} {τ : c.Tape n} {s : ORAM (MapState cs)}
  {calls : List Call}

/-- A freshly initialised ORAM shows a fresh view, which holds the draws of the tape. -/
theorem Draws.exists_fresh (hc : c.Valid) (hserves : MapState.Serves cs c.blocks)
    (hs : s.Draws c cs τ) :
    ∃ v coins, v.Fresh c coins ∧ Shows c (MapState.Holds cs c.blocks) v s ∧
      ∀ i : Fin (c.blocks + n), c.leafAt coins i = τ i := by
  obtain ⟨s₀, hmap, hstash, hcache, hnew, hdraws⟩ := hs
  obtain ⟨f, hf⟩ := MapState.exists_holds hserves hmap
  obtain ⟨v, hfresh, hshows⟩ := (new_spec hc (MapState.mapAdapter_implements hserves)
    (MapState.two_pow_height_le hc) hf hstash hcache).ok hnew
  exact ⟨v, s₀.random.ulongs, hfresh, hshows, hdraws⟩

/-- The trace of single calls, as a function of the values in some cells of the tape. -/
theorem Draws.trace_eq (hc : c.Valid) (hserves : MapState.Serves cs c.blocks)
    (hmaps : ¬MapState.MayOverflow cs c.blocks)
    (hcalls : ∀ call ∈ calls, call.Single ∧ call.Admissible c)
    (hstash : (Call.puts calls).card ≤ c.stashCapacity)
    {cells : List (Fin (c.blocks + n))}
    (hcells : cells.map Fin.val = Tape.reveal id c.blocks (Call.ids calls))
    (hs : s.Draws c cs τ) :
    trace c (mapAdapter cs) calls s = (cells.map τ).map fun leaf => c.visit leaf.val := by
  obtain ⟨v, coins, hfresh, hshows, hdraws⟩ := hs.exists_fresh hc hserves
  have hpm := MapState.mapAdapter_implements hserves
  rw [eq_false hmaps] at hpm
  -- a fresh ORAM has drawn one leaf for each block
  have hwatched : s.Watched c (MapState.Holds cs c.blocks) (Call.puts calls) coins id c.blocks :=
    ⟨v, Store.empty, hshows, ⟨hfresh.holds hc ∅, hfresh.within _, fun _ _ h => absurd h (by
      simp [Store.empty])⟩, hfresh.drawn, hfresh.cached⟩
  have hputs : ∀ call ∈ calls, ∀ op ∈ call.ops, ∀ id data, op = .write id data →
      id ∈ Call.puts calls := by
    rintro call hcall op hop id data rfl
    exact Call.mem_puts hcall hop
  calc trace c (mapAdapter cs) calls s
      = (Tape.reveal id c.blocks (Call.ids calls)).map fun draw =>
          c.visit (c.leafAt coins draw) :=
        ORAM.trace_eq hc hpm (MapState.two_pow_height_le hc) hstash hcalls hputs hwatched
    _ = cells.map fun cell => c.visit (c.leafAt coins cell.val) := by
        rw [← hcells, List.map_map]
        rfl
    _ = (cells.map τ).map fun leaf => c.visit leaf.val := by
        rw [List.map_map]
        refine List.map_congr_left fun cell _ => ?_
        show _ = c.visit (τ cell).val
        rw [hdraws]

/-- **Single accesses are oblivious.** Two sequences of `n` calls to `get` and `put` produce a
trace for the same number of tapes. `start τ` and `start' τ` are freshly initialised ORAMs
with the leaf draws `τ`; whatever else is random is arbitrary, in each of them. -/
theorem access_pattern_oblivious (hc : c.Valid) (cs : List Config)
    (hserves : MapState.Serves cs c.blocks) (hmaps : ¬MapState.MayOverflow cs c.blocks)
    {calls calls' : List Call} (hlength : calls.length = n) (hlength' : calls'.length = n)
    (hcalls : ∀ call ∈ calls, call.Single ∧ call.Admissible c)
    (hcalls' : ∀ call ∈ calls', call.Single ∧ call.Admissible c)
    (hstash : (Call.puts calls).card ≤ c.stashCapacity)
    (hstash' : (Call.puts calls').card ≤ c.stashCapacity)
    {start start' : c.Tape n → ORAM (MapState cs)} (hstart : ∀ τ, (start τ).Draws c cs τ)
    (hstart' : ∀ τ, (start' τ).Draws c cs τ) (t : List (Finset ℕ × Finset ℕ)) :
    Tape.count (fun τ => trace c (mapAdapter cs) calls (start τ) = t) =
      Tape.count (fun τ => trace c (mapAdapter cs) calls' (start' τ) = t) := by
  -- the cells that the run of a list of calls reveals
  have hreveal : ∀ calls : List Call, calls.length = n →
      (∀ call ∈ calls, call.Single ∧ call.Admissible c) →
      ∃ cells : List (Fin (c.blocks + n)),
        cells.map Fin.val = Tape.reveal id c.blocks (Call.ids calls) ∧ cells.Nodup ∧
          cells.length = n := fun calls hlength hcalls =>
    Config.exists_cells (Call.ids_lt fun call h => (hcalls call h).2.addressable.inRange)
      ((Call.length_ids fun call h => (hcalls call h).1).trans hlength)
  obtain ⟨cells, hcells, hnodup, hcount⟩ := hreveal calls hlength hcalls
  obtain ⟨cells', hcells', hnodup', hcount'⟩ := hreveal calls' hlength' hcalls'
  calc Tape.count (fun τ => trace c (mapAdapter cs) calls (start τ) = t)
      = Tape.count (fun τ : c.Tape n =>
          (cells.map τ).map (fun leaf => c.visit leaf.val) = t) :=
        Tape.count_congr fun τ => by
          rw [(hstart τ).trace_eq hc hserves hmaps hcalls hstash hcells]
    _ = Tape.count (fun τ : c.Tape n =>
          (cells'.map τ).map (fun leaf => c.visit leaf.val) = t) :=
        Tape.count_map_eq (P := fun w : List (Fin (2 ^ (c.height - 1))) =>
          w.map (fun leaf => c.visit leaf.val) = t) hnodup hnodup'
          (hcount.trans hcount'.symm)
    _ = Tape.count (fun τ => trace c (mapAdapter cs) calls' (start' τ) = t) :=
        Tape.count_congr fun τ => by
          rw [(hstart' τ).trace_eq hc hserves hmaps hcalls' hstash' hcells']

end ORAM

/-- The random source that draws the leaves of a tape, and nothing but zeros otherwise. -/
def Random.ofTape {n bound : ℕ} (τ : Fin n → Fin bound) : Random :=
  Random.ofLeaves fun i => if h : i < n then (τ ⟨i, h⟩).val else 0

theorem ORAM.draws_tiny {height : ℕ} (hpos : 1 ≤ height) (hle : height ≤ 3)
    (stashCapacity : ℕ) {n : ℕ} (τ : (Config.tiny height stashCapacity).Tape n) :
    (ORAM.tiny height stashCapacity (Random.ofTape τ)).Draws
      (Config.tiny height stashCapacity) [] τ := by
  have hblocks : (Config.tiny height stashCapacity).blocks ≤ 8 := by
    rw [(Config.tiny_valid hpos (by omega) stashCapacity).blocks_eq]
    change 2 ^ height * 1 ≤ 2 ^ 3
    rw [Nat.mul_one]
    exact Nat.pow_le_pow_right (by norm_num) hle
  refine ⟨_, ?_, ?_, ?_, ORAM.new_tiny hpos hle stashCapacity (Random.ofTape τ), fun i => ?_⟩
  · exact hblocks
  · rfl
  · rfl
  · show (if h : i.val < _ then (τ ⟨i.val, h⟩).val else 0) % _ = (τ i).val
    rw [dif_pos i.isLt]
    exact Nat.mod_eq_of_lt (τ i).isLt

theorem access_pattern_oblivious_tiny :
    Tape.count (fun τ : (Config.tiny 2 2).Tape 2 => ORAM.trace (Config.tiny 2 2) (mapAdapter [])
        [.put 0 [7], .get 0] (ORAM.tiny 2 2 (Random.ofTape τ)) = [({1, 2}, {1, 2}), ({1, 3}, {1, 3})]) =
      Tape.count (fun τ : (Config.tiny 2 2).Tape 2 => ORAM.trace (Config.tiny 2 2) (mapAdapter [])
        [.get 3, .put 1 [9]] (ORAM.tiny 2 2 (Random.ofTape τ)) =
          [({1, 2}, {1, 2}), ({1, 3}, {1, 3})]) := by
  have hvalid := Config.tiny_valid (by decide : 1 ≤ 2) (by decide) 2
  have hstart : ∀ τ : (Config.tiny 2 2).Tape 2,
      (ORAM.tiny 2 2 (Random.ofTape τ)).Draws (Config.tiny 2 2) [] τ :=
    ORAM.draws_tiny (by decide) (by decide) 2
  have hcalls : ∀ call ∈ [Call.put 0 [7], .get 0],
      call.Single ∧ call.Admissible (Config.tiny 2 2) := by
    decide
  have hcalls' : ∀ call ∈ [Call.get 3, .put 1 [9]],
      call.Single ∧ call.Admissible (Config.tiny 2 2) := by
    decide
  exact ORAM.access_pattern_oblivious hvalid [] trivial not_false (by decide) (by decide) hcalls
    hcalls'
    (by decide) (by decide) hstart hstart _

/-- A put whose payload is too long for a block leaves the cache as it is. The next call does
not download the path again. -/
theorem oversized_put_shows :
    Tape.count (fun τ : (Config.tiny 1 2).Tape 2 => ORAM.trace (Config.tiny 1 2) (mapAdapter [])
        [.put 0 (List.replicate 33 0), .get 0] (ORAM.tiny 1 2 (Random.ofTape τ)) =
          [({1}, {1}), ({1}, {1})]) = 0 ∧
      Tape.count (fun τ : (Config.tiny 1 2).Tape 2 => ORAM.trace (Config.tiny 1 2) (mapAdapter [])
        [.get 0, .get 0] (ORAM.tiny 1 2 (Random.ofTape τ)) = [({1}, {1}), ({1}, {1})]) = 1 := by
  constructor
  · decide +kernel
  · decide +kernel

end PathORAM
