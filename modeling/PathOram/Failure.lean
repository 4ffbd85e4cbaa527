import PathOram.Structure

/-!
# Calls that throw

A call can throw after it has changed the state: the length of a payload is checked only
when the cache is uploaded at the end, and the stash can be full at any point of the loop
that copies a path into it. This module follows what such a call leaves behind through
any later calls.

* `Call.Outcome` — what the outcome of a call says about the store and the exempt IDs.
  `run_outcomes` judges any run by it.
* `rejected_put_takes_effect` — a put with a payload that is too long takes effect,
  whether it throws or not; and calls throw only while such a payload is in the store.
* `overflow_spares_other_ids` — a call cut short by a full stash costs the ID it was
  working on. All other IDs are answered as if the call had not been made, except those
  the call itself had put.
-/

namespace PathORAM

open Hoare HeapTree

variable {c : Config} {M : Type} {pm : AbsPositionMapAdapter M} {bound : ℕ}
  {R : (ℕ → Option ℕ) → M → Prop} {s : ORAM M} {kv : Store} {T : Set ℕ}

/-- The responses of a call are those of the store, with the IDs in `T` exempt. -/
def Call.AnsweredOutside (size : ℕ) (T : Set ℕ) (kv : Store) (call : Call)
    (responses : List Bytes) : Prop :=
  match call with
  | put _ _ => responses = []
  | call => Op.AnsweredOutside size T kv call.ops responses

/-- The outcome of a call, for a store and a set of exempt IDs before and after it. -/
inductive Call.Outcome (c : Config) :
    Store × Set ℕ → Call → Except Exception (List Bytes) → Store × Set ℕ → Prop
  /-- The call returned. -/
  | served {kv : Store} {T : Set ℕ} {call : Call} {responses : List Bytes}
      (h : call.AnsweredOutside c.dataSize T kv responses) :
      Outcome c (kv, T) call (.ok responses) (call.apply kv, T)
  /-- Nothing was done. -/
  | tooMany {kv : Store} {T : Set ℕ} {requests : List Block}
      (h : c.batchSize < requests.length) :
      Outcome c (kv, T) (.multiple requests)
        (.error (.tooManyRequests requests.length c.batchSize)) (kv, T)
  /-- All operations were served, but a payload was too long to be uploaded. -/
  | tooLong {kv : Store} {T : Set ℕ} {call : Call} {length : ℕ}
      (hlong : c.dataSize < length)
      (hp : T = ∅ → ∃ id p, call.apply kv id = some p ∧ p.length = length) :
      Outcome c (kv, T) call (.error (.dataTooLong length c.dataSize)) (call.apply kv, T)
  /-- The operations before `op` were served, and `op` was cut short. -/
  | overflow {kv : Store} {T : Set ℕ} {call : Call} {done rest : List Op} {op : Op}
      (hops : call.ops = done ++ op :: rest) :
      Outcome c (kv, T) call (.error (.overCapacity c.stashCapacity))
        (Op.applyAll done kv, insert op.block T)

/-- The state shows a view that holds the store `kv` outside `T`. -/
def ORAM.Holds (c : Config) (R : (ℕ → Option ℕ) → M → Prop) (kv : Store) (T : Set ℕ)
    (s : ORAM M) : Prop :=
  ∃ v, Shows c R v s ∧ v.Holds c kv T

/-- The payload that a failed upload names is one of the store. -/
theorem SyncFailed.outcome (hc : c.Valid) {call : Call} {v v₁ v' : View} {e : Exception}
    {answers : List Bytes} (hv : v.Holds c kv T) (hcall : call.Addressable c)
    (hserved : Accesses c (v.prefetch c call) call.ops answers v₁) (h : SyncFailed c v₁ e v') :
    call.Outcome c (kv, T) (.error e) (call.apply kv, T) := by
  have hv₁ := (hv.prefetch hcall.inRange).accesses hc hcall hserved
  obtain ⟨b, hb, block, hblock, hlong, rfl⟩ := h.offending
  refine .tooLong hlong ?_
  rintro rfl
  have hin := hv₁.valid.cached b hb
  by_cases hreal : Block.Real block
  · obtain ⟨p, hp, hpadding⟩ := hv₁.tracks.tree b hin block hblock hreal (Set.notMem_empty _)
    exact ⟨block.1, p, hp, by rw [hpadding.eq_of_lt hlong]⟩
  · -- a dummy is never too long
    exact absurd (hv₁.valid.dummy b hin block hblock hreal) (not_le.mpr hlong)

/-- A completed call was served. -/
theorem View.Holds.outcome_of_done (hc : c.Valid) {call : Call} {v v' : View}
    {responses : List Bytes} (hv : v.Holds c kv T) (hcall : call.Addressable c)
    (h : call.Done c v responses v') :
    call.Outcome c (kv, T) (.ok responses) (call.apply kv, T) := by
  obtain ⟨v₁, answers, hserved, rfl, -⟩ := h.served
  have hanswered := (hv.prefetch hcall.inRange).answered hc hcall hserved
  refine .served ?_
  -- the responses of a get and of a batch are those of the store, a put has none
  cases call with
  | get block => exact hanswered
  | put block data => rfl
  | multiple requests => exact hanswered

/-- **What a failed call leaves.** A call that fails at the upload has taken full effect; a
call cut short has taken effect up to the operation it was cut short at, and costs the ID
of that operation. -/
theorem View.Holds.outcome_of_failed (hc : c.Valid) {call : Call} {v v' : View} {e : Exception}
    (hv : v.Holds c kv T) (hcall : call.Addressable c) (h : call.Failed c v e v') :
    ∃ w, call.Outcome c (kv, T) (.error e) w ∧ v'.Holds c w.1 w.2 := by
  have hv₀ := hv.prefetch hcall.inRange
  cases h with
  | tooMany hmultiple h =>
    subst hmultiple
    exact ⟨_, .tooMany h, hv⟩
  | overflow _ h =>
    obtain ⟨done, op, rest, answers, leaf, v₁, hops, hserved, hoverflow⟩ := h
    -- the operations before `op` were served in full
    have hdone : ∀ op ∈ done, op.Addressable c := fun op hop =>
      hcall op (hops ▸ List.mem_append_left _ hop)
    have hop : op.Addressable c :=
      hcall op (hops ▸ List.mem_append_right _ List.mem_cons_self)
    exact ⟨_, .overflow hops, (hv₀.accesses hc hdone hserved).overflow hop hoverflow⟩
  | sync _ hserved h =>
    -- all operations were, and the upload changes nothing but paddings
    exact ⟨_, h.outcome hc hv hcall hserved, (hv₀.accesses hc hcall hserved).syncFailed hc h⟩

namespace ORAM

/-- **Any call**, completed or failed, is judged by its outcome. -/
theorem exec_outcome (hc : c.Valid) (hpm : pm.Implements c.blocks bound R False)
    (hbound : 2 ^ (c.height - 1) ≤ bound) {call : Call} (hcall : call.Addressable c)
    (hs : s.Holds c R kv T) :
    wp (exec c pm call)
      (fun responses s' => ∃ v', call.Outcome c (kv, T) (.ok responses) v' ∧
        s'.Holds c R v'.1 v'.2)
      (fun e s' => ∃ v', call.Outcome c (kv, T) (.error e) v' ∧ s'.Holds c R v'.1 v'.2) s := by
  obtain ⟨v, hshows, hv⟩ := hs
  refine wp_mono (exec_spec hc hpm hbound hv.valid hshows hcall.inRange) ?_ ?_
  · rintro responses s' ⟨v', hdone, hshows'⟩
    exact ⟨_, hv.outcome_of_done hc hcall hdone, v', hshows', hv.done hc hcall hdone⟩
  · rintro e s' (hthrow | ⟨v', hfailed, hshows'⟩)
    · exact hthrow.elim
    -- a call that throws has written to the store as well
    · obtain ⟨w, houtcome, hv'⟩ := hv.outcome_of_failed hc hcall hfailed
      exact ⟨w, houtcome, v', hshows', hv'⟩

/-- **Any run** is judged call by call. -/
theorem run_outcomes (hc : c.Valid) (hpm : pm.Implements c.blocks bound R False)
    (hbound : 2 ^ (c.height - 1) ≤ bound) {calls : List Call}
    (hcalls : ∀ call ∈ calls, call.Addressable c) (hs : s.Holds c R kv T) :
    ∃ v', Judged (Call.Outcome c) (kv, T) calls (runCatching (exec c pm) calls s).1 v' ∧
      (runCatching (exec c pm) calls s).2.Holds c R v'.1 v'.2 := by
  refine runCatching_spec (I := fun v s => ORAM.Holds c R v.1 v.2 s)
    (A := fun call => call.Addressable c) ?_ calls (kv, T) s hs hcalls
  rintro ⟨kv, T⟩ call s hs hcall
  exact exec_outcome hc hpm hbound hcall hs

/-- A freshly initialised ORAM holds the empty store. -/
theorem new_holds (hc : c.Valid) (hpm : pm.Implements c.blocks bound R False)
    (hbound : 2 ^ (c.height - 1) ≤ bound) {f : ℕ → Option ℕ} (hR : R f s.map)
    (hstash : s.stash = ∅) (hcache : s.cache = ∅) {s₁ : ORAM M}
    (hnew : new c pm true s = .ok () s₁) : s₁.Holds c R Store.empty ∅ := by
  obtain ⟨v, hfresh, hshows⟩ := (new_spec hc hpm hbound hR hstash hcache).ok hnew
  exact ⟨v, hshows, hfresh.holds hc ∅⟩

end ORAM

/-! ### Payloads that are too long -/

/-- The outcome of a call on the store `kv` when no access is cut short: the call is
served; or it throws because it takes too many requests, and has no effect; or it throws
because a payload of the store is too long, and has taken effect all the same. -/
inductive Call.ServesOrRejects (c : Config) (kv : Store) (call : Call) :
    Except Exception (List Bytes) → Store → Prop
  | served {responses : List Bytes} (h : call.Answered c.dataSize kv responses) :
      ServesOrRejects c kv call (.ok responses) (call.apply kv)
  | tooMany {requests : List Block} (hcall : call = .multiple requests)
      (h : c.batchSize < requests.length) :
      ServesOrRejects c kv call (.error (.tooManyRequests requests.length c.batchSize)) kv
  | tooLong {id : ℕ} {p : Bytes} (hp : call.apply kv id = some p)
      (hlong : c.dataSize < p.length) :
      ServesOrRejects c kv call (.error (.dataTooLong p.length c.dataSize)) (call.apply kv)

theorem Call.answered_of_outside {size : ℕ} {call : Call} {responses : List Bytes}
    (h : call.AnsweredOutside size ∅ kv responses) : call.Answered size kv responses := by
  cases call with
  | get block => exact Op.answeredAll_of_outside h
  | put block data => exact h
  | multiple requests => exact Op.answeredAll_of_outside h

/-- The stash did not overflow in a run with these outcomes. -/
def NoOverflow (os : List (Except Exception (List Bytes))) : Prop :=
  ∀ o ∈ os, ∀ capacity, o ≠ .error (.overCapacity capacity)

/-- Without an overflow no ID becomes exempt. -/
theorem serves_of_outcomes {calls : List Call} {os : List (Except Exception (List Bytes))}
    {v v' : Store × Set ℕ} (h : Judged (Call.Outcome c) v calls os v') (hT : v.2 = ∅)
    (hos : NoOverflow os) : Judged (Call.ServesOrRejects c) v.1 calls os v'.1 := by
  -- on the run: without an overflow no ID becomes uncertain
  induction h with
  | nil v => exact .nil _
  | cons head _ ih =>
    obtain ⟨hhead, htail⟩ := List.forall_mem_cons.mp hos
    cases head with
    | served h =>
      obtain rfl : _ = (∅ : Set ℕ) := hT
      exact .cons (.served (Call.answered_of_outside h)) (ih rfl htail)
    | tooMany h => exact .cons (.tooMany rfl h) (ih hT htail)
    | tooLong hlong hp =>
      obtain ⟨id, p, hkv, rfl⟩ := hp hT
      exact .cons (.tooLong hkv hlong) (ih hT htail)
    | overflow _ => exact absurd rfl (hhead _)

/-- **A rejected put takes effect.** Any run is judged by `Call.Outcome`. If the stash did
not overflow, every call that returns is answered by the store in which all puts so far took
effect, those that threw included; and a call throws "data too long" only when it leaves a
payload in the store that is too long. -/
theorem rejected_put_takes_effect (hc : c.Valid) (cs : List Config)
    (hserves : MapState.Serves cs c.blocks) (hstashes : ¬MapState.MayOverflow cs c.blocks)
    {s₀ s₁ : ORAM (MapState cs)} (hmap : MapState.Fresh cs c.blocks s₀.map)
    (hstash : s₀.stash = ∅) (hcache : s₀.cache = ∅)
    (hnew : ORAM.new c (mapAdapter cs) true s₀ = .ok () s₁) {calls : List Call}
    (hcalls : ∀ call ∈ calls, call.Addressable c) :
    ∃ v, Judged (Call.Outcome c) (Store.empty, ∅) calls
        (runCatching (ORAM.exec c (mapAdapter cs)) calls s₁).1 v ∧
      (NoOverflow (runCatching (ORAM.exec c (mapAdapter cs)) calls s₁).1 →
        Judged (Call.ServesOrRejects c) Store.empty calls
          (runCatching (ORAM.exec c (mapAdapter cs)) calls s₁).1 v.1) := by
  obtain ⟨f, hf⟩ := MapState.exists_holds hserves hmap
  have hpm := MapState.mapAdapter_implements hserves
  -- the stashes of the recursive maps cannot overflow, so the map never throws
  rw [eq_false hstashes] at hpm
  have hbound := MapState.two_pow_height_le hc
  have hs₁ := ORAM.new_holds hc hpm hbound hf hstash hcache hnew
  obtain ⟨v, hjudged, -⟩ := ORAM.run_outcomes hc hpm hbound hcalls hs₁
  exact ⟨v, hjudged, serves_of_outcomes hjudged rfl⟩

theorem rejected_put_takes_effect_tiny :
    ∃ v, Judged (Call.Outcome (Config.tiny 1 2)) (Store.empty, ∅)
        [.put 0 [7], .put 0 (List.replicate 33 5), .get 0]
        (runCatching (ORAM.exec (Config.tiny 1 2) (mapAdapter []))
          [.put 0 [7], .put 0 (List.replicate 33 5), .get 0]
          (ORAM.tiny 1 2 (Random.ofLeaves (Stream'.const 0)))).1 v ∧
      (NoOverflow (runCatching (ORAM.exec (Config.tiny 1 2) (mapAdapter []))
          [.put 0 [7], .put 0 (List.replicate 33 5), .get 0]
          (ORAM.tiny 1 2 (Random.ofLeaves (Stream'.const 0)))).1 →
        Judged (Call.ServesOrRejects (Config.tiny 1 2)) Store.empty
          [.put 0 [7], .put 0 (List.replicate 33 5), .get 0]
          (runCatching (ORAM.exec (Config.tiny 1 2) (mapAdapter []))
            [.put 0 [7], .put 0 (List.replicate 33 5), .get 0]
            (ORAM.tiny 1 2 (Random.ofLeaves (Stream'.const 0)))).1 v.1) := by
  exact rejected_put_takes_effect (Config.tiny_valid le_rfl (by norm_num) 2) [] trivial not_false
    (by exact (by decide : 2 ≤ 8)) rfl rfl (ORAM.new_tiny le_rfl (by norm_num) 2 _) (by decide)

/-- A put of 33 bytes to blocks of 32 bytes returns normally when its block stays in the
stash; and when it throws, the ID is lost to all later reads. -/
theorem rejected_put_not_undone :
    (runCatching (ORAM.exec (Config.tiny 2 2) (mapAdapter []))
        [.put 1 [9], .put 0 (List.replicate 33 5)]
        (ORAM.tiny 2 2 ⟨fun i => if i < 4 then 0 else 1, Stream'.const 1, Stream'.const 0,
          Stream'.const 0⟩)).1 = [.ok [], .ok []] ∧
      (runCatching (ORAM.exec (Config.tiny 1 2) (mapAdapter []))
        [.put 0 [7], .put 0 (List.replicate 33 5), .get 0]
        (ORAM.tiny 1 2 (Random.ofLeaves (Stream'.const 0)))).1 =
          [.ok [], .error (.dataTooLong 33 32), .error (.dataTooLong 33 32)] ∧
      (runCatching (ORAM.exec (Config.tiny 1 2) (mapAdapter [])) [.put 0 [7], .get 0]
        (ORAM.tiny 1 2 (Random.ofLeaves (Stream'.const 0)))).1 =
          [.ok [], .ok [7 :: List.replicate 31 0]] := by
  decide +kernel

/-! ### Calls cut short by a full stash -/

/-- A completed call is answered as the store `kv` answers it, with the IDs in `T`
exempt. -/
def Call.ServesOutside (size : ℕ) (T : Set ℕ) (kv : Store) (call : Call)
    (o : Except Exception (List Bytes)) (kv' : Store) : Prop :=
  ∃ responses, o = .ok responses ∧ call.AnsweredOutside size T kv responses ∧
    kv' = call.apply kv

section Exempt

variable {kv' : Store} {U : Set ℕ} {size : ℕ}

theorem Op.answered_congr {op : Op} {response : Bytes} (h : kv op.block = kv' op.block)
    (hanswer : op.Answered size kv response) : op.Answered size kv' response := by
  cases op with
  | read block =>
    change kv block = kv' block at h
    simpa only [Op.Answered, h] using hanswer
  | write block data => exact hanswer

/-- Stores that agree outside `U` agree there after any operation. -/
theorem Op.apply_congr (op : Op) (h : ∀ id ∉ U, kv id = kv' id) :
    ∀ id ∉ U, op.apply kv id = op.apply kv' id := by
  intro id hid
  cases op with
  | read block => exact h id hid
  | write block data =>
    change Function.update kv block (some data) id = Function.update kv' block (some data) id
    -- both stores get the same payload at the ID that is written
    by_cases heq : id = block
    · rw [heq, Function.update_self, Function.update_self]
    · rw [Function.update_of_ne heq, Function.update_of_ne heq]
      exact h id hid

theorem Op.applyAll_congr (ops : List Op) (h : ∀ id ∉ U, kv id = kv' id) :
    ∀ id ∉ U, Op.applyAll ops kv id = Op.applyAll ops kv' id := by
  induction ops generalizing kv kv' with
  | nil => exact h
  | cons op ops ih => exact ih (op.apply_congr h)

/-- Operations leave the IDs alone that they do not write. -/
theorem Op.applyAll_of_notMem (ops : List Op) {id : ℕ} (h : id ∉ Op.puts ops) (kv : Store) :
    Op.applyAll ops kv id = kv id := by
  induction ops generalizing kv with
  | nil => rfl
  | cons op ops ih =>
    cases op with
    | read block => exact ih h kv
    | write block data =>
      rw [Op.puts, Finset.mem_insert, not_or] at h
      rw [Op.applyAll_cons, ih h.2]
      exact Op.apply_of_ne (.write block data) h.1 kv

theorem Op.AnsweredOutside.mono {ops : List Op} {responses : List Bytes} (hT : T ⊆ U)
    (h : ∀ id ∉ U, kv id = kv' id) (hanswers : Op.AnsweredOutside size T kv ops responses) :
    Op.AnsweredOutside size U kv' ops responses := by
  induction ops generalizing kv kv' responses with
  | nil => exact hanswers
  | cons op ops ih =>
    obtain ⟨response, rest, rfl, hanswer, hrest⟩ := hanswers
    refine ⟨response, rest, rfl, fun hop => ?_, ih (op.apply_congr h) hrest⟩
    exact Op.answered_congr (h _ hop) (hanswer fun hmem => hop (hT hmem))

theorem Call.AnsweredOutside.mono {call : Call} {responses : List Bytes} (hT : T ⊆ U)
    (h : ∀ id ∉ U, kv id = kv' id) (hanswers : call.AnsweredOutside size T kv responses) :
    call.AnsweredOutside size U kv' responses := by
  cases call with
  | get block => exact Op.AnsweredOutside.mono hT h hanswers
  | put block data => exact hanswers
  | multiple requests => exact Op.AnsweredOutside.mono hT h hanswers

/-- A run of completed calls, judged with more IDs exempt by a store that agrees on the
others. -/
theorem servesOutside_of_outcomes {calls : List Call}
    {os : List (Except Exception (List Bytes))} {v v' : Store × Set ℕ}
    (h : Judged (Call.Outcome c) v calls os v') (hok : ∀ o ∈ os, ∃ responses, o = .ok responses)
    (hT : v.2 ⊆ U) (hkv : ∀ id ∉ U, v.1 id = kv id) :
    ∃ kv', Judged (Call.ServesOutside c.dataSize U) kv calls os kv' := by
  induction h generalizing kv with
  | nil v => exact ⟨kv, .nil kv⟩
  | cons head _ ih =>
    obtain ⟨⟨responses, rfl⟩, htail⟩ := List.forall_mem_cons.mp hok
    cases head with
    | served h =>
      -- the two stores still agree outside the uncertain IDs
      obtain ⟨kv', hkv'⟩ := ih htail hT (Op.applyAll_congr _ hkv)
      exact ⟨kv', .cons ⟨responses, rfl, h.mono hT hkv, rfl⟩ hkv'⟩

end Exempt

/-- **A stash overflow costs one ID.** A call that fails because the stash is full was cut
short at one of its operations. Any later calls that complete are answered as if it had not
been made, except on the ID of that operation, and on those the call had put before. -/
theorem overflow_spares_other_ids (hc : c.Valid) (cs : List Config)
    (hserves : MapState.Serves cs c.blocks) (hstashes : ¬MapState.MayOverflow cs c.blocks)
    {s₀ s₁ : ORAM (MapState cs)} (hmap : MapState.Fresh cs c.blocks s₀.map)
    (hstash : s₀.stash = ∅) (hcache : s₀.cache = ∅)
    (hnew : ORAM.new c (mapAdapter cs) true s₀ = .ok () s₁) {before after : List Call}
    {call : Call} (hbefore : ∀ call ∈ before, call.Addressable c) (hcall : call.Addressable c)
    (hafter : ∀ call ∈ after, call.Addressable c) {s s' : ORAM (MapState cs)}
    (hs : (runCatching (ORAM.exec c (mapAdapter cs)) before s₁).2 = s) {capacity : ℕ}
    (hfails : ORAM.exec c (mapAdapter cs) call s = .error (.overCapacity capacity) s')
    (hok : ∀ o ∈ (runCatching (ORAM.exec c (mapAdapter cs)) after s').1,
      ∃ responses, o = .ok responses) :
    ∃ kv T, Judged (Call.Outcome c) (Store.empty, ∅) before
        (runCatching (ORAM.exec c (mapAdapter cs)) before s₁).1 (kv, T) ∧
      ∃ done op rest, call.ops = done ++ op :: rest ∧
        (∃ kv', Judged (Call.ServesOutside c.dataSize (insert op.block T ∪ Op.puts done)) kv
          after (runCatching (ORAM.exec c (mapAdapter cs)) after s').1 kv') ∧
        ((∀ o ∈ (runCatching (ORAM.exec c (mapAdapter cs)) after s).1,
            ∃ responses, o = .ok responses) →
          ∃ kv', Judged (Call.ServesOutside c.dataSize T) kv after
            (runCatching (ORAM.exec c (mapAdapter cs)) after s).1 kv') := by
  obtain ⟨f, hf⟩ := MapState.exists_holds hserves hmap
  have hpm := MapState.mapAdapter_implements hserves
  rw [eq_false hstashes] at hpm
  have hbound := MapState.two_pow_height_le hc
  have hs₁ := ORAM.new_holds hc hpm hbound hf hstash hcache hnew
  obtain ⟨⟨kv, T⟩, hjudged, hholds⟩ := ORAM.run_outcomes hc hpm hbound hbefore hs₁
  rw [hs] at hholds
  refine ⟨kv, T, hjudged, ?_⟩
  obtain ⟨v', houtcome, hholds'⟩ := (ORAM.exec_outcome hc hpm hbound hcall hholds).error hfails
  cases houtcome with
  | overflow hops =>
    rename_i done rest op
    refine ⟨done, op, rest, hops, ?_, fun hok' => ?_⟩
    · obtain ⟨v'', hjudged', -⟩ := ORAM.run_outcomes hc hpm hbound hafter hholds'
      refine servesOutside_of_outcomes hjudged' hok Set.subset_union_left fun id hid => ?_
      -- the operations before the one cut short have taken effect
      exact Op.applyAll_of_notMem done (fun hmem => hid (Or.inr hmem)) kv
    · obtain ⟨v'', hjudged', -⟩ := ORAM.run_outcomes hc hpm hbound hafter hholds
      exact servesOutside_of_outcomes hjudged' hok' (Set.Subset.refl T) fun _ _ => rfl

/-- The random source of a run whose third call overflows a stash of one block. -/
def Random.overflowing : Random :=
  ⟨fun i => [0, 1, 0, 0, 0, 0, 0, 0, 0, 2, 3, 2].getD i 0, Stream'.const 0, Stream'.const 0,
    Stream'.const 2⟩

theorem overflow_spares_other_ids_tiny :
    ∃ kv T, Judged (Call.Outcome (Config.tiny 3 1)) (Store.empty, ∅) [.put 0 [7], .put 1 [9]]
        (runCatching (ORAM.exec (Config.tiny 3 1) (mapAdapter [])) [.put 0 [7], .put 1 [9]]
          (ORAM.tiny 3 1 .overflowing)).1 (kv, T) ∧
      ∃ done op rest, (Call.get 0).ops = done ++ op :: rest ∧
        (∃ kv', Judged (Call.ServesOutside 32 (insert op.block T ∪ Op.puts done)) kv
          [.get 1, .get 0] (runCatching (ORAM.exec (Config.tiny 3 1) (mapAdapter []))
            [.get 1, .get 0] (runCatching (ORAM.exec (Config.tiny 3 1) (mapAdapter []))
              [.get 0] (runCatching (ORAM.exec (Config.tiny 3 1) (mapAdapter []))
                [.put 0 [7], .put 1 [9]] (ORAM.tiny 3 1 .overflowing)).2).2).1 kv') ∧
        ((∀ o ∈ (runCatching (ORAM.exec (Config.tiny 3 1) (mapAdapter [])) [.get 1, .get 0]
            (runCatching (ORAM.exec (Config.tiny 3 1) (mapAdapter []))
              [.put 0 [7], .put 1 [9]] (ORAM.tiny 3 1 .overflowing)).2).1,
            ∃ responses, o = .ok responses) →
          ∃ kv', Judged (Call.ServesOutside 32 T) kv [.get 1, .get 0]
            (runCatching (ORAM.exec (Config.tiny 3 1) (mapAdapter [])) [.get 1, .get 0]
              (runCatching (ORAM.exec (Config.tiny 3 1) (mapAdapter []))
                [.put 0 [7], .put 1 [9]] (ORAM.tiny 3 1 .overflowing)).2).1 kv') := by
  have hfails : (runCatching (ORAM.exec (Config.tiny 3 1) (mapAdapter [])) [.get 0]
      (runCatching (ORAM.exec (Config.tiny 3 1) (mapAdapter [])) [.put 0 [7], .put 1 [9]]
        (ORAM.tiny 3 1 .overflowing)).2).1 = [.error (.overCapacity 1)] := by
    decide +kernel
  exact overflow_spares_other_ids (Config.tiny_valid (by norm_num) (by norm_num) 1) [] trivial
    not_false (by exact le_refl 8) rfl rfl (ORAM.new_tiny (by norm_num) le_rfl 1 _) (by decide)
    (by decide) (by decide) rfl (exec_of_runCatching hfails)
    (ok_of_toBool (by decide +kernel))

/-- A `get` that overflowed the stash makes a later `get` of the same ID miss its block. -/
theorem overflow_loses_data :
    (runCatching (ORAM.exec (Config.tiny 3 1) (mapAdapter []))
        [.put 0 [7], .put 1 [9], .get 0, .get 1, .get 0] (ORAM.tiny 3 1 .overflowing)).1 =
          [.ok [], .ok [], .error (.overCapacity 1), .ok [9 :: List.replicate 31 0],
            .ok [[]]] ∧
      (runCatching (ORAM.exec (Config.tiny 3 1) (mapAdapter []))
        [.put 0 [7], .put 1 [9], .get 1, .get 0] (ORAM.tiny 3 1 .overflowing)).1 =
          [.ok [], .ok [], .ok [9 :: List.replicate 31 0], .ok [7 :: List.replicate 31 0]] := by
  decide +kernel

end PathORAM
