import PathOram.Structure

/-!
# Two runs return the same payloads

A response is the payload that was put last. It is as it was put when the block has not
left the client since, and padded to the block size when it came back from the storage;
which of the two happens depends on the random draws. So two runs of the same calls agree up
to that padding, and to the byte when every payload fills its block.

* `Kept` — a payload as it was put or padded.
* `View.Exact` — the invariant: every block of tree and stash is `Kept`.
* `responses_agree` — the two runs.
-/

namespace PathORAM

open Hoare HeapTree AbsStorageAdapter

variable {c : Config} {v v' : View} {op : Op} {leaf : ℕ} {stash : InMemoryStashAdapter}
  {response : Bytes} {kv : Store} {ops : List Op} {answers answers' responses : List Bytes}
  {call : Call} {size : ℕ} {p d d' : Bytes}

/-- `d` is the payload `p` as it was put, or padded to `size`. -/
def Kept (size : ℕ) (p d : Bytes) : Prop := d = p ∨ d = padTo size p

theorem Kept.refl (size : ℕ) (p : Bytes) : Kept size p p := Or.inl rfl

/-- A payload that fills its block is kept as it was put. -/
theorem Kept.eq_of_le (h : Kept size p d) (hp : size ≤ p.length) : d = p :=
  h.elim id fun h => h.trans (padTo_of_le hp)

/-- A payload that is padded in place was as it was put, or filled its block already. -/
theorem Kept.touched (hc : c.Valid) {e e' : Block} (h : Kept c.dataSize p e.2)
    (htouched : Touched c.storage e e') : Kept c.dataSize p e'.2 := by
  rcases htouched.2 with heq | ⟨hle, heq⟩
  · rwa [heq]
  rw [heq, hc.dataSize_eq]
  rcases h with hput | hpadded
  · rw [hput]
    exact Or.inr rfl
  · rw [hc.dataSize_eq] at hle
    refine Or.inr ?_
    rw [hpadded] at hle ⊢
    exact padTo_of_le (by unfold padTo; rw [List.length_append, List.length_replicate]; omega)

/-! ### The invariant -/

/-- Every block holds the payload put last, as it was put or padded. -/
structure View.Exact (c : Config) (kv : Store) (v : View) : Prop where
  tree : ∀ b, InTree c.height b → ∀ e ∈ v.tree b, Block.Real e →
    ∃ p, kv e.1 = some p ∧ Kept c.dataSize p e.2
  stash : ∀ id d, v.stash.lookup id = some d → ∃ p, kv id = some p ∧ Kept c.dataSize p d

/-- What an absorbed and served stash holds. -/
theorem View.Exact.serve (hx : v.Exact c kv) (op : Op) (hleaf : leaf < 2 ^ (c.height - 1))
    (h : Absorbs c v leaf stash) {id : ℕ} (hd : (op.serve stash).lookup id = some d) :
    ∃ p, op.apply kv id = some p ∧ Kept c.dataSize p d := by
  -- what was absorbed is from the stash or from a bucket of the path
  have habsorbed : ∀ d, stash.lookup id = some d →
      ∃ p, kv id = some p ∧ Kept c.dataSize p d := by
    intro d hd
    rcases h.source id d hd with hs | ⟨hreal, b, hb, hmem⟩
    · exact hx.stash id d hs
    · exact hx.tree b (Config.inTree_of_mem_path hleaf hb) (id, d) hmem hreal
  -- the payload that is put, or one that was absorbed
  rcases Op.lookup_serve_cases hd with rfl | ⟨hd, happly⟩
  · exact ⟨d, Op.apply_write_self _ _ _, .refl _ _⟩
  · rw [happly]
    exact habsorbed d hd

/-- **An access keeps every payload.** -/
theorem View.Exact.access (hv : v.Holds c kv ∅) (hx : v.Exact c kv) (hop : op.block < c.blocks)
    (h : Access c v op leaf stash response v') : v'.Exact c (op.apply kv) := by
  have hleaf := hv.valid.leaf_lt hop h.pos
  refine ⟨fun b hb e he hreal => ?_, fun id d hd =>
    hx.serve op hleaf h.absorbs.toAbsorbs (h.evicts.kept id d hd)⟩
  by_cases hpath : b ∈ c.path leaf
  · exact hx.serve op hleaf h.absorbs.toAbsorbs (h.evicts.source b hpath e he hreal)
  -- A block off the path is not one of the operation's ID.
  · rw [h.evicts.off_path b hpath] at he
    have hne : e.1 ≠ op.block := fun heq =>
      hpath (hv.tracks.mem_path_of_block h.pos hleaf (Set.notMem_empty _) hb he hreal heq)
    rw [Op.apply_of_ne op hne]
    exact hx.tree b hb e he hreal

theorem View.Exact.sync (hc : c.Valid) (hx : v.Exact c kv) (h : Sync c v v') :
    v'.Exact c kv := by
  refine ⟨fun b hb e' he' hreal => ?_, h.stash' ▸ hx.stash⟩
  obtain ⟨e, he, htouched⟩ := h.exists_block he'
  obtain ⟨p, hp, hkept⟩ := hx.tree b hb e he ((Block.real_of_touched htouched).mp hreal)
  exact ⟨p, htouched.1 ▸ hp, hkept.touched hc htouched⟩

theorem View.Exact.prefetch (hx : v.Exact c kv) (call : Call) :
    (v.prefetch c call).Exact c kv := by
  cases call with
  | get _ => exact hx
  | put _ _ => exact hx
  | multiple _ => exact ⟨hx.tree, hx.stash⟩

/-- A fresh view has no blocks. -/
theorem View.Fresh.exact {coins : Stream' ℕ} (h : v.Fresh c coins) :
    v.Exact c Store.empty where
  tree _ hb _ he hreal := absurd hreal (h.not_real hb he)
  stash id _ hd := absurd (mem_of_lookup hd) (h.not_mem_stash id)

/-! ### Responses -/

/-- The response to an operation: nothing for an ID that was never put, otherwise the
payload put last, as it was put or padded to `size`. -/
def Op.Determined (size : ℕ) (kv : Store) : Op → Bytes → Prop
  | read block, response =>
    match kv block with
    | none => response = []
    | some p => Kept size p response
  | write _ data, response => response = data

/-- The responses to several operations. -/
def Op.DeterminedAll (size : ℕ) : Store → List Op → List Bytes → Prop
  | _, [], responses => responses = []
  | kv, op :: ops, responses =>
    ∃ response rest, responses = response :: rest ∧ op.Determined size kv response ∧
      DeterminedAll size (op.apply kv) ops rest

/-- The responses of a call. -/
def Call.Determined (size : ℕ) (kv : Store) (call : Call) (responses : List Bytes) : Prop :=
  match call with
  | put _ _ => responses = []
  | call => Op.DeterminedAll size kv call.ops responses

/-- The outcome `o` of a call from the store `kv`, which becomes `kv'`. -/
def Call.ServesExactly (size : ℕ) (kv : Store) (call : Call)
    (o : Except Exception (List Bytes)) (kv' : Store) : Prop :=
  ∃ responses, o = .ok responses ∧ call.Determined size kv responses ∧ kv' = call.apply kv

/-- Two responses are the same payload, up to padding. -/
def Alike (size : ℕ) (d d' : Bytes) : Prop := ∃ p, Kept size p d ∧ Kept size p d'

/-- Two outcomes have corresponding responses that are alike. -/
def Outcome.Alike (size : ℕ) (o o' : Except Exception (List Bytes)) : Prop :=
  ∃ responses responses', o = .ok responses ∧ o' = .ok responses' ∧
    List.Forall₂ (PathORAM.Alike size) responses responses'

/-- An operation whose payload fills its block. -/
def Op.Full (size : ℕ) : Op → Prop
  | .read _ => True
  | .write _ data => data.length = size

theorem Op.full_read (block size : ℕ) : (Op.read block).Full size := trivial

/-- Every payload of the store fills its block. -/
def Store.Full (size : ℕ) (kv : Store) : Prop := ∀ id p, kv id = some p → p.length = size

theorem Store.Full.apply (h : kv.Full size) (hop : op.Full size) :
    (op.apply kv : Store).Full size := by
  intro id p hp
  rcases Op.apply_cases hp with rfl | hp
  · exact hop
  · exact h id p hp

theorem Store.Full.applyAll (h : kv.Full size) (hops : ∀ op ∈ ops, op.Full size) :
    Store.Full size (Op.applyAll ops kv) := by
  intro id p hp
  rcases Op.applyAll_cases hp with hmem | hp
  · exact hops _ hmem
  · exact h id p hp

/-- Two responses to one operation are alike. -/
theorem Op.Determined.alike (h : op.Determined size kv d) (h' : op.Determined size kv d') :
    Alike size d d' := by
  cases op with
  | write block data => exact ⟨data, h ▸ .refl _ _, h' ▸ .refl _ _⟩
  | read block =>
    cases hkv : kv block with
    | none =>
      simp only [Determined, hkv] at h h'
      exact ⟨[], h ▸ .refl _ _, h' ▸ .refl _ _⟩
    | some p =>
      simp only [Determined, hkv] at h h'
      exact ⟨p, h, h'⟩

/-- In a store of full payloads a response is settled. -/
theorem Op.Determined.eq (hkv : kv.Full size) (h : op.Determined size kv d)
    (h' : op.Determined size kv d') : d = d' := by
  cases op with
  | write block data => exact h.trans h'.symm
  | read block =>
    cases hblock : kv block with
    -- an ID that was not put is read as nothing, in both
    | none =>
      simp only [Determined, hblock] at h h'
      exact h.trans h'.symm
    -- a full payload leaves no room for padding
    | some p =>
      simp only [Determined, hblock] at h h'
      have hle : size ≤ p.length := (hkv block p hblock).ge
      exact (h.eq_of_le hle).trans (h'.eq_of_le hle).symm

theorem Op.DeterminedAll.alike (h : DeterminedAll size kv ops answers)
    (h' : DeterminedAll size kv ops answers') : List.Forall₂ (Alike size) answers answers' := by
  induction ops generalizing kv answers answers' with
  | nil =>
    obtain rfl : answers = [] := h
    obtain rfl : answers' = [] := h'
    exact .nil
  | cons op ops ih =>
    obtain ⟨response, rest, rfl, hhead, hrest⟩ := h
    obtain ⟨response', rest', rfl, hhead', hrest'⟩ := h'
    exact .cons (hhead.alike hhead') (ih hrest hrest')

theorem Op.DeterminedAll.eq (hkv : kv.Full size) (hops : ∀ op ∈ ops, op.Full size)
    (h : DeterminedAll size kv ops answers) (h' : DeterminedAll size kv ops answers') :
    answers = answers' := by
  induction ops generalizing kv answers answers' with
  | nil => exact Eq.trans h (Eq.symm h')
  | cons op ops ih =>
    obtain ⟨response, rest, rfl, hhead, hrest⟩ := h
    obtain ⟨response', rest', rfl, hhead', hrest'⟩ := h'
    rw [hhead.eq hkv hhead', ih (hkv.apply (hops op List.mem_cons_self))
      (fun op hop => hops op (List.mem_cons_of_mem _ hop)) hrest hrest']

/-! ### Calls -/

/-- **Each operation is answered with a kept payload.** -/
theorem View.Exact.determined (hv : v.Holds c kv ∅) (hx : v.Exact c kv)
    (hop : op.block < c.blocks) (h : Access c v op leaf stash response v') :
    op.Determined c.dataSize kv response := by
  have hleaf := hv.valid.leaf_lt hop h.pos
  have hanswered := hv.tracks.answered hv.valid hop (Set.notMem_empty _) h
  cases op with
  | write block data => exact hanswered
  | read block =>
    have hresponse : response = (stash.lookup block).getD [] := h.response_eq
    cases hlookup : stash.lookup block with
    | some d =>
      obtain ⟨p, hp, hkept⟩ := hx.serve (.read block) hleaf h.absorbs.toAbsorbs hlookup
      have hp : kv block = some p := hp
      simp only [Op.Determined, hp]
      rw [hresponse, hlookup]
      exact hkept
    -- Nothing is returned for an ID that was never put, or put with an empty payload.
    | none =>
      obtain rfl : response = [] := by rw [hresponse, hlookup]; rfl
      cases hkv : kv block with
      | none => simp only [Op.Determined, hkv]
      | some p =>
        rw [Op.answered_read_some hkv] at hanswered
        obtain ⟨zeros, hzeros, -⟩ := hanswered
        obtain ⟨rfl, -⟩ := List.append_eq_nil_iff.mp hzeros.symm
        simp only [Op.Determined, hkv]
        exact .refl _ _

theorem View.Exact.accesses (hc : c.Valid) (hv : v.Holds c kv ∅) (hx : v.Exact c kv)
    (hops : ∀ op ∈ ops, op.Addressable c) (h : Accesses c v ops answers v') :
    v'.Exact c (Op.applyAll ops kv) ∧ Op.DeterminedAll c.dataSize kv ops answers := by
  induction h generalizing kv with
  | nil v => exact ⟨hx, rfl⟩
  | cons head _ ih =>
    have hop := hops _ List.mem_cons_self
    obtain ⟨hx', hrest⟩ := ih (hv.access hc hop head) (hx.access hv hop.1 head)
      fun op hop => hops op (List.mem_cons_of_mem _ hop)
    exact ⟨hx', _, _, rfl, hx.determined hv hop.1 head, hrest⟩

/-- **A completed call** keeps every payload and returns kept ones. -/
theorem View.Exact.done (hc : c.Valid) (hv : v.Holds c kv ∅) (hx : v.Exact c kv)
    (hcall : call.Addressable c) (h : call.Done c v responses v') :
    v'.Exact c (call.apply kv) ∧ call.Determined c.dataSize kv responses := by
  obtain ⟨v₁, answers, hserved, rfl, hsynced⟩ := h.served
  obtain ⟨hx', hanswers⟩ := (hx.prefetch call).accesses hc (hv.prefetch hcall.inRange) hcall
    hserved
  refine ⟨hx'.sync hc hsynced.toSync, ?_⟩
  cases call with
  | get block => exact hanswers
  | put block data => rfl
  | multiple requests => exact hanswers

/-- Two outcomes of one call. -/
theorem Call.Determined.alike {responses' : List Bytes} (h : call.Determined size kv responses)
    (h' : call.Determined size kv responses') : List.Forall₂ (Alike size) responses responses' := by
  cases call with
  | get block => exact Op.DeterminedAll.alike h h'
  | put block data =>
    obtain rfl : responses = [] := h
    obtain rfl : responses' = [] := h'
    exact .nil
  | multiple requests => exact Op.DeterminedAll.alike h h'

theorem Call.Determined.eq {responses' : List Bytes} (hkv : kv.Full size)
    (hcall : ∀ op ∈ call.ops, op.Full size) (h : call.Determined size kv responses)
    (h' : call.Determined size kv responses') : responses = responses' := by
  cases call with
  | get block => exact Op.DeterminedAll.eq hkv hcall h h'
  | put block data => exact Eq.trans h (Eq.symm h')
  | multiple requests => exact Op.DeterminedAll.eq hkv hcall h h'

/-! ### Runs -/

section Runs

variable {M : Type} {pm : AbsPositionMapAdapter M} {bound : ℕ}
  {R : (ℕ → Option ℕ) → M → Prop} {mayThrow : Prop} {s : ORAM M} {calls : List Call}
  {os os' : List (Except Exception (List Bytes))} {kv₁ kv₂ : Store}

/-- A state between two calls that holds the store `kv`, every payload of it as it was put
or padded. -/
def ORAM.HoldsExactly (c : Config) (R : (ℕ → Option ℕ) → M → Prop) (kv : Store)
    (s : ORAM M) : Prop :=
  ∃ v, Shows c R v s ∧ v.Holds c kv ∅ ∧ v.Exact c kv ∧ v.cached = ∅

namespace ORAM

/-- **One call that completes.** -/
theorem exec_exact (hc : c.Valid) (hpm : pm.Implements c.blocks bound R mayThrow)
    (hbound : 2 ^ (c.height - 1) ≤ bound) (hcall : call.Addressable c)
    (hs : s.HoldsExactly c R kv) :
    wp (exec c pm call) (fun responses s' => call.Determined c.dataSize kv responses ∧
      s'.HoldsExactly c R (call.apply kv)) (fun _ _ => True) s := by
  obtain ⟨v, hshows, hv, hx, -⟩ := hs
  refine wp_mono (exec_spec hc hpm hbound hv.valid hshows hcall.inRange) ?_
    fun _ _ _ => trivial
  rintro responses s' ⟨v', hdone, hshows'⟩
  obtain ⟨hx', hdetermined⟩ := hx.done hc hv hcall hdone
  obtain ⟨v₁, answers, -, -, hsynced⟩ := hdone.served
  exact ⟨hdetermined, v', hshows', hv.done hc hcall hdone, hx', hsynced.cached'⟩

/-- **A run of calls that complete.** -/
theorem run_exact (hc : c.Valid) (hpm : pm.Implements c.blocks bound R mayThrow)
    (hbound : 2 ^ (c.height - 1) ≤ bound) (hcalls : ∀ call ∈ calls, call.Addressable c)
    (hs : s.HoldsExactly c R kv)
    (hok : ∀ o ∈ (runCatching (exec c pm) calls s).1, ∃ responses, o = .ok responses) :
    Judged (Call.ServesExactly c.dataSize) kv calls (runCatching (exec c pm) calls s).1
        (Op.applyAll (calls.flatMap Call.ops) kv) ∧
      (runCatching (exec c pm) calls s).2.HoldsExactly c R
        (Op.applyAll (calls.flatMap Call.ops) kv) := by
  -- on the calls; the run has not thrown so far
  induction calls generalizing kv s with
  | nil => exact ⟨.nil kv, hs⟩
  | cons call calls ih =>
    have hstep := exec_exact hc hpm hbound (hcalls call List.mem_cons_self) hs
    cases hexec : exec c pm call s with
    | ok responses s' =>
      rw [runCatching_cons_ok hexec] at hok ⊢
      rw [List.flatMap_cons, Op.applyAll_append]
      obtain ⟨hdetermined, hs'⟩ := hstep.ok hexec
      obtain ⟨hjudged, hfinal⟩ := ih (fun call' h => hcalls call' (List.mem_cons_of_mem _ h)) hs'
        fun o ho => hok o (List.mem_cons_of_mem _ ho)
      exact ⟨.cons ⟨responses, rfl, hdetermined, rfl⟩ hjudged, hfinal⟩
    | error e s' =>
      rw [runCatching_cons_error hexec] at hok
      obtain ⟨responses, h⟩ := hok _ List.mem_cons_self
      exact absurd h (by simp)

/-- A freshly initialised ORAM holds the empty store. -/
theorem new_exact (hc : c.Valid) (hpm : pm.Implements c.blocks bound R mayThrow)
    (hbound : 2 ^ (c.height - 1) ≤ bound) {f : ℕ → Option ℕ} (hR : R f s.map)
    (hstash : s.stash = ∅) (hcache : s.cache = ∅) :
    wp (new c pm true) (fun _ s' => s'.HoldsExactly c R Store.empty) (fun _ _ => mayThrow) s := by
  refine wp_mono (new_spec hc hpm hbound hR hstash hcache) ?_ fun _ _ h => h
  rintro _ s' ⟨v, hfresh, hshows⟩
  exact ⟨v, hshows, hfresh.holds hc ∅, hfresh.exact, hfresh.cached⟩

end ORAM

/-- Two runs of the same calls return the same payloads. -/
theorem Call.ServesExactly.judged_alike (h : Judged (Call.ServesExactly size) kv calls os kv₁)
    (h' : Judged (Call.ServesExactly size) kv calls os' kv₂) :
    List.Forall₂ (Outcome.Alike size) os os' := by
  -- on one run, with the other alongside; the stores are the same after each call
  induction h generalizing os' kv₂ with
  | nil kv =>
    cases h'
    exact .nil
  | cons head _ ih =>
    cases h' with
    | cons head' tail' =>
      obtain ⟨responses, rfl, hdetermined, rfl⟩ := head
      obtain ⟨responses', rfl, hdetermined', rfl⟩ := head'
      exact .cons ⟨responses, responses', rfl, rfl, hdetermined.alike hdetermined'⟩ (ih tail')

/-- They return the same bytes when every payload fills its block. -/
theorem Call.ServesExactly.judged_eq (hkv : kv.Full size)
    (hcalls : ∀ call ∈ calls, ∀ op ∈ call.ops, op.Full size)
    (h : Judged (Call.ServesExactly size) kv calls os kv₁)
    (h' : Judged (Call.ServesExactly size) kv calls os' kv₂) : os = os' := by
  -- as before, with payloads that need no padding
  induction h generalizing os' kv₂ with
  | nil kv =>
    cases h'
    rfl
  | cons head _ ih =>
    cases h' with
    | cons head' tail' =>
      have hcall := hcalls _ List.mem_cons_self
      obtain ⟨responses, rfl, hdetermined, rfl⟩ := head
      obtain ⟨responses', rfl, hdetermined', rfl⟩ := head'
      rw [hdetermined.eq hkv hcall hdetermined', ih (hkv.applyAll hcall)
        (fun call h => hcalls call (List.mem_cons_of_mem _ h)) tail']

namespace ORAM

/-- **Responses do not depend on randomness, up to padding.** The ORAM was constructed
twice, over position maps of any depth and with random sources of its own, and no call
throws in either run. Every response of both runs is the payload put last, as it was put or
padded to the block size; the two are the same bytes when every payload that is put has the
block size. -/
theorem responses_agree (hc : c.Valid) (cs : List Config)
    (hserves : MapState.Serves cs c.blocks) {s₀ s₀' s₁ s₁' : ORAM (MapState cs)}
    (hmap : MapState.Fresh cs c.blocks s₀.map) (hmap' : MapState.Fresh cs c.blocks s₀'.map)
    (hstash : s₀.stash = ∅) (hstash' : s₀'.stash = ∅) (hcache : s₀.cache = ∅)
    (hcache' : s₀'.cache = ∅) (hnew : new c (mapAdapter cs) true s₀ = .ok () s₁)
    (hnew' : new c (mapAdapter cs) true s₀' = .ok () s₁')
    (hcalls : ∀ call ∈ calls, call.Addressable c)
    (hok : ∀ o ∈ (runCatching (exec c (mapAdapter cs)) calls s₁).1,
      ∃ responses, o = .ok responses)
    (hok' : ∀ o ∈ (runCatching (exec c (mapAdapter cs)) calls s₁').1,
      ∃ responses, o = .ok responses) :
    (∃ kv, Judged (Call.ServesExactly c.dataSize) Store.empty calls
          (runCatching (exec c (mapAdapter cs)) calls s₁).1 kv ∧
        Judged (Call.ServesExactly c.dataSize) Store.empty calls
          (runCatching (exec c (mapAdapter cs)) calls s₁').1 kv) ∧
      List.Forall₂ (Outcome.Alike c.dataSize)
        (runCatching (exec c (mapAdapter cs)) calls s₁).1
        (runCatching (exec c (mapAdapter cs)) calls s₁').1 ∧
      ((∀ call ∈ calls, ∀ op ∈ call.ops, op.Full c.dataSize) →
        (runCatching (exec c (mapAdapter cs)) calls s₁).1 =
          (runCatching (exec c (mapAdapter cs)) calls s₁').1) := by
  have hpm := MapState.mapAdapter_implements hserves
  have hbound := MapState.two_pow_height_le hc
  obtain ⟨f, hf⟩ := MapState.exists_holds hserves hmap
  obtain ⟨f', hf'⟩ := MapState.exists_holds hserves hmap'
  -- both ORAMs start with the empty store, whatever their random sources are
  have hs := (new_exact hc hpm hbound hf hstash hcache).ok hnew
  have hs' := (new_exact hc hpm hbound hf' hstash' hcache').ok hnew'
  obtain ⟨hrun, -⟩ := run_exact hc hpm hbound hcalls hs hok
  obtain ⟨hrun', -⟩ := run_exact hc hpm hbound hcalls hs' hok'
  have hempty : Store.empty.Full c.dataSize := fun id p hp => absurd hp (by simp [Store.empty])
  exact ⟨⟨_, hrun, hrun'⟩, Call.ServesExactly.judged_alike hrun hrun',
    fun hfull => Call.ServesExactly.judged_eq hempty hfull hrun hrun'⟩

end ORAM

/-- Leaves drawn as zeros, and shuffles drawn as ones. -/
def Random.shuffling : Random :=
  { Random.ofLeaves (Stream'.const 0) with uints := Stream'.const 1 }

/-- One block is in the stash in the second run and in a bucket in the first, so a short
payload comes back in two lengths. -/
theorem responses_differ_in_length :
    (runCatching (ORAM.exec (Config.tiny 1 2) (mapAdapter [])) [.put 0 [7], .put 1 [8], .get 1]
      (ORAM.tiny 1 2 (Random.ofLeaves (Stream'.const 0)))).1 =
        [.ok [], .ok [], .ok [padTo 32 [8]]] ∧
    (runCatching (ORAM.exec (Config.tiny 1 2) (mapAdapter [])) [.put 0 [7], .put 1 [8], .get 1]
      (ORAM.tiny 1 2 Random.shuffling)).1 = [.ok [], .ok [], .ok [[8]]] := by
  exact ⟨by decide +kernel, by decide +kernel⟩

theorem responses_agree_tiny :
    (∃ kv, Judged (Call.ServesExactly 32) Store.empty [.put 0 [7], .put 1 [8], .get 1]
          (runCatching (ORAM.exec (Config.tiny 1 2) (mapAdapter []))
            [.put 0 [7], .put 1 [8], .get 1]
            (ORAM.tiny 1 2 (Random.ofLeaves (Stream'.const 0)))).1 kv ∧
        Judged (Call.ServesExactly 32) Store.empty [.put 0 [7], .put 1 [8], .get 1]
          (runCatching (ORAM.exec (Config.tiny 1 2) (mapAdapter []))
            [.put 0 [7], .put 1 [8], .get 1] (ORAM.tiny 1 2 Random.shuffling)).1 kv) ∧
      List.Forall₂ (Outcome.Alike 32)
        (runCatching (ORAM.exec (Config.tiny 1 2) (mapAdapter []))
          [.put 0 [7], .put 1 [8], .get 1]
          (ORAM.tiny 1 2 (Random.ofLeaves (Stream'.const 0)))).1
        (runCatching (ORAM.exec (Config.tiny 1 2) (mapAdapter []))
          [.put 0 [7], .put 1 [8], .get 1] (ORAM.tiny 1 2 Random.shuffling)).1 ∧
      ((∀ call ∈ [Call.put 0 [7], .put 1 [8], .get 1], ∀ op ∈ call.ops, op.Full 32) →
        (runCatching (ORAM.exec (Config.tiny 1 2) (mapAdapter []))
            [.put 0 [7], .put 1 [8], .get 1]
            (ORAM.tiny 1 2 (Random.ofLeaves (Stream'.const 0)))).1 =
          (runCatching (ORAM.exec (Config.tiny 1 2) (mapAdapter []))
            [.put 0 [7], .put 1 [8], .get 1] (ORAM.tiny 1 2 Random.shuffling)).1) := by
  have hmap : (2 : ℕ) ≤ 8 := by decide
  exact ORAM.responses_agree (Config.tiny_valid le_rfl (by norm_num) 2) [] trivial
    (by exact hmap) (by exact hmap) rfl rfl rfl rfl
    (ORAM.new_tiny le_rfl (by norm_num) 2 _) (ORAM.new_tiny le_rfl (by norm_num) 2 _)
    (by decide) (ok_of_toBool (by decide +kernel)) (ok_of_toBool (by decide +kernel))

end Runs

end PathORAM
