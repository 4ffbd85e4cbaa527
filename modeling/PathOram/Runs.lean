import PathOram.Calls

/-!
# What calls preserve

The invariants of the protocol over whole calls, completed and failed ones.

* `View.Holds` — the invariants together, for a store `kv` and exempt IDs `T`.
* `View.Holds.done`, `View.Valid.failed`, `View.Within.failed` — what a call leaves of them.
* `not_overflowAt` — a stash with room for every ID that is ever put never overflows.
* `not_syncFailed` — the upload never fails when no payload is too long.
-/

namespace PathORAM

open HeapTree

variable {c : Config} {v v' : View} {kv : Store} {T : Set ℕ} {P : ℕ → Prop}
  {ops : List Op} {op : Op} {answers responses : List Bytes} {call : Call} {e : Exception}

/-- An ID the ORAM can be asked for. From `2 ^ 31` on, IDs do not survive the conversion
to `int` in `writePath`. -/
def Op.Addressable (c : Config) (op : Op) : Prop := op.block < c.blocks ∧ op.block < 2 ^ 31

instance (c : Config) (op : Op) : Decidable (op.Addressable c) :=
  inferInstanceAs (Decidable (_ ∧ _))

/-- All IDs of a call are addressable. -/
def Call.Addressable (c : Config) (call : Call) : Prop := ∀ op ∈ call.ops, op.Addressable c

instance (c : Config) (call : Call) : Decidable (call.Addressable c) :=
  inferInstanceAs (Decidable (∀ op ∈ call.ops, op.Addressable c))

theorem Call.Addressable.inRange (h : call.Addressable c) : call.InRange c :=
  fun op hop => (h op hop).1

/-- The invariants together. -/
structure View.Holds (c : Config) (kv : Store) (T : Set ℕ) (v : View) : Prop where
  valid : v.Valid c
  small : v.Within c (· < 2 ^ 31)
  tracks : v.Tracks c kv T

theorem View.Fresh.holds (hc : c.Valid) {coins : Stream' ℕ} (h : v.Fresh c coins) (T : Set ℕ) :
    v.Holds c Store.empty T :=
  ⟨h.valid hc, h.within _, h.tracks T⟩

/-! ### Single steps -/

theorem View.Holds.access (hc : c.Valid) (hv : v.Holds c kv T) (hop : op.Addressable c)
    {leaf : ℕ} {stash : InMemoryStashAdapter} {response : Bytes}
    (h : Access c v op leaf stash response v') : v'.Holds c (op.apply kv) T where
  valid := hv.valid.access hop.1 h
  small := hv.small.access (hv.valid.leaf_lt hop.1 h.pos) (Op.forall_write hop.2) h
  tracks := hv.tracks.access hc hv.valid hv.small hop.1 hop.2 h

theorem View.Holds.overflow (hv : v.Holds c kv T) (hop : op.Addressable c) {leaf : ℕ}
    (h : Overflow c v op leaf v') : v'.Holds c kv (insert op.block T) where
  valid := hv.valid.overflow hop.1 h
  small := hv.small.overflow (hv.valid.leaf_lt hop.1 h.pos) h
  tracks := hv.tracks.overflow hv.valid hop.1 h

theorem View.Holds.sync (hc : c.Valid) (hv : v.Holds c kv T) (h : Sync c v v')
    (hcached : v'.cached ⊆ v.cached) : v'.Holds c kv T where
  valid := hv.valid.sync hc h hcached
  small := hv.small.sync h
  tracks := hv.tracks.sync hc h

theorem View.Holds.synced (hc : c.Valid) (hv : v.Holds c kv T) (h : Synced c v v') :
    v'.Holds c kv T :=
  hv.sync hc h.toSync (h.cached' ▸ Finset.empty_subset _)

theorem View.Holds.syncFailed (hc : c.Valid) (hv : v.Holds c kv T) (h : SyncFailed c v e v') :
    v'.Holds c kv T :=
  hv.sync hc h.toSync h.cached'.subset

theorem Call.InRange.requests {requests : List Block}
    (h : (Call.multiple requests).InRange c) : ∀ request ∈ requests, request.1 < c.blocks :=
  fun request hrequest => by
    rw [← Call.block_opOf request]
    exact h (Call.opOf request) (List.mem_map_of_mem hrequest)

theorem View.Within.prefetch (hw : v.Within c P) (call : Call) :
    (v.prefetch c call).Within c P := by
  cases call with
  | get _ => exact hw
  | put _ _ => exact hw
  | multiple _ => exact hw.fetch _

theorem View.Valid.prefetch (hv : v.Valid c) (hcall : call.InRange c) :
    (v.prefetch c call).Valid c := by
  cases call with
  | get _ => exact hv
  | put _ _ => exact hv
  | multiple requests => exact hv.fetch (inTree_of_prefetched hv hcall.requests)

theorem View.Tracks.prefetch (ht : v.Tracks c kv T) (call : Call) :
    (v.prefetch c call).Tracks c kv T := by
  cases call with
  | get _ => exact ht
  | put _ _ => exact ht
  | multiple _ => exact ht.fetch _

theorem View.Holds.prefetch (hv : v.Holds c kv T) (hcall : call.InRange c) :
    (v.prefetch c call).Holds c kv T :=
  ⟨hv.valid.prefetch hcall, hv.small.prefetch call, hv.tracks.prefetch call⟩

/-! ### Several accesses -/

theorem View.Holds.accesses (hc : c.Valid) (hv : v.Holds c kv T)
    (hops : ∀ op ∈ ops, op.Addressable c) (h : Accesses c v ops answers v') :
    v'.Holds c (Op.applyAll ops kv) T := by
  induction h generalizing kv with
  | nil v => exact hv
  | cons head _ ih =>
    -- The operation finds the store that those before it left.
    exact ih (hv.access hc (hops _ List.mem_cons_self) head)
      fun op hop => hops op (List.mem_cons_of_mem _ hop)

/-- **Each operation is answered in the store it finds.** -/
theorem View.Holds.answered (hc : c.Valid) (hv : v.Holds c kv T)
    (hops : ∀ op ∈ ops, op.Addressable c) (h : Accesses c v ops answers v') :
    Op.AnsweredOutside c.dataSize T kv ops answers := by
  induction h generalizing kv with
  | nil v => rfl
  | cons head _ ih =>
    have hop := hops _ List.mem_cons_self
    -- Each answer is judged before the operation is applied.
    exact ⟨_, _, rfl, fun hT => hv.tracks.answered hv.valid hop.1 hT head,
      ih (hv.access hc hop head) fun op hop => hops op (List.mem_cons_of_mem _ hop)⟩

theorem View.Valid.accesses (hv : v.Valid c) (hops : ∀ op ∈ ops, op.block < c.blocks)
    (h : Accesses c v ops answers v') : v'.Valid c := by
  induction h with
  | nil v => exact hv
  | cons head _ ih =>
    exact ih (hv.access (hops _ List.mem_cons_self) head)
      fun op hop => hops op (List.mem_cons_of_mem _ hop)

theorem View.Within.accesses (hv : v.Valid c) (hw : v.Within c P)
    (hops : ∀ op ∈ ops, op.block < c.blocks)
    (hP : ∀ op ∈ ops, ∀ id data, op = .write id data → P id)
    (h : Accesses c v ops answers v') : v'.Valid c ∧ v'.Within c P := by
  -- on the accesses: what is in the tree or the stash was put or was there before
  induction h with
  | nil v => exact ⟨hv, hw⟩
  | cons head _ ih =>
    have hop := hops _ List.mem_cons_self
    exact ih (hv.access hop head)
      (hw.access (hv.leaf_lt hop head.pos) (hP _ List.mem_cons_self) head)
      (fun op hop => hops op (List.mem_cons_of_mem _ hop))
      (fun op hop => hP op (List.mem_cons_of_mem _ hop))

theorem View.Once.accesses (hc : c.Valid) (hv : v.Holds c kv ∅) (honce : v.Once c kv)
    (hops : ∀ op ∈ ops, op.Addressable c) (h : Accesses c v ops answers v') :
    v'.Once c (Op.applyAll ops kv) := by
  induction h generalizing kv with
  | nil v => exact honce
  | cons head _ ih =>
    have hop := hops _ List.mem_cons_self
    exact ih (hv.access hc hop head)
      (honce.access hv.valid hv.tracks hv.small hop.1 hop.2 head)
      (fun op hop => hops op (List.mem_cons_of_mem _ hop))

/-! ### Calls -/

theorem View.Holds.done (hc : c.Valid) (hv : v.Holds c kv T) (hcall : call.Addressable c)
    (h : call.Done c v responses v') : v'.Holds c (call.apply kv) T := by
  -- The call is a download, some accesses and an upload, and each keeps the invariants.
  obtain ⟨v₁, answers, hserved, -, hsynced⟩ := h.served
  exact ((hv.prefetch hcall.inRange).accesses hc hcall hserved).synced hc hsynced

/-- **A completed call is answered as the store answers it.** -/
theorem View.Holds.done_answered (hc : c.Valid) (hv : v.Holds c kv ∅)
    (hcall : call.Addressable c) (h : call.Done c v responses v') :
    call.Answered c.dataSize kv responses := by
  obtain ⟨v₁, answers, hserved, rfl, hsynced⟩ := h.served
  exact Call.answered_report
    (Op.answeredAll_of_outside ((hv.prefetch hcall.inRange).answered hc hcall hserved))

theorem View.Once.prefetch (honce : v.Once c kv) (call : Call) :
    (v.prefetch c call).Once c kv := by
  cases call with
  | get _ => exact honce
  | put _ _ => exact honce
  | multiple requests => exact honce.fetch _

theorem View.Once.done (hc : c.Valid) (hv : v.Holds c kv ∅) (honce : v.Once c kv)
    (hcall : call.Addressable c) (h : call.Done c v responses v') :
    v'.Once c (call.apply kv) := by
  obtain ⟨v₁, answers, hserved, -, hsynced⟩ := h.served
  exact ((honce.prefetch call).accesses hc (hv.prefetch hcall.inRange) hcall hserved).sync
    hsynced.toSync

theorem View.Within.done (hw : v.Within c P) (hv : v.Valid c) (hcall : call.InRange c)
    (hP : ∀ op ∈ call.ops, ∀ id data, op = .write id data → P id)
    (h : call.Done c v responses v') : v'.Within c P := by
  obtain ⟨v₁, answers, hserved, -, hsynced⟩ := h.served
  exact ((hw.prefetch call).accesses (hv.prefetch hcall) hcall hP hserved).2.sync hsynced.toSync

/-- **What holds of all IDs with a block** still holds after a call that failed. -/
theorem View.Within.failed (hw : v.Within c P) (hv : v.Valid c) (hcall : call.InRange c)
    (hP : ∀ op ∈ call.ops, ∀ id data, op = .write id data → P id)
    (h : call.Failed c v e v') : v'.Within c P := by
  have hv₀ := hv.prefetch hcall
  have hw₀ := hw.prefetch call
  cases h with
  | tooMany _ _ => exact hw
  | overflow _ h =>
    obtain ⟨done, op, rest, answers, leaf, v₁, hops, hserved, hoverflow⟩ := h
    -- The operations before the one cut short, and that one itself, belong to the call.
    have hmem : ∀ op' ∈ done ++ op :: rest, op' ∈ call.ops := fun op' h => hops ▸ h
    have hdone := hw₀.accesses hv₀ (fun op h => hcall op (hmem op (List.mem_append_left _ h)))
      (fun op h => hP op (hmem op (List.mem_append_left _ h))) hserved
    have hop : op.block < c.blocks :=
      hcall op (hmem op (List.mem_append_right _ List.mem_cons_self))
    exact hdone.2.overflow (hdone.1.leaf_lt hop hoverflow.pos) hoverflow
  | sync _ hserved h => exact (hw₀.accesses hv₀ hcall hP hserved).2.sync h.toSync

theorem View.Valid.done (hc : c.Valid) (hv : v.Valid c) (hcall : call.InRange c)
    (h : call.Done c v responses v') : v'.Valid c := by
  obtain ⟨v₁, answers, hserved, -, hsynced⟩ := h.served
  exact ((hv.prefetch hcall).accesses hcall hserved).sync hc hsynced.toSync
    (hsynced.cached' ▸ Finset.empty_subset _)

theorem View.Valid.failed (hc : c.Valid) (hv : v.Valid c) (hcall : call.InRange c)
    (h : call.Failed c v e v') : v'.Valid c := by
  have hv₀ := hv.prefetch hcall
  cases h with
  | tooMany _ _ => exact hv
  | overflow _ h =>
    -- the operations before the overflow were served
    obtain ⟨done, op, rest, answers, leaf, v₁, hops, hserved, hoverflow⟩ := h
    have hmem : ∀ op' ∈ done ++ op :: rest, op'.block < c.blocks := fun op' h =>
      hcall op' (hops ▸ h)
    exact (hv₀.accesses (fun op h => hmem op (List.mem_append_left _ h)) hserved).overflow
      (hmem op (List.mem_append_right _ List.mem_cons_self)) hoverflow
  | sync _ hserved h => exact (hv₀.accesses hcall hserved).sync hc h.toSync h.cached'.subset

/-! ### When calls do not fail -/

/-- A stash of IDs of `S` that lacks one of them has fewer than `S`. -/
theorem InMemoryStashAdapter.length_lt_card {stash : InMemoryStashAdapter} {S : Finset ℕ} {id : ℕ}
    (hstash : ∀ id ∈ stash, id ∈ S) (hid : id ∈ S) (hnot : id ∉ stash) :
    stash.keys.length < S.card := by
  have hsub : stash.keys.toFinset ⊆ S.erase id := fun id' hid' =>
    have hmem : id' ∈ stash := List.mem_toFinset.mp hid'
    Finset.mem_erase.mpr ⟨fun heq => hnot (heq ▸ hmem), hstash id' hmem⟩
  have hle := Finset.card_le_card hsub
  rw [List.toFinset_card_of_nodup stash.keys_nodup] at hle
  exact hle.trans_lt (Finset.card_erase_lt_of_mem hid)

/-- **A stash with room for all IDs does not overflow.** -/
theorem not_overflow {S : Finset ℕ} (hv : v.Valid c) (hw : v.Within c (· ∈ S))
    (hop : op.block < c.blocks) (hS : ∀ id data, op = .write id data → id ∈ S)
    (hcard : S.card ≤ c.stashCapacity) {leaf : ℕ} : ¬Overflow c v op leaf v' := by
  intro h
  have hleaf := hv.leaf_lt hop h.pos
  have hstash : ∀ id ∈ v'.stash, id ∈ S := hw.absorbs hleaf h.absorbs
  obtain ⟨id, hid, hblocked⟩ := h.blocked
  have hidS : id ∈ S := by
    rcases hblocked with ⟨data, hwrite⟩ | ⟨b, hb, block, hblock, hreal, rfl⟩
    · exact hS id data hwrite
    · exact hw.tree b (Config.inTree_of_mem_path hleaf hb) block hblock hreal
  -- the blocked ID would be one more than the stash holds, all of them in `S`
  have hlt := InMemoryStashAdapter.length_lt_card hstash hidS hid
  rw [h.full] at hlt
  exact absurd hcard (not_le.mpr hlt)

theorem not_overflowAt {S : Finset ℕ} (hv : v.Valid c) (hw : v.Within c (· ∈ S))
    (hops : ∀ op ∈ ops, op.block < c.blocks)
    (hS : ∀ op ∈ ops, ∀ id data, op = .write id data → id ∈ S)
    (hcard : S.card ≤ c.stashCapacity) : ¬OverflowAt c v ops v' := by
  rintro ⟨done, op, rest, answers, leaf, v₁, rfl, hserved, hoverflow⟩
  have hdone := hw.accesses hv (fun op hop => hops op (List.mem_append_left _ hop))
    (fun op hop => hS op (List.mem_append_left _ hop)) hserved
  have hop : op ∈ done ++ op :: rest := List.mem_append_right _ List.mem_cons_self
  exact not_overflow hdone.1 hdone.2 (hops op hop) (hS op hop) hcard hoverflow

/-- No payload of the store is longer than `size`. -/
def Store.Bounded (size : ℕ) (kv : Store) : Prop := ∀ id p, kv id = some p → p.length ≤ size

/-- **The upload does not fail when every payload fits.** -/
theorem not_syncFailed (hv : v.Valid c) (ht : v.Tracks c kv ∅)
    (hbounded : kv.Bounded c.dataSize) : ¬SyncFailed c v e v' := by
  intro h
  obtain ⟨b, hb, block, hblock, hlong, -⟩ := h.offending
  have hin := hv.cached b hb
  -- A block is a padding of a payload of the store, and a dummy is never too long.
  by_cases hreal : Block.Real block
  · obtain ⟨p, hp, hpadding⟩ := ht.tree b hin block hblock hreal (Set.notMem_empty _)
    have := hpadding.length_le (hbounded _ p hp)
    omega
  · have := hv.dummy b hin block hblock hreal
    omega

/-- An operation whose payload fits. -/
def Op.Fits (size : ℕ) : Op → Prop
  | .read _ => True
  | .write _ data => data.length ≤ size

instance (size : ℕ) : (op : Op) → Decidable (op.Fits size)
  | .read _ => inferInstanceAs (Decidable True)
  | .write _ data => inferInstanceAs (Decidable (data.length ≤ size))

theorem Store.Bounded.apply {size : ℕ} (h : kv.Bounded size) (hop : op.Fits size) :
    (op.apply kv : Store).Bounded size := by
  intro id p hp
  rcases Op.apply_cases hp with rfl | hp
  · exact hop
  · exact h id p hp

theorem Store.Bounded.applyAll {size : ℕ} (h : kv.Bounded size)
    (hops : ∀ op ∈ ops, op.Fits size) : Store.Bounded size (Op.applyAll ops kv) := by
  intro id p hp
  rcases Op.applyAll_cases hp with hmem | hp
  · exact hops _ hmem
  · exact h id p hp

/-- **A call within all bounds does not fail.** -/
theorem Call.not_failed (hc : c.Valid) {S : Finset ℕ} (hv : v.Holds c kv ∅)
    (hw : v.Within c (· ∈ S)) (hbounded : kv.Bounded c.dataSize) (hcall : call.Addressable c)
    (fine : ¬call.TooMany c) (hfits : ∀ op ∈ call.ops, op.Fits c.dataSize)
    (hS : ∀ op ∈ call.ops, ∀ id data, op = .write id data → id ∈ S)
    (hcard : S.card ≤ c.stashCapacity) : ¬call.Failed c v e v' := by
  have hv₀ := hv.prefetch hcall.inRange
  have hw₀ := hw.prefetch call
  -- Each of the three ways to fail is excluded.
  rintro (⟨rfl, hmany⟩ | ⟨-, hoverflow⟩ | ⟨-, hserved, hfailed⟩)
  · exact fine hmany
  · exact not_overflowAt hv₀.valid hw₀ hcall.inRange hS hcard hoverflow
  · have hv₁ := hv₀.accesses hc hcall hserved
    exact not_syncFailed hv₁.valid hv₁.tracks (hbounded.applyAll hfits) hfailed

end PathORAM
