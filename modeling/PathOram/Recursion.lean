import PathOram.Correctness

/-!
# Recursive position maps

An `ORAMPositionMapAdapter` keeps the leaves of one ORAM in the blocks of another. Each
leaf is stored as its 8 bytes in memory, which come back padded to the block size of the
inner ORAM, or not padded when the block never left the inner stash.

* `MapState`, `mapAdapter` — a position map of any depth: the list holds the
  configurations of the ORAMs, outermost first, over an in-memory map at the bottom.
* `mapAdapter_implements` — by induction on the depth, such a map implements the position
  map interface. It throws only if the stash of some level is smaller than the number of
  IDs the level serves.
* `recursion_transparent` — from the outside it is an array of leaves.
-/

namespace PathORAM

open Hoare AbsStorageAdapter

/-! ### One level -/

namespace ORAMPositionMapAdapter

variable {c : Config} {M : Type} {pm : AbsPositionMapAdapter M} {bound : ℕ}
  {R : (ℕ → Option ℕ) → M → Prop} {mayThrow : Prop} {s : ORAM M} {f : ℕ → Option ℕ}
  {S : Finset ℕ} {block leaf : ℕ}

/-- The store of a position map: every ID holds the bytes of its leaf. -/
def storeOf (f : ℕ → Option ℕ) : Store := fun id => (f id).map leafBytes

theorem storeOf_update (f : ℕ → Option ℕ) (block leaf : ℕ) :
    storeOf (Function.update f block (some leaf)) =
      (Op.write block (leafBytes leaf)).apply (storeOf f) := by
  funext id
  change (Function.update f block (some leaf) id).map leafBytes =
    Function.update (storeOf f) block (some (leafBytes leaf)) id
  by_cases h : id = block
  · rw [h, Function.update_self, Function.update_self, Option.map_some]
  · rw [Function.update_of_ne h, Function.update_of_ne h]
    rfl

theorem length_leafBytes (leaf : ℕ) : (leafBytes leaf).length = 8 :=
  LittleEndian.length_encode 8 leaf

/-- **The leaf codec survives padding.** Whatever zeros follow the eight bytes, and
whatever follows the buffer in memory, the leaf is read back. -/
theorem readLeaf_of_padding (hleaf : leaf < 2 ^ 64) {size : ℕ} {returned : Bytes}
    (h : Padding size (leafBytes leaf) returned) (garbage : Bytes) :
    readLeaf returned garbage = leaf := by
  obtain ⟨zeros, rfl, -⟩ := h
  rw [readLeaf, leafBytes, List.append_assoc]
  exact LittleEndian.decode_take_encode_append hleaf _

/-- The inner ORAM holds the leaves `f`; every ID with a block is in `S`. -/
def Holds (c : Config) (R : (ℕ → Option ℕ) → M → Prop) (S : Finset ℕ) (f : ℕ → Option ℕ)
    (s : ORAM M) : Prop :=
  s.Stores c R S (storeOf f) ∧ ∀ id leaf, f id = some leaf → leaf < 2 ^ 64

/-- A block has room for a leaf. -/
theorem fits_leafBytes (hc : c.Valid) (leaf : ℕ) : (leafBytes leaf).length ≤ c.dataSize := by
  have h := c.storage.le_userBlockSize
  rw [hc.dataSize_eq] at h
  rw [length_leafBytes]
  unfold AES_BLOCK_SIZE at h
  omega

/-- The calls of the adapter are admissible. -/
theorem admissible_get (hblock : block < c.blocks) (hblock' : block < 2 ^ 31) :
    (Call.get block).Admissible c where
  addressable op hop := by
    obtain rfl := List.mem_singleton.mp hop
    exact ⟨hblock, hblock'⟩
  fine := not_false
  fits op hop := by
    obtain rfl := List.mem_singleton.mp hop
    trivial

theorem admissible_put (hc : c.Valid) (hblock : block < c.blocks) (hblock' : block < 2 ^ 31) :
    (Call.put block (leafBytes leaf)).Admissible c where
  addressable op hop := by
    obtain rfl := List.mem_singleton.mp hop
    exact ⟨hblock, hblock'⟩
  fine := not_false
  fits op hop := by
    obtain rfl := List.mem_singleton.mp hop
    exact fits_leafBytes hc leaf

/-- The leaf draws of an ORAM do not depend on the bytes it draws. -/
theorem shows_garbage {v : View} (hs : Shows c R v s) (n : ℕ) :
    Shows c R v { s with random := (Random.getRandomBlock n s.random).2 } :=
  ⟨hs.pos, hs.tree, hs.stash, hs.coins, hs.cached, hs.touched, hs.readable⟩

/-- **Reading a leaf.** -/
theorem get_spec (hc : c.Valid) (hpm : pm.Implements c.blocks bound R mayThrow)
    (hbound : 2 ^ (c.height - 1) ≤ bound) (hs : Holds c R S f s) (hblock : block < c.blocks)
    (hblock' : block < 2 ^ 31) :
    wp ((adapter c pm).get block)
      (fun l s' => (∀ leaf, f block = some leaf → l = leaf) ∧ Holds c R S f s')
      (fun _ _ => mayThrow ∨ c.stashCapacity < S.card) s := by
  obtain ⟨⟨v, hshows, hv⟩, hlt⟩ := hs
  have hcall : (Call.get block).Admissible c := admissible_get hblock hblock'
  -- a `get` puts nothing into the ORAM
  have hputs : ∀ op ∈ (Call.get block).ops, ∀ id data, op = .write id data → id ∈ S := by
    intro op hop
    obtain rfl := List.mem_singleton.mp hop
    exact fun id data h => absurd h (by simp)
  refine wp_bind (wp_mono (ORAM.getBlock_spec hc hpm hbound hv.holds.valid hshows hblock) ?_
    fun e s' h => hv.of_failed hc hcall hputs h)
  rintro returned s' ⟨v', hdone, hshows'⟩
  obtain ⟨hanswered, hv'⟩ := hv.done hc hcall hputs hdone
  refine wp_bind (ORAM.wp_withRandom (wp_pure ⟨fun leaf hleaf => ?_,
    ⟨v', shows_garbage hshows' 8, hv'⟩, hlt⟩))
  obtain ⟨response, hresponse, hread⟩ := Call.answered_get hanswered
  obtain rfl := List.singleton_inj.mp hresponse
  -- the leaf is stored as the first bytes of the payload, and the padding is not read
  have hkv : storeOf f block = some (leafBytes leaf) := by
    rw [storeOf, hleaf, Option.map_some]
  exact readLeaf_of_padding (hlt block leaf hleaf) ((Op.answered_read_some hkv).mp hread) _

/-- **Writing a leaf.** -/
theorem set_spec (hc : c.Valid) (hpm : pm.Implements c.blocks bound R mayThrow)
    (hbound : 2 ^ (c.height - 1) ≤ bound) (hs : Holds c R S f s) (hblock : block < c.blocks)
    (hblock' : block < 2 ^ 31) (hblockS : block ∈ S) (hleaf : leaf < 2 ^ 64) :
    wp ((adapter c pm).set block leaf)
      (fun _ s' => Holds c R S (Function.update f block (some leaf)) s')
      (fun _ _ => mayThrow ∨ c.stashCapacity < S.card) s := by
  obtain ⟨⟨v, hshows, hv⟩, hlt⟩ := hs
  have hcall : (Call.put block (leafBytes leaf)).Admissible c :=
    admissible_put hc hblock hblock'
  have hputs : ∀ op ∈ (Call.put block (leafBytes leaf)).ops, ∀ id data,
      op = .write id data → id ∈ S := by
    intro op hop
    obtain rfl := List.mem_singleton.mp hop
    rintro id data ⟨⟩
    exact hblockS
  refine wp_mono (ORAM.putBlock_spec hc hpm hbound hv.holds.valid hshows hblock _) ?_
    fun e s' h => hv.of_failed hc hcall hputs h
  rintro _ s' ⟨v', hdone, hshows'⟩
  obtain ⟨-, hv'⟩ := hv.done hc hcall hputs hdone
  refine ⟨⟨v', hshows', ?_⟩, fun id l hl => ?_⟩
  · rw [storeOf_update]
    exact hv'
  -- the new leaf fits into 64 bits, and so did all others
  · by_cases hid : id = block
    · rw [hid, Function.update_self, Option.some.injEq] at hl
      exact hl ▸ hleaf
    · rw [Function.update_of_ne hid] at hl
      exact hlt id l hl

/-- **A position map in an ORAM is an array of leaves**, for IDs the inner ORAM can
address. It throws only if the inner position map does or the inner stash is too small. -/
theorem implements (hc : c.Valid) (hpm : pm.Implements c.blocks bound R mayThrow)
    (hbound : 2 ^ (c.height - 1) ≤ bound) {n : ℕ} (hn : n ≤ c.blocks) (hn' : n ≤ 2 ^ 31) :
    (adapter c pm).Implements n (2 ^ 64) (Holds c R (Finset.range n))
      (mayThrow ∨ c.stashCapacity < n) where
  -- the IDs that are set are below `n`, so their number is at most `n`
  get_spec f s block hs hblock := by
    refine wp_mono (get_spec hc hpm hbound hs (hblock.trans_le hn) (hblock.trans_le hn'))
      (fun _ _ h => h) fun _ _ h => ?_
    rwa [Finset.card_range] at h
  set_spec f s block leaf hs hblock hleaf := by
    refine wp_mono (set_spec hc hpm hbound hs (hblock.trans_le hn) (hblock.trans_le hn')
      (Finset.mem_range.mpr hblock) hleaf) (fun _ _ h => h) fun _ _ h => ?_
    rwa [Finset.card_range] at h

/-- A freshly initialised inner ORAM holds no leaf. -/
theorem holds_new (hc : c.Valid) (hpm : pm.Implements c.blocks bound R mayThrow)
    (hbound : 2 ^ (c.height - 1) ≤ bound) {g : ℕ → Option ℕ} (hR : R g s.map)
    (hstash : s.stash = ∅) (hcache : s.cache = ∅) (S : Finset ℕ) :
    wp (ORAM.new c pm true) (fun _ s' => Holds c R S (fun _ => none) s')
      (fun _ _ => mayThrow) s := by
  refine wp_mono (ORAM.new_stores hc hpm hbound hR hstash hcache S) ?_ fun _ _ h => h
  exact fun _ s' hs' => ⟨hs', fun _ _ h => absurd h (by simp)⟩

end ORAMPositionMapAdapter

/-! ### Any depth -/

/-- The state of a position map: ORAMs of the given configurations, outermost first, over
an in-memory position map. -/
def MapState : List Config → Type
  | [] => InMemoryPositionMapAdapter
  | _ :: cs => ORAM (MapState cs)

/-- The position map adapter over that state. -/
def mapAdapter : (cs : List Config) → AbsPositionMapAdapter (MapState cs)
  | [] => InMemoryPositionMapAdapter.adapter
  | c :: cs => ORAMPositionMapAdapter.adapter c (mapAdapter cs)

namespace MapState

/-- The configurations can serve IDs below `n`: each ORAM has matching parts, and its
blocks are IDs that the position map below it can serve. -/
def Serves : List Config → ℕ → Prop
  | [], _ => True
  | c :: cs, n => c.Valid ∧ n ≤ c.blocks ∧ n ≤ 2 ^ 31 ∧ Serves cs c.blocks

/-- The map serves IDs below `n` and is freshly initialised: the array at the bottom is
large enough, and every ORAM was built, over the map below it, from an empty stash and
cache. The array, the raw storage and the random sources are arbitrary. -/
def Fresh : (cs : List Config) → ℕ → MapState cs → Prop
  | [], n, m => n ≤ m.capacity
  | c :: cs, _, s => ∃ s₀ : ORAM (MapState cs), Fresh cs c.blocks s₀.map ∧ s₀.stash = ∅ ∧
      s₀.cache = ∅ ∧ ORAM.new c (mapAdapter cs) true s₀ = .ok () s

/-- The map holds the leaves `f` for IDs below `n`. -/
def Holds : (cs : List Config) → ℕ → (ℕ → Option ℕ) → MapState cs → Prop
  | [], n => InMemoryPositionMapAdapter.Holds n
  | c :: cs, n => ORAMPositionMapAdapter.Holds c (Holds cs c.blocks) (Finset.range n)

/-- The stash of some level is smaller than the number of IDs it serves. -/
def MayOverflow : List Config → ℕ → Prop
  | [], _ => False
  | c :: cs, n => MayOverflow cs c.blocks ∨ c.stashCapacity < n

/-- A leaf of an ORAM is a 64-bit number. -/
theorem two_pow_height_le {c : Config} (hc : c.Valid) : 2 ^ (c.height - 1) ≤ 2 ^ 64 :=
  Nat.pow_le_pow_right (by norm_num) (by have := hc.height_le; omega)

/-- **A position map of any depth is an array of leaves.** -/
theorem mapAdapter_implements {cs : List Config} {n : ℕ} (h : Serves cs n) :
    (mapAdapter cs).Implements n (2 ^ 64) (Holds cs n) (MayOverflow cs n) := by
  induction cs generalizing n with
  | nil => exact InMemoryPositionMapAdapter.implements n (2 ^ 64)
  | cons c cs ih =>
    obtain ⟨hc, hn, hn', hcs⟩ := h
    exact ORAMPositionMapAdapter.implements hc (ih hcs) (two_pow_height_le hc) hn hn'

/-- A freshly initialised map holds some leaves. -/
theorem exists_holds {cs : List Config} {n : ℕ} {m : MapState cs} (h : Serves cs n)
    (hm : Fresh cs n m) : ∃ f, Holds cs n f m := by
  induction cs generalizing n with
  | nil => exact ⟨m.map, rfl, hm⟩
  | cons c cs ih =>
    obtain ⟨hc, -, -, hcs⟩ := h
    obtain ⟨s₀, hmap, hstash, hcache, hnew⟩ := hm
    obtain ⟨g, hg⟩ := ih hcs hmap
    exact ⟨_, (ORAMPositionMapAdapter.holds_new hc (mapAdapter_implements hcs)
      (two_pow_height_le hc) hg hstash hcache _).ok hnew⟩

/-- Building an ORAM over a fresh map gives a fresh map. -/
theorem fresh_built {c : Config} {cs : List Config} {n : ℕ} (h : Serves (c :: cs) n)
    (hstashes : ¬MayOverflow cs c.blocks) (s₀ : ORAM (MapState cs))
    (hmap : Fresh cs c.blocks s₀.map) (hstash : s₀.stash = ∅) (hcache : s₀.cache = ∅) :
    Fresh (c :: cs) n (ORAM.built c (mapAdapter cs) s₀) := by
  obtain ⟨hc, -, -, hcs⟩ := h
  obtain ⟨g, hg⟩ := exists_holds hcs hmap
  have hpm := mapAdapter_implements hcs
  rw [eq_false hstashes] at hpm
  exact ⟨s₀, hmap, hstash, hcache,
    ORAM.new_eq_built hc hpm (two_pow_height_le hc) hg hstash hcache⟩

end MapState

/-! ### The map from outside -/

/-- A call to a position map. -/
inductive MapCall where
  | get (block : ℕ)
  | set (block leaf : ℕ)
  deriving DecidableEq

namespace MapCall

/-- The ID a call is about. -/
def block : MapCall → ℕ
  | get block => block
  | set block _ => block

/-- A leaf is a 64-bit number. -/
def LeafInRange : MapCall → Prop
  | get _ => True
  | set _ leaf => leaf < 2 ^ 64

instance : (call : MapCall) → Decidable call.LeafInRange
  | get _ => inferInstanceAs (Decidable True)
  | set _ leaf => inferInstanceAs (Decidable (leaf < 2 ^ 64))

/-- Make a call. -/
def exec {M : Type} (pm : AbsPositionMapAdapter M) : MapCall → EStateM Exception M (Option ℕ)
  | get block => some <$> pm.get block
  | set block leaf => (fun _ => none) <$> pm.set block leaf

/-- The IDs that are set. -/
def sets : List MapCall → Finset ℕ
  | [] => ∅
  | get _ :: calls => sets calls
  | set block _ :: calls => insert block (sets calls)

/-- The outcome of a call on the array `f`, which becomes `f'`: the call does not throw,
and a `get` of an ID that was set before returns the leaf last set. -/
def Answers (f : ℕ → Option ℕ) (call : MapCall) (o : Except Exception (Option ℕ))
    (f' : ℕ → Option ℕ) : Prop :=
  match call with
  | get block => ∃ leaf, o = .ok (some leaf) ∧ (∀ l, f block = some l → leaf = l) ∧ f' = f
  | set block leaf => o = .ok none ∧ f' = Function.update f block (some leaf)

theorem mem_sets {calls : List MapCall} {block leaf : ℕ} (h : set block leaf ∈ calls) :
    block ∈ sets calls := by
  induction calls with
  | nil => exact absurd h List.not_mem_nil
  | cons call calls ih =>
    rcases List.mem_cons.mp h with rfl | hmem
    · exact Finset.mem_insert_self _ _
    · cases call with
      | get _ => exact ih hmem
      | set _ _ => exact Finset.mem_insert_of_mem (ih hmem)

/-- Every ID that is read is in `S` or was set before. -/
def ReadsSet (S : Finset ℕ) : List MapCall → Prop
  | [] => True
  | get block :: calls => block ∈ S ∧ ReadsSet S calls
  | set block _ :: calls => ReadsSet (insert block S) calls

instance decidableReadsSet : (S : Finset ℕ) → (calls : List MapCall) → Decidable (ReadsSet S calls)
  | _, [] => inferInstanceAs (Decidable True)
  | S, get block :: calls =>
    have := decidableReadsSet S calls
    inferInstanceAs (Decidable (block ∈ S ∧ ReadsSet S calls))
  | S, set block _ :: calls => decidableReadsSet (insert block S) calls

section Run

variable {M : Type} (pm : AbsPositionMapAdapter M) {I : (ℕ → Option ℕ) → M → Prop}
  {A : MapCall → Prop} {E : Exception → M → Prop}

/-- A call that keeps the invariant `I f m` of the array `f` is answered. -/
theorem exec_answers
    (hget : ∀ f m block, I f m → A (get block) → wp (pm.get block)
      (fun leaf m' => (∀ l, f block = some l → leaf = l) ∧ I f m') E m)
    (hset : ∀ f m block leaf, I f m → A (set block leaf) → wp (pm.set block leaf)
      (fun _ m' => I (Function.update f block (some leaf)) m') E m)
    {call : MapCall} (hcall : A call) {f : ℕ → Option ℕ} {m : M} (hm : I f m) :
    wp (exec pm call) (fun r m' => ∃ f', Answers f call (.ok r) f' ∧ I f' m') E m := by
  -- the specifications of the position map, in terms of calls
  cases call with
  | get block =>
    refine wp_map (wp_mono (hget f m block hm hcall) ?_ fun _ _ h => h)
    exact fun leaf m' h => ⟨f, ⟨leaf, rfl, h.1, rfl⟩, h.2⟩
  | set block leaf =>
    refine wp_map (wp_mono (hset f m block leaf hm hcall) ?_ fun _ _ h => h)
    exact fun _ m' h => ⟨_, ⟨rfl, rfl⟩, h⟩

/-- **A run on a map.** `I f m` is an invariant that reads and writes of the array `f`
keep; then no call throws and every read is answered. -/
theorem run_answers
    (hget : ∀ f m block, I f m → A (get block) → wp (pm.get block)
      (fun leaf m' => (∀ l, f block = some l → leaf = l) ∧ I f m') (fun _ _ => False) m)
    (hset : ∀ f m block leaf, I f m → A (set block leaf) → wp (pm.set block leaf)
      (fun _ m' => I (Function.update f block (some leaf)) m') (fun _ _ => False) m)
    {calls : List MapCall} (hcalls : ∀ call ∈ calls, A call) {f : ℕ → Option ℕ} {m : M}
    (hm : I f m) : ∃ f', Judged Answers f calls (runCatching (exec pm) calls m).1 f' := by
  -- no call throws, so the other half of the step is void
  have hstep : ∀ f call m, I f m → A call → wp (exec pm call)
      (fun r m' => ∃ f', Answers f call (.ok r) f' ∧ I f' m')
      (fun e m' => ∃ f', Answers f call (.error e) f' ∧ I f' m') m := fun f call m hm hcall =>
    wp_mono (exec_answers pm hget hset hcall hm) (fun _ _ h => h) fun _ _ h => h.elim
  obtain ⟨f', hjudged, -⟩ := runCatching_spec hstep calls f m hm hcalls
  exact ⟨f', hjudged⟩

/-- **A run that throws nothing.** It is enough that the calls which return keep the
invariant. -/
theorem run_returned
    (hget : ∀ f m block, I f m → A (get block) → wp (pm.get block)
      (fun leaf m' => (∀ l, f block = some l → leaf = l) ∧ I f m') E m)
    (hset : ∀ f m block leaf, I f m → A (set block leaf) → wp (pm.set block leaf)
      (fun _ m' => I (Function.update f block (some leaf)) m') E m)
    {calls : List MapCall} (hcalls : ∀ call ∈ calls, A call) {f : ℕ → Option ℕ} {m : M}
    (hm : I f m) (hok : ∀ o ∈ (runCatching (exec pm) calls m).1, ∃ r, o = .ok r) :
    ∃ f', Judged Answers f calls (runCatching (exec pm) calls m).1 f' ∧
      I f' (runCatching (exec pm) calls m).2 := by
  -- on the calls; the run has not thrown so far
  induction calls generalizing f m with
  | nil => exact ⟨f, .nil f, hm⟩
  | cons call calls ih =>
    have hstep := exec_answers pm hget hset (hcalls call List.mem_cons_self) hm
    cases hexec : exec pm call m with
    | ok r m' =>
      rw [runCatching_cons_ok hexec] at hok ⊢
      obtain ⟨g, hg, hm'⟩ := hstep.ok hexec
      obtain ⟨f', hjudged, hI⟩ := ih (fun call' h => hcalls call' (List.mem_cons_of_mem _ h)) hm'
        fun o ho => hok o (List.mem_cons_of_mem _ ho)
      exact ⟨f', .cons hg hjudged, hI⟩
    -- a call that throws is excluded
    | error e m' =>
      rw [runCatching_cons_error hexec] at hok
      obtain ⟨r, hr⟩ := hok _ List.mem_cons_self
      cases hr

end Run

/-- The IDs that the array holds after a run. -/
theorem isSome_of_judged {calls : List MapCall} {f f' : ℕ → Option ℕ}
    {os : List (Except Exception (Option ℕ))} (h : Judged Answers f calls os f') {id : ℕ} :
    (f' id).isSome = true ↔ (f id).isSome = true ∨ id ∈ sets calls := by
  -- on the run: a `set` adds its ID, a `get` none
  induction h with
  | nil f => simp [sets]
  | @cons f g f' call calls _ _ head _ ih =>
    rw [ih]
    cases call with
    | get block =>
      obtain ⟨-, -, -, rfl⟩ := head
      rfl
    | set block leaf =>
      obtain ⟨-, rfl⟩ := head
      by_cases hid : id = block
      · simp [hid, sets]
      · rw [Function.update_of_ne hid, sets, Finset.mem_insert, or_iff_right hid]

/-- The outcomes of a run whose reads are of IDs that were set. -/
theorem outcomes_unique {calls : List MapCall} {f f₁ f₂ : ℕ → Option ℕ} {S : Finset ℕ}
    {os₁ os₂ : List (Except Exception (Option ℕ))} (hreads : ReadsSet S calls)
    (hS : ∀ id ∈ S, (f id).isSome = true) (h₁ : Judged Answers f calls os₁ f₁)
    (h₂ : Judged Answers f calls os₂ f₂) : os₁ = os₂ := by
  -- on the first run, with the second one alongside
  induction h₁ generalizing os₂ f₂ S with
  | nil f =>
    cases h₂
    rfl
  | @cons f g _ call calls o os head _ ih =>
    cases h₂ with
    | @cons _ g' _ _ _ o' os' head' tail' =>
      cases call with
      -- the ID was set before, so the leaf is determined
      | get block =>
        obtain ⟨hblock, hreads⟩ := hreads
        obtain ⟨leaf, rfl, hleaf, rfl⟩ := head
        obtain ⟨leaf', rfl, hleaf', rfl⟩ := head'
        obtain ⟨l, hl⟩ := Option.isSome_iff_exists.mp (hS block hblock)
        rw [hleaf l hl, hleaf' l hl, ih hreads hS tail']
      -- from here on one more ID is set
      | set block leaf =>
        obtain ⟨rfl, rfl⟩ := head
        obtain ⟨rfl, rfl⟩ := head'
        refine congrArg _ (ih hreads (fun id hid => ?_) tail')
        by_cases hne : id = block
        · rw [hne, Function.update_self]
          rfl
        · rw [Function.update_of_ne hne]
          exact hS id ((Finset.mem_insert.mp hid).resolve_left hne)

/-- What the array becomes does not depend on the answers. -/
theorem judged_unique {calls : List MapCall} {f f₁ f₂ : ℕ → Option ℕ}
    {os₁ os₂ : List (Except Exception (Option ℕ))} (h₁ : Judged Answers f calls os₁ f₁)
    (h₂ : Judged Answers f calls os₂ f₂) : f₁ = f₂ := by
  induction h₁ generalizing os₂ f₂ with
  | nil f =>
    cases h₂
    rfl
  | @cons f g _ call _ _ _ head _ ih =>
    cases h₂ with
    | @cons _ g' _ _ _ _ _ head' tail' =>
      -- what a call does to the leaves does not depend on its outcome
      have hg : g = g' := by
        cases call with
        | get block =>
          obtain ⟨-, -, -, rfl⟩ := head
          obtain ⟨-, -, -, rfl⟩ := head'
          rfl
        | set block leaf => exact head.2.trans head'.2.symm
      subst hg
      exact ih tail'

/-- The in-memory map answers every read of an ID that was set before. -/
theorem inMemory_answers {n : ℕ} {calls : List MapCall}
    (hcalls : ∀ call ∈ calls, call.block < n ∧ call.LeafInRange)
    {m : InMemoryPositionMapAdapter} (hcapacity : n ≤ m.capacity) :
    ∃ f, Judged Answers (fun _ => none) calls
      (runCatching (exec InMemoryPositionMapAdapter.adapter) calls m).1 f := by
  have himplements := InMemoryPositionMapAdapter.implements n (2 ^ 64)
  -- the array may hold leaves from before, but those set since are in it
  refine run_answers InMemoryPositionMapAdapter.adapter
    (I := fun f m => ∃ g, InMemoryPositionMapAdapter.Holds n g m ∧
      ∀ block leaf, f block = some leaf → g block = some leaf) ?_ ?_ hcalls
    ⟨m.map, ⟨rfl, hcapacity⟩, fun _ _ h => absurd h (by simp)⟩
  · rintro f m block ⟨g, hg, hsub⟩ hcall
    refine wp_mono (himplements.get_spec g m block hg hcall.1) ?_ fun _ _ h => h
    exact fun leaf m' h => ⟨fun l hl => h.1 l (hsub block l hl), g, h.2, hsub⟩
  · rintro f m block leaf ⟨g, hg, hsub⟩ hcall
    refine wp_mono (himplements.set_spec g m block leaf hg hcall.1 hcall.2) ?_
      fun _ _ h => h
    refine fun _ m' h => ⟨_, h, fun id l hl => ?_⟩
    by_cases hid : id = block
    · rw [hid, Function.update_self] at hl ⊢
      exact hl
    · rw [Function.update_of_ne hid] at hl ⊢
      exact hsub id l hl

end MapCall

/-- **Recursive position maps are transparent.** A position map kept in ORAMs of any depth
answers every read of an ID that was set before with the leaf last set, and never throws,
as the in-memory position map does. The stash of the outermost ORAM has room for the IDs
that are set, that of any other ORAM for the blocks of the one above. -/
theorem recursion_transparent {c : Config} {cs : List Config} {n : ℕ}
    (hserves : MapState.Serves (c :: cs) n) {m : MapState (c :: cs)}
    (hfresh : MapState.Fresh (c :: cs) n m) {calls : List MapCall}
    (hblock : ∀ call ∈ calls, call.block < n) (hleaf : ∀ call ∈ calls, call.LeafInRange)
    (hstash : (MapCall.sets calls).card ≤ c.stashCapacity)
    (hstashes : ¬MapState.MayOverflow cs c.blocks) :
    ∃ f, Judged MapCall.Answers (fun _ => none) calls
        (runCatching (MapCall.exec (mapAdapter (c :: cs))) calls m).1 f ∧
      ∀ m' : InMemoryPositionMapAdapter, n ≤ m'.capacity →
        Judged MapCall.Answers (fun _ => none) calls
          (runCatching (MapCall.exec InMemoryPositionMapAdapter.adapter) calls m').1 f := by
  obtain ⟨hc, hn, hn', hcs⟩ := hserves
  obtain ⟨s₀, hmap, hstash₀, hcache₀, hnew⟩ := hfresh
  obtain ⟨g, hg⟩ := MapState.exists_holds hcs hmap
  have hpm := MapState.mapAdapter_implements hcs
  have hbound := MapState.two_pow_height_le hc
  set S := MapCall.sets calls with hS
  have hm : ORAMPositionMapAdapter.Holds c (MapState.Holds cs c.blocks) S (fun _ => none) m :=
    (ORAMPositionMapAdapter.holds_new hc hpm hbound hg hstash₀ hcache₀ S).ok hnew
  -- no level can overflow
  have hnever : ∀ {p : Prop}, MapState.MayOverflow cs c.blocks ∨ c.stashCapacity < S.card → p :=
    fun h => (h.elim hstashes (not_lt.mpr hstash)).elim
  have hadmit : ∀ call ∈ calls, call ∈ calls ∧ call.block < n ∧ call.LeafInRange :=
    fun call hcall => ⟨hcall, hblock call hcall, hleaf call hcall⟩
  obtain ⟨f, hf⟩ := MapCall.run_answers (mapAdapter (c :: cs))
    (I := ORAMPositionMapAdapter.Holds c (MapState.Holds cs c.blocks) S)
    (fun f m block hm hcall => wp_mono (ORAMPositionMapAdapter.get_spec hc hpm hbound hm
      (hcall.2.1.trans_le hn) (hcall.2.1.trans_le hn')) (fun _ _ h => h) fun _ _ h => hnever h)
    (fun f m block leaf hm hcall => wp_mono (ORAMPositionMapAdapter.set_spec hc hpm hbound hm
      (hcall.2.1.trans_le hn) (hcall.2.1.trans_le hn') (MapCall.mem_sets hcall.1) hcall.2.2)
      (fun _ _ h => h) fun _ _ h => hnever h) hadmit hm
  refine ⟨f, hf, fun m' hcapacity => ?_⟩
  obtain ⟨f', hf'⟩ := MapCall.inMemory_answers
    (fun call hcall => ⟨hblock call hcall, hleaf call hcall⟩) hcapacity
  rwa [MapCall.judged_unique hf hf']

/-- The state of a position map of two tiny ORAMs over an array. -/
def MapState.tiny (random : Random) : MapState [Config.tiny 1 2, Config.tiny 1 2] :=
  ORAM.built (Config.tiny 1 2) (mapAdapter [Config.tiny 1 2])
    (ORAM.unbuilt (ORAM.built (Config.tiny 1 2) (mapAdapter [])
      (ORAM.unbuilt (.allocate 2 (by decide) 0) random)) random)

theorem recursion_transparent_tiny :
    ∃ f, Judged MapCall.Answers (fun _ => none) [.set 0 5, .get 1, .set 1 (2 ^ 64 - 1), .get 0]
        (runCatching (MapCall.exec (mapAdapter [Config.tiny 1 2, Config.tiny 1 2]))
          [.set 0 5, .get 1, .set 1 (2 ^ 64 - 1), .get 0]
          (MapState.tiny (Random.ofLeaves (Stream'.const 0)))).1 f ∧
      ∀ m' : InMemoryPositionMapAdapter, 2 ≤ m'.capacity →
        Judged MapCall.Answers (fun _ => none)
          [.set 0 5, .get 1, .set 1 (2 ^ 64 - 1), .get 0]
          (runCatching (MapCall.exec InMemoryPositionMapAdapter.adapter)
            [.set 0 5, .get 1, .set 1 (2 ^ 64 - 1), .get 0] m').1 f := by
  have hvalid := Config.tiny_valid le_rfl (by norm_num) 2
  have hinner : MapState.Serves [Config.tiny 1 2] 2 := ⟨hvalid, by decide, by norm_num, trivial⟩
  have houter : MapState.Serves [Config.tiny 1 2, Config.tiny 1 2] 2 :=
    ⟨hvalid, by decide, by norm_num, hinner⟩
  have hstashes : ¬MapState.MayOverflow [Config.tiny 1 2] (Config.tiny 1 2).blocks :=
    not_or.mpr ⟨not_false, by decide⟩
  -- the inner ORAM is built over an array, the outer one over the inner
  have hbottom : MapState.Fresh [Config.tiny 1 2] 2 _ :=
    MapState.fresh_built hinner not_false
      (ORAM.unbuilt (.allocate 2 (by decide) 0) (Random.ofLeaves (Stream'.const 0)))
      (le_refl 2) rfl rfl
  exact recursion_transparent houter
    (MapState.fresh_built houter hstashes
      (ORAM.unbuilt _ (Random.ofLeaves (Stream'.const 0))) hbottom rfl rfl)
    (by decide) (by decide) (by decide) hstashes

/-! ### A small ORAM over an array -/

/-- An ORAM of the configuration `Config.tiny` after its constructor ran. -/
def ORAM.tiny (height stashCapacity : ℕ) (random : Random) : ORAM (MapState []) :=
  ORAM.built (Config.tiny height stashCapacity) (mapAdapter [])
    (ORAM.unbuilt (.allocate 8 (by decide) 0) random)

theorem ORAM.new_tiny {height : ℕ} (hpos : 1 ≤ height) (hle : height ≤ 3)
    (stashCapacity : ℕ) (random : Random) :
    ORAM.new (Config.tiny height stashCapacity) (mapAdapter []) true
        (ORAM.unbuilt (.allocate 8 (by decide) 0) random) =
      .ok () (ORAM.tiny height stashCapacity random) := by
  have hc := Config.tiny_valid hpos (by omega) stashCapacity
  have hblocks : (Config.tiny height stashCapacity).blocks ≤ 8 := by
    rw [hc.blocks_eq]
    change 2 ^ height * 1 ≤ 2 ^ 3
    rw [Nat.mul_one]
    exact Nat.pow_le_pow_right (by norm_num) hle
  -- the array has room for the blocks of a tree of height three
  have hpm : (mapAdapter []).Implements (Config.tiny height stashCapacity).blocks (2 ^ 64)
      (MapState.Holds [] (Config.tiny height stashCapacity).blocks) False :=
    MapState.mapAdapter_implements trivial
  exact ORAM.new_eq_built hc hpm (MapState.two_pow_height_le hc) ⟨rfl, hblocks⟩ rfl rfl

end PathORAM
