import PathOram.Obliviousness

/-!
# What a batch shows

`multiple` first downloads the paths of all its IDs, and then serves its requests through
the cache. A request that is the first of its ID finds its path there. A request that
repeats an ID finds it drawn again, and its path is downloaded as far as it is not cached.

* `exec_multiple` — how a batch ends: all requests were served and the upload was asked for,
  or the stash overflowed.
* `touches_multiple` — what a batch asks the storage for, in terms of the revealed draws.
* `Draws.exists_touches_eq` — on a fresh ORAM: a function of as many cells of the tape as there
  are requests, and of the number of different IDs.
* `batch_oblivious` — two batches of the same length can only look alike if they have the same
  number of different IDs, and then they do, unless the stash overflows.
-/

namespace PathORAM

open Hoare HeapTree AbsStorageAdapter

/-! ### Paths and downloads -/

namespace Config

variable {c : Config} {leaves ahead : List ℕ} {leaf b : ℕ} {cached locations : Finset ℕ}

/-- The locations of the paths of some leaves. -/
def paths (c : Config) : List ℕ → Finset ℕ
  | [] => ∅
  | leaf :: leaves => c.path leaf ∪ paths c leaves

theorem mem_paths : b ∈ c.paths leaves ↔ ∃ leaf ∈ leaves, b ∈ c.path leaf := by
  induction leaves with
  | nil => simp [paths]
  | cons leaf leaves ih => rw [paths, Finset.mem_union, ih, List.exists_mem_cons_iff]

theorem paths_subset :
    c.paths leaves ⊆ locations ↔ ∀ leaf ∈ leaves, c.path leaf ⊆ locations := by
  constructor
  · exact fun h leaf hleaf b hb => h (mem_paths.mpr ⟨leaf, hleaf, hb⟩)
  · intro h b hb
    obtain ⟨leaf, hleaf, hb⟩ := mem_paths.mp hb
    exact h leaf hleaf hb

theorem path_subset_paths (h : leaf ∈ leaves) : c.path leaf ⊆ c.paths leaves :=
  paths_subset.mp (Finset.Subset.refl _) leaf h

/-- Only which leaves are listed matters. -/
theorem paths_congr {leaves leaves' : List ℕ} (h : ∀ leaf, leaf ∈ leaves ↔ leaf ∈ leaves') :
    c.paths leaves = c.paths leaves' := by
  ext b
  rw [mem_paths, mem_paths]
  exact exists_congr fun leaf => and_congr_left fun _ => h leaf

/-- What is downloaded when paths are read one after the other: what is not cached. -/
def downloads (c : Config) : Finset ℕ → List ℕ → List Touch
  | _, [] => []
  | cached, leaf :: leaves =>
    Touch.reads (c.path leaf \ cached) ++ downloads c (cached ∪ c.path leaf) leaves

/-- A path that is cached is not downloaded. -/
theorem downloads_cons_of_subset (h : c.path leaf ⊆ cached) :
    c.downloads cached (leaf :: leaves) = c.downloads cached leaves := by
  rw [downloads, Finset.sdiff_eq_empty_iff_subset.mpr h, Finset.union_eq_left.mpr h]
  rfl

/-- The draws whose paths are cached from the start can be left out. -/
theorem downloads_filter (f : ℕ → ℕ) (p : ℕ → Bool) {draws : List ℕ}
    (h : ∀ draw ∈ draws, p draw = false → c.path (f draw) ⊆ cached) :
    c.downloads cached (draws.map f) = c.downloads cached ((draws.filter p).map f) := by
  induction draws generalizing cached with
  | nil => rfl
  | cons draw draws ih =>
    have htail : ∀ draw ∈ draws, p draw = false → c.path (f draw) ⊆ cached := fun draw' h' =>
      h draw' (List.mem_cons_of_mem _ h')
    rw [List.map_cons]
    cases hp : p draw with
    | false =>
      rw [List.filter_cons_of_neg (by rw [hp]; exact Bool.false_ne_true),
        downloads_cons_of_subset (h draw List.mem_cons_self hp)]
      exact ih htail
    | true =>
      rw [List.filter_cons_of_pos hp, List.map_cons, downloads, downloads]
      -- what was cached stays cached
      rw [ih fun draw' h' hp' => (htail draw' h' hp').trans Finset.subset_union_left]

/-- What a batch asks the storage for: the paths of `ahead` at once, those of `leaves` one
after the other, and the upload of all of them. -/
def batch (c : Config) (ahead leaves : List ℕ) : List Touch :=
  Touch.reads (c.paths ahead) ++ c.downloads (c.paths ahead) leaves ++
    [.write (c.paths ahead ∪ c.paths leaves)]

end Config

/-! ### The calls of a batch -/

section Requests

variable {c : Config} {coins : Stream' ℕ} {σ : ℕ → ℕ} {k : ℕ} {v v' : View} {ops : List Op}
  {answers : List Bytes} {requests : List Block}

/-- **What the accesses of a batch ask for**: the paths of the draws they reveal, as far as
they are not cached. -/
theorem View.Drawn.accesses (hv : v.Drawn c coins σ k) (hops : ∀ op ∈ ops, op.block < c.blocks)
    (h : Accesses c v ops answers v') :
    v'.touched = v.touched ++ c.downloads v.cached
        ((Tape.reveal σ k (ops.map Op.block)).map (c.leafAt coins)) ∧
      v'.cached = v.cached ∪
        c.paths ((Tape.reveal σ k (ops.map Op.block)).map (c.leafAt coins)) := by
  -- on the accesses; each reads the path it draws from, and draws once more
  induction h generalizing σ k with
  | nil v => exact ⟨(List.append_nil _).symm, (Finset.union_empty _).symm⟩
  | @cons v v₁ v' op ops leaf stash response responses head tail ih =>
    obtain ⟨rfl, hv₁⟩ := hv.access (hops op List.mem_cons_self) head
    obtain ⟨htouched, hcached⟩ := ih hv₁ fun op' h => hops op' (List.mem_cons_of_mem _ h)
    have hhead : v₁.cached = v.cached ∪ c.path (c.leafAt coins (σ op.block)) := head.cached'
    rw [List.map_cons, Tape.reveal, List.map_cons]
    constructor
    · rw [htouched, head.touched', hhead]
      exact List.append_assoc _ _ _
    · rw [hcached, hhead]
      exact Finset.union_assoc _ _ _

/-- The locations downloaded ahead are those of the paths of the IDs. -/
theorem View.Drawn.prefetched_eq (hv : v.Drawn c coins σ k)
    (hrequests : ∀ request ∈ requests, request.1 < c.blocks) :
    prefetched c v requests =
      c.paths ((requests.map Prod.fst).map fun id => c.leafAt coins (σ id)) := by
  induction requests with
  | nil => rfl
  | cons request requests ih =>
    rw [prefetched, hv.pos request.1 (hrequests request List.mem_cons_self), Option.getD_some,
      ih fun r h => hrequests r (List.mem_cons_of_mem _ h)]
    rfl

theorem Call.inRange_multiple (hrequests : ∀ request ∈ requests, request.1 < c.blocks) :
    (Call.multiple requests).InRange c := by
  intro op hop
  obtain ⟨request, hrequest, rfl⟩ := List.mem_map.mp hop
  rw [Call.block_opOf]
  exact hrequests request hrequest

theorem Call.map_block_ops (requests : List Block) :
    (Call.multiple requests).ops.map Op.block = requests.map Prod.fst := by
  show (requests.map Call.opOf).map Op.block = _
  rw [List.map_map]
  exact List.map_congr_left fun request _ => Call.block_opOf request

/-- The download ahead of a batch, when nothing is cached. -/
theorem View.Drawn.prefetch (hv : v.Drawn c coins σ k) (hcached : v.cached = ∅)
    (hrequests : ∀ request ∈ requests, request.1 < c.blocks) :
    (v.prefetch c (.multiple requests)).cached =
        c.paths ((requests.map Prod.fst).map fun id => c.leafAt coins (σ id)) ∧
      (v.prefetch c (.multiple requests)).touched = v.touched ++
        Touch.reads (c.paths ((requests.map Prod.fst).map fun id => c.leafAt coins (σ id))) := by
  rw [← hv.prefetched_eq hrequests]
  constructor
  · show v.cached ∪ prefetched c v requests = _
    rw [hcached, Finset.empty_union]
  · show v.touched ++ Touch.reads (prefetched c v requests \ v.cached) = _
    rw [hcached, Finset.sdiff_empty]

/-- The accesses of a batch and the upload after them. -/
theorem View.Drawn.batch (hv : v.Drawn c coins σ k) (hcached : v.cached = ∅)
    (hrequests : ∀ request ∈ requests, request.1 < c.blocks) {v₁ : View}
    (hserved : Accesses c (v.prefetch c (.multiple requests)) (Call.multiple requests).ops
      answers v₁) (hsync : Sync c v₁ v') :
    v'.touched = v.touched ++
      c.batch ((requests.map Prod.fst).map fun id => c.leafAt coins (σ id))
        ((Tape.reveal σ k (requests.map Prod.fst)).map (c.leafAt coins)) := by
  -- the download ahead changes neither leaves nor draws
  have hfetched : (v.prefetch c (.multiple requests)).Drawn c coins σ k := ⟨hv.pos, hv.coins⟩
  obtain ⟨htouched, hcached₁⟩ := hfetched.accesses (Call.inRange_multiple hrequests) hserved
  obtain ⟨hahead, htouched₀⟩ := hv.prefetch hcached hrequests
  rw [Call.map_block_ops, hahead] at htouched hcached₁
  rw [hsync.touched', htouched, hcached₁, htouched₀, Config.batch]
  simp only [List.append_assoc]

/-- Accesses only add to what was asked for. -/
theorem Accesses.touched_prefix (h : Accesses c v ops answers v') : v.touched <+: v'.touched := by
  induction h with
  | nil v => exact List.prefix_refl _
  | cons head _ ih =>
    refine List.IsPrefix.trans ?_ ih
    rw [head.touched']
    exact List.prefix_append _ _

/-- So do accesses that were cut short. -/
theorem OverflowAt.touched_prefix (h : OverflowAt c v ops v') : v.touched <+: v'.touched := by
  obtain ⟨done, op, rest, answers, leaf, v₁, -, hserved, hoverflow⟩ := h
  refine hserved.touched_prefix.trans ?_
  rw [hoverflow.touched']
  exact List.prefix_append _ _

end Requests

namespace ORAM

variable {c : Config} {M : Type} {pm : AbsPositionMapAdapter M} {bound : ℕ}
  {R : (ℕ → Option ℕ) → M → Prop} {s : ORAM M} {v : View} {S : Finset ℕ}
  {coins : Stream' ℕ} {σ : ℕ → ℕ} {k : ℕ} {requests : List Block}

/-- **How a batch ends.** All requests were served and the upload was asked for, though it may
have failed; or the stash overflowed. -/
theorem exec_multiple (hc : c.Valid) (hpm : pm.Implements c.blocks bound R False)
    (hbound : 2 ^ (c.height - 1) ≤ bound) (hv : v.Valid c) (hshows : Shows c R v s)
    (hbatch : requests.length ≤ c.batchSize) (hcall : (Call.multiple requests).InRange c) :
    ∃ v', Shows c R v' (runCatching (exec c pm) [.multiple requests] s).2 ∧
      ((∃ v₁ answers, Accesses c (v.prefetch c (.multiple requests))
          (Call.multiple requests).ops answers v₁ ∧ Sync c v₁ v') ∨
        OverflowAt c (v.prefetch c (.multiple requests)) (Call.multiple requests).ops v') := by
  have hexec := exec_spec hc hpm hbound hv hshows hcall
  -- whether the call returns or throws, the touches are those of the view it leaves
  cases hresult : exec c pm (.multiple requests) s with
  | ok responses s' =>
    obtain ⟨v', hdone, hshows'⟩ := hexec.ok hresult
    obtain ⟨v₁, answers, hserved, -, hsynced⟩ := hdone.served
    rw [runCatching_cons_ok hresult]
    exact ⟨v', hshows', Or.inl ⟨v₁, answers, hserved, hsynced.toSync⟩⟩
  | error e s' =>
    obtain ⟨v', hfailed, hshows'⟩ := (hexec.error hresult).resolve_left id
    rw [runCatching_cons_error hresult]
    refine ⟨v', hshows', ?_⟩
    cases hfailed with
    -- the batch is not too large
    | tooMany h hmany =>
      obtain rfl := Call.multiple.inj h
      omega
    | overflow _ hoverflow => exact Or.inr hoverflow
    | sync _ hserved hsync => exact Or.inl ⟨_, _, hserved, hsync.toSync⟩

/-- Whatever happens later, a batch first downloads the paths of its IDs. -/
theorem exists_touches_append (hc : c.Valid) (hpm : pm.Implements c.blocks bound R False)
    (hbound : 2 ^ (c.height - 1) ≤ bound) (hv : v.Valid c) (hshows : Shows c R v s)
    (hdrawn : v.Drawn c coins σ k) (hcached : v.cached = ∅)
    (hbatch : requests.length ≤ c.batchSize)
    (hrequests : ∀ request ∈ requests, request.1 < c.blocks) :
    ∃ rest, touches c pm (.multiple requests) s =
      Touch.reads (c.paths ((requests.map Prod.fst).map fun id => c.leafAt coins (σ id))) ++
        rest := by
  obtain ⟨v', hshows', hend⟩ :=
    exec_multiple hc hpm hbound hv hshows hbatch (Call.inRange_multiple hrequests)
  -- the download comes first, whatever happens later
  have hprefix : (v.prefetch c (.multiple requests)).touched <+: v'.touched := by
    obtain ⟨v₁, answers, hserved, hsync⟩ | hoverflow := hend
    · rw [hsync.touched']
      exact hserved.touched_prefix.trans (List.prefix_append _ _)
    · exact hoverflow.touched_prefix
  obtain ⟨rest, hrest⟩ := hprefix
  refine ⟨rest, touches_eq hshows hshows' ?_⟩
  rw [← hrest, (hdrawn.prefetch hcached hrequests).2, List.append_assoc]

/-- **What a batch asks the storage for**, when the stash has room for all IDs. -/
theorem touches_multiple (hc : c.Valid) (hpm : pm.Implements c.blocks bound R False)
    (hbound : 2 ^ (c.height - 1) ≤ bound) (hv : v.Valid c) (hw : v.Within c (· ∈ S))
    (hshows : Shows c R v s) (hdrawn : v.Drawn c coins σ k) (hcached : v.cached = ∅)
    (hbatch : requests.length ≤ c.batchSize)
    (hrequests : ∀ request ∈ requests, request.1 < c.blocks)
    (hputs : ∀ op ∈ (Call.multiple requests).ops, ∀ id data, op = .write id data → id ∈ S)
    (hS : S.card ≤ c.stashCapacity) :
    touches c pm (.multiple requests) s =
      c.batch ((requests.map Prod.fst).map fun id => c.leafAt coins (σ id))
        ((Tape.reveal σ k (requests.map Prod.fst)).map (c.leafAt coins)) := by
  have hcall := Call.inRange_multiple hrequests
  -- the stash has room, so the call is served
  obtain ⟨v', hshows', ⟨v₁, answers, hserved, hsync⟩ | hoverflow⟩ :=
    exec_multiple hc hpm hbound hv hshows hbatch hcall
  · exact touches_eq hshows hshows' (hdrawn.batch hcached hrequests hserved hsync)
  · exact absurd hoverflow
      (not_overflowAt (hv.prefetch hcall) (hw.prefetch _) hcall hputs hS)

end ORAM

/-! ### Batches on a fresh ORAM -/

section Cells

variable {c : Config} {n distinct distinct' : ℕ} {leaf : ℕ}
  {w : List (Fin (2 ^ (c.height - 1)))}

/-- The locations downloaded ahead, if the leaves `w` are revealed: those of the `distinct` IDs
first. -/
def Config.ahead (c : Config) (distinct : ℕ) (w : List (Fin (2 ^ (c.height - 1)))) :
    Finset ℕ := c.paths ((w.take distinct).map Fin.val)

/-- What a batch shows, if the leaves `w` are revealed: those of the `distinct` IDs first. -/
def Config.shows (c : Config) (distinct : ℕ) (w : List (Fin (2 ^ (c.height - 1)))) :
    List Touch :=
  c.batch ((w.take distinct).map Fin.val) ((w.drop distinct).map Fin.val)

/-- A leaf whose path lies on the path of another leaf is that leaf. -/
theorem Config.leaf_eq_of_subset (hpos : 1 ≤ c.height)
    {left right : Fin (2 ^ (c.height - 1))} (h : c.path left.val ⊆ c.path right.val) :
    left = right := by
  have hmem : node c.height (c.height - 1) left.val ∈ c.path left.val :=
    Config.mem_path.mpr (node_mem_path (by omega))
  exact Fin.ext (leaf_eq_of_mem_path hpos left.isLt right.isLt (Config.mem_path.mp (h hmem)))

theorem exists_mem_take {α : Type} {w : List α} (hdistinct : 1 ≤ distinct)
    (hle : distinct ≤ w.length) : ∃ a, a ∈ w.take distinct := by
  refine List.exists_mem_of_length_pos ?_
  rw [List.length_take]
  omega

/-- A single path is downloaded ahead if and only if all leaves are that of the path. -/
theorem Config.ahead_eq_path_iff (hpos : 1 ≤ c.height) (hdistinct : 1 ≤ distinct)
    (hle : distinct ≤ w.length) {leaf : Fin (2 ^ (c.height - 1))} :
    c.ahead distinct w = c.path leaf.val ↔ ∀ leaf' ∈ w.take distinct, leaf' = leaf := by
  constructor
  · exact fun h leaf' hleaf' => Config.leaf_eq_of_subset hpos
      (h ▸ Config.path_subset_paths (List.mem_map_of_mem hleaf'))
  -- all leaves are the same one
  · intro h
    refine Finset.Subset.antisymm (Config.paths_subset.mpr fun leaf' hleaf' => ?_) ?_
    · obtain ⟨a, ha, rfl⟩ := List.mem_map.mp hleaf'
      rw [h a ha]
    · obtain ⟨leaf', hleaf'⟩ := exists_mem_take hdistinct hle
      rw [← h leaf' hleaf']
      exact Config.path_subset_paths (List.mem_map_of_mem hleaf')

/-- The root is downloaded ahead. -/
theorem Config.ahead_ne_empty (hpos : 1 ≤ c.height) (hdistinct : 1 ≤ distinct)
    (hle : distinct ≤ w.length) : c.ahead distinct w ≠ ∅ := by
  obtain ⟨leaf, hleaf⟩ := exists_mem_take hdistinct hle
  exact Finset.ne_empty_of_mem (Config.path_subset_paths (List.mem_map_of_mem hleaf)
    (Config.mem_path.mpr (node_mem_path hpos)))

/-- **More different IDs less often share a path.** Fewer tapes have a single path downloaded
ahead when more IDs are different. -/
theorem Config.count_ahead_lt (hheight : 2 ≤ c.height) (hdistinct : 1 ≤ distinct)
    (hlt : distinct < distinct') (hle : distinct' ≤ n) {cells : List (Fin (c.blocks + n))}
    (hcells : cells.Nodup) (hlength : cells.length = n) :
    Tape.count (fun τ : c.Tape n => c.ahead distinct' (cells.map τ) = c.path 0) <
      Tape.count (fun τ : c.Tape n => c.ahead distinct (cells.map τ) = c.path 0) := by
  have hpos : 1 ≤ c.height := by omega
  have hone : 1 < 2 ^ (c.height - 1) := Nat.one_lt_two_pow (by omega)
  set left : Fin (2 ^ (c.height - 1)) := ⟨0, by omega⟩ with hleft
  set right : Fin (2 ^ (c.height - 1)) := ⟨1, hone⟩ with hright
  have : Nonempty (Fin (2 ^ (c.height - 1))) := ⟨left⟩
  -- the fewer IDs draw the leaf on the left, the other ones that on the right
  set w := List.replicate distinct left ++ List.replicate (n - distinct) right with hw
  have hlengthw : w.length = n := by
    rw [hw, List.length_append, List.length_replicate, List.length_replicate]
    omega
  have htake : w.take distinct = List.replicate distinct left := by
    rw [hw, List.take_append_of_le_length (by rw [List.length_replicate]), List.take_replicate,
      Nat.min_self]
  have hmem : right ∈ w.take distinct' := by
    rw [hw, List.take_append, List.length_replicate, List.take_replicate, List.take_replicate]
    refine List.mem_append_right _ (List.mem_replicate.mpr ⟨?_, rfl⟩)
    omega
  refine Tape.count_map_lt (P := fun w => c.ahead distinct' w = c.path left.val)
    (Q := fun w => c.ahead distinct w = c.path left.val) (w := w) hcells ?_
    (hlengthw.trans hlength.symm) ?_ ?_
  · intro w hw h
    rw [Config.ahead_eq_path_iff hpos (by omega) (by omega)] at h ⊢
    exact fun leaf hleaf => h leaf (List.take_subset_take_left w hlt.le hleaf)
  · rw [Config.ahead_eq_path_iff hpos (by omega) (by omega)]
    intro h
    exact absurd (Fin.val_eq_of_eq (h right hmem)) Nat.one_ne_zero
  · rw [Config.ahead_eq_path_iff hpos hdistinct (by omega), htake]
    exact fun leaf hleaf => List.eq_of_mem_replicate hleaf

end Cells

section Fresh

variable {c : Config} {coins : Stream' ℕ} {σ : ℕ → ℕ} {k : ℕ} {ids : List ℕ}

/-- The paths downloaded ahead are those of the draws from before. -/
theorem Config.paths_filter_reveal (hσ : ∀ id ∈ ids, σ id < k) :
    c.paths (ids.map fun id => c.leafAt coins (σ id)) =
      c.paths (((Tape.reveal σ k ids).filter (· < k)).map (c.leafAt coins)) := by
  refine Config.paths_congr fun leaf => ?_
  rw [List.mem_map, List.mem_map]
  constructor
  -- the leaf of each ID is revealed by its first request
  · rintro ⟨id, hid, rfl⟩
    exact ⟨σ id, List.mem_filter.mpr ⟨(Tape.mem_reveal_iff (hσ id hid)).mpr ⟨id, hid, rfl⟩,
      decide_eq_true (hσ id hid)⟩, rfl⟩
  -- and a draw from before the batch is the leaf of some ID
  · rintro ⟨draw, hdraw, rfl⟩
    obtain ⟨hmem, hlt⟩ := List.mem_filter.mp hdraw
    obtain ⟨id, hid, rfl⟩ := (Tape.mem_reveal_iff (of_decide_eq_true hlt)).mp hmem
    exact ⟨id, hid, rfl⟩

/-- **The first request of an ID asks for nothing**: in what a batch shows, the draws from
before are those downloaded ahead, and only the other ones are read one after the other. -/
theorem Config.batch_reveal (hσ : ∀ id ∈ ids, σ id < k) :
    c.batch (ids.map fun id => c.leafAt coins (σ id))
        ((Tape.reveal σ k ids).map (c.leafAt coins)) =
      c.batch (((Tape.reveal σ k ids).filter (· < k)).map (c.leafAt coins))
        (((Tape.reveal σ k ids).filter (fun draw => !decide (draw < k))).map
          (c.leafAt coins)) := by
  rw [Config.batch, Config.batch, Config.paths_filter_reveal hσ]
  set downloaded := c.paths (((Tape.reveal σ k ids).filter (· < k)).map (c.leafAt coins))
  -- a leaf from before the batch has been downloaded ahead
  have hbefore : ∀ draw ∈ Tape.reveal σ k ids, draw < k →
      c.path (c.leafAt coins draw) ⊆ downloaded := fun draw hmem hlt =>
    Config.path_subset_paths
      (List.mem_map_of_mem (List.mem_filter.mpr ⟨hmem, decide_eq_true hlt⟩))
  have hdownloads := Config.downloads_filter (c.leafAt coins) (fun draw => !decide (draw < k))
    fun draw hmem hp => hbefore draw hmem (by simpa using hp)
  -- so its path adds nothing to the upload
  have hupload : downloaded ∪ c.paths ((Tape.reveal σ k ids).map (c.leafAt coins)) =
      downloaded ∪ c.paths (((Tape.reveal σ k ids).filter fun draw => !decide (draw < k)).map
        (c.leafAt coins)) := by
    refine Finset.Subset.antisymm
      (Finset.union_subset Finset.subset_union_left (Config.paths_subset.mpr ?_))
      (Finset.union_subset_union_right (Config.paths_subset.mpr ?_))
    · intro leaf hleaf
      obtain ⟨draw, hdraw, rfl⟩ := List.mem_map.mp hleaf
      by_cases hlt : draw < k
      · exact (hbefore draw hdraw hlt).trans Finset.subset_union_left
      · refine Finset.Subset.trans ?_ Finset.subset_union_right
        exact Config.path_subset_paths (List.mem_map_of_mem (List.mem_filter.mpr
          ⟨hdraw, by rw [decide_eq_false hlt]; rfl⟩))
    · exact fun leaf hleaf => Config.path_subset_paths
        (List.map_subset _ (List.filter_subset_self _) hleaf)
  rw [hdownloads, hupload]

/-- The cells a batch reveals: first those of the constructor, one for each different ID, then
those of earlier accesses. -/
theorem Config.exists_ordered_cells {n : ℕ} (hids : ∀ id ∈ ids, id < c.blocks)
    (hlength : ids.length = n) :
    ∃ before drawn : List (Fin (c.blocks + n)), (before ++ drawn).Nodup ∧
      (before ++ drawn).length = n ∧ before.length = ids.toFinset.card ∧
      before.map Fin.val = (Tape.reveal id c.blocks ids).filter (· < c.blocks) ∧
      drawn.map Fin.val =
        (Tape.reveal id c.blocks ids).filter fun draw => !decide (draw < c.blocks) := by
  obtain ⟨cells, hcells, hnodup, hcount⟩ := c.exists_cells hids hlength
  -- the cells from before the batch first, the draws of the batch behind them
  have hperm := List.filter_append_perm (fun cell => decide (cell.val < c.blocks)) cells
  have hbefore : (cells.filter fun cell => cell.val < c.blocks).map Fin.val =
      (Tape.reveal id c.blocks ids).filter (· < c.blocks) := by
    rw [← hcells, List.filter_map]
    rfl
  refine ⟨_, _, hperm.nodup_iff.mpr hnodup, hperm.length_eq.trans hcount, ?_, hbefore, ?_⟩
  · rw [← List.length_map (f := Fin.val), hbefore]
    exact Tape.length_filter_reveal (S := Set.Iio c.blocks) (fun _ h => h) (Set.injOn_id _) hids
  · rw [← hcells, List.filter_map]
    rfl

end Fresh

namespace ORAM

variable {c : Config} {cs : List Config} {n : ℕ} {requests requests' : List Block}

/-- The number of different IDs of a batch. -/
def distinctIds (requests : List Block) : ℕ := (requests.map Prod.fst).toFinset.card

/-- **A batch on a fresh ORAM** shows a function of distinct cells of the tape, one for each
request, which depends on the requests only through the number of different IDs. Without
room in the stash, that much is true of the first download. -/
theorem Draws.exists_touches_eq (hc : c.Valid) (hserves : MapState.Serves cs c.blocks)
    (hmaps : ¬MapState.MayOverflow cs c.blocks) (hlength : requests.length = n)
    (hbatch : n ≤ c.batchSize) (hrequests : ∀ request ∈ requests, request.1 < c.blocks) :
    ∃ cells : List (Fin (c.blocks + n)), cells.Nodup ∧ cells.length = n ∧
      ∀ (τ : c.Tape n) (s : ORAM (MapState cs)), s.Draws c cs τ →
        (∃ rest, touches c (mapAdapter cs) (.multiple requests) s =
          Touch.reads (c.ahead (distinctIds requests) (cells.map τ)) ++ rest) ∧
        ((Call.puts [.multiple requests]).card ≤ c.stashCapacity →
          touches c (mapAdapter cs) (.multiple requests) s =
            c.shows (distinctIds requests) (cells.map τ)) := by
  set ids := requests.map Prod.fst with hids
  have hlt : ∀ id ∈ ids, id < c.blocks := by
    intro id hid
    obtain ⟨request, hrequest, rfl⟩ := List.mem_map.mp hid
    exact hrequests request hrequest
  obtain ⟨before, drawn, hnodup, hcount, hdistinct, hbefore, hdrawn⟩ :=
    c.exists_ordered_cells hlt ((List.length_map Prod.fst).trans hlength)
  refine ⟨before ++ drawn, hnodup, hcount, fun τ s hs => ?_⟩
  obtain ⟨v, coins, hfresh, hshows, hdraws⟩ := hs.exists_fresh hc hserves
  have hpm := MapState.mapAdapter_implements hserves
  rw [eq_false hmaps] at hpm
  have hbound := MapState.two_pow_height_le hc
  have hbatch : requests.length ≤ c.batchSize := hlength ▸ hbatch
  -- a leaf is what the tape has in its cell
  have hleaves : ∀ cells : List (Fin (c.blocks + n)),
      (cells.map Fin.val).map (c.leafAt coins) = (cells.map τ).map Fin.val := by
    intro cells
    rw [List.map_map, List.map_map]
    exact List.map_congr_left fun cell _ => hdraws cell
  have htake : ((before ++ drawn).map τ).take (distinctIds requests) = before.map τ := by
    rw [distinctIds, ← hdistinct, List.map_append, ← List.length_map (f := τ), List.take_left]
  have hdrop : ((before ++ drawn).map τ).drop (distinctIds requests) = drawn.map τ := by
    rw [distinctIds, ← hdistinct, List.map_append, ← List.length_map (f := τ), List.drop_left]
  constructor
  -- the download shows the leaves of the different IDs
  · obtain ⟨rest, hrest⟩ := exists_touches_append hc hpm hbound (hfresh.valid hc) hshows
      hfresh.drawn hfresh.cached hbatch hrequests
    refine ⟨rest, ?_⟩
    rw [hrest, Config.ahead, htake, ← hleaves, hbefore,
      ← Config.paths_filter_reveal (σ := id) hlt]
  -- without an overflow the whole trace is a function of the cells
  · intro hstash
    have hputs : ∀ op ∈ (Call.multiple requests).ops, ∀ id data, op = .write id data →
        id ∈ Call.puts [.multiple requests] := by
      rintro op hop id data rfl
      exact Call.mem_puts List.mem_cons_self hop
    calc touches c (mapAdapter cs) (.multiple requests) s
        = c.batch (ids.map fun id => c.leafAt coins id)
            ((Tape.reveal id c.blocks ids).map (c.leafAt coins)) :=
          touches_multiple hc hpm hbound (hfresh.valid hc) (hfresh.within _) hshows hfresh.drawn
            hfresh.cached hbatch hrequests hputs hstash
      _ = c.batch ((before.map Fin.val).map (c.leafAt coins))
            ((drawn.map Fin.val).map (c.leafAt coins)) := by
          rw [hbefore, hdrawn]
          exact Config.batch_reveal (σ := id) hlt
      _ = c.shows (distinctIds requests) ((before ++ drawn).map τ) := by
          rw [Config.shows, htake, hdrop, hleaves, hleaves]

/-- A batch has at most as many different IDs as requests. -/
theorem distinctIds_le (requests : List Block) : distinctIds requests ≤ requests.length :=
  (List.toFinset_card_le _).trans (List.length_map _).le

/-- A batch that is not empty has an ID. -/
theorem distinctIds_pos (h : 0 < requests.length) : 1 ≤ distinctIds requests := by
  obtain ⟨request, rest, rfl⟩ := List.exists_cons_of_length_pos h
  exact Finset.card_pos.mpr ⟨request.1, List.mem_toFinset.mpr List.mem_cons_self⟩

/-- How often a batch first downloads the path of leaf 0, and nothing else. -/
theorem count_head_touches (hpos : 1 ≤ c.height) (hlength : requests.length = n) (hn : 0 < n)
    {cells : List (Fin (c.blocks + n))} (hcount : cells.length = n)
    {start : c.Tape n → ORAM (MapState cs)}
    (htouches : ∀ τ, ∃ rest, touches c (mapAdapter cs) (.multiple requests) (start τ) =
      Touch.reads (c.ahead (distinctIds requests) (cells.map τ)) ++ rest) :
    Tape.count (fun τ => (touches c (mapAdapter cs) (.multiple requests) (start τ)).head? =
        some (.read (c.path 0))) =
      Tape.count fun τ : c.Tape n => c.ahead (distinctIds requests) (cells.map τ) = c.path 0 := by
  refine Tape.count_congr fun τ => ?_
  obtain ⟨rest, hrest⟩ := htouches τ
  have hle : distinctIds requests ≤ (cells.map τ).length := by
    rw [List.length_map, hcount, ← hlength]
    exact distinctIds_le requests
  -- a path is never empty, so the download is seen
  have hne := Config.ahead_ne_empty hpos (distinctIds_pos (hlength ▸ hn)) hle
  rw [hrest, Touch.reads, if_neg hne]
  exact Option.some_inj.trans ⟨Touch.read.inj, congrArg Touch.read⟩

/-- **When batches are oblivious.** Two batches of `n` requests on a fresh ORAM that produce
every trace for the same number of tapes have the same number of different IDs. If they do,
and the stash has room for the IDs they put, they produce every trace for the same number of
tapes. `start τ` and `start' τ` are freshly initialised ORAMs with the leaf draws `τ`. -/
theorem batch_oblivious (hc : c.Valid) (hheight : 2 ≤ c.height) (cs : List Config)
    (hserves : MapState.Serves cs c.blocks) (hmaps : ¬MapState.MayOverflow cs c.blocks)
    {requests requests' : List Block} (hlength : requests.length = n)
    (hlength' : requests'.length = n) (hbatch : n ≤ c.batchSize)
    (hrequests : ∀ request ∈ requests, request.1 < c.blocks)
    (hrequests' : ∀ request ∈ requests', request.1 < c.blocks)
    {start start' : c.Tape n → ORAM (MapState cs)} (hstart : ∀ τ, (start τ).Draws c cs τ)
    (hstart' : ∀ τ, (start' τ).Draws c cs τ) :
    ((∀ t, Tape.count (fun τ => touches c (mapAdapter cs) (.multiple requests) (start τ) = t) =
          Tape.count fun τ => touches c (mapAdapter cs) (.multiple requests') (start' τ) = t) →
        distinctIds requests = distinctIds requests') ∧
      (distinctIds requests = distinctIds requests' →
        (Call.puts [.multiple requests]).card ≤ c.stashCapacity →
        (Call.puts [.multiple requests']).card ≤ c.stashCapacity →
        ∀ t, Tape.count (fun τ => touches c (mapAdapter cs) (.multiple requests) (start τ) = t) =
          Tape.count fun τ => touches c (mapAdapter cs) (.multiple requests') (start' τ) = t) := by
  obtain ⟨cells, hnodup, hcount, htouches⟩ :=
    Draws.exists_touches_eq hc hserves hmaps hlength hbatch hrequests
  obtain ⟨cells', hnodup', hcount', htouches'⟩ :=
    Draws.exists_touches_eq hc hserves hmaps hlength' hbatch hrequests'
  constructor
  · intro h
    by_contra hne
    have hle := distinctIds_le requests
    have hle' := distinctIds_le requests'
    have hn : 0 < n := by omega
    have hpos : 1 ≤ c.height := by omega
    -- both batches first download the path of leaf 0 equally often
    have heads := Tape.count_comp_eq h fun touches => touches.head? = some (.read (c.path 0))
    rw [count_head_touches hpos hlength hn hcount fun τ => (htouches τ _ (hstart τ)).1,
      count_head_touches hpos hlength' hn hcount' fun τ => (htouches' τ _ (hstart' τ)).1,
      Tape.count_map_eq (P := fun w : List (Fin (2 ^ (c.height - 1))) =>
        c.ahead (distinctIds requests') w = c.path 0) hnodup' hnodup
        (hcount'.trans hcount.symm)] at heads
    obtain hlt | hlt := Nat.lt_or_gt_of_ne hne
    · exact absurd heads (Config.count_ahead_lt hheight (distinctIds_pos (by omega)) hlt
        (by omega) hnodup hcount).ne'
    · exact absurd heads (Config.count_ahead_lt hheight (distinctIds_pos (by omega)) hlt
        (by omega) hnodup hcount).ne
  · intro h hstash hstash' t
    calc Tape.count (fun τ => touches c (mapAdapter cs) (.multiple requests) (start τ) = t)
        = Tape.count fun τ : c.Tape n => c.shows (distinctIds requests) (cells.map τ) = t :=
          Tape.count_congr fun τ => by rw [(htouches τ _ (hstart τ)).2 hstash]
      _ = Tape.count fun τ : c.Tape n => c.shows (distinctIds requests') (cells'.map τ) = t := by
          rw [h]
          exact Tape.count_map_eq (P := fun w : List (Fin (2 ^ (c.height - 1))) =>
            c.shows (distinctIds requests') w = t) hnodup hnodup' (hcount.trans hcount'.symm)
      _ = Tape.count fun τ =>
            touches c (mapAdapter cs) (.multiple requests') (start' τ) = t :=
          Tape.count_congr fun τ => by rw [(htouches' τ _ (hstart' τ)).2 hstash']

end ORAM

theorem batch_oblivious_tiny :
    ((∀ t, Tape.count (fun τ : (Config.tiny 2 2).Tape 2 => ORAM.touches (Config.tiny 2 2)
            (mapAdapter []) (.multiple [(0, []), (3, [7])]) (ORAM.tiny 2 2 (Random.ofTape τ)) = t) =
          Tape.count fun τ : (Config.tiny 2 2).Tape 2 => ORAM.touches (Config.tiny 2 2)
            (mapAdapter []) (.multiple [(1, [9]), (2, [])])
            (ORAM.tiny 2 2 (Random.ofTape τ)) = t) →
        ORAM.distinctIds [(0, []), (3, [7])] = ORAM.distinctIds [(1, [9]), (2, [])]) ∧
      (ORAM.distinctIds [(0, []), (3, [7])] = ORAM.distinctIds [(1, [9]), (2, [])] →
        (Call.puts [.multiple [(0, []), (3, [7])]]).card ≤ 2 →
        (Call.puts [.multiple [(1, [9]), (2, [])]]).card ≤ 2 →
        ∀ t, Tape.count (fun τ : (Config.tiny 2 2).Tape 2 => ORAM.touches (Config.tiny 2 2)
            (mapAdapter []) (.multiple [(0, []), (3, [7])]) (ORAM.tiny 2 2 (Random.ofTape τ)) = t) =
          Tape.count fun τ : (Config.tiny 2 2).Tape 2 => ORAM.touches (Config.tiny 2 2)
            (mapAdapter []) (.multiple [(1, [9]), (2, [])])
            (ORAM.tiny 2 2 (Random.ofTape τ)) = t) := by
  have hstart : ∀ τ : (Config.tiny 2 2).Tape 2,
      (ORAM.tiny 2 2 (Random.ofTape τ)).Draws (Config.tiny 2 2) [] τ :=
    ORAM.draws_tiny (by decide) (by decide) 2
  exact ORAM.batch_oblivious (Config.tiny_valid (by decide) (by decide) 2) (by decide) []
    trivial not_false (by decide) (by decide) (by decide) (by decide) (by decide) hstart hstart

/-- A batch that asks twice for the same ID downloads one path ahead; one that asks for two
IDs downloads both leaves ahead for half of the tapes. -/
theorem repeated_id_shows :
    Tape.count (fun τ : (Config.tiny 2 2).Tape 2 => ORAM.touches (Config.tiny 2 2) (mapAdapter [])
        (.multiple [(0, []), (0, [])]) (ORAM.tiny 2 2 (Random.ofTape τ)) =
          [.read {1, 2, 3}, .write {1, 2, 3}]) = 0 ∧
      Tape.count (fun τ : (Config.tiny 2 2).Tape 2 => ORAM.touches (Config.tiny 2 2)
        (mapAdapter []) (.multiple [(0, []), (1, [])]) (ORAM.tiny 2 2 (Random.ofTape τ)) =
          [.read {1, 2, 3}, .write {1, 2, 3}]) = 32 := by
  constructor
  · decide +kernel
  · decide +kernel

end PathORAM
