import PathOram.Tree
import PathOram.KeyValue

/-!
# The Path ORAM protocol

The protocol the ORAM runs, as moves between views. A `View` is what matters of the
state of an ORAM: the leaf of every ID, the tree of buckets (a cached bucket stands for
the stored one), the stash, the leaf draws to come, the locations held in the cache,
and everything the storage adapter was asked for.

* `Access` — one completed access: remap, read the path, serve the operation, evict.
* `Overflow` — an access cut short because the stash is full.
* `Sync` — uploading the cache, which pads payloads; it may fail half way.
* `View.fetch` — downloading the locations that are not cached.

The moves leave open what chance decides besides the leaves: in which order blocks are
looked at, and what dummies contain.

The invariants of a view:

* `View.Valid` — every leaf is in range and every bucket has `Z` blocks with IDs in
  range.
* `View.Tracks` — the view holds the store `kv`: each block of an ID lies on the path of
  its leaf or in the stash and holds a padding of the payload put last, and each ID
  that was put has a block. The IDs of a set `T` are exempt.
* `View.Once` — every ID that was put occurs exactly once, and no other.
-/

namespace PathORAM

open HeapTree

/-! ### Views -/

/-- What the storage adapter is asked for in one call. -/
inductive Touch where
  | read (locations : Finset ℕ)
  | write (locations : Finset ℕ)

-- The derived instance does not evaluate: it transports along the equality of two sets.
instance : DecidableEq Touch
  | .read l, .read l' => decidable_of_iff (l = l') ⟨congrArg Touch.read, Touch.read.inj⟩
  | .write l, .write l' => decidable_of_iff (l = l') ⟨congrArg Touch.write, Touch.write.inj⟩
  | .read _, .write _ => isFalse nofun
  | .write _, .read _ => isFalse nofun

/-- The locations of a call to the storage adapter. -/
def StorageCall.touch : StorageCall → Touch
  | .get locations => .read locations.toFinset
  | .set locations => .write locations.toFinset

/-- The call that downloads a set of locations: none for the empty set. -/
def Touch.reads (locations : Finset ℕ) : List Touch :=
  if locations = ∅ then [] else [.read locations]

/-- What the protocol knows of the state of an ORAM. -/
structure View where
  /-- The position map. -/
  pos : ℕ → Option ℕ
  /-- The buckets, those in the cache included. -/
  tree : ℕ → Bucket
  stash : InMemoryStashAdapter
  /-- The leaf draws to come. -/
  coins : Stream' ℕ
  /-- The locations in the cache. -/
  cached : Finset ℕ
  /-- The calls to the storage adapter so far. -/
  touched : List Touch

/-- A block that is not "empty". -/
def Block.Real (e : Block) : Prop := e.1 ≠ ULONG_MAX

/-- The locations of a path. -/
def Config.path (c : Config) (leaf : ℕ) : Finset ℕ := (HeapTree.path c.height leaf).toFinset

/-- The stash once the operation was served. -/
def Op.serve : Op → InMemoryStashAdapter → InMemoryStashAdapter
  | .read _, stash => stash
  | .write block data, stash => AList.insert block data stash

theorem Op.lookup_serve_of_ne (op : Op) {id : ℕ} (h : id ≠ op.block)
    (stash : InMemoryStashAdapter) : (op.serve stash).lookup id = stash.lookup id := by
  cases op with
  | read _ => rfl
  | write block data => exact AList.lookup_insert_ne h

/-- A payload that the stash holds afterwards is the one that is written, or was there before
and belongs to an ID that the operation leaves alone. -/
theorem Op.lookup_serve_cases {op : Op} {stash : InMemoryStashAdapter} {id : ℕ} {d : Bytes}
    (h : (op.serve stash).lookup id = some d) :
    op = .write id d ∨ stash.lookup id = some d ∧ ∀ kv : Store, op.apply kv id = kv id := by
  cases op with
  | read _ => exact Or.inr ⟨h, fun _ => rfl⟩
  | write block data =>
    -- a write replaces its own block only
    by_cases hid : id = block
    · subst hid
      rw [Op.serve, AList.lookup_insert, Option.some.injEq] at h
      exact Or.inl (congrArg (Op.write id) h)
    · rw [Op.lookup_serve_of_ne (.write block data) hid] at h
      exact Or.inr ⟨h, Op.apply_of_ne (.write block data) hid⟩

namespace View

variable (c : Config)

/-- Download the locations that are not cached. -/
def fetch (locations : Finset ℕ) (v : View) : View :=
  { v with
    cached := v.cached ∪ locations
    touched := v.touched ++ Touch.reads (locations \ v.cached) }

/-- Draw a new leaf for an ID. -/
def remap (block : ℕ) (v : View) : View :=
  { v with
    pos := Function.update v.pos block (some (v.coins.head % 2 ^ (c.height - 1)))
    coins := v.coins.tail }

end View

/-! ### The moves -/

section Moves

variable (c : Config)

/-- `stash` holds the stash of `v` and blocks of the path. Blocks that were in the stash
already are not replaced. -/
structure Absorbs (v : View) (leaf : ℕ) (stash : InMemoryStashAdapter) : Prop where
  keep : ∀ id d, v.stash.lookup id = some d → stash.lookup id = some d
  source : ∀ id d, stash.lookup id = some d → v.stash.lookup id = some d ∨
    (id ≠ ULONG_MAX ∧ ∃ b ∈ c.path leaf, (id, d) ∈ v.tree b)

/-- `stash` holds all blocks of the path. -/
structure AbsorbsAll (v : View) (leaf : ℕ) (stash : InMemoryStashAdapter) : Prop
    extends Absorbs c v leaf stash where
  all : ∀ b ∈ c.path leaf, ∀ e ∈ v.tree b, Block.Real e → e.1 ∈ stash

/-- The blocks of `stash` are spread over the path of `leaf` and the stash of `v'`, each
to a bucket that its own path runs through. The rest of a bucket is dummies. -/
structure Evicts (pos : ℕ → Option ℕ) (leaf : ℕ) (stash : InMemoryStashAdapter)
    (tree : ℕ → Bucket) (v' : View) : Prop where
  off_path : ∀ b ∉ c.path leaf, v'.tree b = tree b
  length : ∀ b ∈ c.path leaf, (v'.tree b).length = c.Z
  dummy : ∀ b ∈ c.path leaf, ∀ e ∈ v'.tree b, ¬Block.Real e → e.2.length = c.dataSize
  source : ∀ b ∈ c.path leaf, ∀ e ∈ v'.tree b, Block.Real e → stash.lookup e.1 = some e.2
  fits : ∀ b ∈ c.path leaf, ∀ e ∈ v'.tree b, Block.Real e →
    ∃ l, pos e.1 = some l ∧ OnPath c.height b l
  kept : ∀ id d, v'.stash.lookup id = some d → stash.lookup id = some d
  /-- IDs from `2 ^ 31` on are not deleted from the stash: they do not survive the
  conversion to `int`. -/
  once : (∀ id ∈ stash, id < 2 ^ 31) → ∀ id ∈ stash,
    ∑ b ∈ c.path leaf, (v'.tree b).countP (·.1 = id) + (if id ∈ v'.stash then 1 else 0) = 1

/-- **One access.** `stash` is the stash between reading and writing the path. -/
structure Access (v : View) (op : Op) (leaf : ℕ) (stash : InMemoryStashAdapter)
    (response : Bytes) (v' : View) : Prop where
  pos : v.pos op.block = some leaf
  absorbs : AbsorbsAll c v leaf stash
  response_eq : response = ((op.serve stash).lookup op.block).getD []
  evicts : Evicts c v'.pos leaf (op.serve stash) v.tree v'
  pos' : v'.pos = (v.remap c op.block).pos
  coins' : v'.coins = (v.remap c op.block).coins
  cached' : v'.cached = (v.fetch (c.path leaf)).cached
  touched' : v'.touched = (v.fetch (c.path leaf)).touched

/-- **An access cut short.** The ID is remapped and the path was downloaded; the stash is
full, and a block that is not in it had to be added. -/
structure Overflow (v : View) (op : Op) (leaf : ℕ) (v' : View) : Prop where
  pos : v.pos op.block = some leaf
  absorbs : Absorbs c v leaf v'.stash
  full : v'.stash.keys.length = c.stashCapacity
  blocked : ∃ id ∉ v'.stash, (∃ data, op = .write id data) ∨
    ∃ b ∈ c.path leaf, ∃ e ∈ v.tree b, Block.Real e ∧ e.1 = id
  pos' : v'.pos = (v.remap c op.block).pos
  coins' : v'.coins = (v.remap c op.block).coins
  tree' : v'.tree = v.tree
  cached' : v'.cached = (v.fetch (c.path leaf)).cached
  touched' : v'.touched = (v.fetch (c.path leaf)).touched

/-- Several accesses, one for each operation. -/
inductive Accesses : View → List Op → List Bytes → View → Prop
  | nil (v : View) : Accesses v [] [] v
  | cons {v v' v'' : View} {op : Op} {ops : List Op} {leaf : ℕ}
      {stash : InMemoryStashAdapter} {response : Bytes} {responses : List Bytes}
      (head : Access c v op leaf stash response v') (tail : Accesses v' ops responses v'') :
      Accesses v (op :: ops) (response :: responses) v''

/-- Uploading the cache: payloads are padded on the way. -/
structure Sync (v v' : View) : Prop where
  pos' : v'.pos = v.pos
  stash' : v'.stash = v.stash
  coins' : v'.coins = v.coins
  tree' : ∀ b, List.Forall₂ (AbsStorageAdapter.Touched c.storage) (v.tree b) (v'.tree b)
  touched' : v'.touched = v.touched ++ [.write v.cached]

/-- The upload succeeded: the cache is empty, and all that was in it fitted. -/
structure Synced (v v' : View) : Prop extends Sync c v v' where
  cached' : v'.cached = ∅
  fitted : ∀ b ∈ v.cached, ∀ e ∈ v.tree b, e.2.length ≤ c.dataSize

/-- The upload failed: a payload in the cache is too long. -/
structure SyncFailed (v : View) (e : Exception) (v' : View) : Prop extends Sync c v v' where
  cached' : v'.cached = v.cached
  offending : ∃ b ∈ v.cached, ∃ block ∈ v.tree b, c.dataSize < block.2.length ∧
    e = .dataTooLong block.2.length c.dataSize

/-- The locations `multiple` downloads ahead. -/
def prefetched (v : View) : List Block → Finset ℕ
  | [] => ∅
  | request :: requests =>
    c.path ((v.pos request.1).getD 0) ∪ prefetched v requests

/-- The view after the download ahead of a call. -/
def View.prefetch (v : View) : Call → View
  | .multiple requests => v.fetch (prefetched c v requests)
  | _ => v

/-- `multiple` was given more requests than it takes. -/
def Call.TooMany : Call → Prop
  | .multiple requests => c.batchSize < requests.length
  | _ => False

instance : (call : Call) → Decidable (call.TooMany c)
  | .get _ => inferInstanceAs (Decidable False)
  | .put _ _ => inferInstanceAs (Decidable False)
  | .multiple requests => inferInstanceAs (Decidable (c.batchSize < requests.length))

/-- The IDs of a call are in range. -/
def Call.InRange (call : Call) : Prop := ∀ op ∈ call.ops, op.block < c.blocks

/-- An access of a list of operations was cut short. -/
def OverflowAt (v : View) (ops : List Op) (v' : View) : Prop :=
  ∃ done op rest answers leaf v₁, ops = done ++ op :: rest ∧ Accesses c v done answers v₁ ∧
    Overflow c v₁ op leaf v'

/-- **A completed call.** -/
structure Call.Done (v : View) (call : Call) (responses : List Bytes) (v' : View) : Prop where
  intro ::
  fine : ¬call.TooMany c
  served : ∃ v₁ answers, Accesses c (v.prefetch c call) call.ops answers v₁ ∧
    responses = call.report answers ∧ Synced c v₁ v'

/-- **A failed call**: too many requests, a full stash at one of the operations, or a
payload that is too long at the end. -/
inductive Call.Failed (v : View) (call : Call) : Exception → View → Prop
  | tooMany {requests : List Block} (hcall : call = .multiple requests)
      (h : c.batchSize < requests.length) :
      Failed v call (.tooManyRequests requests.length c.batchSize) v
  | overflow {v' : View} (fine : ¬call.TooMany c)
      (h : OverflowAt c (v.prefetch c call) call.ops v') :
      Failed v call (.overCapacity c.stashCapacity) v'
  | sync {answers : List Bytes} {v₁ v' : View} {e : Exception} (fine : ¬call.TooMany c)
      (served : Accesses c (v.prefetch c call) call.ops answers v₁)
      (h : SyncFailed c v₁ e v') : Failed v call e v'

end Moves

end PathORAM
