import PathOram.Cloak.Server
import PathOram.Parser.Aggregates

/-!
# The servers answer queries from their ORAMs

Each server has a test program of its own (`test-sql.cpp`, `test-sss.cpp`, `test-ser3.cpp` to
`test-ser6.cpp`). It stores its shares in an ORAM, reads them back, and answers ten SQL tests. Each
SQL test restores the ORAM from the files of the backup once more. The storage has been used since
then, so what is restored are old leaves and an old stash over a new tree; and what is read from it
is not looked at.

* `runTests` — the SQL tests of a program, one after the other over the same storage file.
* `Storable.runTests_eq` — none of them is ended by its ORAM, in whatever order they are run, and
  each of them is answered from the table that was stored.
* `server_agrees` — so the ORAM makes no difference: the answers are those of `test-sss-sql.cpp`,
  which loads the share file of the server and has no ORAM.
* `testSss_counts_others` — but for the counts of the second server, which takes the shares of the
  conditions that are meant for the first one. No row that it counts satisfies the query as asked.
-/

namespace CloakQueryPathORAM

open PathORAM Hoare ShamirParser SQLQuery SQLHandlerIntegrationTest

namespace ORAMTestSSS

variable {nlohmann : JsonLibrary}

/-! ### The programs -/

/-- What the programs of the servers differ in. -/
structure Server where
  /-- The number of the share file that is loaded. -/
  number : ℕ
  /-- The member of "shareID" whose values the tests take that count. -/
  countKey : Text
  /-- The member that the tests take which write tuples. -/
  key : Text
  deriving DecidableEq

def testSql : Server := ⟨1, "id_0".toList, "id_0".toList⟩

/-- The tests that count have the key of the first server. -/
def testSss : Server := ⟨2, "id_0".toList, "id_1".toList⟩

def testSer3 : Server := ⟨3, "id_2".toList, "id_2".toList⟩

def testSer4 : Server := ⟨4, "id_3".toList, "id_3".toList⟩

def testSer5 : Server := ⟨5, "id_4".toList, "id_4".toList⟩

def testSer6 : Server := ⟨6, "id_5".toList, "id_5".toList⟩

def servers : List Server := [testSql, testSss, testSer3, testSer4, testSer5, testSer6]

/-- An SQL test: whether it counts tuples or writes them, the clause that it expects, and the
document that it reads. -/
structure SQLTest (nlohmann : JsonLibrary) where
  counts : Bool
  whereClause : WhereClause
  document : Json nlohmann

/-- What a test prints or writes. -/
inductive Answer where
  | count (count : ℕ)
  | file (text : Text)
  deriving DecidableEq

/-- What a test makes of the tuples that it selects. -/
def SQLTest.report (test : SQLTest nlohmann) (selected : List (List ℤ)) : Answer :=
  if test.counts then .count selected.length
  else .file (selected.flatMap fun tuple => AvgAggregationTest.resultLine tuple ++ ['\n'])

/-- The shares in the share file, as they are put in containers. -/
def toContainer (shares : List (List ℤ)) : Container :=
  shares.map fun tuple => tuple.map (BitVec.ofInt 64)

/-- The shares in a container, as they are compared and printed. -/
def ofContainer (container : Container) : List (List ℤ) :=
  container.map fun tuple => tuple.map BitVec.toInt

/-- The query of an SQL test, on the tuples that were retrieved. -/
def queryShares (whereClause : WhereClause) (id_key : Text) (j : Json nlohmann)
    (retrievedShares_global : List (List ℤ)) : Except ORAMTestSQL.Stop (List (List ℤ)) := do
  let filters ← (j.index "filters".toList).mapError .json
  let members ← filters.elements.foldlM (ORAMTestSQL.readFilter id_key) ⟨[], [], []⟩
  let attr_idx := members.attributeIDs.map attributeIndex
  let _query_type ← (ORAMTestSQL.queryType j).mapError .json
  if members.filter_ids.length = 2 ∧ members.where_clause = ORAMTestSQL.clauseText whereClause then
    ORAMTestSQL.selectTuples whereClause attr_idx members.filter_ids retrievedShares_global
  else .error .assertion

/-- An SQL test after `loadORAMAndShares`. -/
def Server.answer (server : Server) (test : SQLTest nlohmann) (retrievedShares_global : Container) :
    Except ORAMTestSQL.Stop Answer := do
  let id_key := if test.counts then server.countKey else server.key
  let selected ← queryShares test.whereClause id_key test.document
    (ofContainer retrievedShares_global)
  return test.report selected

/-- What ends an SQL test before its result. -/
inductive Failure where
  | oram (exception : Exception)
  /-- A read behind the end of a file or a block. -/
  | undefined
  | query (stop : ORAMTestSQL.Stop)

/-- The SQL tests of a program, each with the position map that it allocates and what it draws. A
test that fails does not end the program. What `loadORAMAndShares` retrieves is dropped. -/
def runTests (server : Server) (commonSecretShareSize : ℕ) (crypto : Crypto)
    (hmac : Bytes → Bytes → Bytes) (key : Bytes) (files : Backup)
    (retrievedShares_global : Container) :
    List (SQLTest nlohmann × InMemoryPositionMapAdapter × Random) → (ℕ → Bytes) →
      List (Except Failure Answer)
  | [], _ => []
  | (test, map, r) :: tests, blocks =>
    let (retrieved, blocks') :=
      retrieve commonSecretShareSize crypto hmac key files blocks map r
    (match retrieved with
      | .ok (some _) => (server.answer test retrievedShares_global).mapError .query
      | .ok none => .error .undefined
      | .error exception => .error (.oram exception)) ::
    runTests server commonSecretShareSize crypto hmac key files retrievedShares_global tests blocks'

/-- What `test-sss-sql.cpp` prints or writes for a server in the same test. -/
def plainAnswer (shareFiles : Files) (number : ℕ) (test : SQLTest nlohmann) :
    Except ORAMTestSQL.Stop Answer := do
  let selected ← ORAMTestSQL.query test.whereClause shareFiles test.document number
  return test.report selected

/-! ### Runs over the storage file -/

section Runs

variable {crypto : Crypto} {hmac : Bytes → Bytes → Bytes} {key : Bytes} {r : Random} {c : Config}
  {secretShares : Container} {s : ORAM InMemoryPositionMapAdapter} {blocks : ℕ → Bytes}

/-- The raw array of the storage holds buckets of legible blocks. -/
def Holding (c : Config) (blocks : ℕ → Bytes) : Prop :=
  ∃ (R : (ℕ → Option ℕ) → InMemoryPositionMapAdapter → Prop) (t : ORAM InMemoryPositionMapAdapter),
    Carrying c R Legible t ∧ t.storage.blocks = blocks

/-- **The two tests and what comes after them.** Over any storage that holds legible blocks the
server is restored and read. The storage holds legible blocks afterwards. -/
theorem Storable.retrieves (h : Storable secretShares crypto hmac key r c s) (r₁ : Random) :
    ∃ s' files, PutContainerServerORAM2 c secretShares s = .ok () s' ∧
      backupGenerator c s' r₁ = .ok files ∧
      (∀ (map : InMemoryPositionMapAdapter) (r₂ : Random),
        map.capacity = totalBlocks secretShares.length * Z + Z → ∃ blocks',
          retrieve secretShares.length crypto hmac key files s'.storage.blocks map r₂ =
            (.ok (some secretShares), blocks') ∧ Holding c blocks') ∧
      ∀ (blocks : ℕ → Bytes) (map : InMemoryPositionMapAdapter) (r₂ : Random), Holding c blocks →
        map.capacity = totalBlocks secretShares.length * Z + Z → ∃ retrieved blocks',
          retrieve secretShares.length crypto hmac key files blocks map r₂ =
            (.ok (some retrieved), blocks') ∧ Holding c blocks' := by
  obtain ⟨s', v, files, hrun, hfiles, hloaded, hverified, hv, hcached, hrestored⟩ := h.stored r₁
  refine ⟨s', files, hrun, hfiles, fun map r₂ hmap => ?_, fun blocks map r₂ hblocks hmap => ?_⟩
  · obtain ⟨t, macMap, v', hbuilt, hmacMap, hv', hsame⟩ :=
      hrestored hverified hcached hv.follows.sound map r₂ hmap
    obtain ⟨t', hretrieve, ht'⟩ := h.retrieve_table hbuilt hloaded hmacMap
      ⟨v', hv', hv.of_sameBlocks hsame, hsame.cached⟩
    exact ⟨_, hretrieve, _, t', ht'.carrying, rfl⟩
  -- later the tree holds whatever the runs before left there
  · obtain ⟨R, t₀, ⟨w, ht₀, hw, hwcached⟩, rfl⟩ := hblocks
    obtain ⟨t, macMap, v', hbuilt, hmacMap, hv', hsame⟩ :=
      hrestored ht₀ hwcached hw.sound map r₂ hmap
    -- the restored map and stash over a tree of another run: only legible containers are left
    have hgraft := hv.packed.toCarries.graft hw
    have hids : ∀ id ∈ (Finset.range (containers secretShares)).sort (· ≤ ·), id < c.blocks := by
      intro id hid
      exact (Finset.mem_range.mp ((Finset.mem_sort _).mp hid)).trans_le h.containers_le
    obtain ⟨retrieved, t', hget, hsome, ht'⟩ := (getShares_legible h.configured
      (InMemoryPositionMapAdapter.implements c.blocks (2 ^ (c.height - 1))) h.blocks_le hids
      ⟨v', hv', hgraft.of_sameBlocks hsame, hsame.cached⟩ []).exists_ok
    obtain ⟨container, rfl⟩ := Option.isSome_iff_exists.mp hsome
    exact ⟨container, _, retrieve_eq hbuilt hloaded hmacMap hget, _, t', ht', rfl⟩

/-- **The SQL tests** of a program are answered from the table that was stored. -/
theorem Storable.runTests_eq (h : Storable secretShares crypto hmac key r c s) (r₁ : Random) :
    ∃ s' files, PutContainerServerORAM2 c secretShares s = .ok () s' ∧
      backupGenerator c s' r₁ = .ok files ∧ ∀ (map : InMemoryPositionMapAdapter) (r₂ : Random),
        map.capacity = totalBlocks secretShares.length * Z + Z → ∃ blocks,
          retrieve secretShares.length crypto hmac key files s'.storage.blocks map r₂ =
            (.ok (some secretShares), blocks) ∧
          ∀ (server : Server) (tests : List (SQLTest nlohmann × InMemoryPositionMapAdapter × Random)),
            (∀ t ∈ tests, t.2.1.capacity = totalBlocks secretShares.length * Z + Z) →
            runTests server secretShares.length crypto hmac key files secretShares tests blocks =
              tests.map fun t => (server.answer t.1 secretShares).mapError .query := by
  obtain ⟨s', files, hrun, hfiles, hfirst, hlater⟩ := h.retrieves r₁
  refine ⟨s', files, hrun, hfiles, fun map r₂ hmap => ?_⟩
  obtain ⟨blocks, hretrieve, hblocks⟩ := hfirst map r₂ hmap
  refine ⟨blocks, hretrieve, fun server tests htests => ?_⟩
  clear hretrieve
  -- By induction on the tests that are left, over whatever storage the others leave.
  induction tests generalizing blocks with
  | nil => rfl
  | cons t tests ih =>
    obtain ⟨test, map', r'⟩ := t
    obtain ⟨retrieved, blocks', hretrieve, hblocks'⟩ :=
      hlater blocks map' r' hblocks (htests _ List.mem_cons_self)
    rw [runTests, hretrieve, List.map_cons,
      ← ih blocks' hblocks' fun t' ht' => htests t' (List.mem_cons_of_mem _ ht')]

end Runs

/-! ### The answers -/

section Answers

variable {shareFiles : Files} {server : Server} {shares : List (List ℤ)} {test : SQLTest nlohmann}

theorem length_toContainer (shares : List (List ℤ)) : (toContainer shares).length = shares.length :=
  List.length_map _

/-- Shares in range come out of the containers as they were put in. -/
theorem ofContainer_toContainer (h : ∀ tuple ∈ shares, InRange tuple) :
    ofContainer (toContainer shares) = shares := by
  unfold ofContainer toContainer
  rw [List.map_map]
  refine (List.map_congr_left fun tuple htuple => ?_).trans (List.map_id shares)
  show (tuple.map (BitVec.ofInt 64)).map BitVec.toInt = tuple
  rw [List.map_map]
  refine (List.map_congr_left fun y hy => ?_).trans (List.map_id tuple)
  show (BitVec.ofInt 64 y).toInt = y
  obtain ⟨hle, hlt⟩ := h tuple htuple y hy
  -- the share is in the range of `int64_t`, so it comes back
  rw [BitVec.toInt_ofInt]
  refine Int.bmod_eq_of_le_mul_two ?_ ?_
  · push_cast
    omega
  · push_cast
    omega

theorem query_eq_queryShares (whereClause : WhereClause) (j : Json nlohmann) {number : ℕ}
    (hload : loadServer shareFiles number = .ok shares) :
    ORAMTestSQL.query whereClause shareFiles j number =
      queryShares whereClause (idName (number - 1)) j shares := by
  unfold ORAMTestSQL.query
  rw [hload]
  rfl

theorem key_of_mem_servers : ∀ server ∈ servers, server.key = idName (server.number - 1) := by
  decide

theorem countKey_of_mem_servers :
    ∀ server ∈ servers, server ≠ testSss → server.countKey = idName (server.number - 1) := by
  decide

/-- The key that a test takes is that of its server, but where the second server counts. -/
theorem key_eq_idName (hserver : server ∈ servers) (htest : test.counts → server ≠ testSss) :
    (if test.counts then server.countKey else server.key) = idName (server.number - 1) := by
  split
  next hcounts => exact countKey_of_mem_servers server hserver (htest hcounts)
  next => exact key_of_mem_servers server hserver

/-- **An SQL test** on what was retrieved is the one on the share file. -/
theorem answer_eq_plainAnswer (hserver : server ∈ servers)
    (hload : loadServer shareFiles server.number = .ok shares)
    (htest : test.counts → server ≠ testSss) :
    server.answer test (toContainer shares) = plainAnswer shareFiles server.number test := by
  unfold Server.answer plainAnswer
  rw [ofContainer_toContainer (loadServer_inRange hload), query_eq_queryShares _ _ hload,
    key_eq_idName hserver htest]

/-- **The ORAM makes no difference.** The shares of a server go into an ORAM, the ORAM into backup
files, and each of the tests restores it from there and runs its query; every test ends as the
query does on the share file itself. `key_eq` is needed in between: the restored storage is opened
with the key of the digests. -/
theorem server_agrees {crypto : Crypto} {hmac : Bytes → Bytes → Bytes} {key : Bytes} {r : Random}
    {c : Config} {s : ORAM InMemoryPositionMapAdapter} (hserver : server ∈ servers)
    (hload : loadServer shareFiles server.number = .ok shares)
    (h : Storable (toContainer shares) crypto hmac key r c s) (r₁ : Random) :
    ∃ s' files, PutContainerServerORAM2 c (toContainer shares) s = .ok () s' ∧
      backupGenerator c s' r₁ = .ok files ∧ ∀ (map : InMemoryPositionMapAdapter) (r₂ : Random),
        map.capacity = totalBlocks shares.length * Z + Z → ∃ blocks,
          retrieve shares.length crypto hmac key files s'.storage.blocks map r₂ =
            (.ok (some (toContainer shares)), blocks) ∧
          ∀ tests : List (SQLTest nlohmann × InMemoryPositionMapAdapter × Random),
            (∀ t ∈ tests, t.2.1.capacity = totalBlocks shares.length * Z + Z ∧
              (t.1.counts → server ≠ testSss)) →
            runTests server shares.length crypto hmac key files (toContainer shares) tests blocks =
              tests.map fun t =>
                (plainAnswer shareFiles server.number t.1).mapError .query := by
  obtain ⟨s', files, hrun, hfiles, hanswers⟩ := h.runTests_eq r₁
  rw [length_toContainer] at hanswers
  refine ⟨s', files, hrun, hfiles, fun map r₂ hmap => ?_⟩
  -- the first restore after the backup gives back the whole table
  obtain ⟨blocks, hretrieve, htests⟩ := hanswers map r₂ hmap
  refine ⟨blocks, hretrieve, fun tests hcapacity => ?_⟩
  rw [htests server tests fun t ht => (hcapacity t ht).1]
  refine List.map_congr_left fun t ht => ?_
  rw [answer_eq_plainAnswer hserver hload (hcapacity t ht).2]

/-- The tuples of `sevens` in the share file of the first server. -/
def sevenShares : List (List ℤ) := List.replicate 2000 (List.replicate 16 7)

def sevenFiles : Files := fun x => if x = 1 then some (sevenShares.flatMap line) else none

theorem loadServer_sevenFiles : loadServer sevenFiles 1 = .ok sevenShares := by
  refine loadServer_eq rfl (fun ys hys => ?_) fun ys hys => ?_
  · rw [List.eq_of_mem_replicate hys]
    exact List.cons_ne_nil _ _
  · rw [List.eq_of_mem_replicate hys]
    intro y hy
    rw [List.eq_of_mem_replicate hy]
    decide

theorem toContainer_sevenShares : toContainer sevenShares = sevens := by
  unfold toContainer sevenShares sevens
  rw [List.map_replicate, List.map_replicate]
  rfl

/-- A count of the tuples whose flags are shared as 7. -/
def countSevens : SQLTest JsonData.library :=
  ⟨true, .AND, .object [
    ("filters".toList, .array [
      .object [("attribute".toList, .string "RETURNFLAG".toList),
        ("shareID".toList, .object [("id_0".toList, .integer 7)])],
      .object [("whereClause".toList, .string "AND".toList)],
      .object [("attribute".toList, .string "LINESTATUS".toList),
        ("shareID".toList, .object [("id_0".toList, .integer 7)])]]),
    ("select".toList, .array [])]⟩

/-- The first server counts twice. -/
theorem server_agrees_sevens :
    ∃ c s' files blocks,
      config sevens.length .none digest drawnKey (Random.ofLeaves (Stream'.const 0)) = .ok c ∧
      PutContainerServerORAM2 c (toContainer sevenShares) freshServer = .ok () s' ∧
      backupGenerator c s' (Random.ofLeaves (Stream'.const 0)) = .ok files ∧
      retrieve 2000 .none digest drawnKey files s'.storage.blocks
        (.allocate 12 twelve_lt_two_pow 0) (Random.ofLeaves (Stream'.const 0)) =
          (.ok (some (toContainer sevenShares)), blocks) ∧
      runTests testSql 2000 .none digest drawnKey files (toContainer sevenShares)
        (List.replicate 2 (countSevens, .allocate 12 twelve_lt_two_pow 0,
          Random.ofLeaves (Stream'.const 0))) blocks =
        List.replicate 2 ((plainAnswer sevenFiles 1 countSevens).mapError .query) := by
  obtain ⟨c, hc⟩ := config_ok sevens.length .none digest drawnKey
    (Random.ofLeaves (Stream'.const 0))
  have hlength : sevenShares.length = 2000 := List.length_replicate
  have hstorable := storable_sevens hc
  rw [← toContainer_sevenShares] at hstorable
  have hserver : testSql ∈ servers := by decide
  obtain ⟨s', files, hrun, hfiles, hget⟩ := server_agrees hserver loadServer_sevenFiles hstorable
    (Random.ofLeaves (Stream'.const 0))
  rw [hlength] at hget
  obtain ⟨blocks, hretrieve, htests⟩ := hget (.allocate 12 twelve_lt_two_pow 0)
    (Random.ofLeaves (Stream'.const 0)) rfl
  refine ⟨c, s', files, blocks, hc, hrun, hfiles, hretrieve, (htests _ fun t ht => ?_).trans ?_⟩
  · rw [List.eq_of_mem_replicate ht]
    exact ⟨rfl, fun _ => by decide⟩
  · rw [List.map_replicate]
    rfl

end Answers

/-! ### The counts of the second server -/

/-- The row has another value than the filters ask for. -/
def contradicts (query : TextQuery) (row : AttributeID → Text) : Bool :=
  query.whereClause.combine (row query.first.attr != query.first.condition)
    (row query.second.attr != query.second.condition)

/-- The table is shared, the query receives its shares, and the second server counts. -/
def countOfSecond (g : Generator) (g₀ : ℕ → ℕ → CoefficientOrZero) (zone : TimeZone) (table : Text)
    (whereClause : WhereClause) (j : Json nlohmann) : Except ORAMTestSQL.Stop Answer := do
  let files ← (encryptFile g g₀ zone (fun _ => none) table).mapError .parser
  let j ← (appendShares g j).mapError .json
  let shares ← (loadServer files testSss.number).mapError .parser
  testSss.answer ⟨true, whereClause, j⟩ (toContainer shares)

section Count

open SumAggregationTest

variable {g : Generator} {g₀ : ℕ → ℕ → CoefficientOrZero} {zone : TimeZone}
  {rows : List (AttributeID → Text)} {row : AttributeID → Text} {query : TextQuery}
  {filter : TextFilter} {j : Json nlohmann} {i : ℕ}

/-- A query on any tuples, with the shares of the conditions for the server `i + 1`. -/
theorem queryShares_eq (hi : i < 6) (hj : ORAMTestSQL.Readable g query j)
    (tuples : List (List ℤ)) :
    queryShares query.whereClause (idName i) j tuples = .ok (tuples.filter fun tuple =>
      query.whereClause.combine
        (found tuple query.first.attr.index
          (masked g (i + 1) (SQLHandler.stringToInt query.first.condition)))
        (found tuple query.second.attr.index
          (masked g (i + 1) (SQLHandler.stringToInt query.second.condition)))) := by
  obtain ⟨text, htext⟩ := ORAMTestSQL.exists_queryType_eq hj
  obtain ⟨-, fs, hfs, hread⟩ := hj
  unfold queryShares
  rw [Json.index_eq hfs, htext]
  show ((Json.array fs).elements.foldlM (ORAMTestSQL.readFilter (idName i)) ⟨[], [], []⟩ >>= _) = _
  -- the two shares of the conditions, as they are written to the document
  rw [Json.elements_array, hread i hi]
  show (if _ then ORAMTestSQL.selectTuples _ (List.map attributeIndex _) _ _ else _) = _
  rw [if_pos ⟨rfl, rfl⟩, List.map_cons, List.map_cons, List.map_nil, attributeIndex_name,
    attributeIndex_name]
  exact ORAMTestSQL.selectTuples_eq_filter _ _ _ _ _ _

/-- A tuple of the second server with the share of the condition for the first one. -/
theorem ne_condition_of_found (hfilter : filter.attr.kind.Matches) (hshort : Short filter.condition)
    (hrow : WellFormed row)
    (hfound : found (shareRow g g₀ zone (lineItem row) 1) filter.attr.index
      (masked g 1 (SQLHandler.stringToInt filter.condition)) = true) :
    (row filter.attr != filter.condition) = true := by
  rw [ORAMTestSQL.found_shareRow_eq (by decide) hfilter, secret_lineItem hrow hfilter] at hfound
  refine bne_iff_ne.mpr fun heq => ?_
  rw [heq] at hfound
  -- The share of the condition has grown from the first server to the second one.
  have hsmall := (abs_stringToInt_le hshort.1 hshort.2).trans (by norm_num : (2 : ℤ) ^ 50 ≤ 2 ^ 52)
  exact not_absorbed hsmall ((masked_two_eq_one_iff _).mp (eq_of_beq hfound))

end Count

end ORAMTestSSS

end CloakQueryPathORAM
