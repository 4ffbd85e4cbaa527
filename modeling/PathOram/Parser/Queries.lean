import PathOram.Parser.Appender
import PathOram.Parser.Average
import PathOram.Parser.Selection
import PathOram.Parser.Table

/-!
# The servers answer a query

`test-sss-sql.cpp`: each server loads its shares, takes its own share of each condition from the
JSON file of the query, and counts the tuples that have these shares, or writes them to its
result file. The appender has written the shares into the file before.

`query_eq` says which tuples a server selects: those of the rows whose values are masked like the
conditions at this server. The rows that satisfy the query are among them
(`selects_of_satisfied`); where the random terms keep the others apart, they are all
(`query_separated`).
-/

open ShamirParser Json

/-! ### The code -/

namespace ORAMTestSQL

open SQLQuery SQLHandlerIntegrationTest

variable {nlohmann : JsonLibrary}

/-- What ends a test before its result. -/
inductive Stop where
  | json (error : TypeError)
  | parser (fault : Fault)
  | assertion
  deriving DecidableEq, Repr

/-- The members that are filled from the filters. -/
structure Members where
  filter_ids : List ℤ
  where_clause : Text
  attributeIDs : List Text

/-- The loop over `j["filters"]`. -/
def readFilter (id_key : Text) (members : Members) (filter : Json nlohmann) :
    Except Stop Members := do
  let filter_ids ←
    match (filter.find "shareID".toList).bind fun shareID => shareID.find id_key with
    | some id => do
      let id ← id.getInt64.mapError .json
      pure (members.filter_ids ++ [id])
    | none => pure members.filter_ids
  let where_clause ←
    match filter.find "whereClause".toList with
    | some whereClause => whereClause.getString.mapError .json
    | none => pure members.where_clause
  let attributeIDs ←
    match filter.find "attribute".toList with
    | some «attribute» => do
      let «attribute» ← «attribute».getString.mapError .json
      pure (members.attributeIDs ++ [«attribute»])
    | none => pure members.attributeIDs
  pure { filter_ids, where_clause, attributeIDs }

def queryType (j : Json nlohmann) : Except TypeError Text := do
  let select ← j.index "select".toList
  if select.empty then pure []
  else do
    let item ← select.first
    match item.find "query_type".toList with
    | some query_type => query_type.getString
    | none => pure []

def clauseText : WhereClause → Text
  | .AND => "AND".toList
  | .OR => "OR".toList

/-- The loop over the tuples: those that are counted and written. -/
def selectTuples (whereClause : WhereClause) (attr_idx : List ℕ) (filter_ids : List ℤ)
    (secretShares : List (List ℤ)) : Except Stop (List (List ℤ)) :=
  secretShares.foldlM
    (fun selected tuple =>
      match attr_idx, filter_ids with
      | idx0 :: idx1 :: _, id0 :: id1 :: _ =>
        pure (if whereClause.combine (found tuple idx0 id0) (found tuple idx1 id1) then
          selected ++ [tuple] else selected)
      | _, _ => .error (.parser .outOfBounds))
    []

/-- One pass of a test: the tuples that the server `ser` selects. -/
def query (whereClause : WhereClause) (files : Files) (j : Json nlohmann) (ser : ℕ) :
    Except Stop (List (List ℤ)) := do
  let secretShares ← (loadServer files ser).mapError .parser
  let filters ← (j.index "filters".toList).mapError .json
  let members ← filters.elements.foldlM (readFilter (idName (ser - 1))) ⟨[], [], []⟩
  let attr_idx := members.attributeIDs.map attributeIndex
  let _query_type ← (queryType j).mapError .json
  if members.filter_ids.length = 2 ∧ members.where_clause = clauseText whereClause then
    selectTuples whereClause attr_idx members.filter_ids secretShares
  else .error .assertion

/-- A test that counts: the counts of the servers. -/
def counts (whereClause : WhereClause) (files : Files) (j : Json nlohmann) : Except Stop (List ℕ) :=
  (List.range 6).mapM fun i => do
    let selected ← query whereClause files j (i + 1)
    pure selected.length

/-- The files `server_x.txt` of a result. -/
abbrev Results : Type := ℕ → Text

/-- A test that writes: the result files of the servers. -/
def results (whereClause : WhereClause) (files : Files) (j : Json nlohmann) (out : Results) :
    Except Stop Results :=
  (List.range 6).foldlM
    (fun out i => do
      let selected ← query whereClause files j (i + 1)
      pure (Function.update out (i + 1)
        (selected.flatMap fun tuple => AvgAggregationTest.resultLine tuple ++ ['\n'])))
    out

def SQLCountORQuery : Files → Json nlohmann → Except Stop (List ℕ) := counts .OR

def SQLCountANDQuery : Files → Json nlohmann → Except Stop (List ℕ) := counts .AND

def SQLSUMORQuery : Files → Json nlohmann → Results → Except Stop Results := results .OR

def SQLSUMANDQuery : Files → Json nlohmann → Results → Except Stop Results := results .AND

def SQLAVGORQuery : Files → Json nlohmann → Results → Except Stop Results := results .OR

def SQLAVGANDQuery : Files → Json nlohmann → Results → Except Stop Results := results .AND

def SQLMINORQuery : Files → Json nlohmann → Results → Except Stop Results := results .OR

def SQLMINANDQuery : Files → Json nlohmann → Results → Except Stop Results := results .AND

def SQLMAXORQuery : Files → Json nlohmann → Results → Except Stop Results := results .OR

def SQLMAXANDQuery : Files → Json nlohmann → Results → Except Stop Results := results .AND

end ORAMTestSQL

/-! ### Queries as texts -/

namespace SQLQuery

variable {nlohmann : JsonLibrary}

structure TextFilter where
  attr : AttributeID
  condition : Text
  deriving DecidableEq, Repr

/-- An aggregate of an attribute, and the two filters of its clause. -/
structure TextQuery where
  attr : AttributeID
  first : TextFilter
  whereClause : WhereClause
  second : TextFilter
  deriving DecidableEq, Repr

namespace TextQuery

/-- The row satisfies the clause. -/
def satisfied (query : TextQuery) (row : AttributeID → Text) : Bool :=
  query.whereClause.combine (row query.first.attr == query.first.condition)
    (row query.second.attr == query.second.condition)

/-- The value is masked like the condition at the server `x`. -/
def masksAlike (g : Generator) (zone : TimeZone) (x : ℕ) (row : AttributeID → Text)
    (filter : TextFilter) : Bool :=
  masked g x (secret zone (lineItem row) filter.attr) ==
    masked g x (SQLHandler.stringToInt filter.condition)

/-- The server `x` selects the row. -/
def selects (g : Generator) (zone : TimeZone) (query : TextQuery) (x : ℕ)
    (row : AttributeID → Text) : Bool :=
  query.whereClause.combine (masksAlike g zone x row query.first)
    (masksAlike g zone x row query.second)

/-- The filters ask for something, on attributes that are encoded like conditions. Two filters on
one attribute ask for the same. -/
structure Answerable (query : TextQuery) : Prop where
  first : query.first.attr.kind.Matches
  second : query.second.attr.kind.Matches
  first_ne : query.first.condition ≠ []
  second_ne : query.second.condition ≠ []
  same : query.first.attr = query.second.attr → query.first.condition = query.second.condition

/-- The random terms of the server `x` keep the rows that do not satisfy the query apart from
those that do. -/
def Separated (g : Generator) (zone : TimeZone) (rows : List (AttributeID → Text))
    (query : TextQuery) (x : ℕ) : Prop :=
  ∀ row ∈ rows, query.satisfied row = false → query.selects g zone x row = false

end TextQuery

/-- The JSON value of a filter. -/
structure IsFilter (f : Json nlohmann) (filter : TextFilter) : Prop where
  «attribute» : f.find "attribute".toList = some (.string filter.attr.name)
  condition : f.find "condition".toList = some (.string filter.condition)
  whereClause : f.find "whereClause".toList = none

/-- The JSON value that stands between the filters. -/
structure IsClause (w : Json nlohmann) (whereClause : WhereClause) : Prop where
  whereClause : w.find "whereClause".toList = some (.string (ORAMTestSQL.clauseText whereClause))
  «attribute» : w.find "attribute".toList = none
  condition : w.find "condition".toList = none
  shareID : w.find "shareID".toList = none

/-- The JSON document of a query. -/
structure Asks (j : Json nlohmann) (query : TextQuery) : Prop where
  select : ∃ s rest, j.find "select".toList = some (.array (s :: rest)) ∧
    (∀ s' ∈ s :: rest, SQLHandlerIntegrationTest.TypedSelect s') ∧
      s.find "attribute".toList = some (.string query.attr.name)
  filters : ∃ f w f', j.find "filters".toList = some (.array [f, w, f']) ∧
    IsFilter f query.first ∧ IsClause w query.whereClause ∧ IsFilter f' query.second

end SQLQuery

/-! ### The tuples that a server selects -/

namespace ORAMTestSQL

open SQLQuery SQLHandlerIntegrationTest

section Reading

variable {nlohmann : JsonLibrary} {g : Generator} {g₀ : ℕ → ℕ → CoefficientOrZero} {zone : TimeZone}
  {rows : List (AttributeID → Text)} {row : AttributeID → Text} {query : TextQuery}
  {filter : TextFilter} {whereClause : WhereClause} {files : Files} {j j' f f' : Json nlohmann}
  {members : Members} {i : ℕ}

theorem masked_mem (g : Generator) (x : ℕ) (s : ℤ) :
    -2 ^ 63 ≤ masked g x s ∧ masked g x s < 2 ^ 63 :=
  int64_mem _

theorem getInt64_masked (g : Generator) (x : ℕ) (s : ℤ) :
    (.integer (masked g x s) : Json nlohmann).getInt64 = .ok (masked g x s) :=
  getInt64_integer_of_mem (masked_mem g x s)

/-- The share of the condition that the server `i + 1` takes. -/
theorem getD_conditionShares (hi : i < 6) (hf : IsFilter f filter) :
    ((conditionShares g f).getD i (0, 0)).2 =
      masked g (i + 1) (SQLHandler.stringToInt filter.condition) := by
  unfold conditionShares SQLHandler.shamirSecretSharing
  rw [text_eq hf.condition]
  exact getD_shamirSecretSharing (x := i + 1) (by omega) (by omega) _

theorem typedFilter_of_isFilter (hf : IsFilter f filter) : TypedFilter f :=
  ⟨hasString_of_find hf.attribute, hasString_of_find hf.condition,
    hasString_of_find_none (isObject_of_find hf.attribute) hf.whereClause⟩

theorem typedFilter_of_isClause (hf : IsClause f whereClause) : TypedFilter f := by
  have hobject := isObject_of_find hf.whereClause
  exact ⟨hasString_of_find_none hobject hf.attribute, hasString_of_find_none hobject hf.condition,
    hasString_of_find hf.whereClause⟩

theorem complete_of_isFilter (hf : IsFilter f filter) (hne : filter.condition ≠ []) :
    Complete f := by
  unfold Complete
  rw [text_eq hf.attribute, text_eq hf.condition]
  exact ⟨filter.attr.name_ne_nil, hne⟩

theorem not_complete_of_isClause (hf : IsClause f whereClause) : ¬ Complete f := by
  rintro ⟨hattribute, -⟩
  have hcontains := contains_of_text_ne hattribute
  unfold Json.contains at hcontains
  rw [hf.attribute] at hcontains
  exact Bool.false_ne_true hcontains

/-- A filter with its shares adds the share of the server and the attribute. -/
theorem readFilter_isFilter (hi : i < 6) (hf : IsFilter f filter) (hne : filter.condition ≠ [])
    (hserved : FilterServed g f f') (members : Members) :
    readFilter (idName i) members f' =
      .ok ⟨members.filter_ids ++ [masked g (i + 1) (SQLHandler.stringToInt filter.condition)],
        members.where_clause, members.attributeIDs ++ [filter.attr.name]⟩ := by
  have hcomplete := complete_of_isFilter hf hne
  -- a complete filter has received the shares of its own condition
  obtain ⟨id, hid, hentries⟩ := hserved.shares hcomplete
  have hattribute := (hserved.others hcomplete "attribute".toList (by decide)).trans hf.attribute
  have hclause := (hserved.others hcomplete "whereClause".toList (by decide)).trans hf.whereClause
  have hentry := hentries i hi
  rw [getD_conditionShares hi hf] at hentry
  unfold readFilter
  rw [hid, Option.bind_some, hentry, hattribute, hclause]
  simp only [getInt64_masked, getString_string]
  rfl

/-- The value between the filters gives the clause. -/
theorem readFilter_isClause (id_key : Text) (hf : IsClause f whereClause)
    (hserved : FilterServed g f f') (members : Members) :
    readFilter id_key members f' =
      .ok ⟨members.filter_ids, clauseText whereClause, members.attributeIDs⟩ := by
  -- a keyword is written back as it was
  have hsame := hserved.unchanged (not_complete_of_isClause hf)
  have hattribute := (hsame.find_eq "attribute".toList).trans hf.attribute
  have hclause := (hsame.find_eq "whereClause".toList).trans hf.whereClause
  have hshare := (hsame.find_eq "shareID".toList).trans hf.shareID
  unfold readFilter
  rw [hattribute, hclause, hshare]
  simp only [getString_string]
  rfl

/-- **The filters of an answerable query** agree on their shares. -/
theorem agree_of_answerable {w : Json nlohmann} (hquery : query.Answerable)
    (hf : IsFilter f query.first) (hw : IsClause w query.whereClause) (hf' : IsFilter f' query.second) :
    Agree g [f, w, f'] := by
  have hcases : ∀ e ∈ [f, w, f'], IsFilter e query.first ∨ IsFilter e query.second ∨
      IsClause e query.whereClause := by
    intro e he
    rcases List.mem_cons.mp he with rfl | he
    · exact .inl hf
    · rcases List.mem_cons.mp he with rfl | he
      · exact .inr (.inr hw)
      · exact .inr (.inl (List.mem_singleton.mp he ▸ hf'))
  -- Filters on one attribute have one condition.
  have hsame : ∀ {e e' : Json nlohmann} {a b : TextFilter}, IsFilter e a → IsFilter e' b →
      (a.attr = b.attr → a.condition = b.condition) →
        e.text "attribute".toList = e'.text "attribute".toList →
          conditionShares g e = conditionShares g e' := by
    intro e e' a b he he' hab htext
    rw [text_eq he.attribute, text_eq he'.attribute] at htext
    unfold conditionShares
    rw [text_eq he.condition, text_eq he'.condition, hab (AttributeID.name_injective htext)]
  refine ⟨fun e he e' he' hcomplete hcomplete' htext => ?_,
    fun e he e' _ hcomplete _ _ hcontains => ?_⟩
  · rcases hcases e he with he | he | he
    · rcases hcases e' he' with he' | he' | he'
      · exact hsame he he' (fun _ => rfl) htext
      · exact hsame he he' hquery.same htext
      · exact absurd hcomplete' (not_complete_of_isClause he')
    · rcases hcases e' he' with he' | he' | he'
      · exact hsame he he' (fun h => (hquery.same h.symm).symm) htext
      · exact hsame he he' (fun _ => rfl) htext
      · exact absurd hcomplete' (not_complete_of_isClause he')
    · exact absurd hcomplete (not_complete_of_isClause he)
  · rcases hcases e he with he | he | he
    · exact absurd (complete_of_isFilter he hquery.first_ne) hcomplete
    · exact absurd (complete_of_isFilter he hquery.second_ne) hcomplete
    · unfold Json.contains at hcontains
      rw [he.condition] at hcontains
      exact absurd hcontains Bool.false_ne_true

theorem typed_of_asks (hj : Asks j query) : Typed j := by
  obtain ⟨⟨s, rest, hselect, htyped, -⟩, f, w, f', hfilters, hf, hw, hf'⟩ := hj
  refine ⟨.inl (isObject_of_find hselect), ?_, ?_⟩
  · rw [items_eq hselect]
    exact htyped
  · rw [items_eq hfilters]
    intro e he
    -- the three filters: condition, keyword, condition
    rcases List.mem_cons.mp he with rfl | he
    · exact typedFilter_of_isFilter hf
    · rcases List.mem_cons.mp he with rfl | he
      · exact typedFilter_of_isClause hw
      · exact List.mem_singleton.mp he ▸ typedFilter_of_isFilter hf'

/-- What the servers read of the document that the appender has written. -/
structure Readable (g : Generator) (query : TextQuery) (j : Json nlohmann) : Prop where
  select : ∃ s rest, j.find "select".toList = some (.array (s :: rest)) ∧ TypedSelect s ∧
    s.find "attribute".toList = some (.string query.attr.name)
  filters : ∃ fs, j.find "filters".toList = some (.array fs) ∧ ∀ i < 6,
    fs.foldlM (readFilter (idName i)) ⟨[], [], []⟩ =
      .ok ⟨[masked g (i + 1) (SQLHandler.stringToInt query.first.condition),
          masked g (i + 1) (SQLHandler.stringToInt query.second.condition)],
        clauseText query.whereClause, [query.first.attr.name, query.second.attr.name]⟩

/-- **The appender** leaves a document that every server can read. -/
theorem appendShares_readable (g : Generator) (hquery : query.Answerable) (hj : Asks j query) :
    Returns (appendShares g j) (Readable g query) := by
  have htyped := typed_of_asks hj
  obtain ⟨⟨s, rest, hselect, hselects, hattribute⟩, f, w, f', hfilters, hf, hw, hf'⟩ := hj
  obtain ⟨j', hj', -⟩ := appendShares_returns g htyped
  -- filters that can be answered agree, so all of them are served
  obtain ⟨hothers, fs', hfs', hserved⟩ :=
    (served_iff_agree htyped hfilters hj').mpr (agree_of_answerable hquery hf hw hf')
  refine ⟨j', hj', ⟨s, rest, ?_, hselects s List.mem_cons_self, hattribute⟩, fs', hfs',
    fun i hi => ?_⟩
  · rw [hothers _ (by decide), hselect]
  -- the filters in their order
  · cases hserved with
    | cons h₀ hserved =>
      cases hserved with
      | cons h₁ hserved =>
        cases hserved with
        | cons h₂ hserved =>
          cases hserved
          rw [List.foldlM_cons, readFilter_isFilter hi hf hquery.first_ne h₀]
          show (readFilter _ _ _ >>= _) = _
          rw [readFilter_isClause _ hw h₁]
          show (readFilter _ _ _ >>= _) = _
          rw [readFilter_isFilter hi hf' hquery.second_ne h₂]
          rfl

/-- The share that a server has of an attribute which is encoded like a condition. -/
theorem getElem?_shareRow_eq (hi : i < 6) {a : AttributeID} (ha : a.kind.Matches)
    (item : LineItem) :
    (shareRow g g₀ zone item i)[a.index]? = some (masked g (i + 1) (secret zone item a)) := by
  -- flags and strings are shared by the generator for integers
  have hshares : shamirSecretSharingAllAttributes g g₀ zone item 6 3 a =
      ShamirParser.shamirSecretSharing g (secret zone item a) 6 3 := by
    cases a with
    | DISCOUNT => exact absurd ha (by unfold Kind.Matches; decide)
    | TAX => exact absurd ha (by unfold Kind.Matches; decide)
    | _ => rfl
  unfold shareRow sharesOn allShares
  rw [List.map_map, List.getElem?_map, a.getElem?_all, Option.map_some, Function.comp_apply,
    hshares]
  exact congrArg some (getD_shamirSecretSharing (x := i + 1) (by omega) (by omega) _)

theorem found_shareRow_eq (hi : i < 6) {a : AttributeID} (ha : a.kind.Matches)
    (row : AttributeID → Text) (id : ℤ) :
    found (shareRow g g₀ zone (lineItem row) i) a.index id =
      (masked g (i + 1) (secret zone (lineItem row) a) == id) := by
  unfold found
  rw [getElem?_shareRow_eq hi ha]

theorem found_shareRow (hi : i < 6) (hfilter : filter.attr.kind.Matches)
    (row : AttributeID → Text) :
    found (shareRow g g₀ zone (lineItem row) i) filter.attr.index
        (masked g (i + 1) (SQLHandler.stringToInt filter.condition)) =
      TextQuery.masksAlike g zone (i + 1) row filter :=
  found_shareRow_eq hi hfilter row _

/-- **The loop over the tuples.** -/
theorem selectTuples_eq_filter (whereClause : WhereClause) (idx0 idx1 : ℕ) (id0 id1 : ℤ)
    (tuples : List (List ℤ)) :
    selectTuples whereClause [idx0, idx1] [id0, id1] tuples = .ok (tuples.filter fun tuple =>
      whereClause.combine (found tuple idx0 id0) (found tuple idx1 id1)) := by
  unfold selectTuples
  refine Returns.eq_ok (Returns.foldlM (I := fun done selected => selected =
    done.filter fun tuple => whereClause.combine (found tuple idx0 id0) (found tuple idx1 id1))
    rfl fun done tuple rest selected _ hI => Returns.pure ?_)
  rw [hI, List.filter_append, List.filter_singleton]
  split <;> simp [*]

/-- The tuples of the rows that are masked like the conditions. -/
theorem selectTuples_eq (hi : i < 6) (hquery : query.Answerable)
    (rows : List (AttributeID → Text)) :
    selectTuples query.whereClause [query.first.attr.index, query.second.attr.index]
        [masked g (i + 1) (SQLHandler.stringToInt query.first.condition),
          masked g (i + 1) (SQLHandler.stringToInt query.second.condition)]
        (rows.map fun row => shareRow g g₀ zone (lineItem row) i) =
      .ok ((rows.filter (query.selects g zone (i + 1))).map
        fun row => shareRow g g₀ zone (lineItem row) i) := by
  rw [selectTuples_eq_filter, List.filter_map]
  -- a tuple is taken by its shares as its row is by the masked values
  refine congrArg (fun rows => Except.ok (List.map _ rows)) (List.filter_congr fun row _ => ?_)
  show query.whereClause.combine (found _ _ _) (found _ _ _) = query.selects g zone (i + 1) row
  rw [found_shareRow hi hquery.first, found_shareRow hi hquery.second]
  rfl

/-- The query type is that of the first item. -/
theorem queryType_cons {s : Json nlohmann} {rest : List (Json nlohmann)}
    (hselect : j.find "select".toList = some (.array (s :: rest))) :
    queryType j =
      match s.find "query_type".toList with
      | some query_type => query_type.getString
      | none => pure [] := by
  unfold queryType
  rw [index_eq hselect, ok_bind, empty_array, List.isEmpty_cons, if_neg Bool.false_ne_true,
    first_array_cons]
  rfl

theorem queryType_nil (hselect : j.find "select".toList = some (.array [])) :
    queryType j = .ok [] := by
  unfold queryType
  rw [index_eq hselect, ok_bind, empty_array]
  rfl

/-- The query type is a text. -/
theorem exists_queryType_eq (hj : Readable g query j) : ∃ text, queryType j = .ok text := by
  obtain ⟨⟨s, rest, hselect, htyped, -⟩, -⟩ := hj
  rw [queryType_cons hselect]
  cases hfind : s.find "query_type".toList with
  | none => exact ⟨[], rfl⟩
  | some member =>
    obtain ⟨text, rfl⟩ := isString_iff.mp (htyped.query_type.2 member hfind)
    exact ⟨text, getString_string text⟩

/-- The files from which each server loads its tuples of the rows. -/
def Loads (g : Generator) (g₀ : ℕ → ℕ → CoefficientOrZero) (zone : TimeZone)
    (rows : List (AttributeID → Text)) (files : Files) : Prop :=
  ∀ i < 6, loadServer files (i + 1) = .ok (rows.map fun row => shareRow g g₀ zone (lineItem row) i)

/-- The tuples that the server `i + 1` selects. -/
def selected (g : Generator) (g₀ : ℕ → ℕ → CoefficientOrZero) (zone : TimeZone)
    (rows : List (AttributeID → Text)) (query : TextQuery) (i : ℕ) : List (List ℤ) :=
  (rows.filter (query.selects g zone (i + 1))).map fun row => shareRow g g₀ zone (lineItem row) i

/-- **A server selects the rows that are masked like the conditions.** -/
theorem query_eq (hi : i < 6) (hquery : query.Answerable) (hj : Readable g query j)
    (hfiles : Loads g g₀ zone rows files) :
    ORAMTestSQL.query query.whereClause files j (i + 1) =
      .ok (selected g g₀ zone rows query i) := by
  obtain ⟨text, htext⟩ := exists_queryType_eq hj
  -- the file, the type of the query, and the filters are read; then the tuples are selected
  obtain ⟨-, fs, hfs, hread⟩ := hj
  unfold ORAMTestSQL.query
  rw [hfiles i hi, index_eq hfs, htext, Nat.add_sub_cancel]
  show ((Json.array fs).elements.foldlM (readFilter (idName i)) ⟨[], [], []⟩ >>= _) = _
  rw [elements_array, hread i hi]
  show (if _ then selectTuples query.whereClause (List.map attributeIndex _) _ _ else _) = _
  rw [if_pos ⟨rfl, rfl⟩, List.map_cons, List.map_cons, List.map_nil, attributeIndex_name,
    attributeIndex_name]
  exact selectTuples_eq hi hquery rows

theorem combine_mono {found₀ found₁ found₀' found₁' : Bool}
    (h₀ : found₀ = true → found₀' = true) (h₁ : found₁ = true → found₁' = true)
    (h : whereClause.combine found₀ found₁ = true) :
    whereClause.combine found₀' found₁' = true := by
  unfold WhereClause.combine at h ⊢
  -- both connectives are monotone
  cases whereClause with
  | AND =>
    rw [Bool.and_eq_true] at h ⊢
    exact h.imp h₀ h₁
  | OR =>
    rw [Bool.or_eq_true] at h ⊢
    exact h.imp h₀ h₁

/-- A row that satisfies the query is selected by every server. -/
theorem selects_of_satisfied (hquery : query.Answerable) (hrow : WellFormed row) (x : ℕ)
    (h : query.satisfied row = true) : query.selects g zone x row = true := by
  have hmasks : ∀ filter : TextFilter, filter.attr.kind.Matches →
      (row filter.attr == filter.condition) = true →
        TextQuery.masksAlike g zone x row filter = true := by
    intro filter hfilter heq
    unfold TextQuery.masksAlike
    rw [secret_lineItem hrow hfilter, eq_of_beq heq]
    exact beq_self_eq_true _
  exact combine_mono (hmasks _ hquery.first) (hmasks _ hquery.second) h

/-- Where the random terms keep the rows apart, the server selects those that satisfy the query. -/
theorem filter_selects (hquery : query.Answerable) (hrows : ∀ row ∈ rows, IsRow row) {x : ℕ}
    (hseparated : query.Separated g zone rows x) :
    rows.filter (query.selects g zone x) = rows.filter query.satisfied := by
  refine List.filter_congr fun row hrow => ?_
  cases hsatisfied : query.satisfied row with
  | true => exact selects_of_satisfied hquery (hrows row hrow).wellFormed x hsatisfied
  | false => exact hseparated row hrow hsatisfied

/-- **The result files.** -/
theorem results_spec (hquery : query.Answerable) (hj : Readable g query j)
    (hfiles : Loads g g₀ zone rows files) (out : Results) :
    Returns (results query.whereClause files j out) fun out' => ∀ i < 6, out' (i + 1) =
      (selected g g₀ zone rows query i).flatMap
        fun tuple => AvgAggregationTest.resultLine tuple ++ ['\n'] := by
  -- after `m` servers: the files of the first `m`
  refine Returns.foldlM_range (I := fun m (out' : Results) => ∀ i < m, out' (i + 1) =
    (selected g g₀ zone rows query i).flatMap
      fun tuple => AvgAggregationTest.resultLine tuple ++ ['\n'])
    (fun i hi => absurd hi (Nat.not_lt_zero i)) fun m out' hm hI => ?_
  refine Returns.bind ⟨_, query_eq hm hquery hj hfiles, rfl⟩ fun tuples htuples =>
    Returns.pure fun i hi => ?_
  -- each server writes a file of its own
  by_cases him : i = m
  · rw [him, Function.update_self, htuples]
  · rw [Function.update_of_ne (by omega)]
    exact hI i (by omega)

/-- **The counts.** -/
theorem counts_eq (hquery : query.Answerable) (hj : Readable g query j)
    (hfiles : Loads g g₀ zone rows files) :
    counts query.whereClause files j =
      .ok ((List.range 6).map fun i => (selected g g₀ zone rows query i).length) := by
  refine Returns.eq_ok (Returns.mapM fun i hi => ?_)
  refine Returns.bind ⟨_, query_eq (List.mem_range.mp hi) hquery hj hfiles, rfl⟩
    fun tuples htuples => Returns.pure ?_
  rw [htuples]

end Reading

end ORAMTestSQL
