import PathOram.Lib.Json
import PathOram.Parser.Encoding

/-!
# The shares of a query's conditions

`sql_utils.cpp` and `run_sql_appender_logic` of `sql_handler_test.cpp`: each query is a JSON
file with a list of filters. The appender parses the filters, computes the shares of their
conditions, and writes them into the filters.

In between, the shares are kept in a map under the attribute of the filter. A later filter on
the same attribute replaces the shares of an earlier one, and both receive what is left:
`run_sql_appender_logic_iff` says which queries are served.

A file is the document that its text stands for; `none` is a text that is no document.
-/

open ShamirParser Json

/-! ### Parsing a query -/

namespace Utils

variable {nlohmann : JsonLibrary}

structure SelectItem where
  query_type : Text
  «attribute» : Text
  «variable» : Text

structure FilterItem where
  «attribute» : Text
  condition : Text
  whereClause : Text

/-- The loop over `j["select"]`. -/
def readSelect (s : Json nlohmann) : Except TypeError SelectItem := do
  let query_type ← s.value "query_type".toList []
  let «attribute» ← s.value "attribute".toList []
  let «variable» ← s.value "variable".toList []
  pure { query_type, «attribute», «variable» }

/-- The loop over `j["filters"]`. -/
def readFilter (f : Json nlohmann) : Except TypeError FilterItem :=
  if f.contains "whereClause".toList then do
    let «attribute» ← f.value "attribute".toList []
    let condition ← f.value "condition".toList []
    let whereClause ← f.value "whereClause".toList []
    pure { «attribute», condition, whereClause }
  else do
    let «attribute» ← f.value "attribute".toList []
    let condition ← f.value "condition".toList []
    pure { «attribute», condition, whereClause := [] }

/-- The items of a member that may be missing. -/
def readItems {α : Type} (read : Json nlohmann → Except TypeError α) (j : Json nlohmann)
    (key : Text) : Except TypeError (List α) :=
  if j.contains key then do
    let items ← j.index key
    items.elements.mapM read
  else pure []

/-- `selectItems`, `filterItems` and `allItems`. Only the last item of the selection is kept in
`allItems`. -/
def parseQueryJson (j : Json nlohmann) (allItems : SelectItem × List FilterItem) :
    Except TypeError (List SelectItem × List FilterItem × (SelectItem × List FilterItem)) := do
  let selectItems ← readItems readSelect j "select".toList
  let filterItems ← readItems readFilter j "filters".toList
  pure (selectItems, filterItems,
    selectItems.foldl (fun _ selectItem => (selectItem, filterItems)) allItems)

end Utils

/-! ### The appender -/

namespace SQLHandlerIntegrationTest

open Utils

variable {nlohmann : JsonLibrary}

/-- `std::map<std::string, std::vector<std::pair<int64_t, int64_t>>>`. -/
abbrev AttributeShares : Type := List (Text × List (ℤ × ℤ))

/-- The loop over the items: the shares of the condition, under the attribute. -/
def addShares (g : Generator) (attributeShares : AttributeShares) (filter : FilterItem) :
    AttributeShares :=
  if filter.attribute ≠ [] ∧ filter.condition ≠ [] then
    let cond := SQLHandler.stringToInt filter.condition
    -- an earlier filter on the attribute is overwritten
    OrderedMap.set filter.attribute (SQLHandler.shamirSecretSharing g cond 6 3) attributeShares
  else attributeShares

/-- `"id_" + std::to_string(idx)`. -/
def idName (idx : ℕ) : Text := "id_".toList ++ Decimal.print idx

def shareID (shares : List (ℤ × ℤ)) : Except TypeError (Json nlohmann) :=
  (List.range shares.length).foldlM
    (fun shareID idx => shareID.set (idName idx) (.integer (shares.getD idx (0, 0)).2)) .null

/-- The loop over the filters of the document. -/
def updateFilter (attributeShares : AttributeShares) (filter : Json nlohmann) :
    Except TypeError (Json nlohmann) :=
  if filter.contains "attribute".toList && filter.contains "condition".toList then do
    let attr ← filter.index "attribute".toList >>= getString
    match attributeShares.lookup attr with
    | some shares => do
      let shareID ← shareID shares
      filter.set "shareID".toList shareID
    -- no filter on this attribute was complete
    | none => pure filter
  else pure filter

/-- What becomes of a document. -/
def appendShares (g : Generator) (j : Json nlohmann) : Except TypeError (Json nlohmann) := do
  let (_, filterItems, _) ← parseQueryJson j (⟨[], [], []⟩, [])
  let attributeShares := filterItems.foldl (addShares g) []
  let filters ← j.index "filters".toList
  let filters ← filters.mapElements (updateFilter attributeShares)
  j.set "filters".toList filters

/-- The JSON files below the directory, in the order of the iterator, and the result. An exception
ends the run: the file and those that follow stay as they are. -/
def run_sql_appender_logic (g : Generator) :
    List (Option (Json nlohmann)) → ℕ × List (Option (Json nlohmann))
  | [] => (0, [])
  -- `json::parse` throws
  | none :: files => (1, none :: files)
  | some j :: files =>
    match appendShares g j with
    | .ok j' =>
      let (status, files') := run_sql_appender_logic g files
      (status, some j' :: files')
    -- so do the types of the members
    | .error _ => (1, some j :: files)

/-! ### The queries that are served -/

/-- A filter with an attribute and a condition. -/
def Complete (f : Json nlohmann) : Prop :=
  f.text "attribute".toList ≠ [] ∧ f.text "condition".toList ≠ []

/-- The shares of the filter's own condition. -/
def conditionShares (g : Generator) (f : Json nlohmann) : List (ℤ × ℤ) :=
  SQLHandler.shamirSecretSharing g (SQLHandler.stringToInt (f.text "condition".toList)) 6 3

/-- The entries `id_0` to `id_5` of a filter. -/
def Carries (f : Json nlohmann) (shares : List (ℤ × ℤ)) : Prop :=
  ∃ id, f.find "shareID".toList = some id ∧
    ∀ i < 6, id.find (idName i) = some (.integer (shares.getD i (0, 0)).2)

/-- The entries `id_0`, `id_1`, … of the first `n` shares. -/
def idEntries (shares : List (ℤ × ℤ)) (n : ℕ) : List (Text × Json nlohmann) :=
  (List.range n).map fun idx => (idName idx, .integer (shares.getD idx (0, 0)).2)

/-- A filter before and after the run. -/
structure FilterServed (g : Generator) (f f' : Json nlohmann) : Prop where
  shares : Complete f → Carries f' (conditionShares g f)
  others : Complete f → ∀ key ≠ "shareID".toList, f'.find key = f.find key
  unchanged : ¬ Complete f → f.Same f'

/-- A document with the filters `fs` before and after the run. -/
structure Served (g : Generator) (j : Json nlohmann) (fs : List (Json nlohmann))
    (j' : Json nlohmann) : Prop where
  others : ∀ key ≠ "filters".toList, j'.find key = j.find key
  filters : ∃ fs', j'.find "filters".toList = some (.array fs') ∧
    List.Forall₂ (FilterServed g) fs fs'

structure TypedSelect (s : Json nlohmann) : Prop where
  query_type : s.HasString "query_type".toList
  «attribute» : s.HasString "attribute".toList
  «variable» : s.HasString "variable".toList

structure TypedFilter (f : Json nlohmann) : Prop where
  «attribute» : f.HasString "attribute".toList
  condition : f.HasString "condition".toList
  whereClause : f.HasString "whereClause".toList

/-- The texts of a query are strings. -/
structure Typed (j : Json nlohmann) : Prop where
  object : j.isObject = true ∨ j = .null
  select : ∀ s ∈ j.items "select".toList, TypedSelect s
  filters : ∀ f ∈ j.items "filters".toList, TypedFilter f

/-- The run comes to a document, and can read it. -/
def Reached (before : List (Option (Json nlohmann))) (j : Json nlohmann) : Prop :=
  (∀ file ∈ before, ∃ j ∈ file, Typed j) ∧ Typed j

/-- Filters on one attribute have the same shares. Where the condition is missing, the shares
are already there. -/
structure Agree (g : Generator) (fs : List (Json nlohmann)) : Prop where
  complete : ∀ f ∈ fs, ∀ f' ∈ fs, Complete f → Complete f' →
    f.text "attribute".toList = f'.text "attribute".toList →
      conditionShares g f = conditionShares g f'
  incomplete : ∀ f ∈ fs, ∀ f' ∈ fs, ¬ Complete f → Complete f' →
    f.text "attribute".toList = f'.text "attribute".toList →
      f.contains "condition".toList = true →
        f.find "shareID".toList = some (.object (idEntries (conditionShares g f') 6))

/-! ### Parsing -/

section Parsing

variable {j s f : Json nlohmann}

theorem readItems_eq {α : Type} (read : Json nlohmann → Except TypeError α) (j : Json nlohmann)
    (key : Text) : readItems read j key = (j.items key).mapM read := by
  unfold readItems Json.contains Json.items
  cases hfind : j.find key with
  | none => rfl
  | some member =>
    rw [if_pos Option.isSome_some, index_eq hfind]
    rfl

theorem exists_readSelect_eq (h : TypedSelect s) : ∃ item, readSelect s = .ok item := by
  unfold readSelect
  rw [value_eq h.query_type, value_eq h.attribute, value_eq h.variable]
  exact ⟨_, rfl⟩

theorem typedSelect_of_readSelect {item : SelectItem} (h : readSelect s = .ok item) :
    TypedSelect s := by
  obtain ⟨_, hquery, h⟩ := Returns.exists_of_bind_ok h
  obtain ⟨_, hattribute, h⟩ := Returns.exists_of_bind_ok h
  obtain ⟨_, hvariable, -⟩ := Returns.exists_of_bind_ok h
  exact ⟨hasString_of_value hquery, hasString_of_value hattribute, hasString_of_value hvariable⟩

/-- The item of a filter. -/
def filterItem (f : Json nlohmann) : FilterItem :=
  ⟨f.text "attribute".toList, f.text "condition".toList, f.text "whereClause".toList⟩

theorem readFilter_eq (h : TypedFilter f) : readFilter f = .ok (filterItem f) := by
  unfold readFilter filterItem
  rw [value_eq h.attribute, value_eq h.condition]
  split
  next =>
    rw [value_eq h.whereClause]
    rfl
  next hcontains =>
    rw [text_of_not_contains hcontains]
    rfl

theorem typedFilter_of_readFilter {item : FilterItem} (h : readFilter f = .ok item) :
    TypedFilter f := by
  unfold readFilter at h
  split at h
  next =>
    obtain ⟨_, hattribute, h⟩ := Returns.exists_of_bind_ok h
    obtain ⟨_, hcondition, h⟩ := Returns.exists_of_bind_ok h
    obtain ⟨_, hwhere, -⟩ := Returns.exists_of_bind_ok h
    exact ⟨hasString_of_value hattribute, hasString_of_value hcondition, hasString_of_value hwhere⟩
  -- without `whereClause` nothing is asked of it
  next hcontains =>
    obtain ⟨_, hattribute, h⟩ := Returns.exists_of_bind_ok h
    obtain ⟨_, hcondition, -⟩ := Returns.exists_of_bind_ok h
    have hattribute := hasString_of_value hattribute
    exact ⟨hattribute, hasString_of_value hcondition,
      hasString_of_not_contains hattribute.1 hcontains⟩

/-- **The items** of a query whose texts are strings. -/
theorem parseQueryJson_returns (h : Typed j) (allItems : SelectItem × List FilterItem) :
    Returns (parseQueryJson j allItems)
      fun items => items.2.1 = (j.items "filters".toList).map filterItem := by
  obtain ⟨selectItems, hselect⟩ := Returns.exists_mapM_eq_ok fun s hs =>
    exists_readSelect_eq (h.select s hs)
  unfold parseQueryJson
  rw [readItems_eq, readItems_eq, hselect]
  refine (Returns.mapM fun f hf => ⟨_, readFilter_eq (h.filters f hf), rfl⟩).bind
    fun filterItems hfilterItems => Returns.pure hfilterItems

/-- No other query can be parsed. -/
theorem typed_of_parseQueryJson {allItems : SelectItem × List FilterItem}
    {items : List SelectItem × List FilterItem × (SelectItem × List FilterItem)}
    (h : parseQueryJson j allItems = .ok items) :
    (∀ s ∈ j.items "select".toList, TypedSelect s) ∧
      ∀ f ∈ j.items "filters".toList, TypedFilter f := by
  obtain ⟨selectItems, hselect, h⟩ := Returns.exists_of_bind_ok h
  obtain ⟨filterItems, hfilters, -⟩ := Returns.exists_of_bind_ok h
  rw [readItems_eq] at hselect hfilters
  refine ⟨fun s hs => ?_, fun f hf => ?_⟩
  · obtain ⟨item, hitem⟩ := Returns.exists_of_mapM_ok hselect hs
    exact typedSelect_of_readSelect hitem
  · obtain ⟨item, hitem⟩ := Returns.exists_of_mapM_ok hfilters hf
    exact typedFilter_of_readFilter hitem

end Parsing

/-! ### The two passes -/

section Passes

variable {g : Generator} {f f' j j' : Json nlohmann} {fs fs' : List (Json nlohmann)}
  {m : AttributeShares}

/-- The map after the first pass over the filters `fs`. -/
structure SharesOf (g : Generator) (fs : List (Json nlohmann)) (m : AttributeShares) : Prop where
  exists_filter : ∀ attr shares, m.lookup attr = some shares →
    ∃ f ∈ fs, Complete f ∧ f.text "attribute".toList = attr ∧ conditionShares g f = shares
  exists_shares : ∀ f ∈ fs, Complete f →
    ∃ shares, m.lookup (f.text "attribute".toList) = some shares

theorem SharesOf.addShares (h : SharesOf g fs m) (f : Json nlohmann) :
    SharesOf g (fs ++ [f]) (addShares g m (filterItem f)) := by
  unfold SQLHandlerIntegrationTest.addShares
  split
  next hf =>
    have hset : (OrderedMap.set (f.text "attribute".toList) (conditionShares g f) m).lookup
        (f.text "attribute".toList) = some (conditionShares g f) := OrderedMap.lookup_set_self m
    refine ⟨fun attr shares hlookup => ?_, fun f₁ hf₁ hcomplete => ?_⟩
    -- what is found under the attribute of `f` is from `f`, all else from before
    · by_cases hattr : attr = f.text "attribute".toList
      · rw [hattr] at hlookup
        exact ⟨f, List.mem_append_right fs List.mem_cons_self, hf, hattr.symm,
          Option.some.inj (hset.symm.trans hlookup)⟩
      · obtain ⟨f₁, hf₁, hfound⟩ := h.exists_filter attr shares
          ((OrderedMap.lookup_set_of_ne hattr m).symm.trans hlookup)
        exact ⟨f₁, List.mem_append_left [f] hf₁, hfound⟩
    -- nothing is removed from the map
    · by_cases hattr : f₁.text "attribute".toList = f.text "attribute".toList
      · rw [hattr]
        exact ⟨_, hset⟩
      · have hne : f₁ ≠ f := fun heq => hattr (by rw [heq])
        rcases List.mem_append.mp hf₁ with hf₁ | hf₁
        · obtain ⟨shares, hshares⟩ := h.exists_shares f₁ hf₁ hcomplete
          exact ⟨shares, (OrderedMap.lookup_set_of_ne hattr m).trans hshares⟩
        · exact absurd (List.mem_singleton.mp hf₁) hne
  next hf =>
    refine ⟨fun attr shares hlookup => ?_, fun f₁ hf₁ hcomplete => ?_⟩
    -- an incomplete filter changes nothing
    · obtain ⟨f₁, hf₁, hfound⟩ := h.exists_filter attr shares hlookup
      exact ⟨f₁, List.mem_append_left [f] hf₁, hfound⟩
    · rcases List.mem_append.mp hf₁ with hf₁ | hf₁
      · exact h.exists_shares f₁ hf₁ hcomplete
      · rw [List.mem_singleton.mp hf₁] at hcomplete
        exact absurd hcomplete hf

/-- **The first pass** leaves, for each attribute of a complete filter, the shares of one of its
filters. -/
theorem sharesOf_foldl (g : Generator) (fs : List (Json nlohmann)) :
    SharesOf g fs ((fs.map filterItem).foldl (addShares g) []) := by
  -- the loop goes from the front, so the last filter is the step
  induction fs using List.reverseRecOn with
  | nil =>
    refine ⟨fun attr shares h => ?_, fun f hf => absurd hf List.not_mem_nil⟩
    cases h
  | append_singleton fs f ih =>
    rw [List.map_append, List.foldl_append]
    exact ih.addShares f

theorem idName_injective : Function.Injective idName := by
  intro i j h
  have hprint : Decimal.print i = Decimal.print j := List.append_cancel_left h
  have hparse := congrArg Decimal.parse hprint
  rw [Decimal.parse_print, Decimal.parse_print] at hparse
  exact Int.natCast_inj.mp (Option.some.inj hparse)

/-- The names of six shares are in order. -/
theorem idName_lt : ∀ n < 6, ∀ i < n, idName i < idName n := by decide

theorem idEntries_succ (shares : List (ℤ × ℤ)) (n : ℕ) :
    (idEntries shares (n + 1) : List (Text × Json nlohmann)) =
      idEntries shares n ++ [(idName n, .integer (shares.getD n (0, 0)).2)] := by
  unfold idEntries
  rw [List.range_succ, List.map_append, List.map_singleton]

theorem lookup_idEntries {shares : List (ℤ × ℤ)} {i n : ℕ} (hi : i < n) :
    (idEntries shares n : List (Text × Json nlohmann)).lookup (idName i) =
      some (.integer (shares.getD i (0, 0)).2) := by
  induction n with
  | zero => exact absurd hi (Nat.not_lt_zero i)
  | succ n ih =>
    rw [idEntries_succ, List.lookup_append]
    rcases Nat.lt_succ_iff_lt_or_eq.mp hi with hi | rfl
    · rw [ih hi]
      rfl
    -- the name of the last entry is none of the earlier ones
    · have hnone : (idEntries shares i : List (Text × Json nlohmann)).lookup (idName i) = none := by
        rw [List.lookup_eq_none_iff]
        intro entry hentry
        obtain ⟨idx, hidx, rfl⟩ := List.mem_map.mp hentry
        exact bne_iff_ne.mpr (idName_injective.ne (List.mem_range.mp hidx).ne')
      rw [hnone]
      exact List.lookup_cons_self

theorem find_idEntries {shares : List (ℤ × ℤ)} {i n : ℕ} (hi : i < n) :
    (.object (idEntries shares n) : Json nlohmann).find (idName i) =
      some (.integer (shares.getD i (0, 0)).2) := by
  rw [find_object, lookup_idEntries hi]

theorem sorted_idEntries (shares : List (ℤ × ℤ)) {n : ℕ} (hn : n ≤ 6) :
    OrderedMap.Sorted (idEntries shares n : List (Text × Json nlohmann)) :=
  List.pairwise_map.mpr (List.pairwise_lt_range.imp_of_mem fun _ hj hlt =>
    idName_lt _ ((List.mem_range.mp hj).trans_le hn) _ hlt)

/-- The loop over the shares makes an object of `null`, and adds its entries at the end. -/
theorem shareID_eq {shares : List (ℤ × ℤ)} (h : shares.length = 6) :
    shareID shares = .ok (.object (idEntries shares 6) : Json nlohmann) := by
  -- after `n` steps: the first `n` entries, or `null` before the first
  have hloop : Returns (shareID shares) fun id : Json nlohmann =>
      id = if shares.length = 0 then .null else .object (idEntries shares shares.length) := by
    refine Returns.foldlM_range (I := fun n (id : Json nlohmann) =>
      id = if n = 0 then .null else .object (idEntries shares n)) rfl fun n id hn hI => ?_
    rw [if_neg (Nat.succ_ne_zero n), idEntries_succ, hI]
    rcases Nat.eq_zero_or_pos n with rfl | hpos
    · exact ⟨_, set_null _ _, rfl⟩
    · rw [if_neg hpos.ne']
      refine ⟨_, set_object _ _ _, congrArg Json.object ?_⟩
      rw [OrderedMap.ofList_eq_self (sorted_idEntries shares (h ▸ hn.le))]
      -- a name that is greater than all the others goes to the end
      refine OrderedMap.set_of_forall_not_lt fun entry hentry => ?_
      obtain ⟨idx, hidx, rfl⟩ := List.mem_map.mp hentry
      have hlt := idName_lt n (h ▸ hn) idx (List.mem_range.mp hidx)
      exact ⟨(ne_of_irrefl hlt), asymm hlt⟩
  rw [h] at hloop
  exact hloop.eq_ok

theorem length_conditionShares (g : Generator) (f : Json nlohmann) :
    (conditionShares g f).length = 6 :=
  length_sharesOf _ 6 3

theorem conditionShares_mem {i : ℕ} (hi : i < 6) (f : Json nlohmann) :
    -2 ^ 63 ≤ ((conditionShares g f).getD i (0, 0)).2 ∧
      ((conditionShares g f).getD i (0, 0)).2 < 2 ^ 63 := by
  unfold conditionShares SQLHandler.shamirSecretSharing ShamirParser.shamirSecretSharing
  rw [getD_sharesOf hi]
  exact shareAt_mem _ _

/-- The shares are given by their values. -/
theorem conditionShares_ext (h : ∀ i < 6,
    ((conditionShares g f).getD i (0, 0)).2 = ((conditionShares g f').getD i (0, 0)).2) :
    conditionShares g f = conditionShares g f' := by
  refine List.ext_getElem (by rw [length_conditionShares, length_conditionShares])
    fun i hi hi' => ?_
  rw [length_conditionShares] at hi
  have hvalue := h i hi
  -- the numbers of the servers are the same in any sharing
  have hserver : ((conditionShares g f).getD i (0, 0)).1 =
      ((conditionShares g f').getD i (0, 0)).1 := by
    show ((sharesOf _ 6 3).getD i (0, 0)).1 = ((sharesOf _ 6 3).getD i (0, 0)).1
    rw [getD_sharesOf hi, getD_sharesOf hi]
  rw [← List.getD_eq_getElem _ (0, 0) _, ← List.getD_eq_getElem _ (0, 0) _]
  exact Prod.ext hserver hvalue

/-- A filter whose attribute has shares. -/
theorem updateFilter_eq_bind (h : TypedFilter f) (hcondition : f.contains "condition".toList = true)
    {shares : List (ℤ × ℤ)} (hne : f.text "attribute".toList ≠ [])
    (hlookup : m.lookup (f.text "attribute".toList) = some shares) :
    updateFilter m f = shareID shares >>= f.set "shareID".toList := by
  have hattribute := contains_of_text_ne hne
  unfold updateFilter
  rw [hattribute, hcondition, getString_index h.attribute hattribute]
  show (match m.lookup (f.text "attribute".toList) with
    | some shares => shareID shares >>= f.set "shareID".toList
    | none => pure f) = _
  rw [hlookup]

/-- The second pass writes into a filter with a condition whose attribute has shares. -/
def Given (m : AttributeShares) (f : Json nlohmann) : Prop :=
  f.contains "condition".toList = true ∧
    ∃ shares, m.lookup (f.text "attribute".toList) = some shares

theorem updateFilter_eq_self (h : TypedFilter f) (hnot : ¬ Given m f) :
    updateFilter m f = .ok f := by
  unfold updateFilter
  split
  next hcontains =>
    rw [Bool.and_eq_true] at hcontains
    -- with a condition, but without shares for the attribute
    have hnone : m.lookup (f.text "attribute".toList) = none :=
      Option.eq_none_iff_forall_ne_some.mpr fun shares hlookup =>
        hnot ⟨hcontains.2, shares, hlookup⟩
    rw [getString_index h.attribute hcontains.1]
    show (match m.lookup (f.text "attribute".toList) with
      | some shares => shareID shares >>= f.set "shareID".toList
      | none => pure f) = _
    rw [hnone]
    rfl
  next => rfl

theorem SharesOf.length (hm : SharesOf g fs m) {attr : Text} {shares : List (ℤ × ℤ)}
    (hlookup : m.lookup attr = some shares) : shares.length = 6 := by
  obtain ⟨f, -, -, -, rfl⟩ := hm.exists_filter attr shares hlookup
  exact length_conditionShares g f

theorem SharesOf.ne_nil (hm : SharesOf g fs m) {attr : Text} {shares : List (ℤ × ℤ)}
    (hlookup : m.lookup attr = some shares) : attr ≠ [] := by
  obtain ⟨f, -, hcomplete, rfl, -⟩ := hm.exists_filter attr shares hlookup
  exact hcomplete.1

/-- **The second pass**: a filter whose attribute has shares receives them. No other member of the
filter changes. -/
theorem updateFilter_returns (hm : SharesOf g fs m) (h : TypedFilter f)
    (hcondition : f.contains "condition".toList = true) {shares : List (ℤ × ℤ)}
    (hlookup : m.lookup (f.text "attribute".toList) = some shares) :
    Returns (updateFilter m f) fun f' => f'.isObject = true ∧
      f'.find "shareID".toList = some (.object (idEntries shares 6)) ∧
      ∀ key ≠ "shareID".toList, f'.find key = f.find key := by
  rw [updateFilter_eq_bind h hcondition (hm.ne_nil hlookup) hlookup, shareID_eq (hm.length hlookup)]
  exact set_returns (.inl h.attribute.1) _ _

/-- It does not fail. -/
theorem exists_updateFilter_eq (hm : SharesOf g fs m) (h : TypedFilter f) :
    ∃ f', updateFilter m f = .ok f' := by
  by_cases hgiven : Given m f
  · obtain ⟨hcondition, shares, hlookup⟩ := hgiven
    obtain ⟨f', hf', -⟩ := updateFilter_returns hm h hcondition hlookup
    exact ⟨f', hf'⟩
  · exact ⟨f, updateFilter_eq_self h hgiven⟩

theorem SharesOf.filterServed (hm : SharesOf g fs m) (hagree : Agree g fs) (hf : f ∈ fs)
    (htyped : TypedFilter f) (hf' : updateFilter m f = .ok f') : FilterServed g f f' := by
  by_cases hcomplete : Complete f
  · obtain ⟨shares, hlookup⟩ := hm.exists_shares f hf hcomplete
    obtain ⟨f₀, hf₀, hcomplete₀, hattr, hshares⟩ := hm.exists_filter _ shares hlookup
    -- the shares in the map are from a filter on the same attribute, so they are its own
    have hown : conditionShares g f = shares := by
      rw [← hshares]
      exact hagree.complete f hf f₀ hf₀ hcomplete hcomplete₀ hattr.symm
    obtain ⟨-, hfind, hothers⟩ :=
      (updateFilter_returns hm htyped (contains_of_text_ne hcomplete.2) hlookup).of_ok hf'
    refine ⟨fun _ => ⟨_, hfind, fun i hi => ?_⟩, fun _ => hothers,
      fun hnot => absurd hcomplete hnot⟩
    rw [hown]
    exact find_idEntries hi
  -- an incomplete filter must come out as it went in
  · refine ⟨fun h => absurd h hcomplete, fun h => absurd h hcomplete, fun _ => ?_⟩
    by_cases hgiven : Given m f
    case neg =>
      rw [updateFilter_eq_self htyped hgiven] at hf'
      exact .inl (Except.ok.inj hf').symm
    -- What is written is there already.
    obtain ⟨hcondition, shares, hlookup⟩ := hgiven
    obtain ⟨f₀, hf₀, hcomplete₀, hattr, rfl⟩ := hm.exists_filter _ shares hlookup
    have hthere := hagree.incomplete f hf f₀ hf₀ hcomplete hcomplete₀ hattr.symm hcondition
    obtain ⟨hobject, hfind, hothers⟩ :=
      (updateFilter_returns hm htyped hcondition hlookup).of_ok hf'
    refine .inr ⟨htyped.attribute.1, hobject, fun key => ?_⟩
    by_cases hkey : key = "shareID".toList
    · rw [hkey, hfind, hthere]
    · exact hothers key hkey

/-- A filter that is served was given its own shares. -/
theorem SharesOf.eq_conditionShares (hm : SharesOf g fs m) (htyped : TypedFilter f)
    (hcomplete : Complete f) {shares : List (ℤ × ℤ)}
    (hlookup : m.lookup (f.text "attribute".toList) = some shares)
    (hserved : ∀ f', updateFilter m f = .ok f' → FilterServed g f f') :
    conditionShares g f = shares := by
  obtain ⟨f', hf', -, hfind, -⟩ :=
    updateFilter_returns hm htyped (contains_of_text_ne hcomplete.2) hlookup
  obtain ⟨id, hfind', hown⟩ := (hserved f' hf').shares hcomplete
  obtain ⟨f₀, -, -, -, rfl⟩ := hm.exists_filter _ shares hlookup
  -- the object that was written is the one that it should carry
  cases hfind.symm.trans hfind'
  refine conditionShares_ext fun i hi => ?_
  exact eq_of_integer_eq (conditionShares_mem hi f) (conditionShares_mem hi f₀)
    (Option.some.inj ((hown i hi).symm.trans (find_idEntries hi)))

theorem SharesOf.agree (hm : SharesOf g fs m) (htyped : ∀ f ∈ fs, TypedFilter f)
    (hserved : ∀ f ∈ fs, ∀ f', updateFilter m f = .ok f' → FilterServed g f f') :
    Agree g fs := by
  -- every filter that is served has found its own shares in the map
  have hown : ∀ f ∈ fs, Complete f → ∀ shares,
      m.lookup (f.text "attribute".toList) = some shares → conditionShares g f = shares :=
    fun f hf hcomplete shares hlookup =>
      hm.eq_conditionShares (htyped f hf) hcomplete hlookup (hserved f hf)
  refine ⟨fun f hf f' hf' hcomplete hcomplete' hattr => ?_,
    fun f hf f' hf' hcomplete hcomplete' hattr hcondition => ?_⟩
  -- two filters on one attribute have looked up the same entry
  · obtain ⟨shares, hlookup⟩ := hm.exists_shares f hf hcomplete
    rw [hown f hf hcomplete shares hlookup]
    rw [hattr] at hlookup
    exact (hown f' hf' hcomplete' shares hlookup).symm
  · obtain ⟨shares, hlookup⟩ := hm.exists_shares f' hf' hcomplete'
    rw [hown f' hf' hcomplete' shares hlookup]
    rw [← hattr] at hlookup
    obtain ⟨f₁, hf₁, -, hfind, -⟩ := updateFilter_returns hm (htyped f hf) hcondition hlookup
    -- what was written into an incomplete filter must have been there before
    rcases (hserved f hf f₁ hf₁).unchanged hcomplete with rfl | ⟨-, -, hsame⟩
    · exact hfind
    · rw [← hsame, hfind]

end Passes

/-! ### Documents and runs -/

section Runs

variable {g : Generator} {j j' : Json nlohmann} {fs : List (Json nlohmann)}

/-- **A document** that can be read receives the shares that the first pass has left. The map is
existential here: all that the later results need of it is that each of its entries comes from a
complete filter on the attribute. -/
theorem appendShares_returns (g : Generator) (h : Typed j) :
    Returns (appendShares g j) fun j' => ∃ m filters filters',
      SharesOf g (j.items "filters".toList) m ∧ j.index "filters".toList = .ok filters ∧
        filters.mapElements (updateFilter m) = .ok filters' ∧
          j'.find "filters".toList = some filters' ∧
            ∀ key ≠ "filters".toList, j'.find key = j.find key := by
  obtain ⟨items, hparse, hitems⟩ := parseQueryJson_returns h (⟨[], [], []⟩, [])
  have hm := sharesOf_foldl g (j.items "filters".toList)
  rw [← hitems] at hm
  obtain ⟨filters, hindex, helements⟩ := exists_index_eq h.object "filters".toList
  -- the second pass cannot stop once the first one came through
  obtain ⟨filters', hfilters'⟩ := exists_mapElements_eq (j := filters) fun f hf => by
    rw [helements] at hf
    exact exists_updateFilter_eq hm (h.filters f hf)
  unfold appendShares
  refine Returns.bind ⟨_, hparse, rfl⟩ fun _ heq => ?_
  subst heq
  refine Returns.bind ⟨_, hindex, rfl⟩ fun _ heq => ?_
  subst heq
  refine Returns.bind ⟨_, hfilters', rfl⟩ fun _ heq => ?_
  subst heq
  refine (set_returns h.object _ _).mono fun j' hj' => ?_
  exact ⟨_, _, _, hm, hindex, hfilters', hj'.2.1, hj'.2.2⟩

/-- No other document is written. -/
theorem typed_of_appendShares (h : appendShares g j = .ok j') : Typed j := by
  obtain ⟨items, hparse, h⟩ := Returns.exists_of_bind_ok h
  obtain ⟨filters, hindex, -⟩ := Returns.exists_of_bind_ok h
  obtain ⟨hselect, hfilters⟩ := typed_of_parseQueryJson hparse
  exact ⟨isObject_or_of_index hindex, hselect, hfilters⟩

/-- A document that is written is served if and only if its filters agree. -/
theorem served_iff_agree (h : Typed j) (hfs : j.find "filters".toList = some (.array fs))
    (hj' : appendShares g j = .ok j') : Served g j fs j' ↔ Agree g fs := by
  have hitems := items_eq hfs
  obtain ⟨m, filters, filters', hm, hindex, hfilters', hfind, hothers⟩ :=
    (appendShares_returns g h).of_ok hj'
  have htyped := h.filters
  rw [hitems] at hm htyped
  -- the array that is updated is `fs`
  cases hindex.symm.trans (index_eq hfs)
  rw [mapElements_array] at hfilters'
  obtain ⟨fs', hfs', hfilters'⟩ := Returns.exists_of_bind_ok hfilters'
  cases hfilters'
  have hiff := Returns.forall₂_iff_of_mapM (S := FilterServed g) hfs'
  constructor
  · rintro ⟨-, fs₁, hfs₁, hserved⟩
    cases array_injective (Option.some.inj (hfind.symm.trans hfs₁))
    exact hm.agree htyped (hiff.mp hserved)
  · intro hagree
    exact ⟨hothers, fs', hfind, hiff.mpr fun f hf f' hf' =>
      hm.filterServed hagree hf (htyped f hf) hf'⟩

/-- A document that is left as it is. -/
theorem served_self_iff (hfs : j.find "filters".toList = some (.array fs)) :
    Served g j fs j ↔ ∀ f ∈ fs, Complete f → Carries f (conditionShares g f) := by
  constructor
  · rintro ⟨-, fs', hfs', hserved⟩
    cases array_injective (Option.some.inj (hfs.symm.trans hfs'))
    exact fun f hf => (List.forall₂_same.mp hserved f hf).shares
  · intro hcarries
    exact ⟨fun _ _ => rfl, fs, hfs, List.forall₂_same.mpr fun f hf =>
      ⟨hcarries f hf, fun _ _ _ => rfl, fun _ => .inl rfl⟩⟩

/-- **The run comes to a file** behind files that it can read. -/
theorem run_getElem?_of_typed (g : Generator) {before : List (Option (Json nlohmann))}
    (h : ∀ file ∈ before, ∃ j ∈ file, Typed j) (files : List (Option (Json nlohmann))) :
    (run_sql_appender_logic g (before ++ files)).2[before.length]? =
      (run_sql_appender_logic g files).2[0]? := by
  -- one file at a time: a typed file is written and the run goes on
  induction before with
  | nil => rfl
  | cons file before ih =>
    obtain ⟨j, rfl, hj⟩ := h file List.mem_cons_self
    obtain ⟨j', hj', -⟩ := appendShares_returns g hj
    have hrun : (run_sql_appender_logic g (some j :: (before ++ files))).2 =
        some j' :: (run_sql_appender_logic g (before ++ files)).2 := by
      rw [run_sql_appender_logic, hj']
    rw [List.cons_append, hrun, List.length_cons, List.getElem?_cons_succ]
    exact ih fun file hfile => h file (List.mem_cons_of_mem _ hfile)

/-- It does not come to a file behind one that it cannot read. -/
theorem run_getElem?_of_not_typed (g : Generator) {before : List (Option (Json nlohmann))}
    (h : ¬ ∀ file ∈ before, ∃ j ∈ file, Typed j) (files : List (Option (Json nlohmann))) :
    (run_sql_appender_logic g (before ++ files)).2[before.length]? = files[0]? := by
  induction before with
  | nil => exact absurd (fun file hfile => absurd hfile List.not_mem_nil) h
  | cons file before ih =>
    have hskip : (file :: (before ++ files))[(before.length + 1)]? = files[0]? := by
      rw [List.getElem?_cons_succ, List.getElem?_append_right le_rfl, Nat.sub_self]
    rw [List.cons_append, List.length_cons]
    -- the first file that cannot be read ends the run, and all behind it stay
    cases file with
    | none => exact hskip
    | some j =>
      rw [run_sql_appender_logic]
      split
      next j' hj' =>
        show (some j' :: (run_sql_appender_logic g (before ++ files)).2)[before.length + 1]? = _
        rw [List.getElem?_cons_succ]
        refine ih fun hbefore => h fun file hfile => ?_
        rcases List.mem_cons.mp hfile with rfl | hfile
        · exact ⟨j, rfl, typed_of_appendShares hj'⟩
        · exact hbefore file hfile
      next => exact hskip

/-- A document that the run comes to. -/
theorem run_getElem?_of_reached {before : List (Option (Json nlohmann))} (h : Reached before j)
    (hj' : appendShares g j = .ok j') (after : List (Option (Json nlohmann))) :
    (run_sql_appender_logic g (before ++ some j :: after)).2[before.length]? =
      some (some j') := by
  rw [run_getElem?_of_typed g h.1, run_sql_appender_logic, hj']
  rfl

/-- One that it does not come to, or cannot read. -/
theorem run_getElem?_of_not_reached (g : Generator) {before : List (Option (Json nlohmann))}
    (h : ¬ Reached before j) (after : List (Option (Json nlohmann))) :
    (run_sql_appender_logic g (before ++ some j :: after)).2[before.length]? =
      some (some j) := by
  by_cases hbefore : ∀ file ∈ before, ∃ j ∈ file, Typed j
  · rw [run_getElem?_of_typed g hbefore, run_sql_appender_logic]
    split
    next j' hj' => exact absurd ⟨hbefore, typed_of_appendShares hj'⟩ h
    next => rfl
  · rw [run_getElem?_of_not_typed g hbefore]
    rfl

/-- **A query is served** if and only if its filters agree: the shares are kept under the
attribute, so the last filter on an attribute gives its shares to all of them. One that the run
does not come to, behind a file that cannot be read, is served if it has been served before. -/
theorem run_sql_appender_logic_iff (g : Generator) (before after : List (Option (Json nlohmann)))
    (hfs : j.find "filters".toList = some (.array fs)) :
    (∃ j', (run_sql_appender_logic g (before ++ some j :: after)).2[before.length]? =
        some (some j') ∧ Served g j fs j') ↔
      (Reached before j → Agree g fs) ∧
        (¬ Reached before j → ∀ f ∈ fs, Complete f → Carries f (conditionShares g f)) := by
  by_cases hreached : Reached before j
  · obtain ⟨j', hj', -⟩ := appendShares_returns g hreached.2
    have hiff := served_iff_agree hreached.2 hfs hj'
    rw [run_getElem?_of_reached hreached hj']
    constructor
    · rintro ⟨_, heq, hserved⟩
      cases heq
      exact ⟨fun _ => hiff.mp hserved, fun hnot => absurd hreached hnot⟩
    · rintro ⟨hagree, -⟩
      exact ⟨j', rfl, hiff.mpr (hagree hreached)⟩
  · have hiff := served_self_iff (g := g) hfs
    rw [run_getElem?_of_not_reached g hreached]
    constructor
    · rintro ⟨_, heq, hserved⟩
      cases heq
      exact ⟨fun h => absurd h hreached, fun _ => hiff.mp hserved⟩
    · rintro ⟨-, hcarries⟩
      exact ⟨j, rfl, hiff.mpr (hcarries hreached)⟩

end Runs

/-! ### Two conditions on one attribute -/

section AirOrRail

def shipMode (condition : Text) : JsonData.Tree :=
  .object [("attribute".toList, .string "SHIPMODE".toList),
    ("condition".toList, .string condition)]

/-- `WHERE SHIPMODE = 'AIR' OR SHIPMODE = 'RAIL'`. -/
def airOrRail : List JsonData.Tree :=
  [shipMode "AIR".toList, .object [("whereClause".toList, .string "OR".toList)],
    shipMode "RAIL".toList]

/-- `SELECT SUM(QUANTITY) AS total_quantity`. -/
def sumQuantity : JsonData.Tree :=
  .object [("attribute".toList, .string "QUANTITY".toList),
    ("query_type".toList, .string "SUM".toList),
    ("variable".toList, .string "total_quantity".toList)]

def airOrRailQuery : JsonData.Tree :=
  .object [("filters".toList, .array airOrRail), ("select".toList, .array [sumQuantity])]

def constantOne : Generator := fun _ _ => ⟨1, one_le_one_le_hundred⟩

theorem run_sql_appender_logic_iff_air_or_rail :
    (∃ j', (run_sql_appender_logic constantOne [some airOrRailQuery]).2[0]? =
        some (some j') ∧ Served constantOne airOrRailQuery airOrRail j') ↔
      (Reached [] airOrRailQuery → Agree constantOne airOrRail) ∧
        (¬ Reached [] airOrRailQuery →
          ∀ f ∈ airOrRail, Complete f → Carries f (conditionShares constantOne f)) :=
  run_sql_appender_logic_iff constantOne [] [] rfl

theorem typed_airOrRailQuery : Typed airOrRailQuery := by
  have hselect : airOrRailQuery.items "select".toList = [sumQuantity] := items_eq (find_object _ _)
  have hwhere : airOrRailQuery.items "filters".toList = airOrRail := items_eq (find_object _ _)
  refine ⟨.inl (isObject_object _), fun s hs => ?_, fun f hf => ?_⟩
  · rw [hselect] at hs
    rw [List.mem_singleton.mp hs]
    exact ⟨by decide, by decide, by decide⟩
  · rw [hwhere] at hf
    have hfilters : ∀ f ∈ airOrRail, f.HasString "attribute".toList ∧
        f.HasString "condition".toList ∧ f.HasString "whereClause".toList := by decide
    obtain ⟨hattribute, hcondition, hclause⟩ := hfilters f hf
    exact ⟨hattribute, hcondition, hclause⟩

/-- The first share of a condition is close to it. -/
theorem conditionShares_shipMode (g : Generator) {condition : Text}
    (h : |SQLHandler.stringToInt condition| ≤ 2 ^ 50) :
    SQLHandler.stringToInt condition + 2 ≤
        ((conditionShares g (shipMode condition)).getD 0 (0, 0)).2 ∧
      ((conditionShares g (shipMode condition)).getD 0 (0, 0)).2 ≤
        SQLHandler.stringToInt condition + 200 := by
  have hcondition : (shipMode condition).text "condition".toList = condition :=
    text_eq (find_object _ _)
  unfold conditionShares SQLHandler.shamirSecretSharing ShamirParser.shamirSecretSharing
  rw [hcondition, getD_sharesOf (by decide)]
  show _ ≤ shareAt _ 3 1 ∧ shareAt _ 3 1 ≤ _
  rw [shareAt_coefficients h _ le_rfl (by decide)]
  have hc := (g (seed (SQLHandler.stringToInt condition) 6 3) 0).property
  have hd := (g (seed (SQLHandler.stringToInt condition) 6 3) 1).property
  omega

/-- Whatever the generator draws, the first of the two filters receives the shares of the second
one. -/
theorem not_served : ¬ ∃ g j', (run_sql_appender_logic g [some airOrRailQuery]).2[0]? =
    some (some j') ∧ Served g airOrRailQuery airOrRail j' := by
  rintro ⟨g, j', hrun, hserved⟩
  obtain ⟨j'', hj'', -⟩ := appendShares_returns g typed_airOrRailQuery
  have hreached : Reached [] airOrRailQuery :=
    ⟨fun file hfile => absurd hfile List.not_mem_nil, typed_airOrRailQuery⟩
  cases (run_getElem?_of_reached hreached hj'' []).symm.trans hrun
  have hagree := (served_iff_agree typed_airOrRailQuery rfl hj'').mp hserved
  have hlast : shipMode "RAIL".toList ∈ airOrRail :=
    List.mem_cons_of_mem _ (List.mem_cons_of_mem _ List.mem_cons_self)
  have hsame := hagree.complete (shipMode "AIR".toList) List.mem_cons_self _ hlast
    ⟨by decide, by decide⟩ ⟨by decide, by decide⟩ rfl
  have hair : SQLHandler.stringToInt "AIR".toList = 4278610 := by decide
  have hrail : SQLHandler.stringToInt "RAIL".toList = 1380010316 := by decide
  have hupper : |SQLHandler.stringToInt "AIR".toList| ≤ 2 ^ 50 := by decide
  have hlower : |SQLHandler.stringToInt "RAIL".toList| ≤ 2 ^ 50 := by decide
  have hle := (conditionShares_shipMode g hupper).2
  have hge := (conditionShares_shipMode g hlower).1
  rw [hsame, hair] at hle
  rw [hrail] at hge
  omega

end AirOrRail

end SQLHandlerIntegrationTest
