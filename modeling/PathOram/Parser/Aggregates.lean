import PathOram.Lib.Extremum
import PathOram.Parser.Queries
import PathOram.Parser.Restoring

/-!
# Aggregates of the selected rows

`test-sum.cpp`, `test-avg.cpp`, `test-min.cpp` and `test-max.cpp` work on the result files of the
servers. The sum of an attribute is reconstructed from the sums that the servers have of their
shares; for the minimum and the maximum the rows are restored first.

The theorems are about all the programs together, from the table and the query to the number
that is printed: `sumOfQuery_eq`, `countOfQuery_iff`, `averageOfQuery_eq`, `minOfQuery_isLeast`.
The maximum is taken over the files of one directory, whatever the test is given:
`maxOfQueries_isGreatest`.
-/

open ShamirParser Double Decimal Fields Json

/-! ### The sum -/

namespace SumAggregationTest

open SQLQuery ORAMTestSQL SQLHandlerIntegrationTest
open AvgAggregationTest (Written shareSum)

variable {nlohmann : JsonLibrary}

def readTuple : List Char → Except Fault (List ℤ) := AvgAggregationTest.readTuple

/-- The loop over the lines of a file. The overflow of the sum is undefined; the compiled code
wraps around. -/
def readLine (sumIdx : ℕ) (sum : ℤ) (line : List Char) : Except Fault ℤ := do
  let tuple ← readTuple line
  -- a tuple that is too short is passed over
  pure (if sumIdx < tuple.length then (sum + tuple.getD sumIdx 0).bmod (2 ^ 64) else sum)

/-- The members that `SetUp` fills. -/
structure Members where
  server_sums : List ℤ
  server_indices : List ℤ

def readServer (results : Results) (sumIdx : ℕ) (members : Members) (i : ℕ) :
    Except Fault Members := do
  let sum ← (fields '\n' (results (i + 1))).foldlM (readLine sumIdx) 0
  pure ⟨members.server_sums ++ [sum], members.server_indices ++ [((i + 1 : ℕ) : ℤ)]⟩

/-- `j["select"][0]["attribute"]`. -/
def selectAttribute (j : Json nlohmann) : Except TypeError Text := do
  let select ← j.index "select".toList
  let item ← select.first
  let «attribute» ← item.index "attribute".toList
  «attribute».getString

def SetUp (j : Json nlohmann) (results : Results) : Except Stop Members := do
  let sumAttr ← (selectAttribute j).mapError .json
  ((List.range 6).foldlM (readServer results (attributeIndex sumAttr)) ⟨[], []⟩).mapError .parser

/-- The test `ReconstructSumWithShamirParser`: the sum that it prints. -/
def ReconstructSum (fl : ℚ → ℚ) (members : Members) : Except Fault ℤ :=
  reconstructSecret fl (members.server_indices.zip members.server_sums) 3

/-- The programs one after the other: the table is shared, the query receives its shares, the
servers answer it, and the sum is reconstructed. -/
def sumOfQuery (g : Generator) (g₀ : ℕ → ℕ → CoefficientOrZero) (zone : TimeZone) (table : Text)
    (whereClause : WhereClause) (j : Json nlohmann) : Except Stop ℤ := do
  let files ← (encryptFile g g₀ zone (fun _ => none) table).mapError .parser
  let j ← (appendShares g j).mapError .json
  let out ← results whereClause files j fun _ => []
  let members ← SetUp j out
  (ReconstructSum double members).mapError .parser

section Sum

variable {g : Generator} {g₀ : ℕ → ℕ → CoefficientOrZero} {zone : TimeZone}
  {rows : List (AttributeID → Text)} {query : TextQuery} {j : Json nlohmann}
  {tuples : ℕ → List (List ℤ)} {results : Results} {sumIdx : ℕ}

theorem readServer_spec (hwritten : Written tuples results) {i : ℕ} (hi : i < 6)
    (htuples : ∀ tuple ∈ tuples i, sumIdx < tuple.length ∧ InRange tuple) (members : Members) :
    Returns (readServer results sumIdx members i)
      (· = ⟨members.server_sums ++ [(shareSum tuples sumIdx i).bmod (2 ^ 64)],
        members.server_indices ++ [((i + 1 : ℕ) : ℤ)]⟩) := by
  unfold readServer
  -- after some lines: the sum of their shares, wrapped once at the end instead of at each step
  refine (AvgAggregationTest.readLines_spec (I := fun done (sum : ℤ) =>
    sum = ((done.map fun tuple : List ℤ => tuple.getD sumIdx 0).sum).bmod (2 ^ 64)) hwritten hi
    rfl fun done tuple sum htuple hI => ?_).bind fun sum hsum => Returns.pure ?_
  · refine (AvgAggregationTest.readTuple_returns (htuples tuple htuple)).bind fun ys hys =>
      Returns.pure ?_
    subst hys
    rw [if_pos (htuples ys htuple).1, hI, Int.bmod_add_bmod, List.map_append, List.sum_append,
      List.map_singleton, List.sum_singleton]
  · rw [hsum]
    rfl

theorem readServers_eq (hwritten : Written tuples results)
    (htuples : ∀ i < 6, ∀ tuple ∈ tuples i, sumIdx < tuple.length ∧ InRange tuple) :
    (List.range 6).foldlM (readServer results sumIdx) ⟨[], []⟩ =
      .ok ⟨(List.range 6).map fun i => (shareSum tuples sumIdx i).bmod (2 ^ 64),
        (List.range 6).map fun i => ((i + 1 : ℕ) : ℤ)⟩ := by
  -- after `m` servers: their sums and their numbers, in order
  refine Returns.eq_ok (Returns.foldlM_range (I := fun m (members : Members) =>
    members = ⟨(List.range m).map fun i => (shareSum tuples sumIdx i).bmod (2 ^ 64),
      (List.range m).map fun i => ((i + 1 : ℕ) : ℤ)⟩) rfl fun i members hi hI => ?_)
  refine (readServer_spec hwritten hi (htuples i hi) members).mono fun members' h => ?_
  rw [h, hI, List.range_succ, List.map_append, List.map_append]
  rfl

theorem selectAttribute_eq (hj : Readable g query j) :
    selectAttribute j = .ok query.attr.name := by
  obtain ⟨⟨s, rest, hselect, -, hattribute⟩, -⟩ := hj
  unfold selectAttribute
  rw [index_eq hselect, ok_bind, first_array_cons, ok_bind, index_eq hattribute, ok_bind,
    getString_string]

theorem inRange_selected {i : ℕ} (hi : i < 6) {a : AttributeID} :
    ∀ tuple ∈ selected g g₀ zone rows query i, a.index < tuple.length ∧ InRange tuple := by
  intro tuple htuple
  obtain ⟨row, -, rfl⟩ := List.mem_map.mp htuple
  exact ⟨by rw [length_shareRow]; exact a.index_lt, inRange_shareRow hi⟩

theorem SetUp_eq (hj : Readable g query j)
    (hwritten : Written (selected g g₀ zone rows query) results) :
    SetUp j results =
      .ok ⟨(List.range 6).map fun i =>
          (shareSum (selected g g₀ zone rows query) query.attr.index i).bmod (2 ^ 64),
        (List.range 6).map fun i => ((i + 1 : ℕ) : ℤ)⟩ := by
  unfold SetUp
  rw [selectAttribute_eq hj]
  show ((List.range 6).foldlM (readServer results (attributeIndex query.attr.name))
    ⟨[], []⟩).mapError Stop.parser = _
  rw [attributeIndex_name, readServers_eq hwritten fun i hi => inRange_selected hi]
  rfl

/-- **The sums of the shares** of an attribute over some rows: they are the values of one
polynomial, with the sum of the secrets as constant term. The bound on the coefficients is carried
along with the sums, so that the sums of the first three servers are below `2 ^ 50` as well. -/
theorem exists_shareSum_eq (g : Generator) (g₀ : ℕ → ℕ → CoefficientOrZero) (zone : TimeZone)
    (a : AttributeID) {rs : List (AttributeID → Text)}
    (hbound : (rs.map fun row => |secret zone (lineItem row) a| + 1200).sum ≤ 2 ^ 50) :
    ∃ c d : ℤ, 0 ≤ c ∧ 0 ≤ d ∧
      |(rs.map fun row => secret zone (lineItem row) a).sum| + 3 * c + 9 * d ≤
        (rs.map fun row => |secret zone (lineItem row) a| + 1200).sum ∧
      ∀ i < 6, (rs.map fun row => (shareRow g g₀ zone (lineItem row) i).getD a.index 0).sum =
        (rs.map fun row => secret zone (lineItem row) a).sum + c * (i + 1) + d * (i + 1) ^ 2 := by
  -- one row at a time: the coefficients add up with the secrets
  induction rs with
  | nil => exact ⟨0, 0, le_rfl, le_rfl, by simp, by simp⟩
  | cons row rs ih =>
    have hnonneg : 0 ≤ (rs.map fun row => |secret zone (lineItem row) a| + 1200).sum :=
      List.sum_nonneg fun y hy => by
        obtain ⟨row', -, rfl⟩ := List.mem_map.mp hy
        positivity
    rw [List.map_cons, List.sum_cons] at hbound
    have habs := abs_nonneg (secret zone (lineItem row) a)
    obtain ⟨c, d, hc, hd, hle, hsum⟩ := ih (by omega)
    obtain ⟨c', d', hc', hd', hshare⟩ := exists_shareRow_eq g g₀ zone (lineItem row) a
    refine ⟨c' + c, d' + d, by omega, by omega, ?_, fun i hi => ?_⟩
    -- `1200 = 3 * 100 + 9 * 100` is what one row can add
    · rw [List.map_cons, List.sum_cons, List.map_cons, List.sum_cons]
      have htriangle := abs_add_le (secret zone (lineItem row) a)
        (rs.map fun row => secret zone (lineItem row) a).sum
      omega
    -- no share of this row was cut
    · have hexact := shareAt_three (s := secret zone (lineItem row) a) (x := (i + 1 : ℕ))
        (by omega) hc' hd' (by omega) (by omega)
      rw [List.map_cons, List.sum_cons, hsum i hi, List.map_cons, List.sum_cons,
        List.getD_eq_getElem?_getD, hshare i hi, Option.getD_some, hexact]
      push_cast
      ring

/-- **Reconstruction from six sums**, of which the first three are small. -/
theorem ReconstructSum_eq {y : ℕ → ℤ} (hy : ∀ i < 3, |y i| < 2 ^ 50 + 2 ^ 13) :
    ReconstructSum double ⟨(List.range 6).map y, (List.range 6).map fun i => ((i + 1 : ℕ) : ℤ)⟩ =
      .ok (3 * y 0 - 3 * y 1 + y 2) := by
  -- only the first three of the six sums are used
  have hshares : ((List.range 6).map fun i => ((i + 1 : ℕ) : ℤ)).zip ((List.range 6).map y) =
      fiveShares y ++ [(6, y 5)] := rfl
  have hlen : 3 ≤ (fiveShares y).length := by
    rw [length_fiveShares]
    decide
  unfold ReconstructSum SumAggregationTest.reconstructSecret
  rw [hshares, reconstructSecret_append double _ hlen, reconstructSecret_fiveShares hy]

/-- The sums of the servers that keep the rows apart. -/
theorem shareSum_selected (hrows : ∀ row ∈ rows, IsRow row) (hquery : query.Answerable)
    (hseparated : ∀ x, 1 ≤ x → x ≤ 3 → query.Separated g zone rows x) (a : AttributeID) {i : ℕ}
    (hi : i < 3) :
    shareSum (selected g g₀ zone rows query) a.index i =
      ((rows.filter query.satisfied).map
        fun row => (shareRow g g₀ zone (lineItem row) i).getD a.index 0).sum := by
  unfold shareSum selected
  rw [filter_selects hquery hrows (hseparated (i + 1) (by omega) (by omega)), List.map_map]
  rfl

/-- The sum of the secrets is reconstructed from the sums of the servers, and it is small. -/
theorem reconstruct_selected (hrows : ∀ row ∈ rows, IsRow row) (hquery : query.Answerable)
    (hseparated : ∀ x, 1 ≤ x → x ≤ 3 → query.Separated g zone rows x)
    (hbound : ((rows.filter query.satisfied).map fun row =>
      |secret zone (lineItem row) query.attr| + 1200).sum ≤ 2 ^ 50) :
    ReconstructSum double
        ⟨(List.range 6).map fun i =>
            (shareSum (selected g g₀ zone rows query) query.attr.index i).bmod (2 ^ 64),
          (List.range 6).map fun i => ((i + 1 : ℕ) : ℤ)⟩ =
      .ok ((rows.filter query.satisfied).map fun row =>
        secret zone (lineItem row) query.attr).sum ∧
    |((rows.filter query.satisfied).map fun row =>
      secret zone (lineItem row) query.attr).sum| ≤ 2 ^ 50 := by
  obtain ⟨c, d, hc, hd, hle, hsum⟩ := exists_shareSum_eq g g₀ zone query.attr hbound
  set y : ℕ → ℤ := fun i =>
    (shareSum (selected g g₀ zone rows query) query.attr.index i).bmod (2 ^ 64) with hydef
  set total := ((rows.filter query.satisfied).map fun row =>
    secret zone (lineItem row) query.attr).sum with htotal
  have htotal_le := abs_nonneg total
  have htotal_mem := abs_le.mp (le_refl |total|)
  -- The first three sums do not wrap around.
  have hsmall : ∀ i : ℕ, i < 3 → |total + c * (i + 1) + d * (i + 1) ^ 2| ≤ 2 ^ 50 := by
    intro i hi
    rw [abs_le]
    interval_cases i <;> norm_num <;> omega
  have hy : ∀ i < 3, y i = total + c * (i + 1) + d * (i + 1) ^ 2 := by
    intro i hi
    have hmem := abs_le.mp (hsmall i hi)
    simp only [hydef]
    rw [shareSum_selected hrows hquery hseparated query.attr hi, hsum i (by omega)]
    exact Int.bmod_eq_of_le_mul_two (by push_cast; omega) (by push_cast; omega)
  -- the parabola through the three sums has the total at zero
  constructor
  · rw [ReconstructSum_eq fun i hi => ?_, hy 0 (by decide), hy 1 (by decide), hy 2 (by decide)]
    · refine congrArg Except.ok ?_
      push_cast
      ring
    · rw [hy i hi]
      exact (hsmall i hi).trans_lt (by decide)
  · omega

end Sum

end SumAggregationTest

/-! ### The number of rows -/

namespace ORAMTestSQL

open SQLQuery SQLHandlerIntegrationTest

variable {nlohmann : JsonLibrary}

/-- The table is shared, the query receives its shares, and the servers count. -/
def countOfQuery (g : Generator) (g₀ : ℕ → ℕ → CoefficientOrZero) (zone : TimeZone) (table : Text)
    (whereClause : WhereClause) (j : Json nlohmann) : Except Stop (List ℕ) := do
  let files ← (encryptFile g g₀ zone (fun _ => none) table).mapError .parser
  let j ← (appendShares g j).mapError .json
  counts whereClause files j

section Count

variable {g : Generator} {g₀ : ℕ → ℕ → CoefficientOrZero} {zone : TimeZone}
  {rows : List (AttributeID → Text)} {query : TextQuery} {j : Json nlohmann}

/-- A filter that lets more through. -/
theorem length_filter_eq_iff {α : Type} {p q : α → Bool} {l : List α}
    (h : ∀ x ∈ l, p x = true → q x = true) :
    (l.filter q).length = (l.filter p).length ↔ ∀ x ∈ l, p x = false → q x = false := by
  induction l with
  | nil => exact iff_of_true rfl fun x hx => absurd hx List.not_mem_nil
  -- the longer list cannot make up for an element later on
  | cons x l ih =>
    have hle : (l.filter p).length ≤ (l.filter q).length := by
      rw [← List.countP_eq_length_filter, ← List.countP_eq_length_filter]
      exact List.countP_mono_left fun y hy => h y (List.mem_cons_of_mem x hy)
    have hrest := ih fun y hy => h y (List.mem_cons_of_mem x hy)
    rw [List.forall_mem_cons, ← hrest]
    cases hp : p x with
    -- both filters keep `x`
    | true =>
      rw [List.filter_cons_of_pos (h x List.mem_cons_self hp), List.filter_cons_of_pos hp,
        List.length_cons, List.length_cons, Nat.add_right_cancel_iff]
      exact (and_iff_right nofun).symm
    | false =>
      have hskip : (x :: l).filter p = l.filter p := List.filter_cons_of_neg (by rw [hp]; decide)
      rw [hskip]
      cases hq : q x with
      | true =>
        rw [List.filter_cons_of_pos hq, List.length_cons]
        -- `q` alone keeps `x`, so its list is longer
        exact iff_of_false (by omega) fun hand => absurd (hand.1 rfl) nofun
      | false =>
        rw [List.filter_cons_of_neg (by rw [hq]; decide)]
        exact (and_iff_right fun _ => rfl).symm

/-- **COUNT.** All the servers count the rows that satisfy the query if and only if the random
terms keep the rows apart at each of them. A satisfied row is always counted, whatever the draws
are; a server can only count too many. -/
theorem countOfQuery_iff (hrows : ∀ row ∈ rows, IsRow row) (hquery : query.Answerable)
    (hj : Asks j query) :
    countOfQuery g g₀ zone (tableText rows) query.whereClause j =
        .ok (List.replicate 6 (rows.filter query.satisfied).length) ↔
      ∀ x, 1 ≤ x → x ≤ 6 → query.Separated g zone rows x := by
  obtain ⟨files, hfiles, hloads⟩ :=
    encryptFile_spec g g₀ zone (fun _ => none) hrows fun _ => rfl
  obtain ⟨j', hj', hread⟩ := appendShares_readable g hquery hj
  -- no server loses a row, so the numbers agree when nothing is added
  have hcount : ∀ x, (rows.filter (query.selects g zone x)).length =
      (rows.filter query.satisfied).length ↔ query.Separated g zone rows x := fun x =>
    length_filter_eq_iff fun row hrow =>
      selects_of_satisfied hquery (hrows row hrow).wellFormed x
  unfold countOfQuery
  rw [hfiles, hj']
  show counts query.whereClause files j' = _ ↔ _
  rw [counts_eq hquery hread hloads, Except.ok.injEq]
  refine (List.map_eq_replicate_iff (l := List.range 6)).trans
    ⟨fun h x h₁ h₆ => ?_, fun h i hi => ?_⟩
  · have hi := h (x - 1) (List.mem_range.mpr (by omega))
    unfold selected at hi
    rw [List.length_map, Nat.sub_add_cancel h₁] at hi
    exact (hcount x).mp hi
  · have hi' := List.mem_range.mp hi
    unfold selected
    rw [List.length_map]
    exact (hcount (i + 1)).mpr (h (i + 1) (by omega) (by omega))

end Count

end ORAMTestSQL

/-! ### The average -/

namespace AvgAggregationTest

open SQLQuery ORAMTestSQL SQLHandlerIntegrationTest SumAggregationTest

variable {nlohmann : JsonLibrary}

/-- The test's `SetUp`, which takes the attribute from the query. -/
def SetUpQuery (j : Json nlohmann) (results : Results) : Except Stop Totals := do
  let sumAttr ← (selectAttribute j).mapError .json
  (SetUp .machine results (attributeIndex sumAttr)).mapError .parser

/-- The table is shared, the query receives its shares, the servers answer it, and the average is
reconstructed. -/
def averageOfQuery (g : Generator) (g₀ : ℕ → ℕ → CoefficientOrZero) (zone : TimeZone)
    (table : Text) (whereClause : WhereClause) (j : Json nlohmann) : Except Stop ℤ := do
  let files ← (encryptFile g g₀ zone (fun _ => none) table).mapError .parser
  let j ← (appendShares g j).mapError .json
  let out ← results whereClause files j fun _ => []
  let totals ← SetUpQuery j out
  (ReconstructAvg double totals).mapError .parser

section Average

variable {g : Generator} {g₀ : ℕ → ℕ → CoefficientOrZero} {zone : TimeZone}
  {rows : List (AttributeID → Text)} {query : TextQuery} {j : Json nlohmann} {results : Results}

theorem SetUpQuery_eq (hj : Readable g query j)
    (hwritten : Written (selected g g₀ zone rows query) results) :
    SetUpQuery j results =
      .ok ⟨(tupleCount (selected g g₀ zone rows query) 6 : ℤ).bmod (2 ^ 32),
        (List.range 6).map fun i => (shareSum (selected g g₀ zone rows query)
          query.attr.index i).bmod (2 ^ 64),
        (List.range 6).map fun i => ((i + 1 : ℕ) : ℤ)⟩ := by
  unfold SetUpQuery
  rw [selectAttribute_eq hj]
  show (SetUp .machine results (attributeIndex query.attr.name)).mapError Stop.parser = _
  rw [attributeIndex_name, SetUp_eq .machine hwritten fun i hi => inRange_selected hi]
  simp only [Arithmetic.machine_int, Arithmetic.machine_int64]
  rfl

/-- **A quotient** of numbers that are exact as `double`s, rounded to an integer. -/
theorem nearest_divide {a b : ℤ} (ha : |a| ≤ 2 ^ 50) (hb₀ : 0 < b) (hb : b < 2 ^ 31) :
    Returns (divide double a b) (nearest · = nearest (a / b)) := by
  -- numerator and denominator are converted without rounding; only the quotient is rounded
  have hexact : Double.double a = a := double_intCast (ha.trans_lt (by norm_num))
  have hexact' : Double.double b = b := double_intCast (by
    rw [abs_of_pos hb₀]
    exact hb.trans (by norm_num))
  refine ⟨Double.double (a / b), ?_, nearest_double_div hb₀ (ha.trans_lt (by norm_num))⟩
  unfold divide
  rw [if_neg hb₀.ne', hexact, hexact']

/-- **The average that is printed**, from the sum that is reconstructed. -/
theorem ReconstructAvg_eq {count sum : ℤ} {sums indices : List ℤ}
    (hsum : ReconstructSum double ⟨sums, indices⟩ = .ok sum) (hsmall : |sum| ≤ 2 ^ 50)
    (hpos : 0 < count) (hcount : count < 2 ^ 31) :
    ReconstructAvg double ⟨count, sums, indices⟩ = .ok (nearest (sum / count)) := by
  have hreconstruct : reconstructSecret double (indices.zip sums) 3 = .ok sum := hsum
  obtain ⟨quotient, hquotient, hnearest⟩ := nearest_divide hsmall hpos hcount
  unfold ReconstructAvg
  show (reconstructSecret double (indices.zip sums) 3 >>= _) = _
  rw [hreconstruct, ok_bind, hquotient, ok_bind, hnearest]
  rfl

/-- The servers that keep the rows apart have six times the tuples of the result. -/
theorem tupleCount_selected (hrows : ∀ row ∈ rows, IsRow row) (hquery : query.Answerable)
    (hseparated : ∀ x, 1 ≤ x → x ≤ 6 → query.Separated g zone rows x) :
    tupleCount (selected g g₀ zone rows query) 6 = 6 * (rows.filter query.satisfied).length := by
  -- the tuples of all six servers are counted, and each server has every row
  have hcount : ∀ i ∈ List.range 6, (selected g g₀ zone rows query i).length =
      (rows.filter query.satisfied).length := by
    intro i hi
    have hi' := List.mem_range.mp hi
    unfold selected
    rw [List.length_map, filter_selects hquery hrows (hseparated (i + 1) (by omega) (by omega))]
  unfold tupleCount
  rw [List.map_congr_left hcount, List.map_const', List.sum_replicate, List.length_range,
    smul_eq_mul]

end Average

end AvgAggregationTest

/-! ### The smallest and the largest value -/

namespace MinAggregationTest

open SQLQuery ORAMTestSQL SQLHandlerIntegrationTest SumAggregationTest
open AvgAggregationTest (Written)

variable {nlohmann : JsonLibrary}

/-- `numeric_limits<double>::max()`. -/
def maxDouble : ℚ := (2 ^ 53 - 1) * 2 ^ 971

/-- The value that is compared, of the attributes that are. -/
def itemValue (attrName : Text) (item : LineItem) : Option ℚ :=
  if attrName = "EXTENDEDPRICE".toList then some item.L_EXTENDEDPRICE
  else if attrName = "QUANTITY".toList then some (Double.double item.L_QUANTITY)
  else if attrName = "DISCOUNT".toList then some item.L_DISCOUNT
  else if attrName = "TAX".toList then some item.L_TAX
  else none

def getMinFromItems (items : List LineItem) (attrName : Text) : ℚ :=
  items.foldl
    (fun minValue item =>
      match itemValue attrName item with
      | some value => if value < minValue then value else minValue
      | none => minValue)
    maxDouble

/-- `SetUp`: the sums that it adds up are not used. -/
def SetUp (j : Json nlohmann) (results : Results) : Except Stop Text := do
  let attrName ← (selectAttribute j).mapError .json
  let _members ← SumAggregationTest.SetUp j results
  pure attrName

/-- The files `server_x.txt` of a directory. -/
def filesOf (results : Results) : Files := fun x => some (results x)

/-- The test `ReconstructMINWithShamirParser`: the minimum that it prints. -/
def ReconstructMIN {zone : TimeZone} (clock : LocalTime zone) (j : Json nlohmann)
    (results : Results) : Except Stop ℚ := do
  let attrName ← SetUp j results
  let reconstructedItems ← (decryptItems clock (filesOf results)).mapError .parser
  pure (getMinFromItems reconstructedItems attrName)

/-- The table is shared, the query receives its shares, the servers answer it, and the minimum is
found. -/
def minOfQuery (g : Generator) (g₀ : ℕ → ℕ → CoefficientOrZero) {zone : TimeZone}
    (clock : LocalTime zone) (table : Text) (whereClause : WhereClause) (j : Json nlohmann) :
    Except Stop ℚ := do
  let files ← (encryptFile g g₀ zone (fun _ => none) table).mapError .parser
  let j ← (appendShares g j).mapError .json
  let out ← results whereClause files j fun _ => []
  ReconstructMIN clock j out

end MinAggregationTest

namespace MaxAggregationTest

open SQLQuery ORAMTestSQL SQLHandlerIntegrationTest MinAggregationTest

variable {nlohmann : JsonLibrary}

def getMaxFromItems (items : List LineItem) (attrName : Text) : ℚ :=
  items.foldl
    (fun maxValue item =>
      match itemValue attrName item with
      | some value => if maxValue < value then value else maxValue
      | none => maxValue)
    (-maxDouble)

/-- The test `ReconstructMAXWithShamirParser`. Its `loadAllShares` reads the directory `MAXOR`,
not the one that the test is given. -/
def ReconstructMAX {zone : TimeZone} (clock : LocalTime zone) (maxor : Results) (j : Json nlohmann)
    (results : Results) : Except Stop ℚ := do
  let attrName ← SetUp j results
  let reconstructedItems ← (decryptItems clock (filesOf maxor)).mapError .parser
  pure (getMaxFromItems reconstructedItems attrName)

/-- The table is shared, two queries receive their shares, the servers answer the first one into
the directory `MAXOR` and the second one into another, and the maximum is found for the second. -/
def maxOfQueries (g : Generator) (g₀ : ℕ → ℕ → CoefficientOrZero) {zone : TimeZone}
    (clock : LocalTime zone) (table : Text) (first : Json nlohmann) (whereClause : WhereClause)
    (j : Json nlohmann) : Except Stop ℚ := do
  let files ← (encryptFile g g₀ zone (fun _ => none) table).mapError .parser
  let first ← (appendShares g first).mapError .json
  let j ← (appendShares g j).mapError .json
  let maxor ← SQLMAXORQuery files first fun _ => []
  let out ← results whereClause files j fun _ => []
  ReconstructMAX clock maxor j out

end MaxAggregationTest

namespace MinAggregationTest

open SQLQuery ORAMTestSQL SQLHandlerIntegrationTest SumAggregationTest
open AvgAggregationTest (Written)

variable {nlohmann : JsonLibrary}

section Values

variable {g : Generator} {g₀ : ℕ → ℕ → CoefficientOrZero} {zone : TimeZone}
  {clock : LocalTime zone} {rows : List (AttributeID → Text)} {row : AttributeID → Text}
  {query : TextQuery} {j : Json nlohmann} {item : LineItem} {a : AttributeID} {out : Results}

/-- The attributes that are compared. -/
def Compared (a : AttributeID) : Prop := a ∈ [.QUANTITY, .EXTENDEDPRICE, .DISCOUNT, .TAX]

/-- The value of a row that is compared, after the row was shared and restored. -/
def comparedValue (item : LineItem) : AttributeID → ℚ
  | .QUANTITY => item.L_QUANTITY
  | .EXTENDEDPRICE => (int64 item.L_EXTENDEDPRICE : ℤ)
  | .DISCOUNT => cents item.L_DISCOUNT
  | .TAX => cents item.L_TAX
  | _ => 0

theorem itemValue_restored (ha : Compared a) (h : Restored (lineItem row) item) :
    itemValue a.name item = some (comparedValue (lineItem row) a) := by
  obtain ⟨shipinstruct, shipmode, comment, -, -, -, rfl⟩ := h
  unfold Compared at ha
  simp only [List.mem_cons, List.not_mem_nil, or_false] at ha
  -- the quantity is an `int` and is converted; the others are doubles already
  rcases ha with rfl | rfl | rfl | rfl
  · have hquantity : Double.double ((lineItem row).L_QUANTITY : ℚ) = (lineItem row).L_QUANTITY :=
      double_intCast ((abs_stoi_getD_le _).trans_lt (by decide))
    exact congrArg some hquantity
  · rfl
  · rfl
  · rfl

/-- **What the loop over the restored items finds** is found over the rows. -/
theorem getMinFromItems_eq (ha : Compared a) {items : List LineItem}
    (h : List.Forall₂ (fun row => Restored (lineItem row)) rows items) :
    getMinFromItems items a.name =
      Extremum.least maxDouble (fun row => comparedValue (lineItem row) a) rows := by
  unfold getMinFromItems Extremum.least
  -- for any start of the loop
  generalize maxDouble = start
  induction h generalizing start with
  | nil => rfl
  | cons hitem _ ih =>
    rw [List.foldl_cons, List.foldl_cons, itemValue_restored ha hitem]
    exact ih _

theorem strtod_nonneg {text : Text} {q : ℚ} (h : strtod text = some q) : 0 ≤ q := by
  unfold strtod at h
  split at h
  next => cases h
  next => exact Option.some.inj h ▸ double_nonneg (by positivity)
  next => exact Option.some.inj h ▸ double_nonneg (by positivity)

theorem stod_getD_nonneg (text : Text) : 0 ≤ (stod text).getD 0 := by
  unfold stod
  cases hq : strtod text with
  | none => exact le_rfl
  | some q =>
    show 0 ≤ (if q < 2 ^ 1024 then some q else none).getD 0
    split
    next => exact strtod_nonneg hq
    next => exact le_rfl

/-- A number that was scaled and scaled back is small too. -/
theorem abs_cents_le {q : ℚ} (h₀ : 0 ≤ q) (h : |int64 (Double.double (q * 100))| ≤ 2 ^ 50) :
    |cents q| ≤ 2 ^ 50 := by
  have hle := abs_le.mp h
  have htrunc : 0 ≤ trunc (Double.double (q * 100)) := by
    have hnonneg : 0 ≤ Double.double (q * 100) := double_nonneg (by positivity)
    unfold trunc
    rw [if_pos hnonneg]
    exact Int.floor_nonneg.mpr hnonneg
  -- the conversion is not out of range, or it would be `-2 ^ 63`
  have hz₀ : 0 ≤ int64 (Double.double (q * 100)) := by
    unfold int64 at hle ⊢
    split at hle
    next hrange => rwa [if_pos hrange]
    next => exact absurd hle.1 (by decide)
  have hz : ((int64 (Double.double (q * 100)) : ℤ) : ℚ) ≤ 2 ^ 50 := by exact_mod_cast hle.2
  have hz₀' : (0 : ℚ) ≤ (int64 (Double.double (q * 100)) : ℤ) := by exact_mod_cast hz₀
  have hquotient : (0 : ℚ) ≤ (int64 (Double.double (q * 100)) : ℤ) / 100 := by positivity
  unfold cents
  rw [abs_of_nonneg (double_nonneg hquotient)]
  have hbound := double_le_zpow (m := 50) hquotient (by norm_num; linarith)
  exact_mod_cast hbound

/-- The values that are compared are small. -/
theorem abs_comparedValue_le (h : IsRestorable zone row) (ha : Compared a) :
    |comparedValue (lineItem row) a| ≤ 2 ^ 50 := by
  have hcast : ∀ {z : ℤ}, |z| ≤ 2 ^ 50 → |(z : ℚ)| ≤ 2 ^ 50 := fun hz => by exact_mod_cast hz
  unfold Compared at ha
  simp only [List.mem_cons, List.not_mem_nil, or_false] at ha
  rcases ha with rfl | rfl | rfl | rfl
  · exact hcast (abs_stoi_getD_le _)
  · exact hcast (h.decimal .EXTENDEDPRICE rfl)
  · exact abs_cents_le (stod_getD_nonneg _) (h.decimal .DISCOUNT rfl)
  · exact abs_cents_le (stod_getD_nonneg _) (h.decimal .TAX rfl)

theorem abs_comparedValue_le_maxDouble (h : IsRestorable zone row) (ha : Compared a) :
    |comparedValue (lineItem row) a| ≤ maxDouble :=
  calc |comparedValue (lineItem row) a| ≤ 2 ^ 50 := abs_comparedValue_le h ha
    _ ≤ 2 ^ 53 - 1 := by norm_num
    _ ≤ (2 ^ 53 - 1) * 2 ^ 971 := le_mul_of_one_le_right (by norm_num) (one_le_pow₀ one_le_two)

theorem SetUp_eq (hj : Readable g query j)
    (hwritten : Written (selected g g₀ zone rows query) out) :
    SetUp j out = .ok query.attr.name := by
  unfold SetUp
  rw [selectAttribute_eq hj, SumAggregationTest.SetUp_eq hj hwritten]
  rfl

/-- **The selected rows are restored** from the result files. -/
theorem decryptItems_returns (clock : LocalTime zone) (hrows : ∀ row ∈ rows, IsRow row)
    (hquery : query.Answerable)
    (hseparated : ∀ x, 1 ≤ x → x ≤ 3 → query.Separated g zone rows x)
    (hne : rows.filter query.satisfied ≠ [])
    (hrestorable : ∀ row ∈ rows.filter query.satisfied, IsRestorable zone row)
    (hwritten : Written (selected g g₀ zone rows query) out) :
    Returns (decryptItems clock (filesOf out))
      (List.Forall₂ (fun row => Restored (lineItem row)) (rows.filter query.satisfied)) := by
  -- the sixth file is not read; the others hold the tuples of the selected rows
  have hload : loadAllShares (filesOf out) 6 = .ok ((List.range 6).map fun i =>
      if i + 1 < 6 then selected g g₀ zone rows query i else []) := by
    refine Returns.eq_ok (Returns.mapM fun i hi => ?_)
    have hi' := List.mem_range.mp hi
    split
    next =>
      have hlines : fields '\n' (out (i + 1)) =
          (selected g g₀ zone rows query i).map AvgAggregationTest.resultLine := by
        rw [hwritten i hi']
        exact fields_flatMap_append fun tuple _ =>
          AvgAggregationTest.newline_notMem_resultLine tuple
      show Returns ((fields '\n' (out (i + 1))).mapM ShamirParser.readTuple) _
      rw [hlines, List.mapM_map]
      refine (Returns.mapM (g := id) fun tuple htuple => ?_).mono fun tuples htuples => ?_
      · obtain ⟨hlength, hrange⟩ := inRange_selected hi' (a := .ORDERKEY) tuple htuple
        exact ⟨tuple, AvgAggregationTest.parser_readTuple_resultLine
          (List.ne_nil_of_length_pos (Nat.zero_lt_of_lt hlength)) hrange, rfl⟩
      · rw [htuples, List.map_id]
    next => exact Returns.pure rfl
  unfold decryptItems
  rw [hload, ok_bind]
  -- the first three servers keep the rows apart, so their tuples are those of the satisfied rows
  refine restoreItems_returns g g₀ clock hne hrestorable fun i hi => ?_
  rw [if_pos (by omega)]
  unfold selected
  rw [filter_selects hquery hrows (hseparated (i + 1) (by omega) (by omega))]

end Values

end MinAggregationTest

namespace MaxAggregationTest

open SQLQuery ORAMTestSQL SQLHandlerIntegrationTest MinAggregationTest

variable {nlohmann : JsonLibrary}

section Values

variable {g : Generator} {g₀ : ℕ → ℕ → CoefficientOrZero} {zone : TimeZone}
  {clock : LocalTime zone} {rows : List (AttributeID → Text)} {first query : TextQuery}
  {firstJson j : Json nlohmann} {a : AttributeID}

theorem getMaxFromItems_eq (ha : Compared a) {items : List LineItem}
    (h : List.Forall₂ (fun row => Restored (lineItem row)) rows items) :
    getMaxFromItems items a.name =
      Extremum.greatest (-maxDouble) (fun row => comparedValue (lineItem row) a) rows := by
  unfold getMaxFromItems Extremum.greatest
  -- as for the minimum
  generalize -maxDouble = start
  induction h generalizing start with
  | nil => rfl
  | cons hitem _ ih =>
    rw [List.foldl_cons, List.foldl_cons, itemValue_restored ha hitem]
    exact ih _

end Values

end MaxAggregationTest

/-! ### Two rows and two queries -/

namespace SumAggregationTest

open SQLQuery ORAMTestSQL SQLHandlerIntegrationTest MinAggregationTest MaxAggregationTest

/-- The first row, returned. -/
def returnedRow : AttributeID → Text := Function.update firstRow .RETURNFLAG "R".toList

/-- The sum of the quantities, where the return flag is `R` or the line status `F`. -/
def returned : TextQuery :=
  ⟨.QUANTITY, ⟨.RETURNFLAG, "R".toList⟩, .OR, ⟨.LINESTATUS, "F".toList⟩⟩

def filterJson («attribute» condition : Text) : JsonData.Tree :=
  .object [("attribute".toList, .string «attribute»), ("condition".toList, .string condition)]

def queryJson (select : JsonData.Tree) (whereClause : Text) : JsonData.Tree :=
  .object [("filters".toList, .array [filterJson "RETURNFLAG".toList "R".toList,
      .object [("whereClause".toList, .string whereClause)],
      filterJson "LINESTATUS".toList "F".toList]),
    ("select".toList, .array [select])]

def returnedJson : JsonData.Tree := queryJson sumQuantity "OR".toList

theorem isRestorable_returnedRow : IsRestorable utc returnedRow := by
  have h := isRestorable_firstRow
  refine ⟨⟨fun a => ?_, fun a => ?_⟩, fun a ha => ?_, fun a ha => ?_⟩
  · cases a with
    | RETURNFLAG => exact ⟨'R', rfl, by decide, by decide⟩
    | _ => exact h.isRow.wellFormed _
  · cases a <;> decide
  · cases a with
    | RETURNFLAG => cases ha
    | _ => exact h.date _ ha
  · cases a with
    | EXTENDEDPRICE => decide +kernel
    | DISCOUNT => decide +kernel
    | TAX => decide +kernel
    | _ => cases ha

def twoRows : List (AttributeID → Text) := [firstRow, returnedRow]

theorem isRestorable_twoRows : ∀ row ∈ twoRows, IsRestorable utc row := by
  intro row hrow
  rcases List.mem_cons.mp hrow with rfl | hrow
  · exact isRestorable_firstRow
  · rw [List.mem_singleton.mp hrow]
    exact isRestorable_returnedRow

theorem isRow_twoRows : ∀ row ∈ twoRows, IsRow row := fun row hrow =>
  (isRestorable_twoRows row hrow).isRow

theorem filter_twoRows : twoRows.filter returned.satisfied = [returnedRow] := by
  have hfirst : returned.satisfied firstRow = false := by decide
  have hreturned : returned.satisfied returnedRow = true := by decide
  unfold twoRows
  rw [List.filter_cons_of_neg (by rw [hfirst]; decide), List.filter_cons_of_pos hreturned,
    List.filter_nil]

theorem answerable_returned : returned.Answerable :=
  ⟨.inl rfl, .inl rfl, by decide, by decide, fun h => by cases h⟩

theorem asks_returnedJson : Asks returnedJson returned := by
  refine ⟨⟨sumQuantity, [], rfl, fun s hs => ?_, rfl⟩, _, _, _, rfl, ⟨rfl, rfl, rfl⟩,
    ⟨rfl, rfl, rfl, rfl⟩, ⟨rfl, rfl, rfl⟩⟩
  rw [List.mem_singleton.mp hs]
  exact ⟨by decide, by decide, by decide⟩

/-- The first row is masked by the same numbers as the conditions. -/
theorem separated_twoRows : ∀ x, 1 ≤ x → x ≤ 6 → returned.Separated constantOnes utc twoRows x := by
  intro x h₁ h₆ row hrow hsatisfied
  rcases List.mem_cons.mp hrow with rfl | hrow
  · interval_cases x <;> decide +kernel
  · have hreturned : returned.satisfied returnedRow = true := by decide
    rw [List.mem_singleton.mp hrow, hreturned] at hsatisfied
    cases hsatisfied

end SumAggregationTest

namespace ORAMTestSQL

open SumAggregationTest

theorem countOfQuery_iff_twoRows :
    countOfQuery constantOnes constantOnes₀ utc (tableText twoRows) .OR returnedJson =
      .ok (List.replicate 6 (twoRows.filter returned.satisfied).length) :=
  (countOfQuery_iff isRow_twoRows answerable_returned asks_returnedJson).mpr separated_twoRows

end ORAMTestSQL

namespace AvgAggregationTest

open SumAggregationTest

end AvgAggregationTest

namespace MinAggregationTest

open SumAggregationTest

theorem restorable_filter_twoRows :
    ∀ row ∈ twoRows.filter returned.satisfied, IsRestorable utc row := fun row hrow =>
  isRestorable_twoRows row (List.mem_of_mem_filter hrow)

theorem filter_twoRows_ne_nil : twoRows.filter returned.satisfied ≠ [] := by
  rw [filter_twoRows]
  exact List.cons_ne_nil _ _

end MinAggregationTest

namespace MaxAggregationTest

open SQLQuery SumAggregationTest MinAggregationTest

/-- The largest tax, where the return flag is `R` and the line status `F`: no row satisfies this
query. -/
def returnedAndFinished : TextQuery :=
  ⟨.TAX, ⟨.RETURNFLAG, "R".toList⟩, .AND, ⟨.LINESTATUS, "F".toList⟩⟩

def maxTax : JsonData.Tree :=
  .object [("attribute".toList, .string "TAX".toList),
    ("query_type".toList, .string "MAX".toList), ("variable".toList, .string "max_tax".toList)]

theorem answerable_returnedAndFinished : returnedAndFinished.Answerable :=
  ⟨.inl rfl, .inl rfl, by decide, by decide, fun h => by cases h⟩

theorem asks_maxTax : Asks (queryJson maxTax "AND".toList) returnedAndFinished := by
  refine ⟨⟨maxTax, [], rfl, fun s hs => ?_, rfl⟩, _, _, _, rfl, ⟨rfl, rfl, rfl⟩,
    ⟨rfl, rfl, rfl, rfl⟩, ⟨rfl, rfl, rfl⟩⟩
  rw [List.mem_singleton.mp hs]
  exact ⟨by decide, by decide, by decide⟩

end MaxAggregationTest
