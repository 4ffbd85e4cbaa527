import PathOram.Parser.Encoding
import PathOram.Parser.Files

/-!
# From the table to the share files

The branch `encrypt` of `main` in `shamir_parser.cpp`: the lines of a table are read as items,
each of the sixteen attributes of an item is shared for six servers, and the shares are appended
to the files of the servers.

`encryptFile_spec` says what the files hold then. Every server has a tuple for each row, in the
order of the table, with the value at its own number of the polynomial of each attribute:
`exists_shareRow_eq`.
-/

namespace ShamirParser

open Double Decimal Fields

/-! ### The names of the attributes -/

namespace AttributeID

def name : AttributeID → Text
  | ORDERKEY => "ORDERKEY".toList
  | PARTKEY => "PARTKEY".toList
  | SUPPKEY => "SUPPKEY".toList
  | LINENUMBER => "LINENUMBER".toList
  | QUANTITY => "QUANTITY".toList
  | EXTENDEDPRICE => "EXTENDEDPRICE".toList
  | DISCOUNT => "DISCOUNT".toList
  | TAX => "TAX".toList
  | RETURNFLAG => "RETURNFLAG".toList
  | LINESTATUS => "LINESTATUS".toList
  | SHIPDATE => "SHIPDATE".toList
  | COMMITDATE => "COMMITDATE".toList
  | RECEIPTDATE => "RECEIPTDATE".toList
  | SHIPINSTRUCT => "SHIPINSTRUCT".toList
  | SHIPMODE => "SHIPMODE".toList
  | COMMENT => "COMMENT".toList

theorem getElem?_all (a : AttributeID) : all[a.index]? = some a := by cases a <;> rfl

theorem index_lt (a : AttributeID) : a.index < 16 := by cases a <;> decide

theorem name_ne_nil (a : AttributeID) : a.name ≠ [] := by cases a <;> exact List.cons_ne_nil _ _

theorem name_injective : Function.Injective name := by
  intro a b h
  -- `name` has an inverse: the first attribute with that name
  have hget : ∀ a : AttributeID, all.find? (fun b => b.name = a.name) = some a := fun a => by
    cases a <;> decide
  have ha := hget a
  rw [h, hget b] at ha
  exact (Option.some.inj ha).symm

end AttributeID

/-- `attributeMap.find(attribute)`. The column of a name that is none of an attribute is the
largest `size_t`. -/
def attributeIndex («attribute» : Text) : ℕ :=
  match AttributeID.all.find? (fun a => a.name = «attribute») with
  | some a => a.index
  | none => 2 ^ 64 - 1

theorem attributeIndex_name (a : AttributeID) : attributeIndex a.name = a.index := by
  cases a <;> decide

/-! ### The code -/

/-- The rows of a table. An exception is `none`. -/
def parseLineItemFile (text : Text) : Option (List LineItem) :=
  (fields '\n' text).mapM parseLineItem

section Code

variable (g : Generator) (g₀ : ℕ → ℕ → CoefficientOrZero) (zone : TimeZone)

/-- The vector of the shares of all the attributes, in the order of the columns. -/
def allShares (item : LineItem) (n k : ℕ) : List (List (ℤ × ℤ)) :=
  AttributeID.all.map (shamirSecretSharingAllAttributes g g₀ zone item n k)

/-- `main`, where the option is `encrypt`. -/
def encryptFile (files : Files) (text : Text) : Except Fault Files :=
  match parseLineItemFile text with
  | none => .error .invalidArgument
  | some lineItems =>
    lineItems.foldlM (fun files item => saveAllShares files (allShares g g₀ zone item 6 3)) files

end Code

/-! ### Tables -/

/-- A row of a table, on a line of its own. -/
structure IsRow (row : AttributeID → Text) : Prop where
  wellFormed : WellFormed row
  oneLine : ∀ a, '\n' ∉ row a

/-- The text of a table. -/
def tableText (rows : List (AttributeID → Text)) : Text :=
  rows.flatMap fun row => tableLine row ++ ['\n']

/-- The item of a row. -/
def lineItem (row : AttributeID → Text) : LineItem where
  L_ORDERKEY := (stoi (row .ORDERKEY)).getD 0
  L_PARTKEY := (stoi (row .PARTKEY)).getD 0
  L_SUPPKEY := (stoi (row .SUPPKEY)).getD 0
  L_LINENUMBER := (stoi (row .LINENUMBER)).getD 0
  L_QUANTITY := (stoi (row .QUANTITY)).getD 0
  L_EXTENDEDPRICE := (stod (row .EXTENDEDPRICE)).getD 0
  L_DISCOUNT := (stod (row .DISCOUNT)).getD 0
  L_TAX := (stod (row .TAX)).getD 0
  L_RETURNFLAG := row .RETURNFLAG
  L_LINESTATUS := row .LINESTATUS
  L_SHIPDATE := row .SHIPDATE
  L_COMMITDATE := row .COMMITDATE
  L_RECEIPTDATE := row .RECEIPTDATE
  L_SHIPINSTRUCT := row .SHIPINSTRUCT
  L_SHIPMODE := row .SHIPMODE
  L_COMMENT := row .COMMENT

section Rows

variable {row : AttributeID → Text} {rows : List (AttributeID → Text)} {text : Text}

theorem IsInteger.stoi_getD (h : IsInteger text) : stoi text = some ((stoi text).getD 0) := by
  obtain ⟨n, hn, -⟩ := h.stoi_eq
  rw [hn, Option.getD_some]

theorem IsDecimal.stod_getD (h : IsDecimal text) : stod text = some ((stod text).getD 0) := by
  obtain ⟨q, hq, -⟩ := h.stod_eq
  rw [hq, Option.getD_some]

/-- **A row is read as its item.** -/
theorem parseLineItem_eq (h : WellFormed row) :
    parseLineItem (tableLine row) = some (lineItem row) := by
  rw [parseLineItem_tableLine h]
  unfold parseTokens
  rw [IsInteger.stoi_getD (h .ORDERKEY), IsInteger.stoi_getD (h .PARTKEY),
    IsInteger.stoi_getD (h .SUPPKEY), IsInteger.stoi_getD (h .LINENUMBER),
    IsInteger.stoi_getD (h .QUANTITY), IsDecimal.stod_getD (h .EXTENDEDPRICE),
    IsDecimal.stod_getD (h .DISCOUNT), IsDecimal.stod_getD (h .TAX)]
  rfl

/-- Flags and strings are encoded like conditions. -/
theorem secret_lineItem (h : WellFormed row) {a : AttributeID} (ha : a.kind.Matches)
    (zone : TimeZone) : secret zone (lineItem row) a = SQLHandler.stringToInt (row a) := by
  -- a flag is a single character
  have hflag : ∀ {a : AttributeID}, a.kind = .flag →
      charInt ((row a).headD '\x00') = SQLHandler.stringToInt (row a) := fun {a} ha => by
    have hform := h a
    rw [ha] at hform
    obtain ⟨c, hc, -, hlt⟩ := hform
    rw [hc]
    exact charInt_eq c hlt
  cases a with
  | RETURNFLAG => exact hflag rfl
  | LINESTATUS => exact hflag rfl
  | SHIPINSTRUCT => rfl
  | SHIPMODE => rfl
  | COMMENT => rfl
  | _ => exact absurd ha (by unfold Kind.Matches; decide)

theorem IsRow.newline_notMem (h : IsRow row) : '\n' ∉ tableLine row := by
  intro hmem
  obtain ⟨a, -, ha⟩ := List.mem_flatMap.mp hmem
  rcases List.mem_append.mp ha with ha | ha
  · exact h.oneLine a ha
  · exact absurd (List.mem_singleton.mp ha) (by decide)

/-- **The table is read as the items of its rows.** -/
theorem parseLineItemFile_eq (h : ∀ row ∈ rows, IsRow row) :
    parseLineItemFile (tableText rows) = some (rows.map lineItem) := by
  unfold parseLineItemFile tableText
  rw [fields_flatMap_append fun row hrow => (h row hrow).newline_notMem, List.mapM_map]
  -- one line at a time; a newline ends each row and is in none
  induction rows with
  | nil => rfl
  | cons row rows ih =>
    rw [List.mapM_cons, Function.comp_apply, parseLineItem_eq (h row List.mem_cons_self).wellFormed,
      ih fun row' hrow' => h row' (List.mem_cons_of_mem row hrow')]
    rfl

end Rows

/-! ### The shares -/

section Shares

variable {g : Generator} {g₀ : ℕ → ℕ → CoefficientOrZero} {zone : TimeZone} {item : LineItem}
  {files : Files} {rows : List (AttributeID → Text)} {i : ℕ}

/-- The tuple that the server `i + 1` has of an item. -/
def shareRow (g : Generator) (g₀ : ℕ → ℕ → CoefficientOrZero) (zone : TimeZone) (item : LineItem)
    (i : ℕ) : List ℤ :=
  sharesOn i (allShares g g₀ zone item 6 3)

theorem length_shareRow : (shareRow g g₀ zone item i).length = 16 := by
  unfold shareRow sharesOn allShares
  rw [List.length_map, List.length_map]
  rfl

theorem length_allShares (a : AttributeID) :
    (shamirSecretSharingAllAttributes g g₀ zone item 6 3 a).length = 6 := by
  obtain ⟨rest, hrest⟩ := shamirSecretSharingAllAttributes_eq g g₀ zone item 6 3 a
  rw [hrest, length_sharesOf]

theorem tabular_allShares : Tabular 6 (allShares g g₀ zone item 6 3) := by
  refine ⟨List.cons_ne_nil _ _, fun shares hshares => ?_⟩
  obtain ⟨a, -, rfl⟩ := List.mem_map.mp hshares
  exact length_allShares a

/-- The numbers drawn for an attribute are at most 100. -/
theorem exists_coefficients (g : Generator) (g₀ : ℕ → ℕ → CoefficientOrZero) (zone : TimeZone)
    (item : LineItem) (a : AttributeID) :
    ∃ c d : ℤ, (0 ≤ c ∧ c ≤ 100) ∧ (0 ≤ d ∧ d ≤ 100) ∧
      shamirSecretSharingAllAttributes g g₀ zone item 6 3 a =
        sharesOf [secret zone item a, c, d] 6 3 := by
  -- integers: the draws are positive
  have hint : ∀ s : ℤ, ∃ c d : ℤ, (0 ≤ c ∧ c ≤ 100) ∧ (0 ≤ d ∧ d ≤ 100) ∧
      shamirSecretSharing g s 6 3 = sharesOf [s, c, d] 6 3 := fun s => by
    have hc := (g (seed s 6 3) 0).property
    have hd := (g (seed s 6 3) 1).property
    exact ⟨_, _, ⟨by omega, hc.2⟩, ⟨by omega, hd.2⟩, rfl⟩
  -- decimal numbers: zero may be drawn too
  have hdouble : ∀ q : ℚ, ∃ c d : ℤ, (0 ≤ c ∧ c ≤ 100) ∧ (0 ≤ d ∧ d ≤ 100) ∧
      shamirSecretSharingDouble g₀ q 6 3 = sharesOf [int64 (double (q * 100)), c, d] 6 3 := fun q =>
    ⟨_, _, (g₀ (seed (trunc q) 6 3) 0).property, (g₀ (seed (trunc q) 6 3) 1).property, rfl⟩
  cases a with
  | DISCOUNT => exact hdouble _
  | TAX => exact hdouble _
  | _ => exact hint _

/-- **The tuple of a server** consists of the values at its number of polynomials that have the
secrets as constant terms. The coefficients are the same for all six servers, which is what the
reconstruction needs. -/
theorem exists_shareRow_eq (g : Generator) (g₀ : ℕ → ℕ → CoefficientOrZero) (zone : TimeZone)
    (item : LineItem) (a : AttributeID) :
    ∃ c d : ℤ, (0 ≤ c ∧ c ≤ 100) ∧ (0 ≤ d ∧ d ≤ 100) ∧ ∀ i < 6,
      (shareRow g g₀ zone item i)[a.index]? =
        some (shareAt [secret zone item a, c, d] 3 (i + 1 : ℕ)) := by
  obtain ⟨c, d, hc, hd, hshares⟩ := exists_coefficients g g₀ zone item a
  refine ⟨c, d, hc, hd, fun i hi => ?_⟩
  unfold shareRow sharesOn allShares
  rw [List.map_map, List.getElem?_map, a.getElem?_all, Option.map_some, Function.comp_apply,
    hshares, getD_sharesOf hi]

theorem inRange_shareRow (hi : i < 6) : InRange (shareRow g g₀ zone item i) := by
  intro y hy
  unfold shareRow sharesOn allShares at hy
  rw [List.map_map] at hy
  obtain ⟨a, -, rfl⟩ := List.mem_map.mp hy
  obtain ⟨c, d, -, -, hshares⟩ := exists_coefficients g g₀ zone item a
  rw [Function.comp_apply, hshares, getD_sharesOf hi]
  exact shareAt_mem _ _

/-- A share of a small secret is exact. -/
theorem shareAt_three {s c d x : ℤ} (hs : |s| ≤ 2 ^ 50) (hc : 0 ≤ c ∧ c ≤ 100)
    (hd : 0 ≤ d ∧ d ≤ 100) (h₁ : 1 ≤ x) (h₆ : x ≤ 6) :
    shareAt [s, c, d] 3 x = s + c * x + d * x ^ 2 := by
  -- the polynomial of degree two, written out
  have hshare : share [s, c, d] x = s + c * x + d * x ^ 2 := by
    show ∑ i ∈ Finset.range 3, _ = _
    simp only [Finset.sum_range_succ, Finset.sum_range_zero, List.getD_cons_zero,
      List.getD_cons_succ]
    ring
  rw [← hshare]
  -- it stays inside the range of an `int64_t`, since the secret and both coefficients are small
  refine shareAt_eq_share (c := [s, c, d]) h₁ ?_
  show ∑ i ∈ Finset.range 3, _ < _
  simp only [Finset.sum_range_succ, Finset.sum_range_zero, List.getD_cons_zero,
    List.getD_cons_succ]
  rw [abs_of_nonneg hc.1, abs_of_nonneg hd.1]
  nlinarith

variable (g g₀ zone files) in
/-- **The share files.** Each server can load its tuples of the rows, in the order of the table.
The files are opened for appending, so they have to be empty before: a second run would add its
tuples behind the first ones. -/
theorem encryptFile_spec (hrows : ∀ row ∈ rows, IsRow row) (hfiles : ∀ x, (files x).getD [] = []) :
    Returns (encryptFile g g₀ zone files (tableText rows)) fun files' => ∀ i < 6,
      loadServer files' (i + 1) = .ok (rows.map fun row => shareRow g g₀ zone (lineItem row) i) := by
  -- the items are shared and saved one after the other
  have hfold : encryptFile g g₀ zone files (tableText rows) =
      (rows.map fun row => allShares g g₀ zone (lineItem row) 6 3).foldlM saveAllShares files := by
    unfold encryptFile
    rw [parseLineItemFile_eq hrows, List.foldlM_map]
    exact List.foldlM_map
  rw [hfold]
  refine (saveTables_spec (n := 6) (fun table htable => ?_) fun i _ => hfiles (i + 1)).mono
    fun files' hfiles' i hi => ?_
  · obtain ⟨row, -, rfl⟩ := List.mem_map.mp htable
    exact tabular_allShares
  · refine loadServer_eq ?_ (fun ys hys => ?_) fun ys hys => ?_
    -- the file is the tuples of the rows, one a line
    · refine (hfiles' i hi).trans ?_
      show (rows.map fun row => allShares g g₀ zone (lineItem row) 6 3).flatMap _ = _
      rw [List.flatMap_map, List.flatMap_map]
      rfl
    · obtain ⟨row, -, rfl⟩ := List.mem_map.mp hys
      exact List.ne_nil_of_length_pos (by rw [length_shareRow]; decide)
    · obtain ⟨row, -, rfl⟩ := List.mem_map.mp hys
      exact inRange_shareRow hi

end Shares

end ShamirParser
