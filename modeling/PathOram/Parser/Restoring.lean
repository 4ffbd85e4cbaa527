import PathOram.Parser.Strings
import PathOram.Parser.Table

/-!
# From the share files to the table

The branch `decrypt` of `main` in `shamir_parser.cpp`: the share files are loaded, the integers
reconstructed, and each of them turned back into what it stands for.

`table_restored` says what comes back of a table. Numbers, flags and dates do, and strings of at
most six characters. The price loses its cents; discount and tax are scaled to integers, and a
cent may be lost there. The codes of longer strings are too large for a `double`.

Dates need that the clock shows the day that the timestamp was made for (`LocalTime`).
-/

namespace ShamirParser

open Double Decimal Fields

/-! ### The code -/

/-- The value at zero, scaled back. -/
def reconstructSecretFloat (fl : ℚ → ℚ) (shares : List (ℤ × ℤ)) (k : ℕ) : Except Fault ℚ := do
  let secret ← weightedSum fl shares k
  pure (fl (secret / 100))

/-- What `std::localtime` shows: the seconds on the clock at a time. For a time that `mktime`
gave, this is the time it was given, or later on the same day's length under daylight saving. -/
structure LocalTime (zone : TimeZone) where
  shows : ℤ → ℤ
  shows_mktime : ∀ s, s ≤ shows (s - zone.offset s) ∧ shows (s - zone.offset s) < s + 86400

/-- A number with at least two digits. -/
def twoDigits (z : ℤ) : Text := if z < 10 then '0' :: print z else print z

/-- `std::put_time(tm, "%Y-%m-%d")`. -/
def putTime (year month day : ℤ) : Text :=
  print year ++ '-' :: (twoDigits month ++ '-' :: twoDigits day)

def timestampToDate {zone : TimeZone} (clock : LocalTime zone) (timestamp : ℤ) : Text :=
  let (year, month, day) := Calendar.civil (clock.shows timestamp / 86400)
  putTime year month day

/-- `static_cast<char>(value)`. -/
def charOf (value : ℤ) : Char := Char.ofNat (value % 256).toNat

/-- `reconstructSecret(allShares[a][i], 3)`. -/
def reconstruct (allShares : List (List (List (ℤ × ℤ)))) (i : ℕ) (a : AttributeID) :
    Except Fault ℤ := do
  let shares ← sharesAt allShares a.index i
  reconstructSecret double shares 3

/-- `reconstructSecretFloat(allShares[a][i], 3)`. -/
def reconstructFloat (allShares : List (List (List (ℤ × ℤ)))) (i : ℕ) (a : AttributeID) :
    Except Fault ℚ := do
  let shares ← sharesAt allShares a.index i
  reconstructSecretFloat double shares 3

section Code

variable {zone : TimeZone} (clock : LocalTime zone)

/-- The body of the loop over the tuples. -/
def restoreItem (allShares : List (List (List (ℤ × ℤ)))) (i : ℕ) : Except Fault LineItem := do
  let L_ORDERKEY ← reconstruct allShares i .ORDERKEY
  let L_PARTKEY ← reconstruct allShares i .PARTKEY
  let L_SUPPKEY ← reconstruct allShares i .SUPPKEY
  let L_LINENUMBER ← reconstruct allShares i .LINENUMBER
  let L_QUANTITY ← reconstruct allShares i .QUANTITY
  let price ← reconstruct allShares i .EXTENDEDPRICE
  -- discount and tax are scaled back, the price is not
  let L_DISCOUNT ← reconstructFloat allShares i .DISCOUNT
  let L_TAX ← reconstructFloat allShares i .TAX
  let returnflag ← reconstruct allShares i .RETURNFLAG
  let linestatus ← reconstruct allShares i .LINESTATUS
  let shipdate ← reconstruct allShares i .SHIPDATE
  let commitdate ← reconstruct allShares i .COMMITDATE
  let receiptdate ← reconstruct allShares i .RECEIPTDATE
  let shipinstruct ← reconstruct allShares i .SHIPINSTRUCT
  let shipmode ← reconstruct allShares i .SHIPMODE
  let comment ← reconstruct allShares i .COMMENT
  pure
    { L_ORDERKEY, L_PARTKEY, L_SUPPKEY, L_LINENUMBER, L_QUANTITY, L_DISCOUNT, L_TAX
      L_EXTENDEDPRICE := double price
      L_RETURNFLAG := [charOf returnflag]
      L_LINESTATUS := [charOf linestatus]
      L_SHIPDATE := timestampToDate clock shipdate
      L_COMMITDATE := timestampToDate clock commitdate
      L_RECEIPTDATE := timestampToDate clock receiptdate
      L_SHIPINSTRUCT := intToString shipinstruct
      L_SHIPMODE := intToString shipmode
      L_COMMENT := intToString comment }

/-- `main`, where the option is `decrypt`: the items that are written to the file. -/
def decryptItems (files : Files) : Except Fault (List LineItem) := do
  let tempShares ← loadAllShares files 6
  let allShares ← transformShares tempShares
  -- the number of tuples is that of the first server
  (List.range (tempShares.headD []).length).mapM (restoreItem clock allShares)

end Code

/-! ### Values -/

section Values

variable {zone : TimeZone} {year month day : ℤ} {text : Text} {c : Char}

/-- A date that exists, with a year of four digits. -/
def IsCalendarDate (text : Text) : Prop :=
  ∃ year month day, (1000 ≤ year ∧ year < 10000) ∧ Calendar.IsDay year month day ∧
    text = putTime year month day

theorem hyphen_notMem_print {z : ℤ} (h : 0 ≤ z) : '-' ∉ print z := by
  unfold print
  rw [if_neg (not_lt.mpr h)]
  intro hmem
  exact absurd (Nat.isDigit_of_mem_toDigits (by decide) (by decide) hmem) (by decide)

theorem ofDigitChars_print {z : ℤ} (h : 0 ≤ z) : (Nat.ofDigitChars 10 (print z) 0 : ℤ) = z := by
  unfold print
  rw [if_neg (not_lt.mpr h), Nat.ofDigitChars_ten_toDigits, Int.natAbs_of_nonneg h]

theorem twoDigits_spec {z : ℤ} (h : 0 ≤ z) :
    '-' ∉ twoDigits z ∧ twoDigits z ≠ [] ∧ (Nat.ofDigitChars 10 (twoDigits z) 0 : ℤ) = z := by
  unfold twoDigits
  split
  -- a leading zero changes no value
  · refine ⟨?_, List.cons_ne_nil _ _, ?_⟩
    · rw [List.mem_cons, not_or]
      exact ⟨by decide, hyphen_notMem_print h⟩
    · rw [Nat.ofDigitChars_cons]
      exact ofDigitChars_print h
  · exact ⟨hyphen_notMem_print h, print_ne_nil z, ofDigitChars_print h⟩

/-- **A date is read back** from what is printed of it. -/
theorem getTime_putTime (hy : 0 ≤ year) (hm : 0 ≤ month) (hd : 0 ≤ day) :
    getTime (putTime year month day) = ⟨year - 1900, month - 1, day⟩ := by
  obtain ⟨hmonth, -, hmonth_eq⟩ := twoDigits_spec hm
  obtain ⟨hday, hday_ne, hday_eq⟩ := twoDigits_spec hd
  -- none of the three numbers contains the hyphen between them
  have hfields : fields '-' (putTime year month day) =
      [print year, twoDigits month, twoDigits day] := by
    unfold putTime
    rw [fields_append (hyphen_notMem_print hy), fields_append hmonth, fields_of_notMem hday hday_ne]
  unfold getTime
  rw [hfields]
  simp only [ofDigitChars_print hy, hmonth_eq, hday_eq]

/-- The day of a date, in seconds. -/
theorem dateToTimestamp_putTime (hy : 0 ≤ year) (hm : 0 ≤ month) (hd : 0 ≤ day) :
    dateToTimestamp zone (putTime year month day) =
      86400 * Calendar.days year month day - zone.offset (86400 * Calendar.days year month day) := by
  unfold dateToTimestamp mktime
  rw [getTime_putTime hy hm hd]
  simp only [sub_add_cancel]

/-- **Dates come back**, where the clock shows the day. -/
theorem timestampToDate_dateToTimestamp (clock : LocalTime zone) (h : IsCalendarDate text) :
    timestampToDate clock (dateToTimestamp zone text) = text := by
  obtain ⟨year, month, day, hyear, hday, rfl⟩ := h
  have hm := hday.month_mem
  have hd := hday.day_mem
  rw [dateToTimestamp_putTime (by omega) (by omega) (by omega)]
  have hshows := clock.shows_mktime (86400 * Calendar.days year month day)
  -- a clock within the day shows the day
  have hdiv : clock.shows (86400 * Calendar.days year month day -
      zone.offset (86400 * Calendar.days year month day)) / 86400 =
        Calendar.days year month day := by omega
  unfold timestampToDate
  rw [hdiv, Calendar.civil_days hday]

/-- A timestamp is small. -/
theorem abs_dateToTimestamp_le (h : IsCalendarDate text) :
    |dateToTimestamp zone text| ≤ 2 ^ 50 := by
  obtain ⟨year, month, day, hyear, hday, rfl⟩ := h
  have hm := hday.month_mem
  have hd := hday.day_mem
  have hlength := Calendar.monthLength_le_thirtyOne year month
  rw [dateToTimestamp_putTime (by omega) (by omega) (by omega)]
  have hoffset := abs_lt.mp (zone.bound (86400 * Calendar.days year month day))
  have hdays := Calendar.days_mem (y := year) (m := month) (d := day) (by omega) hm (by omega)
  rw [abs_le]
  constructor <;> omega

/-- A flag is the character of its code. -/
theorem charOf_charInt (h : c.toNat < 256) : charOf (charInt c) = c := by
  have hmod : charInt c % 256 = c.toNat := by
    unfold charInt
    split <;> omega
  unfold charOf
  rw [hmod, Int.toNat_natCast, Char.ofNat_toNat]

/-- A short string is read back from its code. -/
theorem intToString_of_short (h : Ascii text) (hlength : text.length ≤ 6) :
    intToString (stringToInt text) = text := by
  rw [stringToInt_of_length_le h (by omega), intToString, intToStringLoop_code h, List.append_nil]

/-- A flag has a small code. -/
theorem abs_charInt_le (h : c.toNat < 256) : |charInt c| ≤ 2 ^ 50 := by
  unfold charInt
  rw [abs_le]
  split <;> omega

/-- So has a short string. -/
theorem abs_stringToInt_le (h : Ascii text) (hlength : text.length ≤ 6) :
    |stringToInt text| ≤ 2 ^ 50 := by
  obtain ⟨h₀, hlt⟩ := code_bounds h.lt_256
  have hpow : (256 : ℤ) ^ text.length ≤ 256 ^ 6 := pow_le_pow_right₀ (by decide) hlength
  rw [stringToInt_of_length_le h (by omega), abs_of_nonneg h₀]
  omega

end Values

/-! ### The first three servers -/

section Three

variable {y : ℕ → ℤ} {tuples : ℕ → List (List ℤ)} {n t a : ℕ}

/-- The shares of the servers `1..3`. -/
def threeShares (y : ℕ → ℤ) : List (ℤ × ℤ) := (List.range 3).map fun i => ((i + 1 : ℕ), y i)

theorem weightedSum_threeShares (hy : ∀ i < 3, |y i| < 2 ^ 50 + 2 ^ 13)
    (rest : List (ℤ × ℤ)) :
    weightedSum double (threeShares y ++ rest) 3 = .ok ((3 * y 0 - 3 * y 1 + y 2 : ℤ) : ℚ) := by
  have hfive : fiveShares y = threeShares y ++ [(4, y 3), (5, y 4)] := rfl
  have hlen : 3 ≤ (threeShares y).length := le_rfl
  rw [weightedSum_append double rest hlen, ← weightedSum_fiveShares hy, hfive,
    weightedSum_append double _ hlen]

/-- Whatever the shares are, a number is reconstructed. -/
theorem exists_reconstructSecret_eq (y : ℕ → ℤ) (rest : List (ℤ × ℤ)) :
    ∃ z, reconstructSecret double (threeShares y ++ rest) 3 = .ok z := by
  have hfive : fiveShares y = threeShares y ++ [(4, y 3), (5, y 4)] := rfl
  have hlen : 3 ≤ (threeShares y).length := le_rfl
  -- the numbers of the servers differ, so no division fails, whatever the values are
  have hreturns : Returns (weightedSum double (fiveShares y) 3) fun _ => True :=
    Returns.foldlM_range (I := fun _ _ => True) trivial fun i c hi _ =>
      Returns.bind (Q := fun _ => True) ⟨_, lagrangeCoeff_fiveShares hi, trivial⟩ fun w _ =>
        (entry_returns (by rw [length_fiveShares]; decide) hi).bind fun s _ => Returns.pure trivial
  obtain ⟨q, hq, -⟩ := hreturns
  rw [hfive, weightedSum_append double _ hlen] at hq
  refine ⟨nearest q, ?_⟩
  rw [reconstructSecret_append double rest hlen, reconstructSecret_eq_weightedSum, hq]
  rfl

theorem shareIn_tuples {servers : List (List (List ℤ))} {i : ℕ}
    (hserver : servers[i]? = some (tuples i)) (hlength : (tuples i).length = n)
    (hwidth : ∀ ys ∈ tuples i, ys.length = 16) (ht : t < n) (ha : a < 16) :
    shareIn servers i t a = some (((tuples i).getD t []).getD a 0) := by
  have htuple : t < (tuples i).length := ht.trans_eq hlength.symm
  have hys : a < ((tuples i)[t]).length := by
    rw [hwidth _ (List.getElem_mem htuple)]
    exact ha
  unfold shareIn
  rw [hserver]
  show ((tuples i)[t]? >>= fun tuple => tuple[a]?) = _
  rw [List.getElem?_eq_getElem htuple, List.getD_eq_getElem _ _ htuple,
    List.getD_eq_getElem _ _ hys]
  exact List.getElem?_eq_getElem hys

/-- The shares of a tuple begin with those of the first three servers, if these have it. -/
theorem transformShares_spec (hn : 0 < n) (hlength : ∀ i < 3, (tuples i).length = n)
    (hwidth : ∀ i < 3, ∀ ys ∈ tuples i, ys.length = 16) :
    Returns (transformShares ((List.range 6).map tuples)) fun allShares =>
      ∀ t < n, ∀ a < 16, ∃ rest, sharesAt allShares a t =
        .ok (threeShares (fun i => ((tuples i).getD t []).getD a 0) ++ rest) := by
  have hlength₀ := hlength 0 (by decide)
  have hwidth₀ := hwidth 0 (by decide)
  have hservers : ∀ ys rest, tuples 0 = ys :: rest → (List.range 6).map tuples =
      (ys :: rest) :: [tuples 1, tuples 2, tuples 3, tuples 4, tuples 5] := fun ys rest h => by
    rw [← h]
    rfl
  -- the numbers of attributes and of tuples are read off the first server
  cases hfirst : tuples 0 with
  | nil =>
    rw [hfirst, List.length_nil] at hlength₀
    exact absurd hlength₀ hn.ne
  | cons ys rest =>
    have hys : ys.length = 16 := hwidth₀ ys (hfirst ▸ List.mem_cons_self)
    rw [hfirst] at hlength₀
    refine ⟨_, by rw [hservers ys rest hfirst]; rfl, fun t ht a ha => ?_⟩
    rw [← hservers ys rest hfirst, hys, hlength₀]
    -- what the other three servers have comes behind, if they have the tuple at all
    refine ⟨[3, 4, 5].filterMap fun i => (shareIn ((List.range 6).map tuples) i t a).map
      fun y => (((i + 1 : ℕ) : ℤ), y), ?_⟩
    unfold sharesAt
    simp only [List.getElem?_map, List.getElem?_range ha, List.getElem?_range ht, Option.map_some]
    show Except.ok ((List.range 3 ++ [3, 4, 5]).filterMap _) = _
    rw [List.filterMap_append]
    refine congrArg (fun l => Except.ok (l ++ _)) ?_
    -- none of the first three is skipped
    have hshare : ∀ i ∈ List.range 3,
        (shareIn ((List.range 6).map tuples) i t a).map (fun y => (((i + 1 : ℕ) : ℤ), y)) =
          some (((i + 1 : ℕ) : ℤ), ((tuples i).getD t []).getD a 0) := fun i hi => by
      have hi' := List.mem_range.mp hi
      rw [shareIn_tuples (by rw [List.getElem?_map, List.getElem?_range (by omega)]; rfl)
        (hlength i hi') (hwidth i hi') ht ha]
      rfl
    rw [List.filterMap_congr hshare]
    rfl

end Three

/-! ### Items -/

section Items

variable {g : Generator} {g₀ : ℕ → ℕ → CoefficientOrZero} {zone : TimeZone}
  {clock : LocalTime zone} {row : AttributeID → Text} {rows : List (AttributeID → Text)}
  {item : LineItem} {a : AttributeID} {text : Text} {files : Files}

/-- What is left of a decimal number that is scaled to an integer and back. -/
def cents (q : ℚ) : ℚ := double ((int64 (double (q * 100)) : ℤ) / 100)

/-- The strings whose codes a `double` holds. -/
def Short (text : Text) : Prop := Ascii text ∧ text.length ≤ 6

/-- An item that comes back. -/
def Restored (item item' : LineItem) : Prop :=
  ∃ shipinstruct shipmode comment,
    (Short item.L_SHIPINSTRUCT → shipinstruct = item.L_SHIPINSTRUCT) ∧
    (Short item.L_SHIPMODE → shipmode = item.L_SHIPMODE) ∧
    (Short item.L_COMMENT → comment = item.L_COMMENT) ∧
    item' =
      { item with
        L_EXTENDEDPRICE := (int64 item.L_EXTENDEDPRICE : ℤ)
        L_DISCOUNT := cents item.L_DISCOUNT
        L_TAX := cents item.L_TAX
        L_SHIPINSTRUCT := shipinstruct
        L_SHIPMODE := shipmode
        L_COMMENT := comment }

/-- A row with dates that exist, and with numbers that a `double` holds. -/
structure IsRestorable (zone : TimeZone) (row : AttributeID → Text) : Prop where
  isRow : IsRow row
  date : ∀ a : AttributeID, a.kind = .date → IsCalendarDate (row a)
  decimal : ∀ a : AttributeID, a.kind = .decimal → |secret zone (lineItem row) a| ≤ 2 ^ 50

/-- The shares that are found of an attribute of the tuple `t`. -/
def SharesOf (g : Generator) (g₀ : ℕ → ℕ → CoefficientOrZero) (zone : TimeZone) (item : LineItem)
    (allShares : List (List (List (ℤ × ℤ)))) (t : ℕ) : Prop :=
  ∀ a : AttributeID, ∃ rest, sharesAt allShares a.index t =
    .ok (threeShares (fun i => (shareRow g g₀ zone item i).getD a.index 0) ++ rest)

/-- The shares of a small secret are small, and give it back. -/
theorem weightedSum_shareRow (h : |secret zone item a| ≤ 2 ^ 50) (rest : List (ℤ × ℤ)) :
    weightedSum double
        (threeShares (fun i => (shareRow g g₀ zone item i).getD a.index 0) ++ rest) 3 =
      .ok (secret zone item a : ℤ) := by
  obtain ⟨c, d, hc, hd, hshare⟩ := exists_shareRow_eq g g₀ zone item a
  -- no share of a small secret is cut, so they lie on a parabola
  have hexact : ∀ i < 3, (shareRow g g₀ zone item i).getD a.index 0 =
      secret zone item a + c * (i + 1 : ℕ) + d * (i + 1 : ℕ) ^ 2 := fun i hi => by
    rw [List.getD_eq_getElem?_getD, hshare i (by omega), Option.getD_some]
    exact shareAt_three h hc hd (by omega) (by omega)
  have hs := abs_le.mp h
  -- whose value at zero is `3 y₁ - 3 y₂ + y₃`
  rw [weightedSum_threeShares fun i hi => ?_]
  · rw [hexact 0 (by decide), hexact 1 (by decide), hexact 2 (by decide)]
    refine congrArg (fun z : ℤ => Except.ok (z : ℚ)) ?_
    push_cast
    ring
  · rw [hexact i hi, abs_lt]
    interval_cases i <;> norm_num <;> omega

variable {allShares : List (List (List (ℤ × ℤ)))} {t : ℕ}

theorem reconstruct_eq (hshares : SharesOf g g₀ zone item allShares t)
    (h : |secret zone item a| ≤ 2 ^ 50) :
    reconstruct allShares t a = .ok (secret zone item a) := by
  obtain ⟨rest, hrest⟩ := hshares a
  unfold reconstruct
  rw [hrest, ok_bind, reconstructSecret_eq_weightedSum, weightedSum_shareRow h rest]
  exact congrArg Except.ok (nearest_intCast _)

theorem reconstructFloat_eq (hshares : SharesOf g g₀ zone item allShares t)
    (h : |secret zone item a| ≤ 2 ^ 50) :
    reconstructFloat allShares t a = .ok (double ((secret zone item a : ℤ) / 100)) := by
  obtain ⟨rest, hrest⟩ := hshares a
  unfold reconstructFloat
  rw [hrest, ok_bind]
  unfold reconstructSecretFloat
  rw [weightedSum_shareRow h rest]
  rfl

/-- A string comes back if it is short. -/
theorem exists_reconstruct_eq (hshares : SharesOf g g₀ zone item allShares t)
    (htext : secret zone item a = stringToInt text) :
    ∃ z, reconstruct allShares t a = .ok z ∧ (Short text → intToString z = text) := by
  by_cases hshort : Short text
  · refine ⟨stringToInt text, ?_, fun _ => intToString_of_short hshort.1 hshort.2⟩
    rw [← htext]
    exact reconstruct_eq hshares (htext ▸ abs_stringToInt_le hshort.1 hshort.2)
  -- a long string gives some number, of which nothing is said
  · obtain ⟨rest, hrest⟩ := hshares a
    obtain ⟨z, hz⟩ := exists_reconstructSecret_eq _ rest
    refine ⟨z, ?_, fun h => absurd h hshort⟩
    unfold reconstruct
    rw [hrest, ok_bind, hz]

theorem abs_stoi_getD_le (text : Text) : |(stoi text).getD 0| ≤ 2 ^ 50 := by
  unfold stoi
  cases parse text with
  | none => decide
  | some z =>
    show |(if -2 ^ 31 ≤ z ∧ z < 2 ^ 31 then some z else none).getD 0| ≤ 2 ^ 50
    split
    next h =>
      rw [Option.getD_some, abs_le]
      omega
    next => decide

/-- The secrets that are small in every row. -/
theorem abs_secret_le (h : IsRestorable zone row) (ha : a.kind ≠ .string) :
    |secret zone (lineItem row) a| ≤ 2 ^ 50 := by
  have hflag : ∀ {a : AttributeID}, a.kind = .flag → |charInt ((row a).headD '\x00')| ≤ 2 ^ 50 :=
    fun {a} ha => by
      have hform := h.isRow.wellFormed a
      rw [ha] at hform
      obtain ⟨c, hc, -, hlt⟩ := hform
      rw [hc]
      exact abs_charInt_le hlt
  -- numbers by their range, flags and dates by their form; decimals by assumption
  cases a with
  | ORDERKEY => exact abs_stoi_getD_le _
  | PARTKEY => exact abs_stoi_getD_le _
  | SUPPKEY => exact abs_stoi_getD_le _
  | LINENUMBER => exact abs_stoi_getD_le _
  | QUANTITY => exact abs_stoi_getD_le _
  | EXTENDEDPRICE => exact h.decimal _ rfl
  | DISCOUNT => exact h.decimal _ rfl
  | TAX => exact h.decimal _ rfl
  | RETURNFLAG => exact hflag rfl
  | LINESTATUS => exact hflag rfl
  | SHIPDATE => exact abs_dateToTimestamp_le (h.date _ rfl)
  | COMMITDATE => exact abs_dateToTimestamp_le (h.date _ rfl)
  | RECEIPTDATE => exact abs_dateToTimestamp_le (h.date _ rfl)
  | _ => exact absurd rfl ha

/-- A flag comes back. -/
theorem charOf_secret (h : IsRestorable zone row) (ha : a.kind = .flag) :
    [charOf (charInt ((row a).headD '\x00'))] = row a := by
  have hform := h.isRow.wellFormed a
  rw [ha] at hform
  obtain ⟨c, hc, -, hlt⟩ := hform
  rw [hc]
  exact congrArg (fun c => [c]) (charOf_charInt hlt)

/-- **An item comes back.** The secrets of all attributes but the strings are small, so that
nothing is rounded on the way; the strings are read whatever they are, and come back if they are
short. -/
theorem restoreItem_returns (h : IsRestorable zone row)
    (hshares : SharesOf g g₀ zone (lineItem row) allShares t) :
    Returns (restoreItem clock allShares t) (Restored (lineItem row)) := by
  have hint : ∀ a : AttributeID, a.kind ≠ .string →
      reconstruct allShares t a = .ok (secret zone (lineItem row) a) := fun a ha =>
    reconstruct_eq hshares (abs_secret_le h ha)
  have hfloat : ∀ a : AttributeID, a.kind ≠ .string → reconstructFloat allShares t a =
      .ok (double ((secret zone (lineItem row) a : ℤ) / 100)) := fun a ha =>
    reconstructFloat_eq hshares (abs_secret_le h ha)
  -- the strings need no bound to be read, only to come back
  obtain ⟨shipinstruct, hshipinstruct, hshort₁₃⟩ :=
    exists_reconstruct_eq (a := .SHIPINSTRUCT) hshares rfl
  obtain ⟨shipmode, hshipmode, hshort₁₄⟩ := exists_reconstruct_eq (a := .SHIPMODE) hshares rfl
  obtain ⟨comment, hcomment, hshort₁₅⟩ := exists_reconstruct_eq (a := .COMMENT) hshares rfl
  unfold restoreItem
  rw [hint .ORDERKEY nofun, hint .PARTKEY nofun, hint .SUPPKEY nofun, hint .LINENUMBER nofun,
    hint .QUANTITY nofun, hint .EXTENDEDPRICE nofun, hfloat .DISCOUNT nofun, hfloat .TAX nofun,
    hint .RETURNFLAG nofun, hint .LINESTATUS nofun, hint .SHIPDATE nofun, hint .COMMITDATE nofun,
    hint .RECEIPTDATE nofun, hshipinstruct, hshipmode, hcomment]
  refine ⟨_, rfl, intToString shipinstruct, intToString shipmode, intToString comment, hshort₁₃,
    hshort₁₄, hshort₁₅, ?_⟩
  -- the price is a small integer, so it is a double as it is
  have hprice : double (secret zone (lineItem row) .EXTENDEDPRICE : ℤ) =
      (secret zone (lineItem row) .EXTENDEDPRICE : ℤ) :=
    double_intCast ((abs_secret_le h (nofun : AttributeID.EXTENDEDPRICE.kind ≠ .string)).trans_lt
      (by decide))
  have hdate : ∀ a : AttributeID, a.kind = .date →
      timestampToDate clock (dateToTimestamp zone (row a)) = row a := fun a ha =>
    timestampToDate_dateToTimestamp clock (h.date a ha)
  rw [hprice, LineItem.mk.injEq]
  exact ⟨rfl, rfl, rfl, rfl, rfl, rfl, rfl, rfl, charOf_secret (a := .RETURNFLAG) h rfl,
    charOf_secret (a := .LINESTATUS) h rfl, hdate .SHIPDATE rfl, hdate .COMMITDATE rfl,
    hdate .RECEIPTDATE rfl, rfl, rfl, rfl⟩

variable (g g₀ clock) in
/-- **The items of some tables.** Where the first three servers have the tuples of the rows, the
items of the rows come back. -/
theorem restoreItems_returns {tuples : ℕ → List (List ℤ)} (hne : rows ≠ [])
    (hrows : ∀ row ∈ rows, IsRestorable zone row)
    (htuples : ∀ i < 3, tuples i = rows.map fun row => shareRow g g₀ zone (lineItem row) i) :
    Returns (do
      let allShares ← transformShares ((List.range 6).map tuples)
      (List.range (((List.range 6).map tuples).headD []).length).mapM (restoreItem clock allShares))
      (List.Forall₂ (fun row => Restored (lineItem row)) rows) := by
  have hlength : ∀ i < 3, (tuples i).length = rows.length := fun i hi => by
    rw [htuples i hi, List.length_map]
  have hwidth : ∀ i < 3, ∀ ys ∈ tuples i, ys.length = 16 := fun i hi ys hys => by
    rw [htuples i hi] at hys
    obtain ⟨row, -, rfl⟩ := List.mem_map.mp hys
    exact length_shareRow
  refine (transformShares_spec (List.length_pos_iff.mpr hne) hlength hwidth).bind
    fun allShares hshares => ?_
  -- as many items as the first server has tuples
  have hhead : (((List.range 6).map tuples).headD []).length = rows.length :=
    hlength 0 (by decide)
  rw [hhead]
  refine Returns.mapM_range fun t ht => ?_
  -- the shares of tuple `t` are those of row `t`
  have hshared : SharesOf g g₀ zone (lineItem rows[t]) allShares t := fun a => by
    obtain ⟨rest, hrest⟩ := hshares t ht a.index a.index_lt
    refine ⟨rest, ?_⟩
    rw [hrest]
    refine congrArg (fun l => Except.ok (l ++ rest)) (List.map_congr_left fun i hi => ?_)
    have htuple : (tuples i).getD t [] = shareRow g g₀ zone (lineItem rows[t]) i := by
      rw [htuples i (List.mem_range.mp hi), List.getD_eq_getElem _ _ (by rwa [List.length_map]),
        List.getElem_map]
    simp only [htuple]
  exact restoreItem_returns (hrows _ (List.getElem_mem ht)) hshared

end Items

/-! ### One row -/

theorem one_mem_range : (0 : ℤ) ≤ 1 ∧ (1 : ℤ) ≤ 100 := by decide

def constantOnes : Generator := fun _ _ => ⟨1, one_le_one_le_hundred⟩

def constantOnes₀ : ℕ → ℕ → CoefficientOrZero := fun _ _ => ⟨1, one_mem_range⟩

theorem utc_shows (s : ℤ) : s ≤ s - utc.offset s ∧ s - utc.offset s < s + 86400 := by
  have hoffset : utc.offset s = 0 := rfl
  omega

def utcClock : LocalTime utc := ⟨fun t => t, utc_shows⟩

theorem isRow_firstRow : IsRow firstRow :=
  ⟨wellFormed_firstRow, fun a => by cases a <;> decide⟩

theorem isRestorable_firstRow : IsRestorable utc firstRow := by
  refine ⟨isRow_firstRow, fun a ha => ?_, fun a ha => ?_⟩
  -- its three dates exist
  · cases a with
    | SHIPDATE => exact ⟨1996, 3, 13, by decide, ⟨by decide, by decide⟩, by decide⟩
    | COMMITDATE => exact ⟨1996, 2, 12, by decide, ⟨by decide, by decide⟩, by decide⟩
    | RECEIPTDATE => exact ⟨1996, 3, 22, by decide, ⟨by decide, by decide⟩, by decide⟩
    | _ => cases ha
  · cases a with
    | EXTENDEDPRICE => decide +kernel
    | DISCOUNT => decide +kernel
    | TAX => decide +kernel
    | _ => cases ha

/-- Discounts and taxes of less than 29 cents are the same after scaling. -/
example : ∀ n < 29, cents (double ((n : ℕ) / 100)) = double ((n : ℕ) / 100) := by decide +kernel

example : cents (double (29 / 100)) = double (28 / 100) := by decide +kernel

end ShamirParser
