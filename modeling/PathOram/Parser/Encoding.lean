import PathOram.Parser.Sharing
import PathOram.Lib.Calendar
import PathOram.Lib.Decimal
import PathOram.Lib.Fields

/-!
# The integers that are shared for a row

`parseLineItemFile` reads the rows of a table, and `shamirSecretSharingAllAttributes` shares an
integer for each attribute: the number itself, a decimal number with or without its cents, the
first character of a flag, the timestamp of a date, the characters of a string in base 256.

A query translates the text of its condition in one way only, as a string. `secret_eq_iff`:
the two agree on flags and strings, and on no number and no date.

A text is a list of bytes, written as characters.
-/

namespace ShamirParser

open Double Decimal Fields

abbrev Text : Type := List Char

/-- The attributes, in the order of the columns. -/
inductive AttributeID where
  | ORDERKEY
  | PARTKEY
  | SUPPKEY
  | LINENUMBER
  | QUANTITY
  | EXTENDEDPRICE
  | DISCOUNT
  | TAX
  | RETURNFLAG
  | LINESTATUS
  | SHIPDATE
  | COMMITDATE
  | RECEIPTDATE
  | SHIPINSTRUCT
  | SHIPMODE
  | COMMENT
  deriving DecidableEq, Repr

namespace AttributeID

def all : List AttributeID :=
  [ORDERKEY, PARTKEY, SUPPKEY, LINENUMBER, QUANTITY, EXTENDEDPRICE, DISCOUNT, TAX, RETURNFLAG,
    LINESTATUS, SHIPDATE, COMMITDATE, RECEIPTDATE, SHIPINSTRUCT, SHIPMODE, COMMENT]

/-- `attributeIndex`: the column of an attribute. -/
def index (a : AttributeID) : ℕ := all.idxOf a

end AttributeID

structure LineItem where
  L_ORDERKEY : ℤ
  L_PARTKEY : ℤ
  L_SUPPKEY : ℤ
  L_LINENUMBER : ℤ
  L_QUANTITY : ℤ
  L_EXTENDEDPRICE : ℚ
  L_DISCOUNT : ℚ
  L_TAX : ℚ
  L_RETURNFLAG : Text
  L_LINESTATUS : Text
  L_SHIPDATE : Text
  L_COMMITDATE : Text
  L_RECEIPTDATE : Text
  L_SHIPINSTRUCT : Text
  L_SHIPMODE : Text
  L_COMMENT : Text

/-! ### Reading a row -/

/-- `std::stoi`, without an exception. -/
def stoi (text : Text) : Option ℤ := do
  let z ← parse text
  if -2 ^ 31 ≤ z ∧ z < 2 ^ 31 then some z else none

/-- The number at the beginning of a text, without sign and exponent, as the tables have them. -/
def strtod (text : Text) : Option ℚ :=
  match digits text with
  | (none, _) => none
  | (some n, '.' :: rest) =>
    -- the digits behind the point count as a fraction with as many decimal places
    let fraction := rest.takeWhile Char.isDigit
    some (double (n + Nat.ofDigitChars 10 fraction 0 / 10 ^ fraction.length))
  -- a whole number; what follows it is not read
  | (some n, _) => some (double n)

/-- `std::stod`, without an exception: the number is in the range of a `double`. -/
def stod (text : Text) : Option ℚ := do
  let q ← strtod text
  if q < 2 ^ 1024 then some q else none

/-- The tokens of a line as the fields of an item. -/
def parseTokens (token : AttributeID → Text) : Option LineItem := do
  let L_ORDERKEY ← stoi (token .ORDERKEY)
  let L_PARTKEY ← stoi (token .PARTKEY)
  let L_SUPPKEY ← stoi (token .SUPPKEY)
  let L_LINENUMBER ← stoi (token .LINENUMBER)
  let L_QUANTITY ← stoi (token .QUANTITY)
  let L_EXTENDEDPRICE ← stod (token .EXTENDEDPRICE)
  let L_DISCOUNT ← stod (token .DISCOUNT)
  let L_TAX ← stod (token .TAX)
  some
    { L_ORDERKEY, L_PARTKEY, L_SUPPKEY, L_LINENUMBER, L_QUANTITY, L_EXTENDEDPRICE, L_DISCOUNT,
      L_TAX
      L_RETURNFLAG := token .RETURNFLAG
      L_LINESTATUS := token .LINESTATUS
      L_SHIPDATE := token .SHIPDATE
      L_COMMITDATE := token .COMMITDATE
      L_RECEIPTDATE := token .RECEIPTDATE
      L_SHIPINSTRUCT := token .SHIPINSTRUCT
      L_SHIPMODE := token .SHIPMODE
      L_COMMENT := token .COMMENT }

/-- The loop of `parseLineItemFile` for one line. -/
def parseLineItem (line : Text) : Option LineItem :=
  parseTokens fun a => (fields '|' line).getD a.index []

/-! ### The integers -/

/-- `static_cast<int>(c)`; a `char` has a sign. -/
def charInt (c : Char) : ℤ := if c.toNat < 128 then c.toNat else (c.toNat : ℤ) - 256

/-- The characters in base 256. The overflow of an `int64_t` is undefined; the compiled code
wraps around. -/
def stringToInt (str : Text) : ℤ :=
  str.foldl (fun result c => (result * 256 + charInt c).bmod (2 ^ 64)) 0

/-- `std::tm`. -/
structure Tm where
  tm_year : ℤ
  tm_mon : ℤ
  tm_mday : ℤ

/-- `ss >> std::get_time(&tm, "%Y-%m-%d")`. -/
def getTime (date : Text) : Tm :=
  match fields '-' date with
  | [year, month, day] =>
    ⟨(Nat.ofDigitChars 10 year 0 : ℤ) - 1900, (Nat.ofDigitChars 10 month 0 : ℤ) - 1,
      Nat.ofDigitChars 10 day 0⟩
  | _ => ⟨0, 0, 0⟩

/-- The time zone that the code runs in, as the offset at a local time. It is less than a day. -/
structure TimeZone where
  offset : ℤ → ℤ
  bound : ∀ t, |offset t| < 86400

/-- `std::mktime`. -/
def mktime (zone : TimeZone) (tm : Tm) : ℤ :=
  let seconds := 86400 * Calendar.days (tm.tm_year + 1900) (tm.tm_mon + 1) tm.tm_mday
  seconds - zone.offset seconds

def dateToTimestamp (zone : TimeZone) (date : Text) : ℤ := mktime zone (getTime date)

/-- The integers that `shamirSecretSharingAllAttributes` shares: the first coefficient for each
attribute. -/
def secret (zone : TimeZone) (item : LineItem) : AttributeID → ℤ
  | .ORDERKEY => item.L_ORDERKEY
  | .PARTKEY => item.L_PARTKEY
  | .SUPPKEY => item.L_SUPPKEY
  | .LINENUMBER => item.L_LINENUMBER
  | .QUANTITY => item.L_QUANTITY
  | .EXTENDEDPRICE => int64 item.L_EXTENDEDPRICE
  | .DISCOUNT => int64 (double (item.L_DISCOUNT * 100))
  | .TAX => int64 (double (item.L_TAX * 100))
  | .RETURNFLAG => charInt (item.L_RETURNFLAG.headD '\x00')
  | .LINESTATUS => charInt (item.L_LINESTATUS.headD '\x00')
  | .SHIPDATE => dateToTimestamp zone item.L_SHIPDATE
  | .COMMITDATE => dateToTimestamp zone item.L_COMMITDATE
  | .RECEIPTDATE => dateToTimestamp zone item.L_RECEIPTDATE
  | .SHIPINSTRUCT => stringToInt item.L_SHIPINSTRUCT
  | .SHIPMODE => stringToInt item.L_SHIPMODE
  | .COMMENT => stringToInt item.L_COMMENT

/-- A draw of `uniform_int_distribution(0, 100)`. -/
abbrev CoefficientOrZero : Type := { c : ℤ // 0 ≤ c ∧ c ≤ 100 }

/-- The sharing of a decimal number, scaled to an integer. -/
def shamirSecretSharingDouble (g : ℕ → ℕ → CoefficientOrZero) (secret : ℚ) (n k : ℕ) :
    List (ℤ × ℤ) :=
  sharesOf (int64 (double (secret * 100)) ::
    (List.range (k - 1)).map fun i => (g (seed (trunc secret) n k) i).val) n k

def shamirSecretSharingAllAttributes (g : Generator) (g₀ : ℕ → ℕ → CoefficientOrZero)
    (zone : TimeZone) (item : LineItem) (n k : ℕ) : AttributeID → List (ℤ × ℤ)
  | .DISCOUNT => shamirSecretSharingDouble g₀ item.L_DISCOUNT n k
  | .TAX => shamirSecretSharingDouble g₀ item.L_TAX n k
  | a => shamirSecretSharing g (secret zone item a) n k

/-- `secret` is the constant term of the polynomial of each attribute. -/
theorem shamirSecretSharingAllAttributes_eq (g : Generator) (g₀ : ℕ → ℕ → CoefficientOrZero)
    (zone : TimeZone) (item : LineItem) (n k : ℕ) (a : AttributeID) :
    ∃ rest, shamirSecretSharingAllAttributes g g₀ zone item n k a =
      sharesOf (secret zone item a :: rest) n k := by
  cases a <;> exact ⟨_, rfl⟩

end ShamirParser

namespace SQLHandler

/-- The copy in `sql_handler.cpp`. -/
def stringToInt : ShamirParser.Text → ℤ := ShamirParser.stringToInt

end SQLHandler

namespace ShamirParser

open Double Decimal Fields

/-! ### The form of a row -/

/-- What the values of an attribute are. -/
inductive Kind where
  | integer
  | decimal
  | flag
  | date
  | string
  deriving DecidableEq, Repr

def AttributeID.kind : AttributeID → Kind
  | .ORDERKEY | .PARTKEY | .SUPPKEY | .LINENUMBER | .QUANTITY => .integer
  | .EXTENDEDPRICE | .DISCOUNT | .TAX => .decimal
  | .RETURNFLAG | .LINESTATUS => .flag
  | .SHIPDATE | .COMMITDATE | .RECEIPTDATE => .date
  | .SHIPINSTRUCT | .SHIPMODE | .COMMENT => .string

def IsDigits (text : Text) : Prop := text ≠ [] ∧ ∀ c ∈ text, c.isDigit = true

/-- A number that fits into an `int`. -/
def IsInteger (text : Text) : Prop := IsDigits text ∧ Nat.ofDigitChars 10 text 0 < 2 ^ 31

/-- A number that is rounded to a finite `double`, also with a fraction. -/
def FitsDouble (n : ℕ) : Prop := n < 2 ^ 1024 - 2 ^ 970

instance (n : ℕ) : Decidable (FitsDouble n) := inferInstanceAs (Decidable (_ < _))

/-- A number with two digits behind the point that fits into a `double`. -/
def IsDecimal (text : Text) : Prop :=
  ∃ whole cents, IsDigits whole ∧ IsDigits cents ∧ cents.length = 2 ∧
    FitsDouble (Nat.ofDigitChars 10 whole 0) ∧ text = whole ++ '.' :: cents

/-- A day, with a year of four digits. -/
def IsDate (text : Text) : Prop :=
  ∃ year month day, (IsDigits year ∧ year.length = 4) ∧
    (IsDigits month ∧ month.length = 2 ∧ 1 ≤ Nat.ofDigitChars 10 month 0 ∧
      Nat.ofDigitChars 10 month 0 ≤ 12) ∧
    (IsDigits day ∧ day.length = 2 ∧ 1 ≤ Nat.ofDigitChars 10 day 0 ∧
      Nat.ofDigitChars 10 day 0 ≤ 31) ∧
    text = year ++ '-' :: (month ++ '-' :: day)

/-- The texts of each kind. None contains the delimiter. -/
def Kind.Form : Kind → Text → Prop
  | .integer, text => IsInteger text
  | .decimal, text => IsDecimal text
  | .flag, text => ∃ c, text = [c] ∧ c ≠ '|' ∧ c.toNat < 256
  | .date, text => IsDate text
  | .string, text => '|' ∉ text

/-- A row of a table. -/
def WellFormed (text : AttributeID → Text) : Prop := ∀ a : AttributeID, a.kind.Form (text a)

/-- The line of a row. -/
def tableLine (text : AttributeID → Text) : Text :=
  AttributeID.all.flatMap fun a => text a ++ ['|']

/-! ### Strings of digits in base 256 -/

section Base

variable {text : Text} {c : Char}

/-- Digits, the point and the hyphen are close to each other. -/
def Low (c : Char) : Prop := 45 ≤ c.toNat ∧ c.toNat ≤ 57

/-- The value in base 256. -/
def code (text : Text) : ℤ := text.foldl (fun (result : ℤ) c => result * 256 + c.toNat) 0

theorem low_of_isDigit (h : c.isDigit = true) : Low c := by
  unfold Char.isDigit at h
  rw [Bool.and_eq_true, decide_eq_true_iff, decide_eq_true_iff] at h
  have h₁ : 48 ≤ c.toNat := UInt32.le_iff_toNat_le.mp h.1
  have h₂ : c.toNat ≤ 57 := UInt32.le_iff_toNat_le.mp h.2
  exact ⟨by omega, h₂⟩

theorem foldl_code (text : Text) (z : ℤ) :
    text.foldl (fun (result : ℤ) c => result * 256 + c.toNat) z =
      z * 256 ^ text.length + code text := by
  induction text generalizing z with
  | nil => simp [code]
  | cons c text ih =>
    unfold code
    rw [List.foldl_cons, List.foldl_cons, ih, ih (0 * 256 + (c.toNat : ℤ)), List.length_cons,
      pow_succ]
    ring

theorem code_cons (c : Char) (text : Text) :
    code (c :: text) = c.toNat * 256 ^ text.length + code text := by
  unfold code
  rw [List.foldl_cons, foldl_code, zero_mul, zero_add]
  rfl

theorem code_append (text text' : Text) :
    code (text ++ text') = code text * 256 ^ text'.length + code text' := by
  unfold code
  rw [List.foldl_append, foldl_code]
  rfl

theorem code_bounds (h : ∀ c ∈ text, c.toNat < 256) :
    0 ≤ code text ∧ code text < 256 ^ text.length := by
  induction text with
  | nil => exact ⟨le_rfl, one_pos⟩
  -- one more digit in front, at most 255
  | cons c text ih =>
    obtain ⟨h₀, hlt⟩ := ih fun d hd => h d (List.mem_cons_of_mem c hd)
    have hc := h c List.mem_cons_self
    have hpos : (0 : ℤ) < 256 ^ text.length := by positivity
    rw [code_cons, List.length_cons, pow_succ]
    have hc' : (c.toNat : ℤ) ≤ 255 := by exact_mod_cast Nat.le_of_lt_succ hc
    constructor
    · positivity
    · nlinarith

theorem Low.lt_128 (h : Low c) : c.toNat < 128 := h.2.trans_lt (by decide)

/-- The first character gives the size. -/
theorem code_cons_bounds (h : ∀ d ∈ c :: text, Low d) :
    45 * 256 ^ text.length ≤ code (c :: text) ∧ code (c :: text) < 58 * 256 ^ text.length := by
  obtain ⟨h₀, hlt⟩ := code_bounds fun d hd =>
    (h d (List.mem_cons_of_mem c hd)).lt_128.trans (by decide)
  obtain ⟨hc₁, hc₂⟩ := h c List.mem_cons_self
  have hpos : (0 : ℤ) < 256 ^ text.length := by positivity
  have hc₁' : (45 : ℤ) ≤ c.toNat := by exact_mod_cast hc₁
  have hc₂' : (c.toNat : ℤ) ≤ 57 := by exact_mod_cast hc₂
  rw [code_cons]
  constructor <;> nlinarith

/-- The code wraps around at 64 bits. -/
theorem stringToInt_eq (h : ∀ c ∈ text, c.toNat < 128) :
    stringToInt text = (code text).bmod (2 ^ 64) := by
  -- the accumulator is generalised to any wrapped value
  suffices key : ∀ z : ℤ,
      text.foldl (fun result c => (result * 256 + charInt c).bmod (2 ^ 64)) (z.bmod (2 ^ 64)) =
        (text.foldl (fun (result : ℤ) c => result * 256 + c.toNat) z).bmod (2 ^ 64) from key 0
  induction text with
  | nil => exact fun z => rfl
  | cons c text ih =>
    intro z
    have hc : charInt c = c.toNat := if_pos (h c List.mem_cons_self)
    rw [List.foldl_cons, List.foldl_cons, hc, ← Int.bmod_add_bmod, Int.bmod_mul_bmod,
      Int.bmod_add_bmod]
    exact ih (fun d hd => h d (List.mem_cons_of_mem c hd)) _

/-- Only the last eight characters count. -/
theorem stringToInt_eq_code (h : ∀ c ∈ text, Low c) :
    stringToInt text = code (text.drop (text.length - 8)) := by
  set w := text.drop (text.length - 8) with hw
  have hlow : ∀ c ∈ w, Low c := fun c hc => h c (List.mem_of_mem_drop hc)
  -- the characters in front of the last eight count `256 ^ 8 = 2 ^ 64` times
  have hsplit : code text = code (text.take (text.length - 8)) * 256 ^ w.length + code w := by
    rw [← code_append, List.take_append_drop]
  have hmultiple : ∃ n, code (text.take (text.length - 8)) * 256 ^ w.length = 2 ^ 64 * n := by
    rcases le_or_gt text.length 8 with hle | hgt
    · rw [Nat.sub_eq_zero_of_le hle, List.take_zero]
      exact ⟨0, by rw [mul_zero]; exact zero_mul _⟩
    · have hlen : w.length = 8 := by
        rw [hw, List.length_drop]
        omega
      exact ⟨code (text.take (text.length - 8)), by rw [hlen]; ring⟩
  have hlen : w.length ≤ 8 := by
    rw [hw, List.length_drop]
    omega
  obtain ⟨n, hn⟩ := hmultiple
  rw [stringToInt_eq fun c hc => (h c hc).lt_128, hsplit, hn, add_comm]
  -- so they wrap away, and what is left is in the range of an `int64_t`
  refine (Int.add_mul_bmod_self_left _ (2 ^ 64) n).trans (Int.bmod_eq_of_le_mul_two ?_ ?_)
  · have := (code_bounds fun c hc => (hlow c hc).lt_128.trans (by decide)).1
    push_cast
    omega
  · -- The first of eight characters is below 128.
    rcases eq_or_ne w [] with hnil | hne
    · rw [hnil]
      decide
    · obtain ⟨c, cs, hcs⟩ := List.exists_cons_of_ne_nil hne
      have hlt := (code_cons_bounds fun d hd => hlow d (hcs ▸ hd)).2
      rw [hcs, List.length_cons] at hlen
      have hpow : (256 : ℤ) ^ cs.length ≤ 256 ^ 7 :=
        pow_le_pow_right₀ (by decide) (by omega)
      rw [hcs]
      push_cast
      omega

/-- **A string of digits is large**, and its last character shows. The first of the last eight
characters is at least 45, which bounds the code from below; the last one is no multiple of 256,
which a `double` beyond `2 ^ 61` always is. The two together separate the code of a condition from
every number and every timestamp. -/
theorem stringToInt_low (hne : text ≠ []) (h : ∀ c ∈ text, Low c) :
    45 * 256 ^ (min text.length 8 - 1) ≤ stringToInt text ∧ ¬ (256 : ℤ) ∣ stringToInt text := by
  have hlow : ∀ c ∈ text.drop (text.length - 8), Low c := fun c hc => h c (List.mem_of_mem_drop hc)
  have hlen : (text.drop (text.length - 8)).length = min text.length 8 := by
    rw [List.length_drop]
    omega
  have hpos : 0 < text.length := List.length_pos_iff.mpr hne
  have hdrop : text.drop (text.length - 8) ≠ [] := List.ne_nil_of_length_pos (by omega)
  rw [stringToInt_eq_code h]
  constructor
  -- the first of the characters that count
  · obtain ⟨c, cs, hcs⟩ := List.exists_cons_of_ne_nil hdrop
    rw [hcs, List.length_cons] at hlen
    rw [hcs, ← hlen, Nat.add_sub_cancel]
    exact (code_cons_bounds fun d hd => hlow d (hcs ▸ hd)).1
  -- the last character is between 45 and 57, so it is no multiple of 256
  · obtain hnil | ⟨init, last, hlast⟩ := (text.drop (text.length - 8)).eq_nil_or_concat'
    · exact absurd hnil hdrop
    · obtain ⟨h₁, h₂⟩ := hlow last (hlast ▸ List.mem_append_right _ List.mem_cons_self)
      rw [hlast, code_append]
      have hcode : code [last] = last.toNat := by
        rw [code_cons]
        simp [code]
      rw [hcode, List.length_singleton, pow_one]
      omega

end Base

/-! ### The two encodings of each kind -/

section Kinds

variable {text : Text} {q : ℚ}

theorem IsDigits.low (h : IsDigits text) : ∀ c ∈ text, Low c := fun c hc =>
  low_of_isDigit (h.2 c hc)

theorem IsDecimal.low (h : IsDecimal text) : ∀ c ∈ text, Low c := by
  obtain ⟨whole, cents, hwhole, hcents, -, -, rfl⟩ := h
  intro c hc
  rw [List.mem_append, List.mem_cons] at hc
  rcases hc with hc | rfl | hc
  · exact hwhole.low c hc
  · exact ⟨by decide, by decide⟩
  · exact hcents.low c hc

theorem IsDate.low (h : IsDate text) : ∀ c ∈ text, Low c := by
  obtain ⟨year, month, day, hyear, hmonth, hday, rfl⟩ := h
  intro c hc
  rw [List.mem_append, List.mem_cons, List.mem_append, List.mem_cons] at hc
  rcases hc with hc | rfl | hc | rfl | hc
  · exact hyear.1.low c hc
  · exact ⟨by decide, by decide⟩
  · exact hmonth.1.low c hc
  · exact ⟨by decide, by decide⟩
  · exact hday.1.low c hc

theorem stoi_of_parse {z : ℤ} (h : parse text = some z) (h₁ : -2 ^ 31 ≤ z) (h₂ : z < 2 ^ 31) :
    stoi text = some z := by
  unfold stoi
  rw [h]
  exact if_pos ⟨h₁, h₂⟩

/-- **Integers.** The number is smaller than the characters: a digit is worth ten at most in the
one encoding and 256 in the other, and what an `int` holds is below the code of five digits. -/
theorem IsInteger.stoi_eq (h : IsInteger text) :
    ∃ n : ℤ, stoi text = some n ∧ n ≠ stringToInt text := by
  obtain ⟨⟨hne, hdigits⟩, hlt⟩ := h
  refine ⟨(Nat.ofDigitChars 10 text 0 : ℤ), ?_, fun heq => ?_⟩
  · exact stoi_of_parse (parse_of_isDigit hne hdigits) (by omega) (by exact_mod_cast hlt)
  · have hpos : 0 < text.length := List.length_pos_iff.mpr hne
    have hlow := (stringToInt_low hne fun c hc => low_of_isDigit (hdigits c hc)).1
    rw [← heq] at hlow
    have hbound : (45 * 256 ^ (min text.length 8 - 1) : ℕ) ≤ Nat.ofDigitChars 10 text 0 := by
      exact_mod_cast hlow
    -- up to four digits the base decides; from five on the code is beyond an `int`
    rcases Nat.lt_or_ge text.length 5 with hshort | hlong
    · have hlt' := ofDigitChars_lt hdigits
      have hpow : 10 ^ text.length ≤ 45 * 256 ^ (min text.length 8 - 1) := by
        generalize text.length = l at hpos hshort
        interval_cases l <;> decide
      omega
    · have hpow : 256 ^ 4 ≤ 256 ^ (min text.length 8 - 1) :=
        Nat.pow_le_pow_right (by decide) (by omega)
      omega

/-- The conversion of a double that is not large, or whose last bits are zero. -/
theorem int64_double (h₀ : 0 ≤ q) : int64 (double q) < 2 ^ 61 ∨ (256 : ℤ) ∣ int64 (double q) := by
  have hnonneg := double_nonneg h₀
  have htrunc : trunc (double q) = ⌊double q⌋ := if_pos hnonneg
  have hfloor : 0 ≤ ⌊double q⌋ := Int.floor_nonneg.mpr hnonneg
  unfold int64
  rw [htrunc]
  rcases lt_or_ge (double q) (2 ^ (61 : ℤ)) with hlt | hge
  -- below `2 ^ 61` the conversion is exact
  · left
    have hlt' : ⌊double q⌋ < 2 ^ 61 := by
      rw [Int.floor_lt]
      exact_mod_cast hlt
    split <;> omega
  -- from `2 ^ 61` on a double has no bit below `2 ^ 9`, and the conversion of one that is too
  -- large gives `-2 ^ 63`
  · right
    obtain ⟨n, hn⟩ := exists_eq_mul_of_le h₀ hge
    have hfloor' : ⌊double q⌋ = n * 512 := by
      rw [hn]
      norm_num
      exact_mod_cast Int.floor_intCast (n * 512)
    rw [hfloor']
    split
    · exact ⟨n * 2, by ring⟩
    · decide

/-- The conversion of a small double. -/
theorem int64_double_le {m : ℕ} (h₀ : 0 ≤ q) (h : q ≤ 2 ^ m) :
    int64 (double q) ≤ 2 ^ m := by
  have hle : double q ≤ 2 ^ m := by
    have := double_le_zpow (m := m) h₀ (by rwa [zpow_natCast])
    rwa [zpow_natCast] at this
  have htrunc : trunc (double q) = ⌊double q⌋ := if_pos (double_nonneg h₀)
  have hfloor : ⌊double q⌋ ≤ 2 ^ m := by
    have := Int.floor_le (double q)
    exact_mod_cast this.trans hle
  have hpos : (0 : ℤ) < 2 ^ m := by positivity
  unfold int64
  rw [htrunc]
  split <;> omega

/-- Neither is the code of a long text of digits. -/
theorem int64_double_ne (h₀ : 0 ≤ q) (hne : text ≠ []) (hlow : ∀ c ∈ text, Low c)
    (hlong : 8 ≤ text.length) : int64 (double q) ≠ stringToInt text := by
  obtain ⟨hle, hdvd⟩ := stringToInt_low hne hlow
  rw [Nat.min_eq_right hlong] at hle
  rintro heq
  rcases int64_double h₀ with hlt | hdvd'
  · omega
  · exact hdvd (heq ▸ hdvd')

/-- **Decimal numbers**, with or without the cents. Short ones are too small for the code of their
characters, and long ones either are too small as well or have lost the bits in which the last
character shows. -/
theorem IsDecimal.stod_eq (h : IsDecimal text) :
    ∃ q, stod text = some q ∧ int64 q ≠ stringToInt text ∧
      int64 (double (q * 100)) ≠ stringToInt text := by
  have hlow := h.low
  obtain ⟨whole, cents, hwhole, hcents, hlen, hfits, rfl⟩ := h
  set v : ℚ := Nat.ofDigitChars 10 whole 0 + Nat.ofDigitChars 10 cents 0 / 10 ^ 2 with hv
  have hcents_lt : (Nat.ofDigitChars 10 cents 0 : ℚ) < 10 ^ 2 := by
    have hlt := ofDigitChars_lt hcents.2
    rw [hlen] at hlt
    exact_mod_cast hlt
  have hv₀ : 0 ≤ v := by positivity
  -- the cents cannot round a number that fits up to `2 ^ 1024`
  have hrange : double v < 2 ^ 1024 :=
    double_add_lt_pow (m := 1024) (j := 970) rfl hfits (by positivity) (by linarith)
  -- the point ends the digits of the whole number, the end of the text those of the cents
  have hstrtod : strtod (whole ++ '.' :: cents) = some (double v) := by
    have hended : Ended ('.' :: cents) := fun c hc => by
      cases hc
      decide
    have htake : cents.takeWhile Char.isDigit = cents := by
      rw [← List.append_nil cents, List.takeWhile_append_of_pos hcents.2]
      rfl
    unfold strtod
    rw [digits_append hwhole.1 hwhole.2 hended]
    simp only [htake, hlen]
    rfl
  have hstod : stod (whole ++ '.' :: cents) = some (double v) := by
    unfold stod
    rw [hstrtod]
    exact if_pos hrange
  have hne : whole ++ '.' :: cents ≠ [] := List.append_ne_nil_of_left_ne_nil hwhole.1 _
  have hq₀ := double_nonneg hv₀
  refine ⟨double v, hstod, ?_⟩
  have hlength : (whole ++ '.' :: cents).length = whole.length + 3 := by
    rw [List.length_append, List.length_cons, hlen]
  rcases Nat.lt_or_ge (whole ++ '.' :: cents).length 8 with hshort | hlong
  · -- The number is below `2 ^ 17`, the code of four characters is not.
    have hle : (45 * 256 ^ 3 : ℤ) ≤ stringToInt (whole ++ '.' :: cents) := by
      refine le_trans ?_ (stringToInt_low hne hlow).1
      have hpos : 0 < whole.length := List.length_pos_iff.mpr hwhole.1
      exact Int.mul_le_mul_of_nonneg_left
        (pow_le_pow_right₀ (by decide) (by rw [hlength]; omega)) (by decide)
    have hsmall : v ≤ 2 ^ 17 := by
      have hpow : 10 ^ whole.length ≤ 10 ^ 4 := Nat.pow_le_pow_right (by decide) (by omega)
      have h₁ : (Nat.ofDigitChars 10 whole 0 : ℚ) ≤ 10 ^ 4 := by
        exact_mod_cast (ofDigitChars_lt hwhole.2).le.trans hpow
      rw [hv]
      linarith
    have hq : double v ≤ 2 ^ 17 := by
      have := double_le_zpow (m := 17) hv₀ (by exact_mod_cast hsmall)
      exact_mod_cast this
    have h₁ := int64_double_le hv₀ hsmall
    have h₂ := int64_double_le (q := double v * 100) (m := 24) (by positivity) (by linarith)
    constructor <;> omega
  -- from eight characters on the last one shows
  · exact ⟨int64_double_ne hv₀ hne hlow hlong, int64_double_ne (by positivity) hne hlow hlong⟩

theorem IsDigits.hyphen_notMem (h : IsDigits text) : '-' ∉ text := fun hmem =>
  absurd (h.2 _ hmem) (by decide)

/-- **Dates.** The timestamp is smaller than the characters, in any time zone: the code of ten
characters is beyond `45 * 256 ^ 7` seconds. -/
theorem IsDate.timestamp_ne (h : IsDate text) (zone : TimeZone) :
    dateToTimestamp zone text ≠ stringToInt text := by
  have hlow := h.low
  obtain ⟨year, month, day, ⟨hyear, hylen⟩, ⟨hmonth, hmlen, hm₁, hm₁₂⟩, ⟨hday, hdlen, hd₁, hd₃₁⟩,
    rfl⟩ := h
  have hfields : fields '-' (year ++ '-' :: (month ++ '-' :: day)) = [year, month, day] := by
    rw [fields_append hyear.hyphen_notMem, fields_append hmonth.hyphen_notMem,
      fields_of_notMem hday.hyphen_notMem hday.1]
  have hlength : (year ++ '-' :: (month ++ '-' :: day)).length = 10 := by
    simp only [List.length_append, List.length_cons, hylen, hmlen, hdlen]
  -- ten characters: the code is at least `45 * 256 ^ 7`
  have hle := (stringToInt_low (List.append_ne_nil_of_left_ne_nil hyear.1 _) hlow).1
  rw [hlength, show min 10 8 - 1 = 7 from rfl] at hle
  have hy := ofDigitChars_lt hyear.2
  rw [hylen] at hy
  -- a year below 10000 keeps the number of days below three million
  have hdays : Calendar.days (Nat.ofDigitChars 10 year 0) (Nat.ofDigitChars 10 month 0)
      (Nat.ofDigitChars 10 day 0) ≤ 3000000 :=
    (Calendar.days_mem (by omega) (by omega) (by omega)).2
  intro heq
  rw [← heq] at hle
  unfold dateToTimestamp getTime mktime at hle
  rw [hfields] at hle
  dsimp only at hle
  rw [sub_add_cancel, sub_add_cancel] at hle
  generalize Calendar.days _ _ _ = days at hdays hle
  have hzone := abs_lt.mp (zone.bound (86400 * days))
  omega

/-- **Flags.** One character is its own code. -/
theorem charInt_eq (c : Char) (h : c.toNat < 256) : charInt c = stringToInt [c] := by
  show charInt c = (0 * 256 + charInt c).bmod (2 ^ 64)
  -- a `char` is far inside the range, so nothing wraps
  have hbounds : -128 ≤ charInt c ∧ charInt c < 128 := by
    unfold charInt
    split <;> omega
  rw [zero_mul, zero_add, Int.bmod_eq_of_le_mul_two]
  · push_cast
    omega
  · push_cast
    omega

end Kinds

/-! ### Rows -/

section Rows

variable {text : AttributeID → Text}

/-- The attributes whose conditions are encoded the way the data is. -/
def Kind.Matches (kind : Kind) : Prop := kind = .flag ∨ kind = .string

/-- The tokens of a row are its texts. -/
theorem fields_tableLine (h : ∀ a, '|' ∉ text a) (a : AttributeID) :
    (fields '|' (tableLine text)).getD a.index [] = text a := by
  unfold tableLine
  rw [fields_flatMap_append fun a _ => h a]
  cases a <;> rfl

theorem Kind.Form.delimiter_notMem {kind : Kind} {t : Text} (h : kind.Form t) : '|' ∉ t := by
  -- the delimiter is 124, and the characters of numbers and dates end at 57
  have hlow : ∀ {t : Text}, (∀ c ∈ t, Low c) → '|' ∉ t := fun hlow hmem =>
    absurd (hlow _ hmem).2 (by decide)
  cases kind with
  | integer => exact hlow h.1.low
  | decimal => exact hlow (IsDecimal.low h)
  | flag =>
    obtain ⟨c, rfl, hc, -⟩ := h
    exact fun hmem => hc (List.mem_singleton.mp hmem).symm
  | date => exact hlow (IsDate.low h)
  | string => exact h

/-- The tokens that are read are the texts of the row. -/
theorem parseLineItem_tableLine (h : WellFormed text) :
    parseLineItem (tableLine text) = parseTokens text :=
  congrArg parseTokens (funext fun a => fields_tableLine (fun a => (h a).delimiter_notMem) a)

theorem matches_flag {kind : Kind} {c : Char} (hkind : kind = .flag) (hc : c.toNat < 256) :
    charInt c = SQLHandler.stringToInt [c] ↔ kind.Matches :=
  iff_of_true (charInt_eq c hc) (Or.inl hkind)

/-- **Conditions and data agree on flags and strings only**, in every row, every time zone and for
every attribute: the data is encoded by the type of its column, a condition always as the
characters of its text. -/
theorem secret_eq_iff (zone : TimeZone) (h : WellFormed text) :
    ∃ item, parseLineItem (tableLine text) = some item ∧
      ∀ a : AttributeID,
        secret zone item a = SQLHandler.stringToInt (text a) ↔ a.kind.Matches := by
  obtain ⟨n₀, h₀, hne₀⟩ := IsInteger.stoi_eq (h .ORDERKEY)
  obtain ⟨n₁, h₁, hne₁⟩ := IsInteger.stoi_eq (h .PARTKEY)
  obtain ⟨n₂, h₂, hne₂⟩ := IsInteger.stoi_eq (h .SUPPKEY)
  obtain ⟨n₃, h₃, hne₃⟩ := IsInteger.stoi_eq (h .LINENUMBER)
  obtain ⟨n₄, h₄, hne₄⟩ := IsInteger.stoi_eq (h .QUANTITY)
  obtain ⟨q₅, h₅, hne₅, -⟩ := IsDecimal.stod_eq (h .EXTENDEDPRICE)
  obtain ⟨q₆, h₆, -, hne₆⟩ := IsDecimal.stod_eq (h .DISCOUNT)
  obtain ⟨q₇, h₇, -, hne₇⟩ := IsDecimal.stod_eq (h .TAX)
  obtain ⟨c₈, h₈, -, hc₈⟩ := h .RETURNFLAG
  obtain ⟨c₉, h₉, -, hc₉⟩ := h .LINESTATUS
  rw [parseLineItem_tableLine h]
  unfold parseTokens
  rw [h₀, h₁, h₂, h₃, h₄, h₅, h₆, h₇, h₈, h₉]
  have hno : ∀ {p : Prop} {kind : Kind}, ¬ p → kind ≠ .flag → kind ≠ .string →
      (p ↔ kind.Matches) := fun hp hflag hstring =>
    iff_of_false hp fun hmatch => hmatch.elim hflag hstring
  refine ⟨_, rfl, fun a => ?_⟩
  cases a with
  | ORDERKEY => exact hno hne₀ nofun nofun
  | PARTKEY => exact hno hne₁ nofun nofun
  | SUPPKEY => exact hno hne₂ nofun nofun
  | LINENUMBER => exact hno hne₃ nofun nofun
  | QUANTITY => exact hno hne₄ nofun nofun
  | EXTENDEDPRICE => exact hno hne₅ nofun nofun
  | DISCOUNT => exact hno hne₆ nofun nofun
  | TAX => exact hno hne₇ nofun nofun
  | RETURNFLAG =>
    rw [h₈]
    exact matches_flag rfl hc₈
  | LINESTATUS =>
    rw [h₉]
    exact matches_flag rfl hc₉
  | SHIPDATE => exact hno (IsDate.timestamp_ne (h .SHIPDATE) zone) nofun nofun
  | COMMITDATE => exact hno (IsDate.timestamp_ne (h .COMMITDATE) zone) nofun nofun
  | RECEIPTDATE => exact hno (IsDate.timestamp_ne (h .RECEIPTDATE) zone) nofun nofun
  | SHIPINSTRUCT => exact iff_of_true rfl (Or.inr rfl)
  | SHIPMODE => exact iff_of_true rfl (Or.inr rfl)
  | COMMENT => exact iff_of_true rfl (Or.inr rfl)

/-- The first row of `lineitem_small.tbl`. -/
def firstRow : AttributeID → Text
  | .ORDERKEY => "1".toList
  | .PARTKEY => "1".toList
  | .SUPPKEY => "1".toList
  | .LINENUMBER => "1".toList
  | .QUANTITY => "17".toList
  | .EXTENDEDPRICE => "15317.00".toList
  | .DISCOUNT => "0.04".toList
  | .TAX => "0.02".toList
  | .RETURNFLAG => "N".toList
  | .LINESTATUS => "O".toList
  | .SHIPDATE => "1996-03-13".toList
  | .COMMITDATE => "1996-02-12".toList
  | .RECEIPTDATE => "1996-03-22".toList
  | .SHIPINSTRUCT => "DELIVER IN PERSON".toList
  | .SHIPMODE => "TRUCK".toList
  | .COMMENT => "egular courts above the".toList

theorem wellFormed_firstRow : WellFormed firstRow := by
  have hdigits : ∀ t : Text, (t.isEmpty = false ∧ t.all Char.isDigit = true) → IsDigits t :=
    fun t h => ⟨List.isEmpty_eq_false_iff.mp h.1, List.all_eq_true.mp h.2⟩
  intro a
  cases a with
  | ORDERKEY => exact ⟨hdigits _ (by decide), by decide⟩
  | PARTKEY => exact ⟨hdigits _ (by decide), by decide⟩
  | SUPPKEY => exact ⟨hdigits _ (by decide), by decide⟩
  | LINENUMBER => exact ⟨hdigits _ (by decide), by decide⟩
  | QUANTITY => exact ⟨hdigits _ (by decide), by decide⟩
  | EXTENDEDPRICE =>
    exact ⟨"15317".toList, "00".toList, hdigits _ (by decide), hdigits _ (by decide), rfl,
      by decide +kernel, rfl⟩
  | DISCOUNT =>
    exact ⟨"0".toList, "04".toList, hdigits _ (by decide), hdigits _ (by decide), rfl,
      by decide +kernel, rfl⟩
  | TAX =>
    exact ⟨"0".toList, "02".toList, hdigits _ (by decide), hdigits _ (by decide), rfl,
      by decide +kernel, rfl⟩
  | RETURNFLAG => exact ⟨'N', rfl, by decide, by decide⟩
  | LINESTATUS => exact ⟨'O', rfl, by decide, by decide⟩
  | SHIPDATE =>
    exact ⟨"1996".toList, "03".toList, "13".toList, ⟨hdigits _ (by decide), rfl⟩,
      ⟨hdigits _ (by decide), rfl, by decide, by decide⟩,
      ⟨hdigits _ (by decide), rfl, by decide, by decide⟩, rfl⟩
  | COMMITDATE =>
    exact ⟨"1996".toList, "02".toList, "12".toList, ⟨hdigits _ (by decide), rfl⟩,
      ⟨hdigits _ (by decide), rfl, by decide, by decide⟩,
      ⟨hdigits _ (by decide), rfl, by decide, by decide⟩, rfl⟩
  | RECEIPTDATE =>
    exact ⟨"1996".toList, "03".toList, "22".toList, ⟨hdigits _ (by decide), rfl⟩,
      ⟨hdigits _ (by decide), rfl, by decide, by decide⟩,
      ⟨hdigits _ (by decide), rfl, by decide, by decide⟩, rfl⟩
  | SHIPINSTRUCT => show '|' ∉ "DELIVER IN PERSON".toList; decide
  | SHIPMODE => show '|' ∉ "TRUCK".toList; decide
  | COMMENT => show '|' ∉ "egular courts above the".toList; decide

theorem abs_zero_lt_day : |(0 : ℤ)| < 86400 := by decide

def utc : TimeZone := ⟨fun _ => 0, fun _ => abs_zero_lt_day⟩

theorem secret_eq_iff_firstRow :
    ∃ item, parseLineItem (tableLine firstRow) = some item ∧
      ∀ a : AttributeID,
        secret utc item a = SQLHandler.stringToInt (firstRow a) ↔ a.kind.Matches :=
  secret_eq_iff utc wellFormed_firstRow

/-- The quantity 17 is shared as `17`, the condition `"17"` as `12599`. -/
theorem not_encoded_alike :
    ¬ ∀ (zone : TimeZone) (text : AttributeID → Text), WellFormed text →
      ∃ item, parseLineItem (tableLine text) = some item ∧
        ∀ a : AttributeID, secret zone item a = SQLHandler.stringToInt (text a) := by
  intro hall
  obtain ⟨item, hitem, hsecret⟩ := hall utc firstRow wellFormed_firstRow
  have hdata : (parseLineItem (tableLine firstRow)).map LineItem.L_QUANTITY = some 17 := by
    rw [parseLineItem_tableLine wellFormed_firstRow]
    decide +kernel
  have hcondition : SQLHandler.stringToInt (firstRow .QUANTITY) = 12599 := by decide
  have hquantity : item.L_QUANTITY = 12599 := (hsecret .QUANTITY).trans hcondition
  rw [hitem, Option.map_some, hquantity] at hdata
  exact absurd (Option.some.inj hdata) (by decide)

end Rows

end ShamirParser
