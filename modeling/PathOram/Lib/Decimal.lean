import Mathlib.Data.Int.Notation
import Mathlib.Data.List.TakeWhile
import Mathlib.Tactic.Common
import Mathlib.Tactic.Linarith

/-!
# Decimal numbers in a text stream

What a formatted output stream writes for an integer, and how a formatted input stream
reads one.

* `print z` — the decimal digits, after a minus sign if `z` is negative.
* `lines zs` — a file with one number a line.
* `parse text` — the number at the beginning of a text, or none.
* `IStream.extract` — skip white space, take an optional sign and the digits. A stream
  that is at its end, or that failed before, leaves the variable as it is; without a
  digit it becomes `0`, and outside `lo..hi` the nearest bound. In all these cases the
  stream has failed.

`parse_print` is the round trip for a text, `extract_print` for a number in a stream that a
newline follows; `extract_blank` says what a stream that has been read to its end does.
-/

namespace Decimal

/-- The text of an integer. -/
def print (z : ℤ) : List Char :=
  if z < 0 then '-' :: Nat.toDigits 10 z.natAbs else Nat.toDigits 10 z.natAbs

/-- White space, as the C locale has it. -/
def isSpace (c : Char) : Bool := c.toNat = 32 || 9 ≤ c.toNat && c.toNat ≤ 13

/-- A text stream: what is left to be read, and whether an extraction has failed. -/
structure IStream where
  rest : List Char
  failed : Bool

/-- The digits at the beginning of a text as a number, and what follows them. -/
def digits (text : List Char) : Option ℕ × List Char :=
  let ds := text.takeWhile Char.isDigit
  (if ds.isEmpty then none else some (Nat.ofDigitChars 10 ds 0),
    text.dropWhile Char.isDigit)

/-- The number at the beginning of a text, with its sign. -/
def number : List Char → Option ℤ × List Char
  | '-' :: text => ((digits text).1.map fun n : ℕ => -(n : ℤ), (digits text).2)
  | '+' :: text => ((digits text).1.map fun n : ℕ => (n : ℤ), (digits text).2)
  | text => ((digits text).1.map fun n : ℕ => (n : ℤ), (digits text).2)

/-- `in >> val` for an integer variable with the range `lo..hi`. -/
def IStream.extract (lo hi : ℤ) (s : IStream) (val : ℤ) : ℤ × IStream :=
  if s.failed then (val, s)
  else
    match s.rest.dropWhile isSpace with
    -- nothing but white space: the variable is not assigned
    | [] => (val, ⟨[], true⟩)
    | text =>
      match number text with
      | (none, rest) => (0, ⟨rest, true⟩)
      | (some z, rest) =>
        -- out of range: the nearest bound, and the stream fails
        if z < lo then (lo, ⟨rest, true⟩)
        else if hi < z then (hi, ⟨rest, true⟩)
        else (z, ⟨rest, false⟩)

/-- The number at the beginning of a text, behind white space, as `stoll` reads it. -/
def parse (text : List Char) : Option ℤ := (number (text.dropWhile isSpace)).1

/-- A file of numbers, one a line. -/
def lines (zs : List ℤ) : List Char := zs.flatMap fun z => print z ++ ['\n']

/-! ### Printed numbers are read back -/

section RoundTrip

variable {lo hi z val : ℤ} {rest : List Char}

/-- A text that does not begin with a digit. -/
def Ended (rest : List Char) : Prop := ∀ c ∈ rest.head?, c.isDigit = false

theorem ended_nil : Ended [] := fun c hc => by cases hc

theorem ended_newline (rest : List Char) : Ended ('\n' :: rest) := fun c hc => by
  cases hc
  decide

theorem takeWhile_of_ended (h : Ended rest) : rest.takeWhile Char.isDigit = [] := by
  cases rest with
  | nil => rfl
  | cons c rest =>
    have hc := h c rfl
    exact List.takeWhile_cons_of_neg (by rw [hc]; decide)

theorem dropWhile_of_ended (h : Ended rest) : rest.dropWhile Char.isDigit = rest := by
  cases rest with
  | nil => rfl
  | cons c rest =>
    have hc := h c rfl
    exact List.dropWhile_cons_of_neg (by rw [hc]; decide)

/-- Digits are read up to where the rest begins. -/
theorem digits_append {text : List Char} (hne : text ≠ [])
    (htext : ∀ c ∈ text, c.isDigit = true) (h : Ended rest) :
    digits (text ++ rest) = (some (Nat.ofDigitChars 10 text 0), rest) := by
  have htake : (text ++ rest).takeWhile Char.isDigit = text := by
    rw [List.takeWhile_append_of_pos htext, takeWhile_of_ended h, List.append_nil]
  have hdrop : (text ++ rest).dropWhile Char.isDigit = rest := by
    rw [List.dropWhile_append_of_pos htext, dropWhile_of_ended h]
  have hempty : ¬ text.isEmpty = true := by
    rw [List.isEmpty_iff]
    exact hne
  unfold digits
  simp only [htake, hdrop, if_neg hempty]

/-- A number has fewer values than digits allow. -/
theorem ofDigitChars_lt {text : List Char} (htext : ∀ c ∈ text, c.isDigit = true) :
    Nat.ofDigitChars 10 text 0 < 10 ^ text.length := by
  induction text with
  | nil => rw [Nat.ofDigitChars_nil, List.length_nil, pow_zero]; exact Nat.one_pos
  | cons c text ih =>
    have ih := ih fun d hd => htext d (List.mem_cons_of_mem c hd)
    have hc := htext c List.mem_cons_self
    unfold Char.isDigit at hc
    rw [Bool.and_eq_true, decide_eq_true_iff, decide_eq_true_iff] at hc
    -- a digit is worth at most nine
    have hle : c.toNat - '0'.toNat ≤ 9 := by
      have : c.toNat ≤ 57 := UInt32.le_iff_toNat_le.mp hc.2
      have : '0'.toNat = 48 := rfl
      omega
    rw [Nat.ofDigitChars_cons, Nat.ofDigitChars_eq_ofDigitChars_zero, List.length_cons, pow_succ]
    nlinarith [Nat.mul_le_mul_left (10 ^ text.length) hle]

theorem digits_toDigits (n : ℕ) (h : Ended rest) :
    digits (Nat.toDigits 10 n ++ rest) = (some n, rest) := by
  rw [digits_append Nat.toDigits_ne_nil
    (fun c hc => Nat.isDigit_of_mem_toDigits (by decide) (by decide) hc) h,
    Nat.ofDigitChars_ten_toDigits]

/-- A digit is neither of the two signs. -/
theorem number_of_isDigit {c : Char} {cs : List Char} (hc : c.isDigit = true) :
    number (c :: cs) = ((digits (c :: cs)).1.map fun n : ℕ => (n : ℤ), (digits (c :: cs)).2) := by
  -- the third case of `number`, once the two signs are excluded
  rw [number]
  · rintro text heq
    cases heq
    exact absurd hc (by decide)
  · rintro text heq
    cases heq
    exact absurd hc (by decide)

/-- The digits of a number begin with a digit. -/
theorem exists_toDigits_eq_cons (n : ℕ) :
    ∃ c cs, Nat.toDigits 10 n = c :: cs ∧ c.isDigit = true := by
  cases h : Nat.toDigits 10 n with
  | nil => exact absurd h Nat.toDigits_ne_nil
  | cons c cs =>
    have hmem : c ∈ Nat.toDigits 10 n := by
      rw [h]
      exact List.mem_cons_self
    exact ⟨c, cs, rfl, Nat.isDigit_of_mem_toDigits (by decide) (by decide) hmem⟩

theorem number_print (z : ℤ) (h : Ended rest) : number (print z ++ rest) = (some z, rest) := by
  unfold print
  split
  -- behind a minus sign come the digits of the absolute value
  next hneg =>
    have hz : -(z.natAbs : ℤ) = z := by omega
    rw [List.cons_append, number, digits_toDigits _ h]
    exact congrArg (fun z => (some z, rest)) hz
  -- without a sign the first character is a digit
  next hpos =>
    obtain ⟨c, cs, hcs, hc⟩ := exists_toDigits_eq_cons z.natAbs
    have hread := digits_toDigits z.natAbs h
    have hz : (z.natAbs : ℤ) = z := by omega
    rw [hcs, List.cons_append] at hread ⊢
    rw [number_of_isDigit hc, hread]
    exact congrArg (fun z => (some z, rest)) hz

theorem isSpace_of_isDigit {c : Char} (h : c.isDigit = true) : isSpace c = false := by
  have hge : 48 ≤ c.toNat := by
    unfold Char.isDigit at h
    rw [Bool.and_eq_true, decide_eq_true_iff] at h
    exact UInt32.le_iff_toNat_le.mp h.1
  unfold isSpace
  rw [decide_eq_false (by omega), decide_eq_false (by omega : ¬ c.toNat ≤ 13),
    Bool.and_false, Bool.or_false]

/-- A printed number does not begin with white space. -/
theorem exists_print_eq_cons (z : ℤ) :
    ∃ c cs, print z = c :: cs ∧ isSpace c = false := by
  unfold print
  split
  · exact ⟨'-', _, rfl, by decide⟩
  · obtain ⟨c, cs, hcs, hc⟩ := exists_toDigits_eq_cons z.natAbs
    exact ⟨c, cs, hcs, isSpace_of_isDigit hc⟩

theorem print_ne_nil (z : ℤ) : print z ≠ [] := by
  obtain ⟨c, cs, hcs, -⟩ := exists_print_eq_cons z
  rw [hcs]
  exact List.cons_ne_nil c cs

theorem parse_print (z : ℤ) : parse (print z) = some z := by
  obtain ⟨c, cs, hcs, hc⟩ := exists_print_eq_cons z
  have hread := number_print z ended_nil
  unfold parse
  rw [List.append_nil] at hread
  rw [hcs] at hread ⊢
  rw [List.dropWhile_cons_of_neg (by rw [hc]; decide), hread]

theorem parse_of_isDigit {text : List Char} (hne : text ≠ [])
    (htext : ∀ c ∈ text, c.isDigit = true) :
    parse text = some (Nat.ofDigitChars 10 text 0 : ℤ) := by
  have hread := digits_append hne htext ended_nil
  rw [List.append_nil] at hread
  obtain ⟨c, cs, rfl⟩ := List.exists_cons_of_ne_nil hne
  have hc := htext c List.mem_cons_self
  unfold parse
  rw [List.dropWhile_cons_of_neg (by rw [isSpace_of_isDigit hc]; decide), number_of_isDigit hc,
    hread]
  rfl

/-- A printed number consists of digits, behind a sign. -/
theorem mem_print {c : Char} (h : c ∈ print z) : c = '-' ∨ c.isDigit = true := by
  have hdigit : c ∈ Nat.toDigits 10 z.natAbs → c.isDigit = true := fun hc =>
    Nat.isDigit_of_mem_toDigits (by decide) (by decide) hc
  unfold print at h
  split at h
  · rcases List.mem_cons.mp h with rfl | hc
    · exact Or.inl rfl
    · exact Or.inr (hdigit hc)
  · exact Or.inr (hdigit h)

/-- **What is printed is read back**, from behind white space up to the newline. -/
theorem extract_print (ws : List Char) (hws : ∀ c ∈ ws, isSpace c = true) (hlo : lo ≤ z)
    (hhi : z ≤ hi) :
    IStream.extract lo hi ⟨ws ++ (print z ++ '\n' :: rest), false⟩ val =
      (z, ⟨'\n' :: rest, false⟩) := by
  obtain ⟨c, cs, hcs, hc⟩ := exists_print_eq_cons z
  -- white space is skipped up to the number, and a number does not begin with any
  have hskip : (ws ++ (print z ++ '\n' :: rest)).dropWhile isSpace =
      print z ++ '\n' :: rest := by
    rw [List.dropWhile_append_of_pos hws, hcs, List.cons_append,
      List.dropWhile_cons_of_neg (by rw [hc]; decide)]
  have hread := number_print z (ended_newline rest)
  unfold IStream.extract
  simp only [Bool.false_eq_true, if_false, hskip]
  rw [hcs, List.cons_append] at hread ⊢
  simp only [hread]
  -- both tests of the range fail
  rw [if_neg (by omega), if_neg (by omega)]

/-- The next line of a file of numbers. -/
theorem extract_lines {zs : List ℤ} (ws : List Char) (hws : ∀ c ∈ ws, isSpace c = true)
    (hlo : lo ≤ z) (hhi : z ≤ hi) :
    IStream.extract lo hi ⟨ws ++ lines (z :: zs), false⟩ val =
      (z, ⟨'\n' :: lines zs, false⟩) := by
  unfold lines
  rw [List.flatMap_cons, List.append_assoc, List.singleton_append]
  exact extract_print ws hws hlo hhi

/-- **A stream read to its end** leaves the variable as it is. -/
theorem extract_blank (ws : List Char) (hws : ∀ c ∈ ws, isSpace c = true) :
    IStream.extract lo hi ⟨ws, false⟩ val = (val, ⟨[], true⟩) := by
  have hskip : ws.dropWhile isSpace = [] := List.dropWhile_eq_nil_iff.mpr hws
  unfold IStream.extract
  simp only [Bool.false_eq_true, if_false, hskip]

end RoundTrip

end Decimal
