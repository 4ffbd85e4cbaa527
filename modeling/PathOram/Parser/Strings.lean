import PathOram.Parser.Encoding

/-!
# Strings as integers and back

`stringToInt` and `intToString` of `shamir_parser.cpp`: a string attribute is shared as the
number that its bytes are the digits of in base 256, and read back digit by digit. The number is
an `int64_t`, and eight bytes fill it: `intToString_stringToInt_iff`.
-/

namespace ShamirParser

/-! ### Decoding -/

/-- The loop of `intToString`, with the characters found so far. -/
def intToStringLoop (value : ℤ) (result : Text) : Text :=
  if 0 < value then
    intToStringLoop (value.tdiv 256) (Char.ofNat (value.tmod 256).toNat :: result)
  else result
termination_by value.toNat
decreasing_by
  rw [Int.tdiv_eq_ediv_of_nonneg (by omega)]
  omega

def intToString (value : ℤ) : Text := intToStringLoop value []

/-- No product and no sum of `stringToInt` leaves the range of an `int64_t`. -/
def StaysInRange (str : Text) : Prop :=
  ∀ init c, init ++ [c] <+: str →
    (-2 ^ 63 ≤ stringToInt init * 256 ∧ stringToInt init * 256 < 2 ^ 63) ∧
      -2 ^ 63 ≤ stringToInt init * 256 + charInt c ∧ stringToInt init * 256 + charInt c < 2 ^ 63

/-! ### The round trip -/

section RoundTrip

variable {str : Text}

/-- The characters of the text attributes: bytes of 7 bits that are not zero. -/
def Ascii (str : Text) : Prop := ∀ c ∈ str, 1 ≤ c.toNat ∧ c.toNat ≤ 127

instance (str : Text) : Decidable (Ascii str) := List.decidableBAll _ str

theorem Ascii.lt_128 (h : Ascii str) : ∀ c ∈ str, c.toNat < 128 := fun c hc =>
  Nat.lt_succ_of_le (h c hc).2

theorem Ascii.lt_256 (h : Ascii str) : ∀ c ∈ str, c.toNat < 256 := fun c hc =>
  (h.lt_128 c hc).trans (by decide)

theorem Ascii.of_prefix {init : Text} (h : Ascii str) (hinit : init <+: str) : Ascii init :=
  fun c hc => h c (hinit.subset hc)

theorem code_singleton (c : Char) : code [c] = c.toNat := by
  rw [code_cons, List.length_nil, pow_zero, mul_one]
  exact add_zero _

theorem code_concat (init : Text) (c : Char) : code (init ++ [c]) = code init * 256 + c.toNat := by
  rw [code_append, code_singleton, List.length_singleton, pow_one]

/-- A string has at least as many digits as characters. -/
theorem le_code (h : Ascii str) (hne : str ≠ []) : 256 ^ (str.length - 1) ≤ code str := by
  obtain ⟨c, cs, rfl⟩ := List.exists_cons_of_ne_nil hne
  have hcs := (code_bounds fun d hd => h.lt_256 d (List.mem_cons_of_mem c hd)).1
  have hc : (1 : ℤ) ≤ c.toNat := by exact_mod_cast (h c List.mem_cons_self).1
  have hpos : (0 : ℤ) < 256 ^ cs.length := by positivity
  rw [code_cons, List.length_cons, Nat.add_sub_cancel]
  nlinarith

/-- Eight characters are below `2 ^ 63`, because the first is below 128. -/
theorem code_lt (h : Ascii str) (hlength : str.length ≤ 8) : code str < 2 ^ 63 := by
  rcases eq_or_ne str [] with rfl | hne
  · decide
  obtain ⟨c, cs, rfl⟩ := List.exists_cons_of_ne_nil hne
  have hcs := (code_bounds fun d hd => h.lt_256 d (List.mem_cons_of_mem c hd)).2
  have hc : (c.toNat : ℤ) ≤ 127 := by exact_mod_cast (h c List.mem_cons_self).2
  rw [List.length_cons] at hlength
  have hpow : (256 : ℤ) ^ cs.length ≤ 256 ^ 7 := pow_le_pow_right₀ (by decide) (by omega)
  have hpos : (0 : ℤ) < 256 ^ cs.length := by positivity
  rw [code_cons]
  -- an ASCII character leads, so the top bit stays clear
  calc c.toNat * 256 ^ cs.length + code cs
      < c.toNat * 256 ^ cs.length + 256 ^ cs.length := by omega
    _ ≤ 128 * 256 ^ cs.length := by nlinarith
    _ ≤ 128 * 256 ^ 7 := by omega
    _ = 2 ^ 63 := by norm_num

theorem stringToInt_of_length_le (h : Ascii str) (hlength : str.length ≤ 8) :
    stringToInt str = code str := by
  have h₀ := (code_bounds h.lt_256).1
  have hlt := code_lt h hlength
  rw [stringToInt_eq h.lt_128]
  exact Int.bmod_eq_of_le_mul_two (by push_cast; omega) (by push_cast; omega)

/-- The digits of a code are the characters, in front of what was found before. -/
theorem intToStringLoop_code (h : Ascii str) (result : Text) :
    intToStringLoop (code str) result = str ++ result := by
  -- The loop takes the last character first.
  induction str using List.reverseRecOn generalizing result with
  | nil =>
    rw [intToStringLoop, if_neg (by decide)]
    rfl
  | append_singleton init c ih =>
    have hinit : Ascii init := h.of_prefix (List.prefix_append init [c])
    have hc := h c (List.mem_append_right init List.mem_cons_self)
    have h₀ := (code_bounds hinit.lt_256).1
    have hvalue := code_concat init c
    have hdiv : (code (init ++ [c])).tdiv 256 = code init := by
      rw [Int.tdiv_eq_ediv_of_nonneg (by omega)]
      omega
    have hmod : (code (init ++ [c])).tmod 256 = c.toNat := by
      rw [Int.tmod_eq_emod_of_nonneg (by omega)]
      omega
    rw [intToStringLoop, if_pos (by omega), hdiv, hmod, Int.toNat_natCast, Char.ofNat_toNat,
      ih hinit, List.append_assoc, List.singleton_append]

/-- The ninth character overflows the product. -/
theorem not_staysInRange (h : Ascii str) (hlength : 8 < str.length) : ¬ StaysInRange str := by
  intro hrange
  have htake : (str.take 8).length = 8 := by
    rw [List.length_take]
    omega
  have hinit : Ascii (str.take 8) := h.of_prefix (List.take_prefix 8 str)
  -- the ninth character is where the product leaves the range
  have hprefix : str.take 8 ++ [str[8]] <+: str := by
    rw [List.take_concat_get']
    exact List.take_prefix 9 str
  have hproduct := (hrange _ _ hprefix).1.2
  have hge := le_code hinit (List.ne_nil_of_length_pos (by omega))
  rw [stringToInt_of_length_le hinit htake.le] at hproduct
  rw [htake] at hge
  omega

/-- A number of `m` digits has at most `m` characters. -/
theorem length_intToStringLoop_le {m : ℕ} {value : ℤ} (h : value < 256 ^ m) (result : Text) :
    (intToStringLoop value result).length ≤ m + result.length := by
  induction m generalizing value result with
  | zero =>
    rw [pow_zero] at h
    rw [intToStringLoop, if_neg (by omega)]
    exact Nat.le_add_left _ _
  | succ m ih =>
    rw [intToStringLoop]
    split
    next hpos =>
      -- each round takes one base-256 digit off
      have hdiv : value.tdiv 256 < 256 ^ m := by
        rw [Int.tdiv_eq_ediv_of_nonneg hpos.le]
        exact Int.ediv_lt_of_lt_mul (by decide) (by rwa [pow_succ] at h)
      have hle := ih hdiv (Char.ofNat (value.tmod 256).toNat :: result)
      rw [List.length_cons] at hle
      omega
    next => exact Nat.le_add_left _ _

/-- An `int64_t` has at most eight characters. -/
theorem length_le_of_roundTrip (h : Ascii str) (heq : intToString (stringToInt str) = str) :
    str.length ≤ 8 := by
  have hlt : stringToInt str < 256 ^ 8 := by
    have hbmod : (code str).bmod (2 ^ 64) < (2 ^ 64 + 1) / 2 := Int.bmod_lt (by decide)
    rw [stringToInt_eq h.lt_128]
    norm_num at hbmod ⊢
    omega
  have hle := length_intToStringLoop_le hlt []
  rwa [← intToString, heq] at hle

/-- **Strings are read back** if and only if they have at most eight characters, and only then is
there no overflow. The ninth character pushes the first one out of the `int64_t`. -/
theorem intToString_stringToInt_iff (h : Ascii str) :
    (intToString (stringToInt str) = str ↔ str.length ≤ 8) ∧
      (StaysInRange str ↔ str.length ≤ 8) := by
  refine ⟨⟨length_le_of_roundTrip h, fun hlength => ?_⟩, fun hrange => ?_, fun hlength => ?_⟩
  · rw [stringToInt_of_length_le h hlength, intToString, intToStringLoop_code h, List.append_nil]
  -- longer strings overflow at the ninth character
  · by_contra hlength
    exact not_staysInRange h (not_le.mp hlength) hrange
  · intro init c hprefix
    have hconcat := h.of_prefix hprefix
    have hinit : Ascii init := hconcat.of_prefix (List.prefix_append init [c])
    have hle : (init ++ [c]).length ≤ 8 := hprefix.length_le.trans hlength
    have hlt := code_lt hconcat hle
    have h₀ := (code_bounds hinit.lt_256).1
    have hc : charInt c = c.toNat :=
      if_pos (hconcat.lt_128 c (List.mem_append_right init List.mem_cons_self))
    rw [List.length_append, List.length_singleton] at hle
    rw [code_concat] at hlt
    rw [stringToInt_of_length_le hinit (by omega), hc]
    omega

theorem intToString_stringToInt_iff_truck :
    (intToString (stringToInt "TRUCK".toList) = "TRUCK".toList ↔ "TRUCK".toList.length ≤ 8) ∧
      (StaysInRange "TRUCK".toList ↔ "TRUCK".toList.length ≤ 8) :=
  intToString_stringToInt_iff (by decide)

/-- The longest of the shipping instructions. -/
theorem not_intToString_stringToInt :
    ¬ (intToString (stringToInt "DELIVER IN PERSON".toList) = "DELIVER IN PERSON".toList ∧
      StaysInRange "DELIVER IN PERSON".toList) := fun ⟨_, hrange⟩ =>
  not_staysInRange (by decide) (by decide) hrange

end RoundTrip

end ShamirParser
