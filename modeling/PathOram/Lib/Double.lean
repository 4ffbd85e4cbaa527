import Mathlib.Data.Int.Log
import Mathlib.Data.Rat.Floor
import Mathlib.Tactic.Linarith
import Mathlib.Tactic.Positivity
import Mathlib.Tactic.Ring

/-!
# Arithmetic in double precision

A finite `double` is a rational number with a significand of 53 bits. `double` is the
rounding to the nearest one, ties to even, which every operation applies to its exact result;
the exponent is not bounded here.

* `double_mul_zpow` — numbers of at most 53 bits are exact, whatever their exponent.
* `double_le_zpow` — rounding does not cross a power of two.
* `double_lt_zpow` — which numbers stay below it.
* `double_double` — a double is not rounded again.
* `exists_eq_mul_of_le` — a double that is large has only high bits.
* `trunc`, `nearest` — the conversion to an integer type, and `std::round`.
* `nearest_div_eq_iff` — when a number and a third of it round to the same integer.
* `abs_double_sub_le` — the error of rounding.
* `nearest_double_div` — a quotient of integers is rounded to the right integer.
-/

namespace Double

/-- The nearest integer, the even one of two. -/
def roundEven (q : ℚ) : ℤ :=
  if q - ⌊q⌋ < 1 / 2 then ⌊q⌋
  else if 1 / 2 < q - ⌊q⌋ then ⌊q⌋ + 1
  else if ⌊q⌋ % 2 = 0 then ⌊q⌋
  else ⌊q⌋ + 1

/-- The distance of two doubles of the size of `q`. -/
def ulp (q : ℚ) : ℚ := 2 ^ (Int.log 2 |q| - 52)

/-- The nearest double. -/
def double (q : ℚ) : ℚ := roundEven (q / ulp q) * ulp q

/-- The integer part, as the conversion to an integer type takes it. -/
def trunc (q : ℚ) : ℤ := if 0 ≤ q then ⌊q⌋ else ⌈q⌉

/-- `std::round`: the nearest integer, the one away from zero of two. -/
def nearest (q : ℚ) : ℤ := if 0 ≤ q then ⌊q + 1 / 2⌋ else ⌈q - 1 / 2⌉

variable {q : ℚ} {n j m : ℤ}

@[simp] theorem trunc_intCast (n : ℤ) : trunc n = n := by
  unfold trunc
  rw [Int.floor_intCast, Int.ceil_intCast, ite_self]

@[simp] theorem nearest_intCast (n : ℤ) : nearest n = n := by
  unfold nearest
  split
  · rw [Int.floor_eq_iff]
    norm_num
  · rw [Int.ceil_eq_iff]
    norm_num

theorem nearest_of_nonneg (h : 0 ≤ q) : nearest q = ⌊q + 1 / 2⌋ := if_pos h

/-- Rounding is the same on both sides of zero. -/
theorem nearest_neg (q : ℚ) : nearest (-q) = -nearest q := by
  unfold nearest
  rcases lt_trichotomy q 0 with hneg | rfl | hpos
  · rw [if_pos (by linarith), if_neg (by linarith), ← Int.floor_neg]
    exact congrArg _ (by ring)
  · norm_num
  · rw [if_neg (by linarith), if_pos hpos.le, ← Int.ceil_neg]
    exact congrArg _ (by ring)

/-- **A third of a number**, or less, rounds to the same integer only if that is zero. -/
theorem nearest_div_eq_iff {d : ℚ} (hd : 3 ≤ d) : nearest (q / d) = nearest q ↔ |q| < 1 / 2 := by
  -- It is enough to look at one side of zero.
  wlog h₀ : 0 ≤ q generalizing q
  · have hneg := this (q := -q) (by linarith)
    rwa [neg_div, nearest_neg, nearest_neg, neg_inj, abs_neg] at hneg
  have hd₀ : 0 < d := by linarith
  have hquotient : 0 ≤ q / d := div_nonneg h₀ hd₀.le
  rw [abs_of_nonneg h₀, nearest_of_nonneg h₀, nearest_of_nonneg hquotient]
  constructor
  · intro heq
    by_contra hlarge
    have hone : 1 ≤ ⌊q + 1 / 2⌋ := Int.le_floor.mpr (by push_cast; linarith)
    have hone' : (1 : ℚ) ≤ ⌊q + 1 / 2⌋ := by exact_mod_cast hone
    have hle : (⌊q + 1 / 2⌋ : ℚ) ≤ q / d + 1 / 2 := heq ▸ Int.floor_le _
    have hlt : q + 1 / 2 < ⌊q + 1 / 2⌋ + 1 := Int.lt_floor_add_one _
    have hmul : (⌊q + 1 / 2⌋ - 1 / 2) * d ≤ q := by
      rw [← le_div_iff₀ hd₀]
      linarith
    nlinarith
  · intro hsmall
    have hle : q / d ≤ q := div_le_self h₀ (by linarith)
    rw [Int.floor_eq_zero_iff.mpr ⟨by linarith, by linarith⟩,
      Int.floor_eq_zero_iff.mpr ⟨by linarith, by linarith⟩]

theorem roundEven_mem (q : ℚ) : roundEven q = ⌊q⌋ ∨ roundEven q = ⌊q⌋ + 1 ∧ (⌊q⌋ : ℚ) < q := by
  unfold roundEven
  split
  next => exact Or.inl rfl
  next hge =>
    -- There is a fraction to be rounded up.
    have hlt : (⌊q⌋ : ℚ) < q := by linarith
    split
    · exact Or.inr ⟨rfl, hlt⟩
    · split
      · exact Or.inl rfl
      · exact Or.inr ⟨rfl, hlt⟩

/-- Rounding does not cross an integer. -/
theorem le_roundEven (h : (n : ℚ) ≤ q) : n ≤ roundEven q := by
  have hfloor : n ≤ ⌊q⌋ := Int.le_floor.mpr h
  rcases roundEven_mem q with heq | ⟨heq, -⟩
  · rwa [heq]
  · rw [heq]
    exact hfloor.trans (Int.le_add_one le_rfl)

theorem roundEven_le (h : q ≤ (n : ℚ)) : roundEven q ≤ n := by
  rcases roundEven_mem q with heq | ⟨heq, hlt⟩
  · rw [heq]
    exact_mod_cast (Int.floor_le q).trans h
  · rw [heq]
    exact Int.add_one_le_of_lt (by exact_mod_cast hlt.trans_le h)

@[simp] theorem roundEven_intCast (n : ℤ) : roundEven n = n :=
  le_antisymm (roundEven_le le_rfl) (le_roundEven le_rfl)

theorem abs_roundEven_sub_le (q : ℚ) : |roundEven q - q| ≤ 1 / 2 := by
  have hfloor := Int.floor_le q
  have hlt := Int.lt_floor_add_one q
  -- it is enough that the result is within a half on either side
  have hbetween : ∀ m : ℤ, (m : ℚ) - q ≤ 1 / 2 → q - m ≤ 1 / 2 → |(m : ℚ) - q| ≤ 1 / 2 := by
    intro m hup hdown
    rw [abs_le]
    constructor <;> linarith
  unfold roundEven
  split
  next hlow => exact hbetween _ (by linarith) (by linarith)
  next hge =>
    rw [not_lt] at hge
    split
    next hhigh =>
      refine hbetween _ ?_ ?_
      · push_cast
        linarith
      · push_cast
        linarith
    next hle =>
      rw [not_lt] at hle
      split
      · exact hbetween _ (by linarith) (by linarith)
      · refine hbetween _ ?_ ?_
        · push_cast
          linarith
        · push_cast
          linarith

theorem ulp_pos (q : ℚ) : 0 < ulp q := zpow_pos two_pos _

/-- A whole number of ulps is a double. -/
theorem double_of_eq_mul_ulp (h : q = n * ulp q) : double q = q := by
  unfold double
  have hdiv : q / ulp q = n := by
    rw [div_eq_iff (ulp_pos q).ne']
    exact h
  rw [hdiv, roundEven_intCast]
  exact h.symm

/-- **Numbers of 53 bits are exact.** -/
theorem double_mul_zpow (h : |n| < 2 ^ 53) (j : ℤ) : double (n * 2 ^ j) = n * 2 ^ j := by
  rcases eq_or_ne n 0 with rfl | hn
  · rw [Int.cast_zero, zero_mul]
    exact double_of_eq_mul_ulp (n := 0) (by rw [Int.cast_zero, zero_mul])
  set q : ℚ := n * 2 ^ j with hq
  have habs : |q| = |(n : ℚ)| * 2 ^ j := by
    rw [hq, abs_mul, abs_of_pos (zpow_pos two_pos j : (0 : ℚ) < 2 ^ j)]
  have hpos : 0 < |q| := by
    rw [habs]
    exact mul_pos (abs_pos.mpr (by exact_mod_cast hn)) (zpow_pos two_pos j)
  -- The exponent of the last bit is at most `j`.
  have hlog : Int.log 2 |q| < 53 + j := by
    rw [← Int.lt_zpow_iff_log_lt (by decide : 1 < 2) hpos, habs, Nat.cast_ofNat,
      zpow_add₀ two_ne_zero]
    exact mul_lt_mul_of_pos_right (by exact_mod_cast h) (zpow_pos two_pos j)
  obtain ⟨d, hd⟩ := Int.eq_ofNat_of_zero_le (by omega : 0 ≤ j - (Int.log 2 |q| - 52))
  refine double_of_eq_mul_ulp (n := n * 2 ^ d) ?_
  unfold ulp
  rw [Int.cast_mul, Int.cast_pow, Int.cast_ofNat, mul_assoc, ← zpow_natCast, ← hd,
    ← zpow_add₀ two_ne_zero, sub_add_cancel]

theorem double_intCast (h : |n| < 2 ^ 53) : double n = n := by
  have hexact := double_mul_zpow h 0
  rwa [zpow_zero, mul_one] at hexact

/-- The significand has at most 53 bits. -/
theorem abs_roundEven_div_ulp_le (q : ℚ) : |roundEven (q / ulp q)| ≤ 2 ^ 53 := by
  -- the significand has 53 bits by the choice of the exponent
  have hlt : |q| < 2 ^ 53 * ulp q := by
    have hself := Int.lt_zpow_succ_log_self (by decide : 1 < 2) |q|
    rw [Nat.cast_ofNat] at hself
    refine hself.trans_eq ?_
    unfold ulp
    rw [← zpow_natCast, ← zpow_add₀ two_ne_zero]
    refine congrArg _ ?_
    push_cast
    ring
  obtain ⟨hlow, hhigh⟩ := abs_lt.mp hlt
  have hpos := ulp_pos q
  refine abs_le.mpr ⟨le_roundEven ?_, roundEven_le ?_⟩
  · rw [le_div_iff₀ hpos]
    push_cast
    linarith
  · rw [div_le_iff₀ hpos]
    push_cast
    linarith

/-- **A double is not rounded again.** -/
theorem double_double (q : ℚ) : double (double q) = double q := by
  show double (roundEven (q / ulp q) * ulp q) = roundEven (q / ulp q) * ulp q
  have hle := abs_roundEven_div_ulp_le q
  generalize roundEven (q / ulp q) = n at hle
  unfold ulp
  generalize Int.log 2 |q| - 52 = j
  rcases hle.lt_or_eq with hlt | heq
  · exact double_mul_zpow hlt j
  · -- A significand of `2 ^ 53` is a power of two.
    have hpow : (2 : ℚ) ^ 53 * 2 ^ j = 2 ^ (53 + j) := by
      rw [zpow_add₀ two_ne_zero]
      norm_num
    rcases (abs_eq (by norm_num)).mp heq with rfl | rfl
    · have hexact := double_mul_zpow (n := 1) (by norm_num) (53 + j)
      rw [Int.cast_one, one_mul] at hexact
      rw [Int.cast_pow, Int.cast_ofNat, hpow, hexact]
    · have hexact := double_mul_zpow (n := -1) (by norm_num) (53 + j)
      rw [Int.cast_neg, Int.cast_one, neg_one_mul] at hexact
      rw [Int.cast_neg, Int.cast_pow, Int.cast_ofNat, neg_mul, hpow, hexact]

theorem double_nonneg (h : 0 ≤ q) : 0 ≤ double q := by
  refine mul_nonneg ?_ (ulp_pos q).le
  exact_mod_cast le_roundEven (n := 0) (by
    rw [Int.cast_zero]
    exact div_nonneg h (ulp_pos q).le)

/-- Rounding does not cross a power of two. -/
theorem double_le_zpow (h₀ : 0 ≤ q) (h : q ≤ 2 ^ m) : double q ≤ 2 ^ m := by
  rcases h.eq_or_lt with rfl | hlt
  · have hexact := double_mul_zpow (n := 1) (by norm_num) m
    rw [Int.cast_one, one_mul] at hexact
    exact hexact.le
  rcases h₀.eq_or_lt with rfl | hpos
  · rw [double_of_eq_mul_ulp (n := 0) (by rw [Int.cast_zero, zero_mul])]
    exact (zpow_pos two_pos m).le
  -- The significand is rounded to at most `2 ^ 53`.
  have hlog : Int.log 2 q < m :=
    (Int.lt_zpow_iff_log_lt (by decide) hpos).mp (by exact_mod_cast hlt)
  have hulp : ulp q = 2 ^ (Int.log 2 q - 52) := by
    unfold ulp
    rw [abs_of_pos hpos]
  have hsig : q / ulp q ≤ ((2 ^ 53 : ℤ) : ℚ) := by
    rw [div_le_iff₀ (ulp_pos q), hulp, Int.cast_pow, Int.cast_ofNat, ← zpow_natCast,
      ← zpow_add₀ two_ne_zero]
    have hself := (Int.lt_zpow_succ_log_self (by decide : 1 < 2) q).le
    rw [Nat.cast_ofNat] at hself
    refine hself.trans_eq (congrArg _ ?_)
    push_cast
    ring
  calc double q ≤ ((2 ^ 53 : ℤ) : ℚ) * ulp q :=
        mul_le_mul_of_nonneg_right (by exact_mod_cast roundEven_le hsig) (ulp_pos q).le
    _ = 2 ^ (Int.log 2 q + 1) := by
        rw [hulp, Int.cast_pow, Int.cast_ofNat, ← zpow_natCast, ← zpow_add₀ two_ne_zero]
        refine congrArg _ ?_
        push_cast
        ring
    _ ≤ 2 ^ m := zpow_le_zpow_right₀ one_le_two (by omega)

/-- A number that is nearer to the largest double of its size than to the next power of two is not
rounded up to that. -/
theorem double_lt_zpow (h₀ : 0 ≤ q) (h : q < 2 ^ m - 2 ^ (m - 54)) : double q < 2 ^ m := by
  rcases lt_or_ge q (2 ^ (m - 1)) with hlt | hge
  · calc double q ≤ 2 ^ (m - 1) := double_le_zpow h₀ hlt.le
      _ < 2 ^ m := zpow_lt_zpow_right₀ one_lt_two (by omega)
  have hpos : 0 < q := (zpow_pos two_pos _).trans_le hge
  have hlt : q < 2 ^ m := h.trans (sub_lt_self _ (zpow_pos two_pos _))
  have hlog : Int.log 2 q = m - 1 :=
    le_antisymm (Int.lt_add_one_iff.mp (by
      rw [sub_add_cancel]
      exact (Int.lt_zpow_iff_log_lt (by decide) hpos).mp (by exact_mod_cast hlt)))
      ((Int.zpow_le_iff_le_log (by decide) hpos).mp (by exact_mod_cast hge))
  have hulp : ulp q = 2 ^ (m - 53) := by
    unfold ulp
    rw [abs_of_pos hpos, hlog]
    exact congrArg _ (by ring)
  -- In units of the last place, the number is more than one half below `2 ^ 53`.
  have hunits : (2 : ℚ) ^ m = 2 ^ 53 * 2 ^ (m - 53) ∧
      (2 : ℚ) ^ (m - 54) = 1 / 2 * 2 ^ (m - 53) := by
    constructor
    · rw [← zpow_natCast, ← zpow_add₀ two_ne_zero]
      exact congrArg _ (by push_cast; ring)
    · rw [one_div, ← zpow_neg_one, ← zpow_add₀ two_ne_zero]
      exact congrArg _ (by ring)
  have hquotient : q / ulp q < 2 ^ 53 - 1 / 2 := by
    rw [div_lt_iff₀ (ulp_pos q), hulp, sub_mul]
    linarith [hunits.1, hunits.2]
  have hround : roundEven (q / ulp q) < 2 ^ 53 := by
    have hdistance := (abs_le.mp (abs_roundEven_sub_le (q / ulp q))).2
    have hcast : (roundEven (q / ulp q) : ℚ) < 2 ^ 53 := by linarith
    exact_mod_cast hcast
  calc double q = roundEven (q / ulp q) * 2 ^ (m - 53) := by
        unfold double
        rw [hulp]
    _ < 2 ^ 53 * 2 ^ (m - 53) :=
        mul_lt_mul_of_pos_right (by exact_mod_cast hround) (zpow_pos two_pos _)
    _ = 2 ^ m := hunits.1.symm

theorem double_add_lt_pow {w m j : ℕ} (hm : m = j + 54) (hw : w < 2 ^ m - 2 ^ j) (h₀ : 0 ≤ q)
    (h₁ : q < 1) : double (w + q) < 2 ^ m := by
  have hle : w + 1 + 2 ^ j ≤ 2 ^ m := by omega
  have hcast : (w : ℚ) + 1 + 2 ^ j ≤ 2 ^ m := by exact_mod_cast hle
  have hexponent : (m : ℤ) - 54 = j := by omega
  have hlt := double_lt_zpow (q := w + q) (m := m) (by positivity) (by
    rw [hexponent, zpow_natCast, zpow_natCast]
    linarith)
  rwa [zpow_natCast] at hlt

/-- **A large double has only high bits.** -/
theorem exists_eq_mul_of_le (h₀ : 0 ≤ q) (h : 2 ^ m ≤ double q) :
    ∃ n : ℤ, double q = n * 2 ^ (m - 52) := by
  rcases lt_or_ge q (2 ^ m) with hlt | hge
  · -- The number has been rounded up to the power of two.
    refine ⟨2 ^ 52, ?_⟩
    rw [le_antisymm (double_le_zpow h₀ hlt.le) h, Int.cast_pow, Int.cast_ofNat, ← zpow_natCast,
      ← zpow_add₀ two_ne_zero]
    refine congrArg _ ?_
    push_cast
    ring
  · have hpos : 0 < q := (zpow_pos two_pos m).trans_le hge
    have hlog : m ≤ Int.log 2 q :=
      (Int.zpow_le_iff_le_log (by decide : 1 < 2) hpos).mp (by exact_mod_cast hge)
    -- the exponent of `q` is at least `m`, so its unit is a multiple of that of `m`
    obtain ⟨d, hd⟩ := Int.eq_ofNat_of_zero_le (by omega : 0 ≤ Int.log 2 q - m)
    refine ⟨roundEven (q / ulp q) * 2 ^ d, ?_⟩
    have hulp : ulp q = 2 ^ d * 2 ^ (m - 52) := by
      unfold ulp
      rw [abs_of_pos hpos, ← zpow_natCast, ← zpow_add₀ two_ne_zero, ← hd]
      refine congrArg _ ?_
      ring
    unfold double
    rw [Int.cast_mul, Int.cast_pow, Int.cast_ofNat, mul_assoc, ← hulp]

/-- A number rounds to the integer that is nearer than one half. -/
theorem nearest_eq_of_abs_lt (h : |q - n| < 1 / 2) : nearest q = n := by
  obtain ⟨hlow, hhigh⟩ := abs_lt.mp h
  unfold nearest
  split
  · rw [Int.floor_eq_iff]
    constructor <;> linarith
  · rw [Int.ceil_eq_iff]
    constructor <;> linarith

theorem ulp_le (hq : q ≠ 0) : ulp q ≤ |q| / 2 ^ 52 := by
  have hlog := Int.zpow_log_le_self (b := 2) (by decide) (abs_pos.mpr hq)
  unfold ulp
  rw [zpow_sub₀ two_ne_zero]
  exact div_le_div_of_nonneg_right (by exact_mod_cast hlog) (by positivity)

/-- **The error of rounding**, relative to the number. -/
theorem abs_double_sub_le (q : ℚ) : |double q - q| ≤ |q| / 2 ^ 53 := by
  rcases eq_or_ne q 0 with rfl | hq
  · rw [double_of_eq_mul_ulp (n := 0) (by rw [Int.cast_zero, zero_mul])]
    norm_num
  have hpos := ulp_pos q
  -- in units of the last place the error is that of rounding to an integer
  have hsplit : double q - q = (roundEven (q / ulp q) - q / ulp q) * ulp q := by
    unfold double
    field_simp
  calc |double q - q| = |roundEven (q / ulp q) - q / ulp q| * ulp q := by
        rw [hsplit, abs_mul, abs_of_pos hpos]
    _ ≤ 1 / 2 * (|q| / 2 ^ 52) :=
        mul_le_mul (abs_roundEven_sub_le _) (ulp_le hq) hpos.le (by norm_num)
    _ = |q| / 2 ^ 53 := by ring

/-- A number that is nearer to an integer than the error of rounding. -/
theorem nearest_double_eq {e : ℚ} (h : |q - n| + e ≤ 1 / 2) (he : |q| / 2 ^ 53 < e) :
    nearest (double q) = n := by
  refine nearest_eq_of_abs_lt ?_
  calc |double q - n| ≤ |double q - q| + |q - n| := abs_sub_le _ _ _
    _ ≤ |q| / 2 ^ 53 + |q - n| := by
        gcongr
        exact abs_double_sub_le q
    _ < 1 / 2 := by linarith

/-- A number in the middle of two integers is a double, if it is not too large. -/
theorem double_of_half (h : ∀ n : ℤ, ¬|q - n| < 1 / 2) (hq : |q| < 2 ^ 52) : double q = q := by
  have hfloor := Int.floor_le q
  have hlt := Int.lt_floor_add_one q
  have hbelow := h ⌊q⌋
  have habove := h (⌊q⌋ + 1)
  rw [not_lt, abs_of_nonneg (by linarith)] at hbelow
  rw [not_lt, abs_of_nonpos (by push_cast; linarith)] at habove
  push_cast at habove
  -- a number no closer than a half to an integer lies halfway between two
  have hdouble : ((2 * ⌊q⌋ + 1 : ℤ) : ℚ) = 2 * q := by
    push_cast
    linarith
  have hexact : q = ((2 * ⌊q⌋ + 1 : ℤ) : ℚ) * 2 ^ (-1 : ℤ) := by
    rw [hdouble, zpow_neg_one]
    linarith
  have hbits : |2 * ⌊q⌋ + 1| < 2 ^ 53 := by
    have hbits' : |((2 * ⌊q⌋ + 1 : ℤ) : ℚ)| < 2 ^ 53 := by
      rw [hdouble, abs_mul, abs_two]
      linarith
    exact_mod_cast hbits'
  rw [hexact, double_mul_zpow hbits]

/-- **A quotient of integers** rounds to the same integer when it has been rounded to a double
before. -/
theorem nearest_double_div {a b : ℤ} (hb : 0 < b) (ha : |a| < 2 ^ 52) :
    nearest (double (a / b)) = nearest (a / b) := by
  have hb₀ : (0 : ℚ) < b := by exact_mod_cast hb
  have hb₁ : (1 : ℚ) ≤ b := by exact_mod_cast hb
  have ha₀ : |(a : ℚ)| < 2 ^ 52 := by exact_mod_cast ha
  set q : ℚ := a / b with hq
  have hmul : q * b = a := div_mul_cancel₀ _ hb₀.ne'
  rw [← hmul, abs_mul, abs_of_pos hb₀] at ha₀
  by_cases hhalf : ∃ n : ℤ, |q - n| < 1 / 2
  · obtain ⟨n, hn⟩ := hhalf
    -- The distance to the integer is a fraction whose denominator is that of the quotient.
    have hscaled : |2 * (a : ℚ) - 2 * n * b| = |q - n| * (2 * b) := by
      have hfactor : 2 * (a : ℚ) - 2 * n * b = (q - n) * (2 * b) := by
        rw [← hmul]
        ring
      rw [hfactor, abs_mul, abs_of_pos (by linarith : (0 : ℚ) < 2 * b)]
    have hint : |2 * a - 2 * n * b| + 1 ≤ b := by
      have hlt : |2 * (a : ℚ) - 2 * n * b| < b := by
        rw [hscaled]
        linarith [mul_lt_mul_of_pos_right hn (by linarith : (0 : ℚ) < 2 * b)]
      exact_mod_cast hlt
    have hdistance : |q - n| * (2 * b) + 1 ≤ b := by
      rw [← hscaled]
      exact_mod_cast hint
    rw [nearest_eq_of_abs_lt hn]
    refine nearest_double_eq (e := 1 / (2 * b)) ?_ ?_
    · calc |q - n| + 1 / (2 * b) = (|q - n| * (2 * b) + 1) / (2 * b) := by field_simp
        _ ≤ b / (2 * b) := by gcongr
        _ = 1 / 2 := by field_simp
    · rw [div_lt_div_iff₀ (by norm_num) (by linarith)]
      linarith
  · have hsmall : |q| < 2 ^ 52 := (le_mul_of_one_le_right (abs_nonneg q) hb₁).trans_lt ha₀
    rw [double_of_half (not_exists.mp hhalf) hsmall]

end Double
