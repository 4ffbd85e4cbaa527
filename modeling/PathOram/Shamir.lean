import PathOram.Lib.Lucas
import PathOram.Lib.Returns
import PathOram.Lib.SecretSharing
import Mathlib.Data.List.GetD
import Mathlib.Tactic.LinearCombination
import Mathlib.Tactic.ReduceModChar
import Mathlib.Tactic.NormNum.Prime

/-!
# Secret sharing

`helpers.cpp` and `shamir.cpp`: a secret becomes the value at zero of a polynomial over
the integers modulo `PRIME`, a share the value at one of the numbers `1..n`.

Signed overflow is undefined behaviour, so an arithmetic result outside a `long long` is
a `Fault`; so is a loop that would never end.

`split_spec` is the specification of `split`: any `k` of the shares it makes are restored
to the secret. Its two halves are `calculateSecretPairs_spec` (the shares are points of
the polynomial) and `reconstructSecret_spec` (the sum of the weighted shares). Both rest on the
arithmetic modulo `PRIME`, `helpers_exact`.
-/

namespace Shamir

/-- What the language leaves undefined, and a loop that never ends. -/
inductive Fault where
  | overflow
  | outOfBounds
  | endless
  deriving DecidableEq, Repr

/-- The result of an operation on `long long`. -/
def ll (z : ℤ) : Except Fault ℤ :=
  if -2 ^ 63 ≤ z ∧ z < 2 ^ 63 then .ok z else .error .overflow

def MIN_SECRET : ℤ := 1

def MAX_SECRET : ℤ := 992429121339693966

def PRIME : ℤ := 992429121339693967

/-- A share: a number and the value of the polynomial there. -/
structure SecretPair where
  x : ℤ
  y : ℤ
  deriving DecidableEq, Repr

/-- A draw of `generateRandomNumber(MIN_SECRET, MAX_SECRET)`. -/
abbrev Draw : Type := { c : ℤ // MIN_SECRET ≤ c ∧ c ≤ MAX_SECRET }

/-- The draws to come. -/
abbrev Draws : Type := ℕ → Draw

/-- The coefficients of the polynomial, the secret first, and the draws that are left. -/
def generateCoefficients (k : ℕ) (secret : ℤ) (draws : Draws) : List ℤ × Draws :=
  (secret :: (List.range (k - 1)).map fun i => (draws i).val,
    fun i => draws (i + (k - 1)))

/-- `if (b & 1) res = (res + a) % PRIME`. -/
def addOdd (res a b : ℤ) : Except Fault ℤ :=
  if b % 2 = 1 then do
    let sum ← ll (res + a)
    pure (sum.tmod PRIME)
  else pure res

/-- The loop of `modmult`. Shifting a negative `b` to the right never gives zero. -/
def modmultLoop (res a b : ℤ) : Except Fault ℤ :=
  if b = 0 then .ok res
  else if 0 < b then do
    let res ← addOdd res a b
    let double ← ll (2 * a)
    modmultLoop res (double.tmod PRIME) (b / 2)
  else .error .endless
termination_by b.toNat

/-- The product modulo `PRIME`, by doubling. -/
def modmult (a b : ℤ) : Except Fault ℤ := modmultLoop 0 (a.tmod PRIME) b

/-- The power of a number, by repeated multiplication. -/
def power (number : ℤ) (exp : ℕ) : Except Fault ℤ :=
  (List.range exp).foldlM
    (fun current _ => do
      let product ← ll (current * number)
      pure (product.tmod PRIME))
    1

/-- The value of the polynomial at one number. -/
def evaluate (coefficients : List ℤ) (number : ℤ) : Except Fault ℤ :=
  (List.range (coefficients.length - 1)).foldlM
    (fun accumulator e => do
      let current ← power number (e + 1)
      let current ← modmult current ((coefficients.getD (e + 1) 0).tmod PRIME)
      let sum ← ll (accumulator.tmod PRIME + (current.tmod PRIME).tmod PRIME)
      pure (sum.tmod PRIME))
    (coefficients.getD 0 0)

/-- The points of the polynomial at `1..n`. -/
def calculateSecretPairs (n : ℕ) (coefficients : List ℤ) : Except Fault (List SecretPair) :=
  (List.range n).foldlM
    (fun shareSecretPoints (i : ℕ) => do
      let accumulator ← evaluate coefficients (i + 1 : ℕ)
      pure (shareSecretPoints ++ [⟨(i + 1 : ℕ), accumulator⟩]))
    []

/-- `a * x + b * y = gcd(a, b)`. -/
def gcdExtended (a b : ℤ) : Except Fault (ℤ × ℤ) :=
  if b = 0 then .ok (1, 0)
  else do
    let (x1, y1) ← gcdExtended b (a.tmod b)
    let product ← ll (y1 * a.tdiv b)
    let y ← ll (x1 - product)
    pure (y1, y)
termination_by b.natAbs
decreasing_by
  rw [Int.natAbs_tmod]
  exact Nat.mod_lt _ (by omega)

/-- The loop over `j`: the products of the `x - xj` and of the `xi - xj`. -/
def products (secretPairs : List SecretPair) (i : ℕ) : Except Fault (ℤ × ℤ) :=
  (List.range secretPairs.length).foldlM
    (fun (upper, lower) j =>
      if i = j then pure (upper, lower)
      else do
        let xi := (secretPairs.getD i ⟨0, 0⟩).x
        let xj := (secretPairs.getD j ⟨0, 0⟩).x
        let u ← ll (upper * xj)
        let u ← ll (u * -1)
        let d ← ll (xi - xj)
        let l ← ll (lower * d)
        pure (u.tmod PRIME, l.tmod PRIME))
    (1, 1)

/-- `z *= -1` in the case of a negative `lower`, which is noted in `ok`. -/
def negateIf (ok : Bool) (z : ℤ) : Except Fault ℤ := if ok then ll (z * -1) else .ok z

/-- The inverse of `lower`, taken of its absolute value. -/
def inverse (lower : ℤ) : Except Fault ℤ := do
  let ok := decide (lower < 0)
  let lower ← negateIf ok lower
  let (_, y) ← gcdExtended PRIME lower
  let y ← negateIf ok y
  let sum ← ll (y + PRIME)
  pure (sum.tmod PRIME)

/-- The secret of any `k` shares. -/
def reconstructSecret (secretPairs : List SecretPair) : Except Fault ℤ :=
  (List.range secretPairs.length).foldlM
    (fun secret i => do
      let (upper, lower) ← products secretPairs i
      let yi := (secretPairs.getD i ⟨0, 0⟩).y
      let lower ← inverse lower
      let current ← modmult upper (lower.tmod PRIME)
      let current ← modmult (current.tmod PRIME) (yi.tmod PRIME)
      let sum ← ll (PRIME + secret)
      let sum ← ll (sum + current.tmod PRIME)
      pure (sum.tmod PRIME))
    0

/-- The shares of a secret, and the draws that are left. -/
def split (secret : ℤ) (n k : ℕ) (draws : Draws) : Except Fault (List SecretPair × Draws) :=
  if n < k then .ok ([], draws)
  else do
    let (coefficients, draws) := generateCoefficients k secret draws
    let shareSecretPoints ← calculateSecretPairs n coefficients
    pure (shareSecretPoints, draws)

/-- The number `k` plays no part: all the shares are used. -/
def restore (_k : ℕ) (secrets : List SecretPair) : Except Fault ℤ := reconstructSecret secrets

/-! ### The field -/

/-- The integers modulo `PRIME`. -/
abbrev F : Type := ZMod 992429121339693967

theorem prime_53159645093 : Nat.Prime 53159645093 := by
  refine Lucas.prime_of_factors 2 [2, 2, 271, 49040263] ?_ (by norm_num) ?_ ?_
  · norm_num
  · reduce_mod_char
  · norm_num
    refine ⟨?_, ?_, ?_⟩ <;> reduce_mod_char <;> decide

theorem prime_318957870559 : Nat.Prime 318957870559 := by
  refine Lucas.prime_of_factors 11 [2, 3, 53159645093] ?_ (by norm_num) ?_ ?_
  · simp [prime_53159645093, Nat.prime_two, Nat.prime_three]
  · reduce_mod_char
  · norm_num
    refine ⟨?_, ?_⟩ <;> reduce_mod_char <;> decide

/-- **`PRIME` is prime.** -/
instance prime_PRIME : Fact (Nat.Prime 992429121339693967) := by
  refine ⟨Lucas.prime_of_factors 3 [2, 3, 518579, 318957870559] ?_ (by norm_num) ?_ ?_⟩
  · simp [prime_318957870559, Nat.prime_two, Nat.prime_three]
    norm_num
  · reduce_mod_char
  · norm_num
    refine ⟨?_, ?_, ?_, ?_⟩ <;> reduce_mod_char <;> decide

/-- A remainder modulo `PRIME`, of either sign. -/
def Reduced (z : ℤ) : Prop := -PRIME < z ∧ z < PRIME

theorem cast_PRIME : ((PRIME : ℤ) : F) = 0 := by
  unfold PRIME
  exact ZMod.natCast_self 992429121339693967

theorem reduced_tmod (z : ℤ) : Reduced (z.tmod PRIME) :=
  ⟨Int.lt_tmod_of_pos z (by decide), Int.tmod_lt_of_pos z (by decide)⟩

/-- Taking the remainder does not change the residue. -/
@[simp] theorem cast_tmod (z : ℤ) : ((z.tmod PRIME : ℤ) : F) = z := by
  have h : ((z.tmod PRIME + PRIME * z.tdiv PRIME : ℤ) : F) = z :=
    congrArg _ (Int.tmod_add_mul_tdiv z PRIME)
  rwa [Int.cast_add, Int.cast_mul, cast_PRIME, zero_mul, add_zero] at h

/-- A residue has one representative in `0..PRIME-1`. -/
theorem eq_val {z : ℤ} {w : F} (h₀ : 0 ≤ z) (h : z < PRIME) (hz : (z : F) = w) :
    z = (w.val : ℤ) := by
  subst hz
  obtain ⟨n, rfl⟩ := Int.eq_ofNat_of_zero_le h₀
  have hn : n < 992429121339693967 := by
    unfold PRIME at h
    omega
  rw [Int.cast_natCast, ZMod.val_natCast_of_lt hn]

theorem val_lt_PRIME (w : F) : (w.val : ℤ) < PRIME := by
  have h := ZMod.val_lt w
  unfold PRIME
  omega

theorem tmod_nonpos {z : ℤ} (h : z ≤ 0) : z.tmod PRIME ≤ 0 := by
  have hopposite := Int.tmod_nonneg PRIME (neg_nonneg.mpr h)
  rwa [Int.neg_tmod, neg_nonneg] at hopposite

/-- Equal residues are congruent integers. -/
theorem modEq_of_cast {z z' : ℤ} (h : (z : F) = z') : z ≡ z' [ZMOD PRIME] :=
  (ZMod.intCast_eq_intCast_iff z z' 992429121339693967).mp h

theorem ll_returns {z : ℤ} (h₁ : -2 ^ 63 ≤ z) (h₂ : z < 2 ^ 63) : Returns (ll z) (· = z) :=
  ⟨z, if_pos ⟨h₁, h₂⟩, rfl⟩

/-! ### Arithmetic modulo `PRIME` -/

/-- The low bit of `b` decides whether `a` is added. -/
theorem addOdd_spec {res a b : ℤ} (hres : Reduced res) (ha : Reduced a) :
    Returns (addOdd res a b) fun r => Reduced r ∧ (r : F) = res + a * (b % 2 : ℤ) ∧
      (0 ≤ res → 0 ≤ a → 0 ≤ r) ∧ (res ≤ 0 → a ≤ 0 → r ≤ 0) := by
  have hbounds : -2 ^ 63 ≤ res + a ∧ res + a < 2 ^ 63 := by
    unfold Reduced PRIME at hres ha
    omega
  unfold addOdd
  split
  -- the last bit is one: `a` is added
  next hodd =>
    refine (ll_returns hbounds.1 hbounds.2).bind fun sum hsum => ?_
    subst hsum
    refine Returns.pure ⟨reduced_tmod _, ?_, fun h h' => Int.tmod_nonneg _ (add_nonneg h h'),
      fun h h' => tmod_nonpos (add_nonpos h h')⟩
    rw [cast_tmod, hodd, Int.cast_one, mul_one, Int.cast_add]
  next heven =>
    have hzero : b % 2 = 0 := by omega
    refine Returns.pure ⟨hres, ?_, fun h _ => h, fun h _ => h⟩
    rw [hzero, Int.cast_zero, mul_zero, add_zero]

/-- Doubling keeps the residue of `res + a * b`, and the sign that `res` and `a` have in
common. -/
theorem modmultLoop_spec {res a b : ℤ} (hres : Reduced res) (ha : Reduced a) (hb : 0 ≤ b) :
    Returns (modmultLoop res a b) fun r => Reduced r ∧ (r : F) = res + a * b ∧
      (0 ≤ res → 0 ≤ a → 0 ≤ r) ∧ (res ≤ 0 → a ≤ 0 → r ≤ 0) := by
  have hbounds : -2 ^ 63 ≤ 2 * a ∧ 2 * a < 2 ^ 63 := by
    unfold Reduced PRIME at ha
    omega
  rw [modmultLoop]
  split
  next hzero =>
    refine Returns.pure ⟨hres, ?_, fun h _ => h, fun h _ => h⟩
    rw [hzero, Int.cast_zero, mul_zero, add_zero]
  next hne =>
    have hpos : 0 < b := by omega
    -- `b` is twice its half and its last bit
    have hbits : (b : F) = 2 * (b / 2 : ℤ) + (b % 2 : ℤ) := by
      exact_mod_cast congrArg (Int.cast : ℤ → F) (Int.mul_ediv_add_emod b 2).symm
    rw [if_pos hpos]
    refine (addOdd_spec hres ha).bind fun res' ⟨hres', hcast, hnonneg, hnonpos⟩ => ?_
    refine (ll_returns hbounds.1 hbounds.2).bind fun double hdouble => ?_
    subst hdouble
    -- the recursion is on `b / 2`, with `a` doubled modulo `PRIME`
    refine (modmultLoop_spec hres' (reduced_tmod _) (by omega : 0 ≤ b / 2)).mono
      fun r ⟨hr, hval, hge, hle⟩ => ⟨hr, ?_, fun h h' => ?_, fun h h' => ?_⟩
    · rw [hval, hcast, cast_tmod, hbits]
      push_cast
      ring
    · exact hge (hnonneg h h') (Int.tmod_nonneg _ (by omega))
    · exact hle (hnonpos h h') (tmod_nonpos (by omega))
termination_by b.toNat

theorem modmult_spec {a b : ℤ} (hb : 0 ≤ b) :
    Returns (modmult a b) fun r => Reduced r ∧ (r : F) = a * b ∧
      (0 ≤ a → 0 ≤ r) ∧ (a ≤ 0 → r ≤ 0) := by
  refine (modmultLoop_spec ⟨by decide, by decide⟩ (reduced_tmod a) hb).mono
    fun r ⟨hr, hval, hge, hle⟩ => ⟨hr, ?_, fun h => hge le_rfl (Int.tmod_nonneg _ h),
      fun h => hle le_rfl (tmod_nonpos h)⟩
  rw [hval, cast_tmod, Int.cast_zero, zero_add]

theorem modmult_endless (a : ℤ) {b : ℤ} (hb : b < 0) : modmult a b = .error .endless := by
  unfold modmult
  rw [modmultLoop, if_neg hb.ne, if_neg hb.not_gt]

/-- A number whose products with a remainder, or whose powers, are in range. -/
def PowerFits (number : ℤ) (exp : ℕ) : Prop := number ≤ 9 ∨ number ^ exp < 2 ^ 63

theorem PowerFits.mono {number n : ℤ} {e exp : ℕ} (h : PowerFits n exp) (h₁ : 1 ≤ number)
    (hn : number ≤ n) (he : e ≤ exp) : PowerFits number e := by
  rcases h with h | h
  · exact Or.inl (hn.trans h)
  · refine Or.inr (lt_of_le_of_lt ?_ h)
    calc number ^ e ≤ n ^ e := pow_le_pow_left₀ (by omega) hn e
      _ ≤ n ^ exp := pow_le_pow_right₀ (h₁.trans hn) he

theorem abs_tmod_le (z : ℤ) : |z.tmod PRIME| ≤ |z| := by
  rw [Int.abs_eq_natAbs, Int.abs_eq_natAbs, Int.natAbs_tmod]
  exact_mod_cast Nat.mod_le _ _

/-- One more factor. -/
theorem PowerFits.abs_mul_lt {n z x : ℤ} {e exp : ℕ} (h : PowerFits n exp) (h₁ : 1 ≤ n)
    (he : e < exp) (hz : Reduced z) (hze : |z| ≤ n ^ e) (hx : |x| ≤ n) :
    |z * x| < 2 ^ 63 ∧ |z * x| ≤ n ^ (e + 1) := by
  have hle : |z * x| ≤ n ^ (e + 1) := by
    rw [abs_mul, pow_succ]
    exact mul_le_mul hze hx (abs_nonneg x) (by positivity)
  refine ⟨?_, hle⟩
  -- either the number is at most nine, or the power itself is below `2 ^ 63`
  rcases h with h | h
  · have hz' : |z| < PRIME := abs_lt.mpr hz
    have hP : PRIME = 992429121339693967 := rfl
    have hnonneg := abs_nonneg x
    rw [abs_mul]
    nlinarith
  · exact hle.trans_lt ((pow_le_pow_right₀ h₁ he).trans_lt h)

/-- The bounds of the coefficients keep the products of `gcdExtended` small. -/
theorem gcdExtended_spec {a b : ℤ} (ha : 0 < a) (hb : 0 ≤ b) (ha' : a < 2 ^ 63)
    (hb' : b < 2 ^ 63) :
    Returns (gcdExtended a b) fun (x, y) =>
      a * x + b * y = Int.gcd a b ∧ |x| ≤ max 1 b ∧ |y| ≤ a ∧ (b = 0 → y = 0) := by
  rw [gcdExtended]
  split
  next hzero =>
    subst hzero
    refine Returns.pure ⟨?_, by simp, by simp [ha.le], fun _ => rfl⟩
    rw [Int.gcd_zero_right, mul_one, mul_zero, add_zero, Int.natAbs_of_nonneg ha.le]
  -- the call below is on `b` and the remainder, whose bounds carry over
  next hne =>
    have hpos : 0 < b := by omega
    have hc : 0 ≤ a.tmod b := Int.tmod_nonneg b ha.le
    have hcb : a.tmod b < b := Int.tmod_lt_of_pos a hpos
    have hdiv : a.tmod b + b * a.tdiv b = a := Int.tmod_add_mul_tdiv a b
    have hn : 0 ≤ a.tdiv b := Int.tdiv_nonneg ha.le hb
    have hgcd : Int.gcd b (a.tmod b) = Int.gcd a b := by
      rw [Int.gcd_comm a b]
      conv_rhs => rw [← hdiv]
      rw [Int.gcd_add_mul_left_right]
    refine (gcdExtended_spec hpos hc hb' (hcb.trans hb')).bind
      fun (x1, y1) ⟨hbez, hx, hy, hy₀⟩ => ?_
    -- the product is at most the part of `a` that `b` divides
    have hprod : |y1 * a.tdiv b| ≤ b * a.tdiv b := by
      rw [abs_mul, abs_of_nonneg hn]
      exact mul_le_mul_of_nonneg_right hy hn
    have hbound : |x1 - y1 * a.tdiv b| ≤ a := by
      rcases eq_or_lt_of_le hc with hzero | hrest
      · -- The call below was the last one.
        rw [← hzero, max_eq_left zero_le_one] at hx
        rw [hy₀ hzero.symm, zero_mul, sub_zero]
        exact hx.trans ha
      · rw [max_eq_right (by omega)] at hx
        calc |x1 - y1 * a.tdiv b| ≤ |x1| + |y1 * a.tdiv b| := abs_sub _ _
          _ ≤ a.tmod b + b * a.tdiv b := add_le_add hx hprod
          _ = a := hdiv
    rw [abs_le] at hprod hbound
    refine (ll_returns (by omega) (by omega)).bind fun product hproduct => ?_
    subst hproduct
    refine (ll_returns (by omega) (by omega)).bind fun y hy' => ?_
    subst hy'
    refine Returns.pure ⟨?_, hy.trans (le_max_right 1 b), abs_le.mpr hbound,
      fun hzero => absurd hzero hne⟩
    rw [← hgcd]
    linear_combination hbez - y1 * hdiv
termination_by b.natAbs
decreasing_by
  rw [Int.natAbs_tmod]
  exact Nat.mod_lt _ (by omega)

theorem negateIf_spec {ok : Bool} {z : ℤ} (hz : |z| < 2 ^ 63) :
    Returns (negateIf ok z) (· = if ok then -z else z) := by
  rw [abs_lt] at hz
  unfold negateIf
  split
  next => exact (ll_returns (by omega) (by omega)).mono fun _ h => h.trans (mul_neg_one z)
  next => exact Returns.pure rfl

theorem inverse_spec {lower : ℤ} (hred : Reduced lower) (hne : (lower : F) ≠ 0) :
    Returns (inverse lower) fun r => 0 ≤ r ∧ r < PRIME ∧ (r : F) = (lower : F)⁻¹ := by
  have hP : PRIME = 992429121339693967 := rfl
  obtain ⟨hlow, hhigh⟩ := hred
  have hzero : lower ≠ 0 := fun h => hne (by rw [h, Int.cast_zero])
  have hpos : 0 < |lower| := abs_pos.mpr hzero
  have hlt : |lower| < PRIME := abs_lt.mpr ⟨hlow, hhigh⟩
  have habs : (if decide (lower < 0) then -lower else lower) = |lower| := by
    simp only [decide_eq_true_eq]
    split
    next hneg => exact (abs_of_neg hneg).symm
    next hpos => exact (abs_of_nonneg (by omega)).symm
  -- `PRIME` is prime and does not divide `lower`
  have hgcd : Int.gcd PRIME |lower| = 1 := by
    refine (prime_PRIME.out.coprime_iff_not_dvd).mpr fun hdvd => hne ?_
    rw [Int.natAbs_abs] at hdvd
    exact (ZMod.intCast_zmod_eq_zero_iff_dvd lower _).mpr (Int.natCast_dvd.mpr hdvd)
  unfold inverse
  dsimp only
  -- the sign is taken off before the algorithm, and put back on its result
  refine (negateIf_spec (by omega)).bind fun positive hpositive => ?_
  rw [habs] at hpositive
  subst hpositive
  refine (gcdExtended_spec (by omega) hpos.le (by omega) (by omega)).bind
    fun (x, y) ⟨hbez, _, hy, _⟩ => ?_
  have hy₆₃ : |y| < 2 ^ 63 := by omega
  refine (negateIf_spec hy₆₃).bind fun y' hy' => ?_
  have hsign : (lower : F) * (y' : F) = 1 := by
    have hmul : lower * y' = |lower| * y := by
      rw [hy', ← habs]
      split <;> ring
    rw [hgcd] at hbez
    have hcast : ((PRIME * x + |lower| * y : ℤ) : F) = (1 : ℤ) :=
      congrArg (Int.cast : ℤ → F) hbez
    rw [Int.cast_add, Int.cast_mul, cast_PRIME, zero_mul, zero_add, ← hmul] at hcast
    rw [← Int.cast_mul, hcast, Int.cast_one]
  -- adding `PRIME` once makes the result positive
  have hbound : 0 ≤ y' + PRIME ∧ y' + PRIME < 2 ^ 63 := by
    rw [abs_le] at hy
    split at hy' <;> omega
  refine (ll_returns (by omega) hbound.2).bind fun sum hsum => ?_
  subst hsum
  refine Returns.pure ⟨Int.tmod_nonneg _ hbound.1, (reduced_tmod _).2, ?_⟩
  rw [cast_tmod, Int.cast_add, cast_PRIME, add_zero]
  exact (inv_eq_of_mul_eq_one_right hsign).symm

/-- A remainder that is not zero is not a multiple of `PRIME`. -/
theorem Reduced.cast_ne_zero {z : ℤ} (hred : Reduced z) (hne : z ≠ 0) : (z : F) ≠ 0 := by
  intro hzero
  have hdvd : PRIME ∣ z := (ZMod.intCast_zmod_eq_zero_iff_dvd z 992429121339693967).mp hzero
  exact hne (Int.eq_zero_of_abs_lt_dvd hdvd (abs_lt.mpr hred))

/-- **The helpers compute what they are for**, up to the edge of a `long long`: the product, with
the sign of its first factor, the coefficients of a greatest common divisor, and the inverse
that `reconstructSecret` takes of them. -/
theorem helpers_exact :
    (∀ a b : ℤ, 0 ≤ b → Returns (modmult a b) fun r =>
        |r| < PRIME ∧ (0 ≤ a → 0 ≤ r) ∧ (a ≤ 0 → r ≤ 0) ∧ r ≡ a * b [ZMOD PRIME]) ∧
      (∀ a b : ℤ, 0 < a → a < 2 ^ 63 → 0 ≤ b → b ≤ a → Returns (gcdExtended a b) fun (x, y) =>
        a * x + b * y = Int.gcd a b ∧ |x| ≤ max 1 b ∧ |y| ≤ a) ∧
      ∀ lower : ℤ, |lower| < PRIME → lower ≠ 0 → Returns (inverse lower) fun r =>
        0 ≤ r ∧ r < PRIME ∧ lower * r ≡ 1 [ZMOD PRIME] := by
  refine ⟨fun a b hb => ?_, fun a b ha ha' hb hle => ?_, fun lower hlower hne => ?_⟩
  · refine (modmult_spec hb).mono fun r ⟨hred, hval, hge, hle⟩ => ⟨abs_lt.mpr hred, hge, hle, ?_⟩
    refine modEq_of_cast ?_
    rw [hval, Int.cast_mul]
  · exact (gcdExtended_spec ha hb ha' (hle.trans_lt ha')).mono
      fun (x, y) ⟨hbez, hx, hy, _⟩ => ⟨hbez, hx, hy⟩
  · have hred : Reduced lower := abs_lt.mp hlower
    have hunit := hred.cast_ne_zero hne
    refine (inverse_spec hred hunit).mono fun r ⟨hge, hlt, hval⟩ => ⟨hge, hlt, ?_⟩
    refine modEq_of_cast ?_
    rw [Int.cast_mul, hval, mul_inv_cancel₀ hunit, Int.cast_one]

/-- Operands at both ends of a `long long`, and a negative residue. -/
theorem helpers_exact_extreme :
    Returns (modmult (-2 ^ 63) (2 ^ 63 - 1)) (fun r => |r| < PRIME ∧ (0 ≤ (-2 ^ 63 : ℤ) → 0 ≤ r) ∧
        ((-2 ^ 63 : ℤ) ≤ 0 → r ≤ 0) ∧ r ≡ -2 ^ 63 * (2 ^ 63 - 1) [ZMOD PRIME]) ∧
      Returns (gcdExtended (2 ^ 63 - 1) (2 ^ 63 - 2)) (fun (x, y) =>
        (2 ^ 63 - 1) * x + (2 ^ 63 - 2) * y = Int.gcd (2 ^ 63 - 1) (2 ^ 63 - 2) ∧
          |x| ≤ max 1 (2 ^ 63 - 2) ∧ |y| ≤ 2 ^ 63 - 1) ∧
      Returns (inverse (-6)) fun r => 0 ≤ r ∧ r < PRIME ∧ -6 * r ≡ 1 [ZMOD PRIME] :=
  ⟨helpers_exact.1 _ _ (by decide), helpers_exact.2.1 _ _ (by decide) (by decide) (by decide)
    (by decide), helpers_exact.2.2 _ (by decide) (by decide)⟩

/-! ### The shares are points of a polynomial -/

open Polynomial in
/-- The polynomial over the integers modulo `PRIME` with the given coefficients. -/
noncomputable def polynomial (coefficients : List ℤ) : F[X] :=
  ∑ e : Fin coefficients.length, C ((coefficients.getD e 0 : ℤ) : F) * X ^ (e : ℕ)

theorem degree_polynomial_lt (coefficients : List ℤ) :
    (polynomial coefficients).degree < coefficients.length :=
  Polynomial.degree_sum_fin_lt _

theorem coeff_polynomial (coefficients : List ℤ) (e : ℕ) :
    (polynomial coefficients).coeff e = ((coefficients.getD e 0 : ℤ) : F) := by
  unfold polynomial
  rw [Polynomial.finsetSum_coeff]
  simp only [Polynomial.coeff_C_mul_X_pow]
  rcases Nat.lt_or_ge e coefficients.length with hlt | hge
  · rw [Finset.sum_eq_single (⟨e, hlt⟩ : Fin coefficients.length)
      (fun i _ hi => if_neg fun h => hi (Fin.ext h.symm)) (fun h => absurd (Finset.mem_univ _) h),
      if_pos rfl]
  · rw [List.getD_eq_default _ _ hge, Int.cast_zero]
    exact Finset.sum_eq_zero fun i _ => if_neg fun h => by omega

theorem eval_polynomial (coefficients : List ℤ) (x : F) :
    (polynomial coefficients).eval x =
      ∑ e ∈ Finset.range coefficients.length, ((coefficients.getD e 0 : ℤ) : F) * x ^ e := by
  unfold polynomial
  rw [Polynomial.eval_finsetSum,
    ← Fin.sum_univ_eq_sum_range fun e => ((coefficients.getD e 0 : ℤ) : F) * x ^ e]
  refine Finset.sum_congr rfl fun e _ => ?_
  rw [Polynomial.eval_mul, Polynomial.eval_C, Polynomial.eval_pow, Polynomial.eval_X]

/-- The first coefficient is the value at zero. -/
theorem eval_zero_polynomial (secret : ℤ) (rest : List ℤ) :
    (polynomial (secret :: rest)).eval 0 = secret := by
  rw [eval_polynomial, List.length_cons, Finset.sum_range_succ',
    Finset.sum_eq_zero fun e _ => by rw [pow_succ, mul_zero, mul_zero]]
  rw [List.getD_cons_zero, pow_zero, mul_one, zero_add]

theorem power_spec {number : ℤ} {exp : ℕ} (h₁ : 1 ≤ number) (hfits : PowerFits number exp) :
    Returns (power number exp) fun r =>
      0 ≤ r ∧ r < PRIME ∧ (r : F) = (number : F) ^ exp := by
  unfold power
  -- after `e` steps: the power modulo `PRIME`, not larger than the power itself
  refine (Returns.foldlM_range
    (I := fun e r => (0 ≤ r ∧ r < PRIME ∧ (r : F) = (number : F) ^ e) ∧ |r| ≤ number ^ e)
    ⟨⟨by decide, by decide, by rw [Int.cast_one, pow_zero]⟩, by rw [pow_zero, abs_one]⟩
    fun e current he hI => ?_).mono fun r h => h.1
  obtain ⟨⟨hge, hlt, hcast⟩, habs⟩ := hI
  have hred : Reduced current := ⟨lt_of_lt_of_le (by decide) hge, hlt⟩
  obtain ⟨hrange, hle⟩ := hfits.abs_mul_lt h₁ he hred habs (abs_of_pos (by omega)).le
  have hpos : 0 ≤ current * number := mul_nonneg hge (by omega)
  refine (ll_returns (by omega) (abs_lt.mp hrange).2).bind fun product hproduct => ?_
  subst hproduct
  refine Returns.pure ⟨⟨Int.tmod_nonneg _ hpos, (reduced_tmod _).2, ?_⟩, ?_⟩
  · rw [cast_tmod, Int.cast_mul, hcast, pow_succ]
  · exact (abs_tmod_le _).trans hle

theorem getD_of_forall_mem {coefficients : List ℤ} {P : ℤ → Prop} (h : ∀ c ∈ coefficients, P c)
    (h₀ : P 0) (e : ℕ) : P (coefficients.getD e 0) := by
  rcases Nat.lt_or_ge e coefficients.length with hlt | hge
  · rw [List.getD_eq_getElem _ _ hlt]
    exact h _ (List.getElem_mem hlt)
  · rwa [List.getD_eq_default _ _ hge]

/-- **Evaluation.** The loop computes the representative of the value of the polynomial. -/
theorem evaluate_spec {coefficients : List ℤ} (number : ℤ) (h₁ : 1 ≤ number)
    (hfits : PowerFits number (coefficients.length - 1)) (hne : coefficients ≠ [])
    (hcoeff : ∀ c ∈ coefficients, 0 ≤ c ∧ c < PRIME) :
    evaluate coefficients number =
      .ok (((polynomial coefficients).eval (number : F)).val : ℤ) := by
  have hget := getD_of_forall_mem hcoeff (by decide)
  have hlen : coefficients.length - 1 + 1 = coefficients.length :=
    Nat.succ_pred_eq_of_pos (List.length_pos_iff.mpr hne)
  -- after `e` steps: the value of the terms up to `e`
  refine Returns.eq_ok (Returns.mono (Returns.foldlM_range
    (I := fun e r => 0 ≤ r ∧ r < PRIME ∧
      (r : F) = ∑ i ∈ Finset.range (e + 1), ((coefficients.getD i 0 : ℤ) : F) * number ^ i)
    ?_ fun e accumulator he hI => ?_) fun r hr => ?_)
  · refine ⟨(hget 0).1, (hget 0).2, ?_⟩
    rw [Finset.sum_range_one, pow_zero, mul_one]
  · obtain ⟨hge, hlt, hcast⟩ := hI
    refine (power_spec h₁ (hfits.mono h₁ le_rfl he)).bind fun current ⟨hcge, _, hpow⟩ => ?_
    refine (modmult_spec (Int.tmod_nonneg _ (hget (e + 1)).1)).bind
      fun product ⟨hred, hprod, hpos, _⟩ => ?_
    -- the repeated reductions of the source change nothing
    have hsum : accumulator.tmod PRIME = accumulator :=
      Int.tmod_eq_of_lt hge hlt
    have hterm : (product.tmod PRIME).tmod PRIME = product := by
      rw [Int.tmod_eq_of_lt (hpos hcge) hred.2, Int.tmod_eq_of_lt (hpos hcge) hred.2]
    have hbound := hpos hcge
    have hP : PRIME = 992429121339693967 := rfl
    have hlt' : product < PRIME := hred.2
    rw [hsum, hterm]
    refine (ll_returns (by omega) (by omega)).bind fun sum hs => ?_
    subst hs
    refine Returns.pure ⟨Int.tmod_nonneg _ (by omega), (reduced_tmod _).2, ?_⟩
    rw [cast_tmod, Int.cast_add, hcast, hprod, hpow, cast_tmod,
      Finset.sum_range_succ _ (e + 1), mul_comm ((number : F) ^ (e + 1))]
  · obtain ⟨hge, hlt, hcast⟩ := hr
    rw [hlen, ← eval_polynomial] at hcast
    exact eq_val hge hlt hcast

/-- The share with a number: the value of the polynomial there. -/
noncomputable def share (f : Polynomial F) (number : ℕ) : SecretPair :=
  ⟨number, ((f.eval (number : F)).val : ℤ)⟩

theorem calculateSecretPairs_spec {n : ℕ} {coefficients : List ℤ}
    (hfits : PowerFits n (coefficients.length - 1)) (hne : coefficients ≠ [])
    (hcoeff : ∀ c ∈ coefficients, 0 ≤ c ∧ c < PRIME) :
    calculateSecretPairs n coefficients =
      .ok ((List.range n).map fun i => share (polynomial coefficients) (i + 1)) := by
  unfold calculateSecretPairs
  -- after `m` steps: the shares `1..m`
  refine Returns.eq_ok (Returns.foldlM_range (s := [])
    (I := fun m pairs =>
      pairs = (List.range m).map fun i => share (polynomial coefficients) (i + 1))
    rfl fun i pairs hi hI => ?_)
  have heval := evaluate_spec (i + 1 : ℕ) (by omega)
    (hfits.mono (by omega) (by omega) le_rfl) hne hcoeff
  rw [Int.cast_natCast] at heval
  rw [heval]
  refine Returns.pure ?_
  rw [hI, List.range_succ, List.map_append, List.map_singleton]
  rfl

/-! ### The secret is recovered from the shares -/

section Reconstruction

variable {pairs : List SecretPair} {i : ℕ}

/-- The number of the share `j`. -/
def number (pairs : List SecretPair) (j : ℕ) : ℤ := (pairs.getD j ⟨0, 0⟩).x

/-- The numbers of the shares are different and in `1..9`, their values not negative. -/
structure Proper (pairs : List SecretPair) : Prop where
  bounds : ∀ j < pairs.length, 1 ≤ number pairs j ∧ number pairs j ≤ 9
  injOn : Set.InjOn (number pairs) (Finset.range pairs.length)
  nonneg : ∀ j < pairs.length, 0 ≤ (pairs.getD j ⟨0, 0⟩).y

/-- The numbers of the shares are different and in `1..n`. -/
structure Numbered (pairs : List SecretPair) (n : ℤ) : Prop where
  bounds : ∀ j < pairs.length, 1 ≤ number pairs j ∧ number pairs j ≤ n
  injOn : Set.InjOn (number pairs) (Finset.range pairs.length)

theorem Proper.numbered (h : Proper pairs) : Numbered pairs 9 := ⟨h.bounds, h.injOn⟩

/-- Different numbers of shares are different modulo `PRIME`. -/
theorem Numbered.cast_injOn {n : ℤ} (h : Numbered pairs n) (hn : n < PRIME) :
    Set.InjOn (fun j => (number pairs j : F)) (Finset.range pairs.length) := by
  intro i hi j hj heq
  have hbi := h.bounds i (Finset.mem_range.mp hi)
  have hbj := h.bounds j (Finset.mem_range.mp hj)
  have hred : Reduced (number pairs i - number pairs j) := ⟨by omega, by omega⟩
  by_contra hne
  refine hred.cast_ne_zero (sub_ne_zero.mpr fun hnumber => hne (h.injOn hi hj hnumber)) ?_
  rw [Int.cast_sub]
  exact sub_eq_zero.mpr heq

theorem products_spec {n : ℤ} (h : Numbered pairs n) (hn : n < PRIME)
    (hfits : PowerFits n (pairs.length - 1)) (hi : i < pairs.length) :
    Returns (products pairs i) fun (upper, lower) => Reduced upper ∧ Reduced lower ∧
      (upper : F) = ∏ j ∈ (Finset.range pairs.length).erase i, -(number pairs j : F) ∧
      (lower : F) =
        ∏ j ∈ (Finset.range pairs.length).erase i, ((number pairs i : F) - number pairs j) := by
  refine (Returns.foldlM_range (I := fun m (upper, lower) => (Reduced upper ∧ Reduced lower ∧
      (upper : F) = ∏ j ∈ (Finset.range m).erase i, -(number pairs j : F) ∧
      (lower : F) = ∏ j ∈ (Finset.range m).erase i, ((number pairs i : F) - number pairs j)) ∧
      |upper| ≤ n ^ ((Finset.range m).erase i).card ∧
      |lower| ≤ n ^ ((Finset.range m).erase i).card)
    ?_ fun j (upper, lower) hj hI => ?_).mono fun _ h => h.1
  · exact ⟨⟨⟨by decide, by decide⟩, ⟨by decide, by decide⟩, by simp, by simp⟩, by simp, by simp⟩
  obtain ⟨⟨hu, hl, hupper, hlower⟩, hupper_le, hlower_le⟩ := hI
  dsimp only
  split
  next heq =>
    -- The index itself is left out of both products.
    have herase : (Finset.range (j + 1)).erase i = (Finset.range j).erase i := by
      rw [heq, Finset.range_add_one, Finset.erase_insert Finset.notMem_range_self,
        Finset.erase_eq_of_notMem Finset.notMem_range_self]
    refine Returns.pure ?_
    rw [herase]
    exact ⟨⟨hu, hl, hupper, hlower⟩, hupper_le, hlower_le⟩
  next hne =>
    have herase : (Finset.range (j + 1)).erase i = insert j ((Finset.range j).erase i) := by
      rw [Finset.range_add_one, Finset.erase_insert_of_ne (Ne.symm hne)]
    have hmem : j ∉ (Finset.range j).erase i := fun hmem =>
      Finset.notMem_range_self (Finset.mem_of_mem_erase hmem)
    have hcard : ((Finset.range j).erase i).card < pairs.length - 1 := by
      have hsub : insert j ((Finset.range j).erase i) ⊆ (Finset.range pairs.length).erase i := by
        rw [← herase]
        exact Finset.erase_subset_erase i (Finset.range_mono hj)
      have hle := Finset.card_le_card hsub
      rwa [Finset.card_insert_of_notMem hmem, Finset.card_erase_of_mem (Finset.mem_range.mpr hi),
        Finset.card_range] at hle
    have hbi := h.bounds i hi
    have hbj := h.bounds j hj
    have hP : PRIME = 992429121339693967 := rfl
    have h₁ : 1 ≤ n := hbi.1.trans hbi.2
    obtain ⟨hux, hux_le⟩ := hfits.abs_mul_lt h₁ hcard hu hupper_le
      (x := number pairs j) (by rw [abs_le]; omega)
    obtain ⟨hlx, hlx_le⟩ := hfits.abs_mul_lt h₁ hcard hl hlower_le
      (x := number pairs i - number pairs j) (by rw [abs_le]; omega)
    have hux' := abs_lt.mp hux
    have hlx' := abs_lt.mp hlx
    refine (ll_returns hux'.1.le hux'.2).bind fun u hu => ?_
    subst hu
    refine (ll_returns (by omega) (by omega)).bind fun u hu => ?_
    subst hu
    refine (ll_returns (by unfold number at hbi hbj; omega)
      (by unfold number at hbi hbj; omega)).bind fun d hd => ?_
    subst hd
    refine (ll_returns hlx'.1.le hlx'.2).bind fun l hl => ?_
    subst hl
    rw [herase, Finset.card_insert_of_notMem hmem]
    refine Returns.pure ⟨⟨reduced_tmod _, reduced_tmod _, ?_, ?_⟩, ?_, ?_⟩
    · rw [cast_tmod, Finset.prod_insert hmem, ← hupper]
      push_cast
      unfold number
      ring
    · rw [cast_tmod, Finset.prod_insert hmem, ← hlower]
      push_cast
      unfold number
      ring
    · refine (abs_tmod_le _).trans ?_
      rw [mul_neg_one, abs_neg]
      exact hux_le
    · exact (abs_tmod_le _).trans hlx_le

/-- **Reconstruction.** The code computes the sum of the weighted values. The loop of `modmult`
does not end on a negative value. -/
theorem reconstructSecret_ends {n : ℤ} (h : Numbered pairs n) (hn : n < PRIME)
    (hfits : PowerFits n (pairs.length - 1)) :
    Ends (reconstructSecret pairs)
      (fun e => e = .endless ∧ ∃ i < pairs.length, (pairs.getD i ⟨0, 0⟩).y.tmod PRIME < 0)
      fun r => (∀ i < pairs.length, 0 ≤ (pairs.getD i ⟨0, 0⟩).y.tmod PRIME) ∧ 0 ≤ r ∧ r < PRIME ∧
        (r : F) = ∑ i ∈ Finset.range pairs.length,
          (∏ j ∈ (Finset.range pairs.length).erase i, -(number pairs j : F)) *
          (∏ j ∈ (Finset.range pairs.length).erase i,
            ((number pairs i : F) - number pairs j))⁻¹ *
          ((pairs.getD i ⟨0, 0⟩).y : F) := by
  refine Ends.foldlM_range (I := fun m r =>
      (∀ i < m, 0 ≤ (pairs.getD i ⟨0, 0⟩).y.tmod PRIME) ∧ 0 ≤ r ∧ r < PRIME ∧
      (r : F) = ∑ i ∈ Finset.range m,
        (∏ j ∈ (Finset.range pairs.length).erase i, -(number pairs j : F)) *
        (∏ j ∈ (Finset.range pairs.length).erase i,
          ((number pairs i : F) - number pairs j))⁻¹ *
        ((pairs.getD i ⟨0, 0⟩).y : F))
    ⟨fun i hi => absurd hi (Nat.not_lt_zero i), le_rfl, by decide, by simp⟩
    fun i secret hi hI => ?_
  obtain ⟨hvalues, hge, hlt, hcast⟩ := hI
  refine (Ends.of_returns (products_spec h hn hfits hi)).bind
    fun (upper, lower) ⟨_, hl, hupper, hlower⟩ => ?_
  have hne : (lower : F) ≠ 0 := by
    -- The other numbers are different from that of the share `i`.
    rw [hlower]
    refine Finset.prod_ne_zero_iff.mpr fun j hj heq => ?_
    have hij := h.cast_injOn hn (Finset.mem_coe.mpr (Finset.mem_range.mpr hi))
      (Finset.mem_coe.mpr (Finset.mem_of_mem_erase hj)) (sub_eq_zero.mp heq)
    exact Finset.ne_of_mem_erase hj hij.symm
  refine (Ends.of_returns (inverse_spec hl hne)).bind fun inv ⟨hinv, _, hinvcast⟩ => ?_
  refine (Ends.of_returns (modmult_spec (Int.tmod_nonneg _ hinv))).bind
    fun weight ⟨_, hweight, _⟩ => ?_
  rcases lt_or_ge ((pairs.getD i ⟨0, 0⟩).y.tmod PRIME) 0 with hneg | hvalue
  · show Ends (modmult _ _ >>= _) _ _
    rw [modmult_endless _ hneg]
    exact Ends.error ⟨rfl, i, hi, hneg⟩
  refine (Ends.of_returns (modmult_spec hvalue)).bind fun current ⟨hred, hcurrent, _⟩ => ?_
  have hP : PRIME = 992429121339693967 := rfl
  have hcred := reduced_tmod current
  obtain ⟨hc₁, hc₂⟩ := hcred
  refine (Ends.of_returns (ll_returns (by omega) (by omega))).bind fun sum hs => ?_
  subst hs
  refine (Ends.of_returns (ll_returns (by omega) (by omega))).bind fun sum hs => ?_
  subst hs
  refine Ends.pure ⟨fun i' hi' => ?_, Int.tmod_nonneg _ (by omega), (reduced_tmod _).2, ?_⟩
  · rcases Nat.lt_succ_iff_lt_or_eq.mp hi' with hlt | rfl
    · exact hvalues i' hlt
    · exact hvalue
  · rw [cast_tmod, Int.cast_add, Int.cast_add, cast_PRIME, zero_add, cast_tmod, hcast, hcurrent,
      cast_tmod, cast_tmod, hweight, cast_tmod, hinvcast, hupper, hlower,
      Finset.sum_range_succ _ i]

theorem reconstructSecret_spec (h : Proper pairs) :
    Returns (reconstructSecret pairs) fun r => 0 ≤ r ∧ r < PRIME ∧
      (r : F) = ∑ i ∈ Finset.range pairs.length,
        (∏ j ∈ (Finset.range pairs.length).erase i, -(number pairs j : F)) *
        (∏ j ∈ (Finset.range pairs.length).erase i,
          ((number pairs i : F) - number pairs j))⁻¹ *
        ((pairs.getD i ⟨0, 0⟩).y : F) := by
  have hends := reconstructSecret_ends h.numbered (by decide) (Or.inl le_rfl)
  refine (hends.returns ?_).mono fun r hr => hr.2
  rintro e ⟨-, i, hi, hneg⟩
  exact hneg.not_ge (Int.tmod_nonneg _ (h.nonneg i hi))

end Reconstruction

/-! ### Splitting and restoring -/

/-- The shares `y` of a secret: the values of a polynomial of degree below `k`. -/
def SharesOf (k : ℕ) (secret : ℤ) (y : ℕ → SecretPair) : Prop :=
  ∃ f : Polynomial F, f.degree < k ∧ f.eval 0 = secret ∧ y = share f

/-- Shares with different numbers in `1..9`, whatever their values. -/
theorem proper_of_numbers {pairs : List SecretPair} {numbers : List ℕ}
    (hnodup : numbers.Nodup) (hbounds : ∀ i ∈ numbers, 1 ≤ i ∧ i ≤ 9)
    (hx : pairs.map SecretPair.x = numbers.map fun i : ℕ => (i : ℤ))
    (hy : ∀ p ∈ pairs, 0 ≤ p.y) : Proper pairs := by
  have hlen : pairs.length = numbers.length := by
    simpa using congrArg List.length hx
  -- the number of a pair is the one at its place in the list
  have hget : ∀ j (hj : j < pairs.length), number pairs j = (numbers[j] : ℤ) := fun j hj => by
    have h : (pairs.map SecretPair.x)[j]? = (numbers.map fun i : ℕ => (i : ℤ))[j]? := by rw [hx]
    rw [List.getElem?_map, List.getElem?_map, List.getElem?_eq_getElem hj,
      List.getElem?_eq_getElem (hlen ▸ hj)] at h
    unfold number
    rw [List.getD_eq_getElem _ _ hj]
    exact Option.some.inj h
  refine ⟨fun j hj => ?_, fun i hi j hj heq => ?_, fun j hj => ?_⟩
  · have hb := hbounds _ (List.getElem_mem (hlen ▸ hj))
    rw [hget j hj]
    omega
  -- different places, different numbers
  · rw [Finset.coe_range, Set.mem_Iio] at hi hj
    rw [hget i hi, hget j hj, Int.natCast_inj] at heq
    exact (hnodup.getElem_inj_iff).mp heq
  · rw [List.getD_eq_getElem _ _ hj]
    exact hy _ (List.getElem_mem hj)

/-- **Any `k` shares are restored to the secret.** -/
theorem SharesOf.restore {k : ℕ} {secret : ℤ} {y : ℕ → SecretPair} (h : SharesOf k secret y)
    (h₀ : 0 ≤ secret) (hlt : secret < PRIME) {numbers : List ℕ} (hnodup : numbers.Nodup)
    (hbounds : ∀ i ∈ numbers, 1 ≤ i ∧ i ≤ 9) (hk : k ≤ numbers.length) :
    restore k (numbers.map y) = .ok secret := by
  obtain ⟨f, hdeg, hzero, rfl⟩ := h
  have hproper : Proper (numbers.map (share f)) := by
    refine proper_of_numbers hnodup hbounds ?_ fun p hp => ?_
    · rw [List.map_map]
      rfl
    · obtain ⟨i, -, rfl⟩ := List.mem_map.mp hp
      exact Int.natCast_nonneg _
  refine Returns.eq_ok ((reconstructSecret_spec hproper).mono fun r ⟨hr₀, hr, hcast⟩ => ?_)
  -- The values are those of `f`, so the sum is the value of `f` at zero.
  have hvalue : ∀ i ∈ Finset.range (numbers.map (share f)).length,
      ((((numbers.map (share f)).getD i ⟨0, 0⟩).y : ℤ) : F) =
        f.eval (number (numbers.map (share f)) i : F) := fun i hi => by
    unfold number
    rw [List.getD_eq_getElem _ _ (Finset.mem_range.mp hi), List.getElem_map]
    unfold share
    rw [Int.cast_natCast, Int.cast_natCast, ZMod.natCast_zmod_val]
  rw [Finset.sum_congr rfl fun i hi => by rw [hvalue i hi],
    SecretSharing.sum_mul_eq_eval_zero (hproper.numbered.cast_injOn (by decide)) ?_, hzero] at hcast
  · rw [eq_val hr₀ hr hcast, ← eq_val h₀ hlt rfl]
  · refine hdeg.trans_le ?_
    rw [Finset.card_range, List.length_map]
    exact_mod_cast hk

/-- **Splitting.** The shares are the values of the polynomial with the drawn coefficients. -/
theorem split_eq {n k : ℕ} (hkn : k ≤ n) (hn : n ≤ 9) {secret : ℤ} (h₀ : 0 ≤ secret)
    (hlt : secret < PRIME) (draws : Draws) :
    split secret n k draws =
      .ok ((List.range n).map fun i =>
          share (polynomial (generateCoefficients k secret draws).1) (i + 1),
        (generateCoefficients k secret draws).2) := by
  unfold split
  rw [if_neg (by omega)]
  have hne : (generateCoefficients k secret draws).1 ≠ [] := List.cons_ne_nil _ _
  -- the secret and the draws are reduced
  have hcoeff : ∀ c ∈ (generateCoefficients k secret draws).1, 0 ≤ c ∧ c < PRIME := by
    intro c hc
    rcases List.mem_cons.mp hc with rfl | hc
    · exact ⟨h₀, hlt⟩
    · obtain ⟨i, -, rfl⟩ := List.mem_map.mp hc
      have hdraw := (draws i).property
      unfold MIN_SECRET MAX_SECRET at hdraw
      unfold PRIME
      omega
  generalize generateCoefficients k secret draws = g at hne hcoeff
  obtain ⟨coefficients, draws'⟩ := g
  dsimp only
  rw [calculateSecretPairs_spec (Or.inl (by omega)) hne hcoeff]
  rfl

theorem length_generateCoefficients {k : ℕ} (hk : 1 ≤ k) (secret : ℤ) (draws : Draws) :
    (generateCoefficients k secret draws).1.length = k := by
  unfold generateCoefficients
  rw [List.length_cons, List.length_map, List.length_range]
  omega

theorem split_spec {n k : ℕ} (hkn : k ≤ n) (hk : 1 ≤ k) (hn : n ≤ 9) {secret : ℤ}
    (h₀ : 0 ≤ secret) (hlt : secret < PRIME) (draws : Draws) :
    Returns (split secret n k draws) fun (pairs, _) =>
      ∃ y, SharesOf k secret y ∧ pairs = (List.range n).map fun i => y (i + 1) := by
  have hdeg := degree_polynomial_lt (generateCoefficients k secret draws).1
  rw [length_generateCoefficients hk] at hdeg
  exact ⟨_, split_eq hkn hn h₀ hlt draws, _, ⟨_, hdeg, eval_zero_polynomial secret _, rfl⟩, rfl⟩

/-- **Any `k` of the shares restore the secret**, in any order: neither splitting nor restoring
overflows, and what is restored is the secret. The shares lie on a polynomial of degree below `k`
over the field of `PRIME` elements, and the sums of the source are the value at zero of the
polynomial that interpolates them. -/
theorem restore_of_split {n k : ℕ} (hk : 1 ≤ k) (hkn : k ≤ n) (hn : n ≤ 9) {secret : ℤ}
    (h₀ : 0 ≤ secret) (hlt : secret < PRIME) (draws : Draws) :
    Returns (split secret n k draws) fun (pairs, _) => pairs.length = n ∧
      ∀ shares : List SecretPair, shares.Nodup → (∀ share ∈ shares, share ∈ pairs) →
        k ≤ shares.length → restore k shares = .ok secret := by
  refine (split_spec hkn hk hn h₀ hlt draws).mono fun (pairs, _) ⟨y, hshares, hpairs⟩ => ?_
  refine ⟨by rw [hpairs, List.length_map, List.length_range], fun shares hnodup hsub hlen => ?_⟩
  have hy : ∀ i : ℕ, (y i).x = i := fun i => by
    obtain ⟨f, -, -, rfl⟩ := hshares
    rfl
  -- A share is determined by its number.
  have hnumber : ∀ share ∈ shares, (1 ≤ share.x.toNat ∧ share.x.toNat ≤ 9) ∧
      y share.x.toNat = share := by
    intro share hshare
    have hmem := hsub share hshare
    rw [hpairs] at hmem
    obtain ⟨i, hi, rfl⟩ := List.mem_map.mp hmem
    rw [hy, Int.toNat_natCast]
    have hlt := List.mem_range.mp hi
    exact ⟨⟨by omega, by omega⟩, rfl⟩
  have hmap : (shares.map fun share => share.x.toNat).map y = shares := by
    rw [List.map_map]
    exact (List.map_congr_left fun share hshare => (hnumber share hshare).2).trans
      (List.map_id shares)
  have hnumbers : (shares.map fun share => share.x.toNat).Nodup :=
    List.Nodup.of_map y (hmap.symm ▸ hnodup)
  have hrestored := hshares.restore h₀ hlt hnumbers (fun i hi => ?_) (by rwa [List.length_map])
  · rwa [hmap] at hrestored
  · obtain ⟨share, hshare, rfl⟩ := List.mem_map.mp hi
    exact (hnumber share hshare).1

theorem restore_of_split_three :
    Returns (split 12345 6 3 fun _ => ⟨7, by decide⟩) fun (pairs, _) => pairs.length = 6 ∧
      ∀ shares : List SecretPair, shares.Nodup → (∀ share ∈ shares, share ∈ pairs) →
        3 ≤ shares.length → restore 3 shares = .ok 12345 :=
  restore_of_split (by decide) (by decide) (by decide) (by decide) (by decide) _

end Shamir
