import PathOram.Lib.Double
import PathOram.Lib.Returns
import PathOram.Lib.SecretSharing
import Mathlib.Data.List.GetD
import Mathlib.Tactic.IntervalCases
import Mathlib.Tactic.Linarith
import Mathlib.Tactic.NormNum

/-!
# Sharing integers for several servers

`shamir_parser.cpp` and its copies in `sql_handler.cpp` and `test-sum.cpp`. A secret is the
first coefficient of a polynomial, the share of server `x` its value at `x`; no modulus is
involved. The sums are computed in `double`.

The vector of coefficients has `k - 1` entries, and the loops index `k` of them. The entry
behind the end is taken to exist.

`reconstructSecret` takes the rounding of its operations as a parameter `fl`: `double` is the
code's own, `id` is exact arithmetic.
-/

namespace ShamirParser

open Double

inductive Fault where
  | outOfBounds
  | notFinite
  | invalidArgument
  | outOfRange
  deriving DecidableEq, Repr

/-- The conversion of a `double` to `int64_t`. Outside the range it is undefined; the processor
gives the smallest number. -/
def int64 (q : ℚ) : ℤ :=
  if -2 ^ 63 ≤ trunc q ∧ trunc q < 2 ^ 63 then trunc q else -2 ^ 63

theorem int64_mem (q : ℚ) : -2 ^ 63 ≤ int64 q ∧ int64 q < 2 ^ 63 := by
  unfold int64
  split
  next h => exact h
  next => decide

/-- A draw of `uniform_int_distribution(1, 100)`. -/
abbrev Coefficient : Type := { c : ℤ // 1 ≤ c ∧ c ≤ 100 }

theorem one_le_one_le_hundred : (1 : ℤ) ≤ 1 ∧ (1 : ℤ) ≤ 100 := by decide

/-- The generator `mt19937`, as the function that takes a seed to the numbers it gives. -/
abbrev Generator : Type := ℕ → ℕ → Coefficient

/-- `static_cast<uint32_t>(secret) ^ n ^ k`. -/
def seed (secret : ℤ) (n k : ℕ) : ℕ := (secret % 2 ^ 32).toNat ^^^ n ^^^ k

/-- The secret and the `k - 1` numbers drawn. -/
def coefficients (secret : ℤ) (draws : ℕ → Coefficient) (k : ℕ) : List ℤ :=
  secret :: (List.range (k - 1)).map fun i => (draws i).val

/-- `y += coefficients[i] * std::pow(x, i)`. -/
def addTerm (coefficients : List ℤ) (x y : ℤ) (i : ℕ) : ℤ :=
  int64 (double (double y + double (double (coefficients.getD i 0) * double ((x : ℚ) ^ i))))

/-- The share of server `x`. -/
def shareAt (coefficients : List ℤ) (k : ℕ) (x : ℤ) : ℤ :=
  (List.range k).foldl (addTerm coefficients x) 0

/-- A share is a number of 64 bits. -/
theorem shareAt_mem (coefficients : List ℤ) (x : ℤ) :
    -2 ^ 63 ≤ shareAt coefficients 3 x ∧ shareAt coefficients 3 x < 2 ^ 63 :=
  int64_mem _

/-- The shares of the servers `1..n`. -/
def sharesOf (coefficients : List ℤ) (n k : ℕ) : List (ℤ × ℤ) :=
  (List.range n).map fun i => ((i + 1 : ℕ), shareAt coefficients k (i + 1 : ℕ))

@[simp] theorem length_sharesOf (coefficients : List ℤ) (n k : ℕ) :
    (sharesOf coefficients n k).length = n := by
  unfold sharesOf
  rw [List.length_map, List.length_range]

theorem getD_sharesOf {n i : ℕ} (hi : i < n) (coefficients : List ℤ) (k : ℕ) :
    (sharesOf coefficients n k).getD i (0, 0) =
      (((i + 1 : ℕ) : ℤ), shareAt coefficients k (i + 1 : ℕ)) := by
  unfold sharesOf
  rw [List.getD_eq_getElem _ _ (by rwa [List.length_map, List.length_range]), List.getElem_map,
    List.getElem_range]

def shamirSecretSharing (g : Generator) (secret : ℤ) (n k : ℕ) : List (ℤ × ℤ) :=
  sharesOf (coefficients secret (g (seed secret n k)) k) n k

/-- `shares[i]`. -/
def entry (shares : List (ℤ × ℤ)) (i : ℕ) : Except Fault (ℤ × ℤ) :=
  match shares[i]? with
  | some share => .ok share
  | none => .error .outOfBounds

section Reconstruct

variable (fl : ℚ → ℚ)

/-- The quotient of two integers. A zero divisor gives an infinity or not a number, which the
conversion of the result to an integer leaves undefined. -/
def divide (a b : ℤ) : Except Fault ℚ :=
  if b = 0 then .error .notFinite else .ok (fl (fl a / fl b))

/-- The loop over `j`. -/
def lagrangeCoeff (shares : List (ℤ × ℤ)) (k i : ℕ) : Except Fault ℚ :=
  (List.range k).foldlM
    (fun lagrange_coeff j =>
      if i = j then pure lagrange_coeff
      else do
        let share ← entry shares i
        let other ← entry shares j
        let quotient ← divide fl (-other.1) (share.1 - other.1)
        pure (fl (lagrange_coeff * quotient)))
    1

/-- The value at zero of the polynomial through the first `k` shares. -/
def reconstructSecret (shares : List (ℤ × ℤ)) (k : ℕ) : Except Fault ℤ := do
  let secret ← (List.range k).foldlM
    (fun secret i => do
      let lagrange_coeff ← lagrangeCoeff fl shares k i
      let share ← entry shares i
      pure (fl (secret + fl (fl share.2 * lagrange_coeff))))
    0
  pure (nearest secret)

end Reconstruct

end ShamirParser

/-! ### The copies of the two functions -/

namespace SQLHandler

def shamirSecretSharing : ShamirParser.Generator → ℤ → ℕ → ℕ → List (ℤ × ℤ) :=
  ShamirParser.shamirSecretSharing

end SQLHandler

namespace SumAggregationTest

def reconstructSecret : (ℚ → ℚ) → List (ℤ × ℤ) → ℕ → Except ShamirParser.Fault ℤ :=
  ShamirParser.reconstructSecret

end SumAggregationTest

namespace ShamirParser

open Double

/-! ### Exact reconstruction -/

section Exact

variable {shares : List (ℤ × ℤ)} {k i : ℕ}

/-- The server of the share `j`. -/
def server (shares : List (ℤ × ℤ)) (j : ℕ) : ℤ := (shares.getD j (0, 0)).1

/-- The first `k` shares are there, and of different servers. -/
structure Distinct (shares : List (ℤ × ℤ)) (k : ℕ) : Prop where
  le : k ≤ shares.length
  injOn : Set.InjOn (server shares) (Finset.range k)

theorem entry_returns (h : k ≤ shares.length) (hi : i < k) :
    Returns (entry shares i) (· = shares.getD i (0, 0)) := by
  refine ⟨_, ?_, rfl⟩
  unfold entry
  rw [List.getElem?_eq_getElem (hi.trans_le h), List.getD_eq_getElem _ _ (hi.trans_le h)]

theorem divide_returns {a b : ℤ} (hb : b ≠ 0) : Returns (divide id a b) (· = (a : ℚ) / b) :=
  ⟨_, if_neg hb, rfl⟩

theorem Distinct.cast_injOn (h : Distinct shares k) :
    Set.InjOn (fun j => (server shares j : ℚ)) (Finset.range k) := by
  intro i hi j hj heq
  exact h.injOn hi hj (Int.cast_injective heq)

/-- The factor of share `j` in the coefficient of share `i`. -/
def factor (shares : List (ℤ × ℤ)) (i j : ℕ) : ℚ :=
  -(server shares j : ℚ) / ((server shares i : ℚ) - server shares j)

theorem lagrangeCoeff_spec (h : Distinct shares k) (hi : i < k) :
    Returns (lagrangeCoeff id shares k i)
      (· = ∏ j ∈ (Finset.range k).erase i, factor shares i j) := by
  refine Returns.foldlM_range
    (I := fun m (c : ℚ) => c = ∏ j ∈ (Finset.range m).erase i, factor shares i j)
    (by simp) fun j c hj hI => ?_
  split
  next heq =>
    -- The share itself is left out of the product.
    refine Returns.pure ?_
    rw [hI, heq, Finset.range_add_one, Finset.erase_insert Finset.notMem_range_self,
      Finset.erase_eq_of_notMem Finset.notMem_range_self]
  next hne =>
    have hmem : j ∉ (Finset.range j).erase i := fun hmem =>
      Finset.notMem_range_self (Finset.mem_of_mem_erase hmem)
    have hsub : server shares i - server shares j ≠ 0 := by
      intro hzero
      exact hne (h.injOn (Finset.mem_coe.mpr (Finset.mem_range.mpr hi))
        (Finset.mem_coe.mpr (Finset.mem_range.mpr hj)) (sub_eq_zero.mp hzero))
    refine (entry_returns h.le hi).bind fun s hs => ?_
    refine (entry_returns h.le hj).bind fun other hother => ?_
    subst hs hother
    refine (divide_returns hsub).bind fun quotient hquotient => ?_
    refine Returns.pure ?_
    rw [Finset.range_add_one, Finset.erase_insert_of_ne (Ne.symm hne),
      Finset.prod_insert hmem, ← hI, mul_comm, hquotient, Int.cast_sub, Int.cast_neg]
    rfl

/-- **Reconstruction.** The code computes the sum of the weighted values. -/
theorem reconstructSecret_spec (h : Distinct shares k) :
    Returns (reconstructSecret id shares k) (· = nearest (∑ i ∈ Finset.range k,
      (∏ j ∈ (Finset.range k).erase i, factor shares i j) * ((shares.getD i (0, 0)).2 : ℚ))) := by
  refine Returns.bind (Returns.foldlM_range (I := fun m (c : ℚ) => c = ∑ i ∈ Finset.range m,
      (∏ j ∈ (Finset.range k).erase i, factor shares i j) * ((shares.getD i (0, 0)).2 : ℚ))
    (by simp) fun i c hi hI => ?_) fun c hc => Returns.pure (congrArg nearest hc)
  refine (lagrangeCoeff_spec h hi).bind fun w hw => ?_
  refine (entry_returns h.le hi).bind fun s hs => Returns.pure ?_
  rw [Finset.sum_range_succ, ← hI, ← hw, mul_comm w, hs]
  rfl

open Polynomial in
/-- The value of a polynomial at zero is reconstructed from its values. -/
theorem reconstructSecret_eval (h : Distinct shares k) {f : ℚ[X]} (hf : f.degree < k)
    (heval : ∀ i < k, ((shares.getD i (0, 0)).2 : ℚ) = f.eval (server shares i : ℚ)) {secret : ℤ}
    (hsecret : f.eval 0 = secret) : reconstructSecret id shares k = .ok secret := by
  refine Returns.eq_ok ((reconstructSecret_spec h).mono fun r hr => ?_)
  have hsum := SecretSharing.sum_mul_eq_eval_zero h.cast_injOn
    (hf.trans_eq (by rw [Finset.card_range]))
  rw [hr, Finset.sum_congr rfl fun i hi => ?_, hsum, hsecret, nearest_intCast]
  rw [heval i (Finset.mem_range.mp hi)]
  unfold factor
  rw [Finset.prod_div_distrib, div_eq_mul_inv]

end Exact

/-! ### Shares are values of a polynomial -/

/-- The share at `x` of a polynomial. -/
def share (coefficients : List ℤ) (x : ℤ) : ℤ :=
  ∑ i ∈ Finset.range coefficients.length, coefficients.getD i 0 * x ^ i

section Rounding

variable {c : List ℤ} {x y z : ℤ} {k i : ℕ}

theorem int64_intCast (h : |z| < 2 ^ 53) : int64 z = z := by
  rw [abs_lt] at h
  unfold int64
  rw [trunc_intCast, if_pos ⟨by omega, by omega⟩]

/-- One pass of the loop is exact, while the numbers are small. -/
theorem addTerm_eq (hc : |c.getD i 0| < 2 ^ 53) (hx : |x ^ i| < 2 ^ 53)
    (hterm : |c.getD i 0 * x ^ i| < 2 ^ 53) (hy : |y| < 2 ^ 53)
    (hsum : |y + c.getD i 0 * x ^ i| < 2 ^ 53) :
    addTerm c x y i = y + c.getD i 0 * x ^ i := by
  unfold addTerm
  rw [double_intCast hy, double_intCast hc, ← Int.cast_pow, double_intCast hx, ← Int.cast_mul,
    double_intCast hterm, ← Int.cast_add, double_intCast hsum, int64_intCast hsum]

/-- **A share is the value of the polynomial**, as long as 53 bits hold it. -/
theorem shareAt_eq_share (hx : 1 ≤ x)
    (hbound : ∑ i ∈ Finset.range c.length, (|c.getD i 0| + 1) * x ^ i < 2 ^ 53) :
    shareAt c c.length x = share c x := by
  suffices h : ∀ m ≤ c.length, (List.range m).foldl (addTerm c x) 0 =
      ∑ i ∈ Finset.range m, c.getD i 0 * x ^ i from h _ le_rfl
  have hpow : ∀ i, 1 ≤ x ^ i := fun i => one_le_pow₀ hx
  have habs : ∀ i, |c.getD i 0 * x ^ i| = |c.getD i 0| * x ^ i := fun i => by
    rw [abs_mul, abs_of_pos (Int.lt_of_lt_of_le one_pos (hpow i))]
  -- The bound limits the partial sums and each of their terms.
  have hsums : ∀ m ≤ c.length, |∑ i ∈ Finset.range m, c.getD i 0 * x ^ i| < 2 ^ 53 := by
    intro m hm
    calc |∑ i ∈ Finset.range m, c.getD i 0 * x ^ i|
        ≤ ∑ i ∈ Finset.range m, |c.getD i 0 * x ^ i| := Finset.abs_sum_le_sum_abs _ _
      _ ≤ ∑ i ∈ Finset.range c.length, |c.getD i 0 * x ^ i| :=
        Finset.sum_le_sum_of_subset_of_nonneg (Finset.range_mono hm) fun i _ _ => abs_nonneg _
      _ ≤ ∑ i ∈ Finset.range c.length, (|c.getD i 0| + 1) * x ^ i :=
        Finset.sum_le_sum fun i _ => by
          rw [habs]
          have := hpow i
          nlinarith
      _ < 2 ^ 53 := hbound
  have hsingle : ∀ m < c.length, (|c.getD m 0| + 1) * x ^ m < 2 ^ 53 := by
    intro m hm
    refine (Finset.single_le_sum (f := fun i => (|c.getD i 0| + 1) * x ^ i) (fun i _ => ?_)
      (Finset.mem_range.mpr hm)).trans_lt hbound
    exact mul_nonneg (add_nonneg (abs_nonneg _) one_pos.le) (one_pos.le.trans (hpow i))
  intro m hm
  induction m with
  | zero => rfl
  | succ m ih =>
    have hterm := hsingle m (by omega)
    have hm₁ := hpow m
    have hnonneg := abs_nonneg (c.getD m 0)
    rw [List.range_succ, List.foldl_append, List.foldl_cons, List.foldl_nil, ih (by omega)]
    rw [Finset.sum_range_succ]
    refine addTerm_eq (by nlinarith) ?_ ?_ (hsums m (by omega)) ?_
    · rw [abs_of_pos (Int.lt_of_lt_of_le one_pos hm₁)]
      nlinarith
    · rw [habs]
      nlinarith
    · rw [← Finset.sum_range_succ]
      exact hsums (m + 1) hm

end Rounding

/-! ### Three shares of six, with the threshold three -/

section Three

variable {y : ℕ → ℤ}

/-- The shares that are read of a secret: those of the servers `1..5`. -/
def fiveShares (y : ℕ → ℤ) : List (ℤ × ℤ) := (List.range 5).map fun i => ((i + 1 : ℕ), y i)

theorem length_fiveShares (y : ℕ → ℤ) : (fiveShares y).length = 5 := by
  unfold fiveShares
  rw [List.length_map, List.length_range]

/-- The Lagrange coefficients depend on the servers only. -/
theorem lagrangeCoeff_map (fl : ℚ → ℚ) (shares : List (ℤ × ℤ)) (k i : ℕ) :
    lagrangeCoeff fl (shares.map fun s => (s.1, 0)) k i = lagrangeCoeff fl shares k i := by
  unfold lagrangeCoeff
  refine congrArg (fun body => List.foldlM body 1 (List.range k)) ?_
  funext c j
  unfold entry
  rw [List.getElem?_map, List.getElem?_map]
  cases shares[i]? <;> cases shares[j]? <;> rfl

/-- The Lagrange coefficients at zero of the numbers 1, 2 and 3. -/
def weight : ℕ → ℤ
  | 0 => 3
  | 1 => -3
  | _ => 1

/-- They are computed without rounding. -/
theorem lagrangeCoeff_fiveShares {i : ℕ} (hi : i < 3) :
    lagrangeCoeff double (fiveShares y) 3 i = .ok (weight i : ℚ) := by
  have hservers : (fiveShares y).map (fun s => (s.1, (0 : ℤ))) = fiveShares fun _ => 0 := rfl
  rw [← lagrangeCoeff_map, hservers]
  revert i
  decide +kernel

/-- The sum of the weighted values: the loop of `reconstructSecret` and of
`reconstructSecretFloat`. -/
def weightedSum (fl : ℚ → ℚ) (shares : List (ℤ × ℤ)) (k : ℕ) : Except Fault ℚ :=
  (List.range k).foldlM
    (fun secret i => do
      let lagrange_coeff ← lagrangeCoeff fl shares k i
      let share ← entry shares i
      pure (fl (secret + fl (fl share.2 * lagrange_coeff))))
    0

theorem reconstructSecret_eq_weightedSum (fl : ℚ → ℚ) (shares : List (ℤ × ℤ)) (k : ℕ) :
    reconstructSecret fl shares k = (weightedSum fl shares k >>= fun secret =>
      pure (nearest secret)) :=
  rfl

theorem entry_append {l : List (ℤ × ℤ)} (r : List (ℤ × ℤ)) {i : ℕ} (h : i < l.length) :
    entry (l ++ r) i = entry l i := by
  unfold entry
  rw [List.getElem?_append_left h]

/-- Only the first `k` shares are read. -/
theorem weightedSum_append (fl : ℚ → ℚ) {l : List (ℤ × ℤ)} (r : List (ℤ × ℤ)) {k : ℕ}
    (h : k ≤ l.length) : weightedSum fl (l ++ r) k = weightedSum fl l k := by
  have hcoeff : ∀ i < k, lagrangeCoeff fl (l ++ r) k i = lagrangeCoeff fl l k i := by
    intro i hi
    refine foldlM_congr _ fun j hj c => ?_
    rw [entry_append r (hi.trans_le h), entry_append r ((List.mem_range.mp hj).trans_le h)]
  refine foldlM_congr _ fun i hi c => ?_
  have hi' := List.mem_range.mp hi
  rw [hcoeff i hi', entry_append r (hi'.trans_le h)]

theorem reconstructSecret_append (fl : ℚ → ℚ) {l : List (ℤ × ℤ)} (r : List (ℤ × ℤ)) {k : ℕ}
    (h : k ≤ l.length) : reconstructSecret fl (l ++ r) k = reconstructSecret fl l k := by
  rw [reconstructSecret_eq_weightedSum, weightedSum_append fl r h, reconstructSecret_eq_weightedSum]

/-- The sum is computed without rounding. -/
theorem weightedSum_fiveShares (hy : ∀ i < 3, |y i| < 2 ^ 50 + 2 ^ 13) :
    weightedSum double (fiveShares y) 3 = .ok ((3 * y 0 - 3 * y 1 + y 2 : ℤ) : ℚ) := by
  -- The sums stay below `7 * (2 ^ 50 + 2 ^ 13)`.
  have hsum : ∀ m ≤ 3, |∑ i ∈ Finset.range m, weight i * y i| < 2 ^ 53 := by
    have h₀ := abs_lt.mp (hy 0 (by decide))
    have h₁ := abs_lt.mp (hy 1 (by decide))
    have h₂ := abs_lt.mp (hy 2 (by decide))
    intro m hm
    rw [abs_lt]
    interval_cases m <;> simp only [Finset.sum_range_succ, Finset.sum_range_zero, weight] <;> omega
  refine Returns.eq_ok ((Returns.foldlM_range
    (I := fun m (c : ℚ) => c = ((∑ i ∈ Finset.range m, weight i * y i : ℤ) : ℚ)) (by simp)
    fun i c hi hI => ?_).mono fun c hc => ?_)
  · have hterm := abs_lt.mp (hy i hi)
    have hterm₅₃ : |y i * weight i| < 2 ^ 53 := by
      rw [abs_lt]
      interval_cases i <;> simp only [weight] <;> omega
    refine Returns.bind ⟨_, lagrangeCoeff_fiveShares hi, rfl⟩ fun w hw => ?_
    have hlen : 3 ≤ (fiveShares y).length := by
      rw [length_fiveShares]
      decide
    refine (entry_returns hlen hi).bind fun s hs => Returns.pure ?_
    have hs₂ : s.2 = y i := by
      subst hs
      interval_cases i <;> rfl
    rw [← hw, hs₂, hI, double_intCast (abs_lt.mpr ⟨by omega, by omega⟩), ← Int.cast_mul,
      double_intCast hterm₅₃, ← Int.cast_add, mul_comm (y i), ← Finset.sum_range_succ,
      double_intCast (hsum (i + 1) hi)]
  · rw [hc]
    simp only [Finset.sum_range_succ, Finset.sum_range_zero, weight]
    congr 1
    ring

theorem reconstructSecret_fiveShares (hy : ∀ i < 3, |y i| < 2 ^ 50 + 2 ^ 13) :
    reconstructSecret double (fiveShares y) 3 = .ok (3 * y 0 - 3 * y 1 + y 2) := by
  rw [reconstructSecret_eq_weightedSum, weightedSum_fiveShares hy]
  exact congrArg Except.ok (nearest_intCast _)

/-- The share of a secret with two random coefficients. -/
theorem share_coefficients (secret : ℤ) (draws : ℕ → Coefficient) (x : ℤ) :
    share (coefficients secret draws 3) x =
      secret + (draws 0).val * x + (draws 1).val * x ^ 2 := by
  show ∑ i ∈ Finset.range 3, _ = _
  simp only [Finset.sum_range_succ, Finset.sum_range_zero, coefficients, List.getD_cons_zero,
    List.getD_cons_succ]
  show 0 + secret * x ^ 0 + (draws 0).val * x ^ 1 + (draws 1).val * x ^ 2 = _
  ring

/-- **Shares of small secrets are exact.** -/
theorem shareAt_coefficients {secret : ℤ} (h : |secret| ≤ 2 ^ 50) (draws : ℕ → Coefficient)
    {x : ℤ} (h₁ : 1 ≤ x) (h₆ : x ≤ 6) :
    shareAt (coefficients secret draws 3) 3 x =
      secret + (draws 0).val * x + (draws 1).val * x ^ 2 := by
  have hlen : (coefficients secret draws 3).length = 3 := rfl
  have hc := (draws 0).property
  have hd := (draws 1).property
  rw [← share_coefficients, ← shareAt_eq_share h₁, hlen]
  rw [hlen]
  simp only [Finset.sum_range_succ, Finset.sum_range_zero]
  -- the sum stays below `2 ^ 53`, so no double of the evaluation rounds
  show 0 + (|secret| + 1) * x ^ 0 + (|(draws 0).val| + 1) * x ^ 1 +
    (|(draws 1).val| + 1) * x ^ 2 < 2 ^ 53
  rw [abs_of_nonneg (by omega : 0 ≤ (draws 0).val), abs_of_nonneg (by omega : 0 ≤ (draws 1).val)]
  nlinarith

end Three

/-! ### Sums over shares are shares of the sum -/

section Sum

variable {shares : List (ℤ × ℤ)} {k : ℕ}

open Polynomial in
/-- The polynomial with the given coefficients. -/
noncomputable def polynomial (coefficients : List ℤ) : ℚ[X] :=
  ∑ i : Fin coefficients.length, C ((coefficients.getD i 0 : ℤ) : ℚ) * X ^ (i : ℕ)

theorem eval_polynomial (coefficients : List ℤ) (x : ℤ) :
    (polynomial coefficients).eval (x : ℚ) = share coefficients x := by
  unfold polynomial share
  rw [Polynomial.eval_finsetSum, Int.cast_sum,
    ← Fin.sum_univ_eq_sum_range fun i => ((coefficients.getD i 0 * x ^ i : ℤ) : ℚ)]
  refine Finset.sum_congr rfl fun i _ => ?_
  rw [Polynomial.eval_mul, Polynomial.eval_C, Polynomial.eval_pow, Polynomial.eval_X,
    Int.cast_mul, Int.cast_pow]

/-- The constant term is the secret. -/
theorem share_zero {coefficients : List ℤ} (h : coefficients ≠ []) :
    share coefficients 0 = coefficients.getD 0 0 := by
  unfold share
  rw [Finset.sum_eq_single 0 (fun i _ hi => by rw [zero_pow hi, mul_zero])
    (fun h' => absurd (Finset.mem_range.mpr (List.length_pos_iff.mpr h)) h'), pow_zero, mul_one]

open Polynomial in
theorem degree_sum_lt {rows : List (List ℤ)} (h : ∀ row ∈ rows, row.length = k) :
    (rows.map polynomial).sum.degree < k := by
  refine Polynomial.mem_degreeLT.mp (list_sum_mem fun f hf => ?_)
  obtain ⟨row, hrow, rfl⟩ := List.mem_map.mp hf
  have hdeg : (polynomial row).degree < row.length := Polynomial.degree_sum_fin_lt _
  rw [h row hrow] at hdeg
  exact Polynomial.mem_degreeLT.mpr hdeg

theorem eval_sum (rows : List (List ℤ)) (x : ℤ) :
    (rows.map polynomial).sum.eval (x : ℚ) = ((rows.map fun row => share row x).sum : ℤ) := by
  induction rows with
  | nil => simp
  | cons row rows ih =>
    rw [List.map_cons, List.sum_cons, Polynomial.eval_add, ih, eval_polynomial, List.map_cons,
      List.sum_cons, Int.cast_add]

/-- Different servers among the first `k` shares. -/
theorem distinct_of_nodup (hlen : k ≤ shares.length)
    (hnodup : ((shares.take k).map Prod.fst).Nodup) : Distinct shares k := by
  refine ⟨hlen, fun i hi j hj heq => ?_⟩
  have hlt : ∀ m, m ∈ (Finset.range k : Set ℕ) → m < ((shares.take k).map Prod.fst).length :=
    fun m hm => by
      rw [List.length_map, List.length_take]
      have := Finset.mem_range.mp (Finset.mem_coe.mp hm)
      omega
  have hget : ∀ m (hm : m < ((shares.take k).map Prod.fst).length),
      ((shares.take k).map Prod.fst).get ⟨m, hm⟩ = server shares m := fun m hm => by
    rw [List.length_map, List.length_take] at hm
    unfold server
    rw [List.get_eq_getElem, List.getElem_map, List.getElem_take,
      List.getD_eq_getElem _ _ (by omega)]
  -- two equal servers among the first `k` would be one share
  have hinj := List.nodup_iff_injective_get.mp hnodup
  exact Fin.mk.inj (hinj ((hget i (hlt i hi)).trans (heq.trans (hget j (hlt j hj)).symm)))

/-- **A sum over shares is a share of the sum.** Whatever servers come first, and in whatever
order, the sum of the secrets is reconstructed from the sums that they compute. The arithmetic is
exact here; what a `double` makes of it is said where the aggregates are. -/
theorem reconstructSecret_sum (hk : 1 ≤ k) (rows : List (List ℤ))
    (hrows : ∀ row ∈ rows, row.length = k) (hlen : k ≤ shares.length)
    (hnodup : ((shares.take k).map Prod.fst).Nodup)
    (hsum : ∀ s ∈ shares, s.2 = (rows.map fun row => share row s.1).sum) :
    SumAggregationTest.reconstructSecret id shares k =
      .ok (rows.map fun row => row.getD 0 0).sum := by
  refine reconstructSecret_eval (distinct_of_nodup hlen hnodup) (degree_sum_lt hrows)
    (fun i hi => ?_) ?_
  -- at a server the shares of the rows add up to the polynomial of the sums
  · have hmem : shares.getD i (0, 0) ∈ shares := by
      rw [List.getD_eq_getElem _ _ (hi.trans_le hlen)]
      exact List.getElem_mem _
    rw [hsum _ hmem, ← eval_sum]
    rfl
  · -- At zero each row has its constant term.
    have hzero := eval_sum rows 0
    rw [Int.cast_zero] at hzero
    rw [hzero]
    refine congrArg (fun l : List ℤ => ((l.sum : ℤ) : ℚ)) (List.map_congr_left fun row hrow => ?_)
    exact share_zero (List.ne_nil_of_length_pos (by rw [hrows row hrow]; exact hk))

theorem reconstructSecret_sum_two_rows :
    SumAggregationTest.reconstructSecret id [(5, 200), (2, 62), (7, 352)] 3 = .ok 30 :=
  reconstructSecret_sum (by decide) [[10, 1, 2], [20, 3, 4]] (by decide) (by decide) (by decide)
    (by decide)

end Sum

end ShamirParser
