import Mathlib.LinearAlgebra.Lagrange
import Mathlib.RingTheory.Polynomial.Vieta

/-!
# Sharing a secret by the values of a polynomial

A polynomial of degree below `k` hides its value at `0`; any `k` or more of its points
determine it.

* `sum_mul_eq_eval_zero` is the sum the receivers compute: each value is weighted by
  `∏ -v j`, over `∏ (v i - v j)`, the products over the other points.
* One point less leaves a line of polynomials, `through s v r t`, one for each value at zero.
  `exists_coeff_through_eq_zero` and `exists_coeff_through_ne_zero` say which coefficients
  occur on it, and `coeff_nodal` what they depend on.
-/

namespace SecretSharing

open Polynomial

variable {F ι : Type*} [Field F] [DecidableEq ι] {s : Finset ι} {v : ι → F} {f : F[X]}

/-- The Lagrange basis polynomial of a node, at `0`. -/
theorem eval_zero_basis (s : Finset ι) (v : ι → F) (i : ι) :
    (Lagrange.basis s v i).eval 0 =
      (∏ j ∈ s.erase i, -v j) * (∏ j ∈ s.erase i, (v i - v j))⁻¹ := by
  unfold Lagrange.basis Lagrange.basisDivisor
  rw [eval_prod, ← Finset.prod_inv_distrib, ← Finset.prod_mul_distrib]
  refine Finset.prod_congr rfl fun j _ => ?_
  rw [eval_mul, eval_C, eval_sub, eval_X, eval_C, zero_sub, mul_comm]

/-- **Any `k` points of a polynomial of degree below `k` give its value at zero.** -/
theorem sum_mul_eq_eval_zero (hv : Set.InjOn v s) (hf : f.degree < s.card) :
    ∑ i ∈ s, (∏ j ∈ s.erase i, -v j) * (∏ j ∈ s.erase i, (v i - v j))⁻¹ * f.eval (v i) =
      f.eval 0 := by
  conv_rhs => rw [Lagrange.eq_interpolate hv hf]
  rw [Lagrange.interpolate_apply, eval_finsetSum]
  refine Finset.sum_congr rfl fun i _ => ?_
  rw [eval_mul, eval_C, eval_zero_basis, mul_comm]

/-! ### One point less than needed -/

section Line

variable {r : ι → F} {t : F} {e : ℕ} {E : Finset ℕ}

/-- The polynomials through the points `(v i, r i)`, of one degree more than needed. -/
noncomputable def through (s : Finset ι) (v r : ι → F) (t : F) : F[X] :=
  Lagrange.interpolate s v r + C t * Lagrange.nodal s v

theorem degree_through_lt (hv : Set.InjOn v s) (r : ι → F) (t : F) :
    (through s v r t).degree < (s.card + 1 : ℕ) := by
  have hcard : (s.card : WithBot ℕ) < (s.card + 1 : ℕ) := by exact_mod_cast Nat.lt_succ_self _
  refine (degree_add_le _ _).trans_lt (max_lt ?_ ?_)
  · exact (Lagrange.degree_interpolate_lt r hv).trans hcard
  · rw [← smul_eq_C_mul]
    refine (degree_smul_le t _).trans_lt ?_
    rw [Lagrange.degree_nodal]
    exact hcard

theorem eval_through (hv : Set.InjOn v s) {i : ι} (hi : i ∈ s) :
    (through s v r t).eval (v i) = r i := by
  rw [through, eval_add, eval_mul, Lagrange.eval_interpolate_at_node r hv hi,
    Lagrange.eval_nodal_at_node hi, mul_zero, add_zero]

theorem coeff_through :
    (through s v r t).coeff e =
      (Lagrange.interpolate s v r).coeff e + t * (Lagrange.nodal s v).coeff e := by
  rw [through, coeff_add, coeff_C_mul]

/-- The one polynomial of the line that lacks a coefficient. -/
theorem coeff_through_eq_zero_iff (h : (Lagrange.nodal s v).coeff e ≠ 0) :
    (through s v r t).coeff e = 0 ↔
      t = -((Lagrange.interpolate s v r).coeff e / (Lagrange.nodal s v).coeff e) := by
  rw [coeff_through, add_eq_zero_iff_neg_eq, ← neg_div, eq_div_iff h]
  exact eq_comm

theorem exists_coeff_through_eq_zero (r : ι → F) (h : (Lagrange.nodal s v).coeff e ≠ 0) :
    ∃ t, (through s v r t).coeff e = 0 :=
  ⟨_, (coeff_through_eq_zero_iff h).mpr rfl⟩

/-- Some polynomial of the line lacks none of several coefficients. -/
theorem exists_coeff_through_ne_zero [Fintype F] (r : ι → F)
    (h : ∀ e ∈ E, (Lagrange.nodal s v).coeff e ≠ 0) (hcard : E.card < Fintype.card F) :
    ∃ t, ∀ e ∈ E, (through s v r t).coeff e ≠ 0 := by
  classical
  -- Each coefficient is missing for one value of `t`.
  set missing := E.image fun e =>
    -((Lagrange.interpolate s v r).coeff e / (Lagrange.nodal s v).coeff e)
  obtain ⟨t, -, ht⟩ := Finset.exists_mem_notMem_of_card_lt_card
    (Finset.card_image_le.trans_lt hcard : missing.card < (Finset.univ : Finset F).card)
  refine ⟨t, fun e he hzero => ht (Finset.mem_image.mpr ⟨e, he, ?_⟩)⟩
  exact ((coeff_through_eq_zero_iff (h e he)).mp hzero).symm

end Line

/-- For nodes that are natural numbers, the coefficients of the nodal polynomial are natural
numbers up to the sign. -/
theorem coeff_nodal {s : Finset ℕ} {e : ℕ} (he : e ≤ s.card) :
    (Lagrange.nodal s fun i => (i : F)).coeff e =
      (-1) ^ (s.card - e) * ((∑ t ∈ s.powersetCard (s.card - e), ∏ i ∈ t, i : ℕ) : F) := by
  have hadd : Lagrange.nodal s (fun i => (i : F)) = ∏ i ∈ s, (X + C (-(i : F))) := by
    rw [Lagrange.nodal]
    exact Finset.prod_congr rfl fun i _ => by rw [C_neg, sub_eq_add_neg]
  rw [hadd, Finset.prod_X_add_C_coeff s _ he, Nat.cast_sum, Finset.mul_sum]
  refine Finset.sum_congr rfl fun t ht => ?_
  rw [← (Finset.mem_powersetCard.mp ht).2, Nat.cast_prod, ← Finset.prod_const,
    ← Finset.prod_mul_distrib]
  exact Finset.prod_congr rfl fun i _ => (neg_one_mul _).symm

end SecretSharing
