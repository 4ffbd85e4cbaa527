import Mathlib.NumberTheory.LucasPrimality
import Mathlib.Data.Nat.Prime.Basic

/-!
# Lucas certificates of primality

A prime `p` is certified by the prime factors of `p - 1`, which are certified in turn,
and a witness `a` whose order modulo `p` is `p - 1`.
-/

namespace Lucas

/-- **A Lucas certificate proves primality.** -/
theorem prime_of_factors {p : ℕ} (a : ZMod p) (factors : List ℕ)
    (hprime : ∀ q ∈ factors, q.Prime) (hprod : factors.prod = p - 1)
    (ha : a ^ (p - 1) = 1) (hd : ∀ q ∈ factors, a ^ ((p - 1) / q) ≠ 1) : p.Prime := by
  refine lucas_primality p a ha fun q hq hdvd => ?_
  -- A prime that divides the product of the factors is one of them.
  rw [← hprod, hq.prime.dvd_prod_iff] at hdvd
  obtain ⟨r, hr, hqr⟩ := hdvd
  have heq : q = r := (Nat.prime_dvd_prime_iff_eq hq (hprime r hr)).mp hqr
  rw [heq]
  exact hd r hr

end Lucas
