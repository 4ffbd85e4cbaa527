import PathOram.Shamir

/-!
# The faults of secret sharing

`calculateSecretPairs` and `reconstructSecret` keep residues of 60 bits in a `long long` and
multiply them with the numbers of the shares. `restore` reads the values of the shares from
files, and takes their remainder as a counter of a loop.

* `no_overflow_iff` — the products are in range exactly while the largest power of a number,
  `n ^ (k - 1)`, is.
* `restore_iff` — the loop ends exactly when no remainder is negative.
-/

namespace Shamir

/-! ### The numbers of a list of shares -/

section Numbers

variable {shares : List SecretPair} {n : ℤ}

theorem numbered_of_nodup (hnodup : (shares.map SecretPair.x).Nodup)
    (hbounds : ∀ share ∈ shares, 1 ≤ share.x ∧ share.x ≤ n) : Numbered shares n := by
  -- the numbers of the servers are those of the shares
  have hget : ∀ j (hj : j < (shares.map SecretPair.x).length),
      number shares j = (shares.map SecretPair.x)[j] := fun j hj => by
    rw [number, List.getD_eq_getElem _ _ (by rwa [List.length_map] at hj), List.getElem_map]
  refine ⟨fun j hj => ?_, fun i hi j hj heq => ?_⟩
  · rw [number, List.getD_eq_getElem _ _ hj]
    exact hbounds _ (List.getElem_mem hj)
  · rw [Finset.coe_range, Set.mem_Iio] at hi hj
    rw [hget i (by rwa [List.length_map]), hget j (by rwa [List.length_map])] at heq
    exact hnodup.getElem_inj_iff.mp heq

end Numbers

/-! ### Overflow -/

section Overflow

variable {n k e : ℕ} {coefficients : List ℤ}

theorem ll_ends (z : ℤ) : Ends (ll z) (· = .overflow) fun _ => True := by
  unfold ll
  split
  · exact trivial
  · exact rfl

theorem power_ends (number : ℤ) (exp : ℕ) :
    Ends (power number exp) (· = .overflow) fun _ => True :=
  Ends.foldlM_range (I := fun _ _ => True) trivial fun _ current _ _ =>
    (ll_ends (current * number)).bind fun _ _ => Ends.pure trivial

/-- Coefficients that are not negative keep the loop of `modmult` finite. -/
theorem evaluate_ends (hcoeff : ∀ c ∈ coefficients, 0 ≤ c) (number : ℤ) :
    Ends (evaluate coefficients number) (· = .overflow) fun _ => True := by
  refine Ends.foldlM_range (I := fun _ _ => True) trivial fun e accumulator _ _ => ?_
  have hget := getD_of_forall_mem hcoeff le_rfl (e + 1)
  refine (power_ends number (e + 1)).bind fun current _ => ?_
  refine (Ends.of_returns (modmult_spec (Int.tmod_nonneg _ hget))).bind fun product _ => ?_
  exact (ll_ends _).bind fun _ _ => Ends.pure trivial

theorem calculateSecretPairs_ends (hcoeff : ∀ c ∈ coefficients, 0 ≤ c) (n : ℕ) :
    Ends (calculateSecretPairs n coefficients) (· = .overflow) fun _ => True :=
  Ends.foldlM_range (I := fun _ _ => True) trivial fun i _ _ _ =>
    (evaluate_ends hcoeff (i + 1 : ℕ)).bind fun _ _ => Ends.pure trivial

/-- The shares of the numbers `1..n` take the powers of these numbers below `k`. -/
theorem power_of_calculateSecretPairs {pairs : List SecretPair}
    (h : calculateSecretPairs n coefficients = .ok pairs) {number : ℕ} (h₁ : 1 ≤ number)
    (hn : number ≤ n) (he₁ : 1 ≤ e) (he : e < coefficients.length) :
    ∃ r, power number e = .ok r := by
  -- the loop over the servers, then that over the coefficients
  obtain ⟨_, _, hbody⟩ :=
    Returns.exists_of_foldlM_ok h (List.mem_range.mpr (by omega : number - 1 < n))
  obtain ⟨value, hvalue, -⟩ := Returns.exists_of_bind_ok hbody
  obtain ⟨_, _, hterm⟩ :=
    Returns.exists_of_foldlM_ok hvalue (List.mem_range.mpr (by omega : e - 1 < _))
  obtain ⟨r, hr, -⟩ := Returns.exists_of_bind_ok hterm
  rw [Nat.sub_add_cancel h₁, Nat.sub_add_cancel he₁] at hr
  exact ⟨r, hr⟩

/-- The overflow of one of them ends the loop. -/
theorem calculateSecretPairs_overflows (hcoeff : ∀ c ∈ coefficients, 0 ≤ c) {number : ℕ}
    (h₁ : 1 ≤ number) (hn : number ≤ n) (he₁ : 1 ≤ e) (he : e < coefficients.length)
    (hover : power number e = .error .overflow) :
    calculateSecretPairs n coefficients = .error .overflow := by
  have hends := calculateSecretPairs_ends hcoeff n
  -- if all shares were computed, then so was this power
  cases hpairs : calculateSecretPairs n coefficients with
  | error fault =>
    rw [hpairs] at hends
    exact congrArg Except.error hends
  | ok pairs =>
    obtain ⟨r, hr⟩ := power_of_calculateSecretPairs hpairs h₁ hn he₁ he
    rw [hover] at hr
    cases hr

theorem power_succ (number : ℤ) (exp : ℕ) :
    power number (exp + 1) = (do
      let current ← power number exp
      let product ← ll (current * number)
      pure (product.tmod PRIME)) := foldlM_range_succ _ exp 1

/-- A power below `PRIME` is not reduced. -/
theorem power_eq {number : ℤ} (h₁ : 1 ≤ number) (h : number ^ e < PRIME) :
    power number e = .ok (number ^ e) := by
  induction e with
  | zero => rw [pow_zero]; rfl
  | succ e ih =>
    have hle : number ^ e ≤ number ^ (e + 1) := pow_le_pow_right₀ h₁ (Nat.le_succ e)
    have hpos : 0 ≤ number ^ (e + 1) := by positivity
    -- below the prime nothing overflows and nothing is reduced
    have hrange : ll (number ^ e * number) = .ok (number ^ (e + 1)) := by
      rw [← pow_succ]
      unfold PRIME at h
      exact if_pos (by omega)
    rw [power_succ, ih (hle.trans_lt h)]
    show (ll (number ^ e * number) >>= fun product => pure (product.tmod PRIME)) = _
    rw [hrange]
    exact congrArg Except.ok (Int.tmod_eq_of_lt hpos h)

/-- The next power, if it is too large, is not computed. -/
theorem power_overflows {number : ℤ} (h₁ : 1 ≤ number) (h : number ^ e < PRIME)
    (hlarge : 2 ^ 63 ≤ number ^ (e + 1)) : power number (e + 1) = .error .overflow := by
  rw [power_succ, power_eq h₁ h]
  show (ll (number ^ e * number) >>= fun product => pure (product.tmod PRIME)) = _
  have hrange : ll (number ^ e * number) = .error .overflow := by
    rw [← pow_succ]
    exact if_neg (by omega)
  rw [hrange]
  rfl

/-- For each exponent from 3 to 15, the largest number whose power is in range. The next number
has a power that is not reduced before it overflows. -/
theorem exists_largest (h₃ : 3 ≤ e) (h₁₅ : e ≤ 15) :
    ∃ b : ℕ, b ^ e < 2 ^ 63 ∧ 2 ^ 63 ≤ (b + 1) ^ e ∧ (b + 1) ^ (e - 1) < 992429121339693967 := by
  -- for each exponent the largest base whose power is a `long long`
  interval_cases e
  · exact ⟨2097151, by norm_num⟩
  · exact ⟨55108, by norm_num⟩
  · exact ⟨6208, by norm_num⟩
  · exact ⟨1448, by norm_num⟩
  · exact ⟨511, by norm_num⟩
  · exact ⟨234, by norm_num⟩
  · exact ⟨127, by norm_num⟩
  · exact ⟨78, by norm_num⟩
  · exact ⟨52, by norm_num⟩
  · exact ⟨38, by norm_num⟩
  · exact ⟨28, by norm_num⟩
  · exact ⟨22, by norm_num⟩
  · exact ⟨18, by norm_num⟩

/-- The power of 17 is reduced once before it overflows. -/
theorem power_seventeen : power 17 16 = .error .overflow := by decide +kernel

/-- Some number below `n` overflows when `n ^ (k - 1)` is too large. -/
theorem exists_power_overflows (hkn : k ≤ n) (hn : n < 2 ^ 31) (hlarge : 2 ^ 63 ≤ n ^ (k - 1)) :
    ∃ number e : ℕ, 1 ≤ number ∧ number ≤ n ∧ 1 ≤ e ∧ e < k ∧
      power number e = .error .overflow := by
  rcases Nat.lt_or_ge k 4 with h₄ | h₄
  · -- The square of an `int` is in range.
    have hsquare : n ^ (k - 1) ≤ (2 ^ 31) ^ 2 :=
      (Nat.pow_le_pow_left hn.le _).trans (Nat.pow_le_pow_right (by norm_num) (by omega))
    omega
  rcases Nat.lt_or_ge k 17 with h₁₇ | h₁₇
  -- the first base that is too large is among the servers
  · obtain ⟨b, hlt, hge, hprime⟩ := exists_largest (e := k - 1) (by omega) (by omega)
    have hbn : b < n := lt_of_pow_lt_pow_left₀ (k - 1) (Nat.zero_le n) (hlt.trans_le hlarge)
    have he : k - 1 = (k - 2) + 1 := by omega
    refine ⟨b + 1, k - 1, by omega, hbn, by omega, by omega, ?_⟩
    rw [he] at hge hprime ⊢
    refine power_overflows (by omega) ?_ ?_
    · unfold PRIME
      exact_mod_cast hprime
    · exact_mod_cast hge
  -- from 17 servers on, `17 ^ 16` is always computed
  · exact ⟨17, 16, by decide, h₁₇.trans hkn, by decide, h₁₇, power_seventeen⟩

/-- **Overflow.** Sharing and reconstruction for `k` of `n` shares are without overflow if and only
if `n ^ (k - 1)` is below `2 ^ 63`. Both take the powers of the numbers of the shares, and the
largest of them is that of the share `n`. -/
theorem no_overflow_iff (hk : 1 ≤ k) (hkn : k ≤ n) (hn : n < 2 ^ 31) {secret : ℤ}
    (hsecret : 0 ≤ secret ∧ secret < PRIME) {draws : List ℤ} (hlength : draws.length = k - 1)
    (hdraws : ∀ c ∈ draws, MIN_SECRET ≤ c ∧ c ≤ MAX_SECRET) {shares : List SecretPair}
    (hshares : shares.length = k) (hnodup : (shares.map SecretPair.x).Nodup)
    (hbounds : ∀ share ∈ shares, 1 ≤ share.x ∧ share.x ≤ n) :
    (calculateSecretPairs n (secret :: draws) ≠ .error .overflow ∧
      reconstructSecret shares ≠ .error .overflow) ↔ n ^ (k - 1) < 2 ^ 63 := by
  have hcoeff : ∀ c ∈ secret :: draws, 0 ≤ c ∧ c < PRIME := by
    intro c hc
    rcases List.mem_cons.mp hc with rfl | hc
    · exact hsecret
    · have hdraw := hdraws c hc
      unfold MIN_SECRET MAX_SECRET at hdraw
      unfold PRIME
      omega
  have hlen : (secret :: draws).length = k := by
    rw [List.length_cons, hlength]
    omega
  constructor
  -- the powers of the last coefficient already decide
  · rintro ⟨hcalculate, -⟩
    by_contra hlarge
    obtain ⟨number, e, h₁, hle, he₁, he, hover⟩ :=
      exists_power_overflows hkn hn (not_lt.mp hlarge)
    exact hcalculate (calculateSecretPairs_overflows (fun c hc => (hcoeff c hc).1) h₁ hle he₁
      (hlen ▸ he) hover)
  · intro hfits
    have hfits' : PowerFits n (k - 1) := Or.inr (by exact_mod_cast hfits)
    have hP : PRIME = 992429121339693967 := rfl
    refine ⟨fun hcalculate => ?_, fun hreconstruct => ?_⟩
    · rw [calculateSecretPairs_spec (by rwa [hlen]) (List.cons_ne_nil _ _) hcoeff] at hcalculate
      cases hcalculate
    · have hends := reconstructSecret_ends (numbered_of_nodup hnodup hbounds) (by omega)
        (by rwa [hshares])
      rw [hreconstruct] at hends
      exact absurd hends.1 (by decide)

theorem no_overflow_iff_three_of_six :
    (calculateSecretPairs 6 [12345, 7, 8] ≠ .error .overflow ∧
      reconstructSecret [⟨6, 12675⟩, ⟨1, 12360⟩, ⟨3, -5⟩] ≠ .error .overflow) ↔
        6 ^ (3 - 1) < 2 ^ 63 :=
  no_overflow_iff (by decide) (by decide) (by decide) (by decide) (by decide) (by decide)
    (by decide) (by decide) (by decide)

/-- Seventeen shares of which all are needed: the power of 17 overflows. -/
theorem calculateSecretPairs_seventeen :
    ¬ (calculateSecretPairs 17 (0 :: List.replicate 16 1) ≠ .error .overflow ∧
      reconstructSecret ((List.range 17).map fun i => ⟨(i + 1 : ℕ), 0⟩) ≠ .error .overflow) := by
  rintro ⟨hcalculate, -⟩
  have hover : power (17 : ℕ) 16 = .error .overflow := power_seventeen
  exact hcalculate (calculateSecretPairs_overflows (by decide) (by decide) le_rfl (by decide)
    (by decide) hover)

end Overflow

/-! ### Loops without an end -/

section Termination

variable {shares : List SecretPair}

/-- The remainder has the sign of the value. -/
theorem tmod_nonneg_iff (y : ℤ) : 0 ≤ y.tmod PRIME ↔ 0 ≤ y ∨ PRIME ∣ y := by
  constructor
  · intro h
    rcases lt_or_ge y 0 with hneg | hpos
    · exact Or.inr (Int.dvd_of_tmod_eq_zero (le_antisymm (tmod_nonpos hneg.le) h))
    · exact Or.inl hpos
  · rintro (hpos | hdvd)
    · exact Int.tmod_nonneg _ hpos
    · exact (Int.tmod_eq_zero_of_dvd hdvd).ge

/-- **Termination.** Shares with different numbers in `1..9` are restored to a value in
`0..PRIME-1` if and only if each of their values is not negative, or a multiple of `PRIME`. The
value becomes the second factor of `modmult`, whose loop halves it; a negative one never comes to
zero, and a multiple of `PRIME` is zero before it is halved. -/
theorem restore_iff (k : ℕ) (hnodup : (shares.map SecretPair.x).Nodup)
    (hbounds : ∀ share ∈ shares, 1 ≤ share.x ∧ share.x ≤ 9) :
    (Returns (restore k shares) fun secret => 0 ≤ secret ∧ secret < PRIME) ↔
      ∀ share ∈ shares, 0 ≤ share.y ∨ PRIME ∣ share.y := by
  have hends := reconstructSecret_ends (numbered_of_nodup hnodup hbounds) (by decide)
    (Or.inl le_rfl)
  -- The condition, for the shares by their index.
  have hindex : (∀ share ∈ shares, 0 ≤ share.y ∨ PRIME ∣ share.y) ↔
      ∀ i < shares.length, 0 ≤ (shares.getD i ⟨0, 0⟩).y.tmod PRIME := by
    rw [List.forall_mem_iff_forall_getElem]
    refine forall₂_congr fun i hi => ?_
    rw [List.getD_eq_getElem _ _ hi, tmod_nonneg_iff]
  rw [hindex]
  constructor
  · rintro ⟨secret, heq, -⟩
    have hrun : reconstructSecret shares = .ok secret := heq
    rw [hrun] at hends
    exact hends.1
  · intro hvalues
    refine (hends.returns ?_).mono fun secret h => ⟨h.2.1, h.2.2.1⟩
    rintro fault ⟨-, i, hi, hneg⟩
    exact hneg.not_ge (hvalues i hi)

theorem restore_iff_two :
    (Returns (restore 2 [⟨1, 5⟩, ⟨4, -992429121339693967⟩]) fun secret =>
        0 ≤ secret ∧ secret < PRIME) ↔
      ∀ share ∈ [(⟨1, 5⟩ : SecretPair), ⟨4, -992429121339693967⟩],
        0 ≤ share.y ∨ PRIME ∣ share.y :=
  restore_iff 2 (by decide) (by decide)

/-- A share with the value `-1` is never restored. -/
theorem restore_negative :
    ¬ Returns (restore 1 [⟨1, -1⟩]) fun secret => 0 ≤ secret ∧ secret < PRIME := by
  rintro ⟨secret, heq, -⟩
  have hnumbered : Numbered [⟨1, -1⟩] 9 := numbered_of_nodup (by decide) (by decide)
  have hends := reconstructSecret_ends hnumbered (by decide) (Or.inl le_rfl)
  have hrun : reconstructSecret [⟨1, -1⟩] = .ok secret := heq
  rw [hrun] at hends
  exact absurd (hends.1 0 (by decide)) (by decide)

end Termination

end Shamir
