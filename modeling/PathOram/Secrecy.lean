import PathOram.Shamir
import Mathlib.Data.Int.Interval
import Mathlib.Data.Nat.Choose.Bounds
import Mathlib.Data.Set.Card

/-!
# What `k - 1` shares say about the secret

Any `k` shares determine the secret; `k - 1` should say nothing. They do say something: the
coefficients are drawn from `MIN_SECRET..MAX_SECRET`, and zero is not among them.

Through the shares and a secret goes one polynomial of degree below `k`. One coefficient vector
gives it when none of its coefficients behind the first is zero (`ncard_vectors_eq_one`), and
none otherwise (`ncard_vectors_eq_zero`): the shares exclude every secret whose polynomial has
a zero coefficient. There always is one (`not_secret`).
-/

namespace Shamir

open Polynomial

theorem MIN_SECRET_mem : MIN_SECRET ≤ MIN_SECRET ∧ MIN_SECRET ≤ MAX_SECRET := by decide

/-- The draws that give one vector of coefficients; the later ones play no part. -/
def drawn {m : ℕ} (w : Fin m → Draw) : Draws := fun i =>
  if h : i < m then w ⟨i, h⟩ else ⟨MIN_SECRET, MIN_SECRET_mem⟩

/-- The vectors of coefficients for which `split` gives the share values `v` at the numbers
`I`. -/
def vectors (n k : ℕ) (I : Finset ℕ) (v : ℕ → ℤ) (secret : ℤ) : Set (Fin (k - 1) → Draw) :=
  { w | Returns (split secret n k (drawn w)) fun (pairs, _) =>
      ∀ i ∈ I, (⟨i, v i⟩ : SecretPair) ∈ pairs }

instance : Finite Draw := Set.finite_coe_iff.mpr (Set.finite_Icc MIN_SECRET MAX_SECRET)

/-! ### The sharing polynomial -/

section Sharing

variable {n k e : ℕ} {secret : ℤ} {w w' : Fin (k - 1) → Draw} {v : ℕ → ℤ} {I : Finset ℕ}

/-- The polynomial that the coefficients `w` give. -/
noncomputable def sharing (k : ℕ) (secret : ℤ) (w : Fin (k - 1) → Draw) : F[X] :=
  polynomial (generateCoefficients k secret (drawn w)).1

theorem degree_sharing_lt (hk : 1 ≤ k) : (sharing k secret w).degree < k := by
  have h := degree_polynomial_lt (generateCoefficients k secret (drawn w)).1
  rwa [length_generateCoefficients hk] at h

theorem eval_zero_sharing : (sharing k secret w).eval 0 = secret :=
  eval_zero_polynomial secret _

/-- The coefficients behind the first are the drawn ones. -/
theorem coeff_sharing (i : Fin (k - 1)) :
    (sharing k secret w).coeff (i + 1) = ((w i).val : F) := by
  unfold sharing generateCoefficients
  rw [coeff_polynomial, List.getD_cons_succ, List.getD_eq_getElem _ _ (by simp),
    List.getElem_map, List.getElem_range]
  unfold drawn
  rw [dif_pos i.isLt]

/-- A drawn coefficient is not zero. -/
theorem cast_draw_ne_zero (d : Draw) : ((d.val : ℤ) : F) ≠ 0 := by
  intro hzero
  obtain ⟨hmin, hmax⟩ := d.property
  have hdvd := (ZMod.intCast_zmod_eq_zero_iff_dvd d.val _).mp hzero
  have hle := Int.le_of_dvd (by unfold MIN_SECRET at hmin; omega) hdvd
  unfold MAX_SECRET at hmax
  omega

/-- Every residue but zero can be drawn, in one way. -/
theorem exists_draw {c : F} (hc : c ≠ 0) : ∃ d : Draw, ((d.val : ℤ) : F) = c := by
  have hlt := ZMod.val_lt c
  have hpos : 0 < c.val := Nat.pos_of_ne_zero fun h => hc ((ZMod.val_eq_zero c).mp h)
  refine ⟨⟨(c.val : ℤ), ?_⟩, ?_⟩
  · unfold MIN_SECRET MAX_SECRET
    omega
  · rw [Int.cast_natCast, ZMod.natCast_zmod_val]

theorem draw_cast_injective : Function.Injective fun d : Draw => ((d.val : ℤ) : F) := by
  intro d d' heq
  obtain ⟨hmin, hmax⟩ := d.property
  obtain ⟨hmin', hmax'⟩ := d'.property
  unfold MIN_SECRET at hmin hmin'
  unfold MAX_SECRET at hmax hmax'
  -- both draws lie in `0..PRIME-1`, where the residue is the number
  refine Subtype.ext ?_
  rw [eq_val (by omega) (by unfold PRIME; omega) heq,
    ← eq_val (by omega) (by unfold PRIME; omega) rfl]

/-- The numbers of the shares are different modulo `PRIME`. -/
theorem cast_injOn_of_le {s : Finset ℕ} (hs : ∀ i ∈ s, i ≤ 9) :
    Set.InjOn (fun i : ℕ => (i : F)) s := by
  intro i hi j hj heq
  have hi₉ := hs i hi
  have hj₉ := hs j hj
  have hmod := (ZMod.natCast_eq_natCast_iff' i j _).mp heq
  rwa [Nat.mod_eq_of_lt (by omega), Nat.mod_eq_of_lt (by omega)] at hmod

/-- `split` gives the values `v` when the polynomial goes through them. -/
theorem mem_vectors_iff (hkn : k ≤ n) (hn : n ≤ 9) (h₀ : 0 ≤ secret) (hlt : secret < PRIME)
    (hI : I ⊆ Finset.Icc 1 n) (hv : ∀ i ∈ I, 0 ≤ v i ∧ v i < PRIME) :
    w ∈ vectors n k I v secret ↔ ∀ i ∈ I, (sharing k secret w).eval (i : F) = v i := by
  -- the share with number `i` is the one of the loop step `i - 1`
  have hmem : ∀ i ∈ I, ((⟨i, v i⟩ : SecretPair) ∈ (List.range n).map fun j =>
      share (sharing k secret w) (j + 1)) ↔ (sharing k secret w).eval (i : F) = v i := by
    intro i hi
    have hi₁ := Finset.mem_Icc.mp (hI hi)
    rw [List.mem_map]
    constructor
    · rintro ⟨j, -, hj⟩
      obtain ⟨hx, hy⟩ := SecretPair.mk.inj hj
      have hij : j + 1 = i := Int.natCast_inj.mp hx
      rw [← hy, Int.cast_natCast, ZMod.natCast_zmod_val, hij]
    · intro heval
      have hpred : i - 1 + 1 = i := Nat.sub_add_cancel hi₁.1
      refine ⟨i - 1, List.mem_range.mpr (by omega), ?_⟩
      unfold share
      rw [hpred, heval, ← eq_val (hv i hi).1 (hv i hi).2 rfl]
  show Returns (split secret n k (drawn w)) _ ↔ _
  -- `split` returns, with the values of the polynomial
  rw [split_eq hkn hn h₀ hlt (drawn w)]
  constructor
  · intro h i hi
    exact (hmem i hi).mp (Returns.of_ok h rfl i hi)
  · intro h
    exact ⟨_, rfl, fun i hi => (hmem i hi).mpr (h i hi)⟩

/-- Two polynomials of degree below `k` through the shares and a secret are equal. -/
theorem eq_of_eval_eq {f g : F[X]} (hcard : I.card + 1 = k) (hI : ∀ i ∈ I, 1 ≤ i ∧ i ≤ 9)
    (hf : f.degree < k) (hg : g.degree < k) (hzero : f.eval 0 = g.eval 0)
    (heval : ∀ i ∈ I, f.eval (i : F) = g.eval (i : F)) : f = g := by
  -- the secret is a further point, at zero
  have hnot : (0 : ℕ) ∉ I := fun h => absurd (hI 0 h).1 (by omega)
  have hcard' : (insert 0 I).card = k := by rw [Finset.card_insert_of_notMem hnot, hcard]
  refine Polynomial.eq_of_degrees_lt_of_eval_index_eq (insert 0 I) (v := fun i : ℕ => (i : F))
    (cast_injOn_of_le fun i hi => ?_) (by rwa [hcard']) (by rwa [hcard']) fun i hi => ?_
  · rcases Finset.mem_insert.mp hi with rfl | hi
    · omega
    · exact (hI i hi).2
  · rcases Finset.mem_insert.mp hi with rfl | hi
    · rw [Nat.cast_zero]
      exact hzero
    · exact heval i hi

end Sharing

/-! ### Counting the coefficient vectors -/

section Counting

variable {n k : ℕ} {v : ℕ → ℤ} {I : Finset ℕ}

/-- The numbers and values of `k - 1` shares. -/
structure Observed (n k : ℕ) (I : Finset ℕ) (v : ℕ → ℤ) : Prop where
  two_le : 2 ≤ k
  le : k ≤ n
  le_nine : n ≤ 9
  subset : I ⊆ Finset.Icc 1 n
  card : I.card + 1 = k
  reduced : ∀ i ∈ I, 0 ≤ v i ∧ v i < PRIME

theorem Observed.one_le (h : Observed n k I v) : 1 ≤ k := Nat.le_of_succ_le h.two_le

theorem Observed.bounds (h : Observed n k I v) : ∀ i ∈ I, 1 ≤ i ∧ i ≤ 9 := fun i hi => by
  have hi' := Finset.mem_Icc.mp (h.subset hi)
  exact ⟨hi'.1, hi'.2.trans h.le_nine⟩

/-- `f` goes through the shares, and its degree is that of a sharing polynomial. -/
def Fits (k : ℕ) (I : Finset ℕ) (v : ℕ → ℤ) (f : F[X]) : Prop :=
  f.degree < k ∧ ∀ i ∈ I, f.eval (i : F) = v i

/-- The vectors that give the shares and the secret of `f` are those whose polynomial is `f`. -/
theorem mem_vectors_iff_sharing_eq (h : Observed n k I v) {f : F[X]} (hf : Fits k I v f)
    {w : Fin (k - 1) → Draw} :
    w ∈ vectors n k I v (f.eval 0).val ↔ sharing k (f.eval 0).val w = f := by
  rw [mem_vectors_iff h.le h.le_nine (Int.natCast_nonneg _) (val_lt_PRIME _) h.subset h.reduced]
  constructor
  -- `k - 1` shares and the secret are `k` points
  · intro heval
    refine eq_of_eval_eq h.card h.bounds (degree_sharing_lt h.one_le) hf.1 ?_ fun i hi => ?_
    · rw [eval_zero_sharing, Int.cast_natCast, ZMod.natCast_zmod_val]
    · rw [heval i hi, hf.2 i hi]
  · intro hw i hi
    rw [hw, hf.2 i hi]

/-- A coefficient that is zero cannot be drawn, so no vector gives the shares together with this
secret. -/
theorem ncard_vectors_eq_zero (h : Observed n k I v) {f : F[X]} (hf : Fits k I v f) {e : ℕ}
    (he : e ∈ Finset.Ico 1 k) (hzero : f.coeff e = 0) :
    (vectors n k I v (f.eval 0).val).ncard = 0 := by
  obtain ⟨hpos, hlt⟩ := Finset.mem_Ico.mp he
  obtain ⟨i, rfl⟩ : ∃ i, e = i + 1 := ⟨e - 1, by omega⟩
  rw [Set.ncard_eq_zero, Set.eq_empty_iff_forall_notMem]
  intro w hw
  rw [← (mem_vectors_iff_sharing_eq h hf).mp hw, coeff_sharing (⟨i, by omega⟩ : Fin (k - 1))]
    at hzero
  exact cast_draw_ne_zero _ hzero

/-- One vector gives the shares, when every coefficient of the polynomial can be drawn. -/
theorem ncard_vectors_eq_one (h : Observed n k I v) {f : F[X]} (hf : Fits k I v f)
    (hall : ∀ e ∈ Finset.Ico 1 k, f.coeff e ≠ 0) :
    (vectors n k I v (f.eval 0).val).ncard = 1 := by
  -- each coefficient of `f` behind the first is some draw
  have hdraw : ∀ i : Fin (k - 1), ∃ d : Draw, ((d.val : ℤ) : F) = f.coeff (i + 1) := fun i =>
    exists_draw (hall _ (Finset.mem_Ico.mpr ⟨by omega, by omega⟩))
  choose w hw using hdraw
  refine Set.ncard_eq_one.mpr ⟨w, ?_⟩
  ext w'
  rw [mem_vectors_iff_sharing_eq h hf, Set.mem_singleton_iff]
  constructor
  -- only one vector has these coefficients
  · intro hw'
    ext i
    refine congrArg Subtype.val (draw_cast_injective ?_)
    show ((w' i).val : F) = ((w i).val : F)
    rw [← coeff_sharing, hw', hw]
  -- and it gives `f`: the constant term is the secret, the others are as drawn
  · rintro rfl
    ext e
    rcases Nat.lt_or_ge e k with hlt | hge
    · rcases Nat.eq_zero_or_pos e with rfl | hpos
      · rw [coeff_zero_eq_eval_zero, coeff_zero_eq_eval_zero, eval_zero_sharing,
          Int.cast_natCast, ZMod.natCast_zmod_val]
      · obtain ⟨i, rfl⟩ : ∃ i, e = i + 1 := ⟨e - 1, by omega⟩
        exact (coeff_sharing (⟨i, by omega⟩ : Fin (k - 1))).trans (hw ⟨i, by omega⟩)
    · -- Neither polynomial has a coefficient from `k` on.
      have hge' : (k : WithBot ℕ) ≤ e := by exact_mod_cast hge
      rw [coeff_eq_zero_of_degree_lt ((degree_sharing_lt h.one_le).trans_le hge'),
        coeff_eq_zero_of_degree_lt (hf.1.trans_le hge')]

/-- The coefficients of `∏ (X - i)`, over numbers of shares, are not zero modulo `PRIME`. -/
theorem coeff_nodal_ne_zero (hcard : I.card ≤ 8) (hI : ∀ i ∈ I, 1 ≤ i ∧ i ≤ 9) {e : ℕ}
    (he : e ≤ I.card) : (Lagrange.nodal I fun i => (i : F)).coeff e ≠ 0 := by
  rw [SecretSharing.coeff_nodal he]
  refine mul_ne_zero (pow_ne_zero _ (neg_ne_zero.mpr one_ne_zero)) ?_
  set m := I.card - e
  -- up to its sign the coefficient is a sum of products of share numbers
  have hprod : ∀ t ∈ I.powersetCard m, 1 ≤ ∏ i ∈ t, i ∧ ∏ i ∈ t, i ≤ 9 ^ m := by
    intro t ht
    obtain ⟨hsub, htcard⟩ := Finset.mem_powersetCard.mp ht
    refine ⟨Finset.one_le_prod' fun i hi => (hI i (hsub hi)).1, ?_⟩
    rw [← htcard]
    exact Finset.prod_le_pow_card t _ 9 fun i hi => (hI i (hsub hi)).2
  have hpos : 0 < ∑ t ∈ I.powersetCard m, ∏ i ∈ t, i :=
    Finset.sum_pos (fun t ht => (hprod t ht).1)
      (Finset.powersetCard_nonempty.mpr (Nat.sub_le _ _))
  -- at most `2 ^ 8` products of at most eight numbers up to nine: less than `PRIME`
  have hle : ∑ t ∈ I.powersetCard m, ∏ i ∈ t, i ≤ 2 ^ 8 * 9 ^ 8 :=
    calc ∑ t ∈ I.powersetCard m, ∏ i ∈ t, i
        ≤ (I.powersetCard m).card * 9 ^ m :=
          Finset.sum_le_card_nsmul _ _ _ fun t ht => (hprod t ht).2
      _ = I.card.choose m * 9 ^ m := by rw [Finset.card_powersetCard]
      _ ≤ 2 ^ 8 * 9 ^ 8 := Nat.mul_le_mul
          ((Nat.choose_le_two_pow _ _).trans (Nat.pow_le_pow_right (by omega) hcard))
          (Nat.pow_le_pow_right (by omega) (by omega))
  intro hzero
  have hdvd := (ZMod.natCast_eq_zero_iff _ _).mp hzero
  have := Nat.le_of_dvd hpos hdvd
  omega

/-- The polynomials through the shares that fit. -/
theorem fits_through (h : Observed n k I v) (t : F) :
    Fits k I v (SecretSharing.through I (fun i => (i : F)) (fun i => (v i : F)) t) := by
  have hinj := cast_injOn_of_le fun i hi => (h.bounds i hi).2
  refine ⟨?_, fun i hi => SecretSharing.eval_through hinj hi⟩
  have hdeg := SecretSharing.degree_through_lt hinj (fun i => (v i : F)) t
  rwa [h.card] at hdeg

/-- **`k - 1` shares exclude secrets.** Whatever their numbers and values, some secret in
`0..PRIME-1` has no coefficient vector, and another one has one. With the secret, the polynomial
through the shares moves along `∏ (X - i)`, and no coefficient of this product is zero; hence each
coefficient vanishes at exactly one secret. -/
theorem exists_excluded (h : Observed n k I v) :
    ∃ secret secret' : ℤ, (0 ≤ secret ∧ secret < PRIME) ∧ (0 ≤ secret' ∧ secret' < PRIME) ∧
      (vectors n k I v secret).ncard = 0 ∧ (vectors n k I v secret').ncard = 1 := by
  have hk := h.two_le
  have hkn := h.le
  have hn := h.le_nine
  have hcard := h.card
  -- moving the secret by one moves every coefficient by one of these
  have hcoeff : ∀ e ∈ Finset.Ico 1 k, (Lagrange.nodal I fun i => (i : F)).coeff e ≠ 0 := by
    intro e he
    have he' := (Finset.mem_Ico.mp he).2
    exact coeff_nodal_ne_zero (by omega) h.bounds (by omega)
  have hone : 1 ∈ Finset.Ico 1 k := Finset.mem_Ico.mpr ⟨le_rfl, hk⟩
  -- so for one secret the linear coefficient vanishes
  obtain ⟨t, ht⟩ := SecretSharing.exists_coeff_through_eq_zero (fun i => (v i : F)) (hcoeff 1 hone)
  -- and some other secret avoids the zeros of all of them: there are fewer than `PRIME`
  obtain ⟨t', ht'⟩ := SecretSharing.exists_coeff_through_ne_zero (fun i => (v i : F)) hcoeff (by
    rw [Nat.card_Ico, ZMod.card]
    omega)
  exact ⟨_, _, ⟨Int.natCast_nonneg _, val_lt_PRIME _⟩, ⟨Int.natCast_nonneg _, val_lt_PRIME _⟩,
    ncard_vectors_eq_zero h (fits_through h t) hone ht,
    ncard_vectors_eq_one h (fits_through h t') ht'⟩

/-- **The sharing is not secret at any threshold.** For no `k - 1` shares is the number of
coefficient vectors that give them the same for every secret. A uniform draw that included zero
would have one vector for each secret. -/
theorem not_secret (hk : 2 ≤ k) (hkn : k ≤ n) (hn : n ≤ 9) (hI : I ⊆ Finset.Icc 1 n)
    (hcard : I.card = k - 1) (hv : ∀ i ∈ I, 0 ≤ v i ∧ v i < PRIME) :
    ¬ ∀ secret secret' : ℤ, (0 ≤ secret ∧ secret < PRIME) → (0 ≤ secret' ∧ secret' < PRIME) →
      (vectors n k I v secret).ncard = (vectors n k I v secret').ncard := by
  intro hall
  have h : Observed n k I v := ⟨hk, hkn, hn, hI, by omega, hv⟩
  obtain ⟨secret, secret', hsecret, hsecret', hzero, hone⟩ := exists_excluded h
  have heq := hall secret secret' hsecret hsecret'
  rw [hzero, hone] at heq
  exact zero_ne_one heq

theorem not_secret_two_of_two :
    ¬ ∀ secret secret' : ℤ, (0 ≤ secret ∧ secret < PRIME) → (0 ≤ secret' ∧ secret' < PRIME) →
      (vectors 2 2 {1} (fun _ => 0) secret).ncard = (vectors 2 2 {1} (fun _ => 0) secret').ncard :=
  not_secret (by decide) (by decide) (by decide) (by decide) (by decide) (by decide)

/-- Whoever holds the share `(1, 0)` of a sharing with threshold two knows that the secret is
not zero: it could be any other number. -/
theorem secret_ne_zero_of_share_zero :
    (vectors 2 2 {1} (fun _ => 0) 0).ncard = 0 ∧ (vectors 2 2 {1} (fun _ => 0) 1).ncard = 1 := by
  have h : Observed 2 2 {1} fun _ => 0 :=
    ⟨by decide, by decide, by decide, by decide, by decide, by decide⟩
  constructor
  · have hfits : Fits 2 {1} (fun _ => 0) 0 := by
      refine ⟨?_, fun i _ => ?_⟩
      · rw [degree_zero]
        exact WithBot.bot_lt_coe 2
      · rw [eval_zero, Int.cast_zero]
    have hcount := ncard_vectors_eq_zero h hfits (Finset.mem_Ico.mpr ⟨le_rfl, one_lt_two⟩)
      (coeff_zero 1)
    rwa [eval_zero, ZMod.val_zero, Nat.cast_zero] at hcount
  · have hfits : Fits 2 {1} (fun _ => 0) (1 - X) := by
      refine ⟨?_, fun i hi => ?_⟩
      · refine (degree_sub_le _ _).trans_lt (max_lt ?_ ?_)
        · rw [degree_one]
          exact_mod_cast two_pos
        · rw [degree_X]
          exact_mod_cast one_lt_two
      · rw [Finset.mem_singleton.mp hi, eval_sub, eval_one, eval_X, Nat.cast_one, sub_self,
          Int.cast_zero]
    have hcount := ncard_vectors_eq_one h hfits fun e he => by
      obtain ⟨hpos, hlt⟩ := Finset.mem_Ico.mp he
      obtain rfl : e = 1 := by omega
      rw [coeff_sub, coeff_one, coeff_X_one]
      simp
    rwa [eval_sub, eval_one, eval_X, sub_zero, ZMod.val_one, Nat.cast_one] at hcount

end Counting

end Shamir
