import PathOram.Parser.Encoding

/-!
# The coefficient vectors of the share generators

Three functions generate shares: `shamirSecretSharing` and `shamirSecretSharingDouble` of
`shamir_parser.cpp`, and the copy in `sql_handler.cpp`. Each allocates a vector of coefficients,
fills it and evaluates the polynomial, and indexes `k` entries of it. `Allocated` has the three
functions with the vectors as they are allocated, and every access checked.

* `generate_eq` — with `k` entries the accesses are in bounds, and the shares are those of
  `sharesOf`.
* `generators_bounds` — the generator for `double` allocates `k` entries, the two others `k - 1`.
-/

namespace ShamirParser

open Double

/-- `coefficients[i] = c`. -/
def store (coefficients : List ℤ) (i : ℕ) (c : ℤ) : Except Fault (List ℤ) :=
  if i < coefficients.length then .ok (coefficients.set i c) else .error .outOfBounds

/-- `y += coefficients[i] * std::pow(x, i)`, with the index checked. -/
def addEntry (coefficients : List ℤ) (x y : ℤ) (i : ℕ) : Except Fault ℤ :=
  if i < coefficients.length then .ok (addTerm coefficients x y i) else .error .outOfBounds

/-- The loop that draws `m` coefficients. -/
def fill (draws : ℕ → ℤ) (m : ℕ) (coefficients : List ℤ) : Except Fault (List ℤ) :=
  (List.range m).foldlM (fun coefficients i => store coefficients (i + 1) (draws i)) coefficients

/-- The shares, from a vector of coefficients with `size` entries. -/
def generate (size : ℕ) (secret : ℤ) (draws : ℕ → ℤ) (n k : ℕ) : Except Fault (List (ℤ × ℤ)) := do
  let coefficients ← store (List.replicate size 0) 0 secret
  let coefficients ← fill draws (k - 1) coefficients
  (List.range n).mapM fun i => do
    let y ← (List.range k).foldlM (addEntry coefficients (i + 1 : ℕ)) 0
    pure ((i + 1 : ℕ), y)

namespace Allocated

def shamirSecretSharing (g : Generator) (secret : ℤ) (n k : ℕ) : Except Fault (List (ℤ × ℤ)) :=
  generate (k - 1) secret (fun i => (g (seed secret n k) i).val) n k

def shamirSecretSharingDouble (g : ℕ → ℕ → CoefficientOrZero) (secret : ℚ) (n k : ℕ) :
    Except Fault (List (ℤ × ℤ)) :=
  generate k (int64 (double (secret * 100))) (fun i => (g (seed (trunc secret) n k) i).val) n k

end Allocated

end ShamirParser

namespace SQLHandler.Allocated

/-- The copy in `sql_handler.cpp`. -/
def shamirSecretSharing :
    ShamirParser.Generator → ℤ → ℕ → ℕ → Except ShamirParser.Fault (List (ℤ × ℤ)) :=
  ShamirParser.Allocated.shamirSecretSharing

end SQLHandler.Allocated

namespace ShamirParser

open Double

/-! ### Accesses in bounds -/

section Bounds

variable {secret : ℤ} {draws : ℕ → ℤ} {n k size : ℕ}

/-- No index is as large as the size of the vector. -/
def InBounds (shares : Except Fault (List (ℤ × ℤ))) : Prop := shares ≠ .error .outOfBounds

theorem store_returns {coefficients : List ℤ} {i : ℕ} (h : i < coefficients.length) (c : ℤ) :
    Returns (store coefficients i c) (· = coefficients.set i c) :=
  ⟨_, if_pos h, rfl⟩

/-- A vector with room for the coefficients. -/
theorem fill_spec {m : ℕ} (hm : m ≤ size) :
    Returns (fill draws m (secret :: List.replicate size 0))
      (· = secret :: ((List.range m).map draws ++ List.replicate (size - m) 0)) := by
  refine Returns.foldlM_range (I := fun m coefficients =>
    coefficients = secret :: ((List.range m).map draws ++ List.replicate (size - m) 0))
    rfl fun i coefficients hi hI => ?_
  have hlength : coefficients.length = size + 1 := by
    rw [hI, List.length_cons, List.length_append, List.length_map, List.length_range,
      List.length_replicate]
    omega
  have hrest : size - i = size - (i + 1) + 1 := by omega
  refine (store_returns (by omega) (draws i)).mono fun coefficients' h => ?_
  -- The first of the zeros behind the entries is overwritten.
  rw [h, hI, List.set_cons_succ, hrest, List.replicate_succ,
    List.set_append_right i _ (by rw [List.length_map, List.length_range]), List.length_map,
    List.length_range, Nat.sub_self, List.set_cons_zero, List.range_succ, List.map_append,
    List.map_singleton, List.append_assoc, List.singleton_append]

/-- A vector with room for one coefficient less. -/
theorem fill_outOfBounds :
    fill draws (size + 1) (secret :: List.replicate size 0) = .error .outOfBounds := by
  have hspec : Returns (fill draws size (secret :: List.replicate size 0)) _ := fill_spec le_rfl
  obtain ⟨coefficients, hfill, hcoefficients⟩ := hspec
  have hlength : ¬ size + 1 < coefficients.length := by
    rw [hcoefficients, List.length_cons, List.length_append, List.length_map, List.length_range,
      List.length_replicate]
    omega
  -- the last index of the loop is the size of the vector
  have hlast : store coefficients (size + 1) (draws size) = .error .outOfBounds := if_neg hlength
  unfold fill at hfill ⊢
  rw [foldlM_range_succ, hfill]
  exact hlast

theorem evaluate_spec {coefficients : List ℤ} (h : k ≤ coefficients.length) (x : ℤ) :
    Returns ((List.range k).foldlM (addEntry coefficients x) 0) (· = shareAt coefficients k x) := by
  refine Returns.foldlM_range
    (I := fun m y => y = (List.range m).foldl (addTerm coefficients x) 0) rfl fun i y hi hI => ?_
  refine ⟨addTerm coefficients x y i, if_pos (by omega), ?_⟩
  rw [List.range_succ, List.foldl_append, hI]
  rfl

/-- **With `k` entries** the vector holds the coefficients, and the shares are their
polynomial's. -/
theorem generate_eq (hk : 1 ≤ k) :
    generate k secret draws n k =
      .ok (sharesOf (secret :: (List.range (k - 1)).map draws) n k) := by
  -- the secret is the constant term, the draws follow
  have hfirst : (List.replicate k (0 : ℤ)).set 0 secret = secret :: List.replicate (k - 1) 0 := by
    obtain ⟨m, rfl⟩ := Nat.exists_eq_succ_of_ne_zero (Nat.one_le_iff_ne_zero.mp hk)
    rfl
  refine Returns.eq_ok ((store_returns (by rwa [List.length_replicate]) secret).bind
    fun coefficients h => ?_)
  rw [h, hfirst]
  refine (fill_spec le_rfl).bind fun coefficients h => ?_
  rw [Nat.sub_self, List.replicate_zero, List.append_nil] at h
  subst h
  refine Returns.mapM fun i _ => ?_
  have hlength : k ≤ (secret :: (List.range (k - 1)).map draws).length := by
    rw [List.length_cons, List.length_map, List.length_range]
    omega
  exact (evaluate_spec hlength (i + 1 : ℕ)).bind fun y hy => Returns.pure (by rw [hy])

/-- **With `k - 1` entries** the last coefficient is written behind the end. -/
theorem generate_outOfBounds (hk : 1 ≤ k) :
    generate (k - 1) secret draws n k = .error .outOfBounds := by
  rcases eq_or_lt_of_le hk with rfl | hk₂
  · -- The vector is empty.
    rfl
  obtain ⟨m, rfl⟩ : ∃ m, k = m + 2 := ⟨k - 2, by omega⟩
  -- the vector is one shorter than the loop, so its last store fails
  have hfirst : store (List.replicate (m + 1) 0) 0 secret =
      .ok (secret :: List.replicate m 0) := rfl
  have hfill : fill draws (m + 1) (secret :: List.replicate m 0) = .error .outOfBounds :=
    fill_outOfBounds
  show generate (m + 1) secret draws n (m + 2) = _
  unfold generate
  rw [hfirst]
  show (fill draws (m + 1) (secret :: List.replicate m 0) >>= _) = _
  rw [hfill]
  rfl

/-- **Bounds.** The generator for `double` stays inside its vector, and its shares are those of the
polynomial; the two others never do, for any threshold: they allocate `k - 1` entries, and write
the secret and `k - 1` coefficients. -/
theorem generators_bounds (g : Generator) (g₀ : ℕ → ℕ → CoefficientOrZero) (secret : ℤ)
    (value : ℚ) (n : ℕ) (hk : 1 ≤ k) :
    ¬ InBounds (Allocated.shamirSecretSharing g secret n k) ∧
      Allocated.shamirSecretSharingDouble g₀ value n k =
        .ok (shamirSecretSharingDouble g₀ value n k) ∧
      ¬ InBounds (SQLHandler.Allocated.shamirSecretSharing g secret n k) :=
  ⟨not_not_intro (generate_outOfBounds hk), generate_eq hk,
    not_not_intro (generate_outOfBounds hk)⟩

theorem zero_le_one_le_hundred : (0 : ℤ) ≤ 1 ∧ (1 : ℤ) ≤ 100 := by decide

theorem generators_bounds_three_of_six :
    ¬ InBounds (Allocated.shamirSecretSharing (fun _ _ => ⟨1, one_le_one_le_hundred⟩) 17 6 3) ∧
      Allocated.shamirSecretSharingDouble (fun _ _ => ⟨1, zero_le_one_le_hundred⟩) (4 / 100) 6 3 =
        .ok (shamirSecretSharingDouble (fun _ _ => ⟨1, zero_le_one_le_hundred⟩) (4 / 100) 6 3) ∧
      ¬ InBounds (SQLHandler.Allocated.shamirSecretSharing
        (fun _ _ => ⟨1, one_le_one_le_hundred⟩) 17 6 3) :=
  generators_bounds _ _ 17 (4 / 100) 6 (by decide)

/-- The generators for the threshold three. -/
theorem not_inBounds :
    ¬ (InBounds (Allocated.shamirSecretSharing (fun _ _ => ⟨1, one_le_one_le_hundred⟩) 17 6 3) ∧
      InBounds (Allocated.shamirSecretSharingDouble (fun _ _ => ⟨1, zero_le_one_le_hundred⟩)
        (4 / 100) 6 3) ∧
      InBounds (SQLHandler.Allocated.shamirSecretSharing
        (fun _ _ => ⟨1, one_le_one_le_hundred⟩) 17 6 3)) := fun h =>
  h.1 (generate_outOfBounds (by decide))

end Bounds

end ShamirParser
