import PathOram.Parser.Encoding

/-!
# Selecting rows by their shares

`test-sss-sql.cpp` and `test-sss.cpp`: a server selects the rows whose share equals the share
of the condition. Tables and conditions are given by the integers that are shared.

Equal values have equal shares, because the generator is seeded with the value. Different
values may have equal shares too, at one server and not at the next: the coefficients drawn for
the two of them may make up for their difference (`Compensates`). `test-sss.cpp` reads the shares
of the second server; its sums compare them with `id_1`, its counts with `id_0`, the share of the
first server. There a value and the condition have different terms even if they are equal, so that
the count finds a condition that holds only where rounding loses the difference (`Absorbed`).

`selections_agree_iff` says for which tables, queries and coefficients all selections are those of
the query. The condition (`Apart`) is about the values of the rows and the numbers drawn for
them: which filters hold, and which differences are made up for.
-/

namespace SQLQuery

open Double ShamirParser

/-! ### Queries -/

inductive WhereClause where
  | AND
  | OR
  deriving DecidableEq, Repr

/-- A filter, with the integer that its condition is encoded as. -/
structure Filter where
  attr : AttributeID
  condition : ℤ
  deriving DecidableEq, Repr

structure Query where
  first : Filter
  whereClause : WhereClause
  second : Filter
  deriving DecidableEq, Repr

/-- The two filters combined. -/
def WhereClause.combine : WhereClause → Bool → Bool → Bool
  | .AND, found0, found1 => found0 && found1
  | .OR, found0, found1 => found0 || found1

/-! ### The code -/

/-- `shareID["id_<id>"]` of a filter. -/
def filterId (g : Generator) (filter : Filter) (id : ℕ) : ℤ :=
  ((SQLHandler.shamirSecretSharing g filter.condition 6 3).getD id (0, 0)).2

/-- `(tuple.size() > attr_idx) && (tuple[attr_idx] == filter_id)`. -/
def found (tuple : List ℤ) (attr_idx : ℕ) (filter_id : ℤ) : Bool :=
  match tuple[attr_idx]? with
  | none => false
  | some y => y == filter_id

/-- The loop over the tuples: the indices of those that are counted or written. -/
def select (g : Generator) (tuples : List (List ℤ)) (query : Query) (id : ℕ) : List ℕ :=
  (List.range tuples.length).filter fun t =>
    query.whereClause.combine
      (found (tuples.getD t []) query.first.attr.index (filterId g query.first id))
      (found (tuples.getD t []) query.second.attr.index (filterId g query.second id))

/-- The shares that the server `x` has of a table. -/
def loadSecretShares (g : Generator) (rows : List (List ℤ)) (x : ℕ) : List (List ℤ) :=
  rows.map fun row => row.map fun secret =>
    ((ShamirParser.shamirSecretSharing g secret 6 3).getD (x - 1) (0, 0)).2

/-- `test-sss-sql.cpp`: every server compares with its own share of the condition. -/
def ORAMTestSQL (g : Generator) (rows : List (List ℤ)) (query : Query) (ser : ℕ) : List ℕ :=
  select g (loadSecretShares g rows ser) query (ser - 1)

/-- `test-sss.cpp`, `SQLSUMORQuery` and `SQLSUMANDQuery`. -/
def ORAMTestSSS.sum (g : Generator) (rows : List (List ℤ)) (query : Query) : List ℕ :=
  select g (loadSecretShares g rows 2) query 1

/-- `test-sss.cpp`, `SQLCountORQuery` and `SQLCountANDQuery`. -/
def ORAMTestSSS.count (g : Generator) (rows : List (List ℤ)) (query : Query) : List ℕ :=
  select g (loadSecretShares g rows 2) query 0

/-! ### What a query asks for -/

/-- The clause over two properties of the filters. -/
def Query.Combine (query : Query) (holds : Filter → Prop) : Prop :=
  match query.whereClause with
  | .AND => holds query.first ∧ holds query.second
  | .OR => holds query.first ∨ holds query.second

/-- The row satisfies the clause: it has the values that the filters ask for. -/
def Query.Satisfied (query : Query) (row : List ℤ) : Prop :=
  query.Combine fun filter => row[filter.attr.index]? = some filter.condition

instance (query : Query) (holds : Filter → Prop) [DecidablePred holds] :
    Decidable (query.Combine holds) :=
  match query with
  | ⟨_, .AND, _⟩ => inferInstanceAs (Decidable (_ ∧ _))
  | ⟨_, .OR, _⟩ => inferInstanceAs (Decidable (_ ∨ _))

instance (query : Query) (row : List ℤ) : Decidable (query.Satisfied row) :=
  inferInstanceAs (Decidable (query.Combine _))

/-- The indices of the rows that satisfy the query. -/
def satisfying (rows : List (List ℤ)) (query : Query) : List ℕ :=
  (List.range rows.length).filter fun t => query.Satisfied (rows.getD t [])

/-- All the servers select the rows that satisfy the query, to sum and to count them. -/
def Agrees (g : Generator) (rows : List (List ℤ)) (query : Query) : Prop :=
  (∀ x, 1 ≤ x → x ≤ 6 → ORAMTestSQL g rows query x = satisfying rows query) ∧
    ORAMTestSSS.sum g rows query = satisfying rows query ∧
    ORAMTestSSS.count g rows query = satisfying rows query

/-! ### When they agree -/

/-- The row has the value that the filter asks for. -/
def Filter.Holds (row : List ℤ) (filter : Filter) : Prop :=
  row[filter.attr.index]? = some filter.condition

/-- The term `c₁ x` of a value. -/
def linear (g : Generator) (x : ℕ) (s : ℤ) : ℤ := (g (seed s 6 3) 0).val * x

/-- The term `c₂ x²` of a value. -/
def quadratic (g : Generator) (x : ℕ) (s : ℤ) : ℤ := (g (seed s 6 3) 1).val * x ^ 2

/-- `s + a + b` in double precision: each sum is rounded to 53 bits. -/
def rounded (s a b : ℤ) : ℤ :=
  let y := int64 (double s)
  let y := int64 (double (double y + a))
  int64 (double (double y + b))

/-- The terms of `v` at `x` and those of `c` at `x'` make up for the difference of `v` and `c`.
Up to `2 ^ 52` this is an equation between integers; above it the sums are rounded, and the
equation holds between what rounding leaves. -/
def Compensates (g : Generator) (x x' : ℕ) (v c : ℤ) : Prop :=
  if |v| ≤ 2 ^ 52 ∧ |c| ≤ 2 ^ 52 then
    c - v = (linear g x v - linear g x' c) + (quadratic g x v - quadratic g x' c)
  else rounded v (linear g x v) (quadratic g x v) = rounded c (linear g x' c) (quadratic g x' c)

/-- The value is another one than the filter asks for, and the terms make up for it. -/
def Filter.Mistaken (g : Generator) (x x' : ℕ) (row : List ℤ) (filter : Filter) : Prop :=
  ∃ v, row[filter.attr.index]? = some v ∧ v ≠ filter.condition ∧
    Compensates g x x' v filter.condition

/-- The condition is so large that rounding loses what its terms at the second server have more
than those at the first one. -/
def Absorbed (g : Generator) (c : ℤ) : Prop :=
  2 ^ 52 < |c| ∧ rounded c (linear g 2 c) (quadratic g 2 c) =
    rounded c (linear g 1 c) (quadratic g 1 c)

/-- Mistakes have no consequence in the row: where one filter is mistaken, the other one rules
the row out (in a conjunction), or holds (in a disjunction). -/
def Query.Harmless (g : Generator) (x : ℕ) (query : Query) (row : List ℤ) : Prop :=
  let ⟨first, whereClause, second⟩ := query
  match whereClause with
  | .AND =>
    (first.Mistaken g x x row → ¬ second.Holds row ∧ ¬ second.Mistaken g x x row) ∧
      (second.Mistaken g x x row → ¬ first.Holds row)
  | .OR =>
    (first.Mistaken g x x row → second.Holds row) ∧
      (second.Mistaken g x x row → first.Holds row)

/-- The count of the second server with the conditions of the first one. A filter that holds is
found only if its condition is absorbed, so that

* in a conjunction, a row that is asked for needs two absorbed conditions, and no other row may be
  found by a mistake;
* in a disjunction, a row that is asked for needs an absorbed condition that holds, or a mistake,
  and the other rows need that there is none. -/
def Query.CountsRight (g : Generator) (query : Query) (row : List ℤ) : Prop :=
  let ⟨first, whereClause, second⟩ := query
  match whereClause with
  | .AND =>
    (first.Holds row → second.Holds row →
        Absorbed g first.condition ∧ Absorbed g second.condition) ∧
      (first.Mistaken g 2 1 row →
        ¬ second.Mistaken g 2 1 row ∧ (second.Holds row → ¬ Absorbed g second.condition)) ∧
      (second.Mistaken g 2 1 row → first.Holds row → ¬ Absorbed g first.condition)
  | .OR =>
    (first.Holds row → second.Holds row →
        Absorbed g first.condition ∨ Absorbed g second.condition) ∧
      (first.Holds row → ¬ second.Holds row →
        Absorbed g first.condition ∨ second.Mistaken g 2 1 row) ∧
      (second.Holds row → ¬ first.Holds row →
        Absorbed g second.condition ∨ first.Mistaken g 2 1 row) ∧
      (first.Mistaken g 2 1 row → second.Holds row) ∧
      (second.Mistaken g 2 1 row → first.Holds row)

/-- The numbers drawn keep the values of the rows apart from the conditions. -/
structure Apart (g : Generator) (rows : List (List ℤ)) (query : Query) : Prop where
  servers : ∀ x, 1 ≤ x → x ≤ 6 → ∀ row ∈ rows, query.Harmless g x row
  count : ∀ row ∈ rows, query.CountsRight g row

section Agreement

variable {g : Generator} {rows : List (List ℤ)} {query : Query}

/-- A value with its two random terms at `x`, added up in double precision. -/
def masked (g : Generator) (x : ℕ) (s : ℤ) : ℤ :=
  let y := int64 (double s)
  let y := int64 (double (double y + (g (seed s 6 3) 0).val * x))
  int64 (double (double y + (g (seed s 6 3) 1).val * x ^ 2))

/-- The values of the row, masked for the server `x`, are the conditions masked for `x'`. -/
def Query.Covered (g : Generator) (x x' : ℕ) (query : Query) (row : List ℤ) : Prop :=
  query.Combine fun filter =>
    ∃ s, row[filter.attr.index]? = some s ∧ masked g x s = masked g x' filter.condition

theorem addTerm_coefficient {x : ℤ} {c y : ℤ} {i : ℕ} {cs : List ℤ} (hc : cs.getD i 0 = c)
    (h₁ : 1 ≤ c) (h₁₀₀ : c ≤ 100) (hx : 1 ≤ x ^ i) (hx₃₆ : x ^ i ≤ 36) :
    addTerm cs x y i = int64 (double (double y + c * (x : ℚ) ^ i)) := by
  have hc' : |c| < 2 ^ 53 := abs_lt.mpr ⟨by omega, by omega⟩
  have hx' : |x ^ i| < 2 ^ 53 := abs_lt.mpr ⟨by omega, by omega⟩
  have hterm : |c * x ^ i| < 2 ^ 53 := abs_lt.mpr ⟨by nlinarith, by nlinarith⟩
  unfold addTerm
  rw [hc, double_intCast hc', ← Int.cast_pow, double_intCast hx', ← Int.cast_mul,
    double_intCast hterm]

/-- The share of a server. -/
theorem shareAt_eq_masked {x : ℕ} (h₁ : 1 ≤ x) (h₆ : x ≤ 6) (s : ℤ) :
    shareAt (coefficients s (g (seed s 6 3)) 3) 3 x = masked g x s := by
  have hc := (g (seed s 6 3) 0).property
  have hd := (g (seed s 6 3) 1).property
  -- the first term adds the secret to zero, in double precision
  have hfirst : addTerm (coefficients s (g (seed s 6 3)) 3) x 0 0 = int64 (double s) := by
    have hzero : double 0 = 0 := by
      have hexact := double_intCast (n := 0) (by decide)
      rwa [Int.cast_zero] at hexact
    have hone : double 1 = 1 := by
      have hexact := double_intCast (n := 1) (by decide)
      rwa [Int.cast_one] at hexact
    show int64 (double (double ((0 : ℤ) : ℚ) + double (double (s : ℚ) * double ((x : ℚ) ^ 0)))) = _
    rw [pow_zero, hone, mul_one, double_double, Int.cast_zero, hzero, zero_add, double_double]
  have hx : (1 : ℤ) ≤ x ∧ (x : ℤ) ≤ 6 := by omega
  show addTerm _ x (addTerm _ x (addTerm _ x 0 0) 1) 2 = _
  rw [hfirst, addTerm_coefficient (c := (g (seed s 6 3) 1).val) (i := 2) rfl hd.1 hd.2
    (by nlinarith) (by nlinarith), addTerm_coefficient (c := (g (seed s 6 3) 0).val) (i := 1) rfl
    hc.1 hc.2 (by rw [pow_one]; omega) (by rw [pow_one]; omega)]
  unfold masked
  rw [Int.cast_natCast, pow_one]

theorem getD_shamirSecretSharing {x : ℕ} (h₁ : 1 ≤ x) (h₆ : x ≤ 6) (s : ℤ) :
    ((ShamirParser.shamirSecretSharing g s 6 3).getD (x - 1) (0, 0)).2 = masked g x s := by
  unfold ShamirParser.shamirSecretSharing
  rw [getD_sharesOf (by omega), Nat.sub_add_cancel h₁]
  exact shareAt_eq_masked h₁ h₆ s

theorem found_map_iff {row : List ℤ} {f : ℤ → ℤ} {idx : ℕ} {id : ℤ} :
    found (row.map f) idx id = true ↔ ∃ s, row[idx]? = some s ∧ f s = id := by
  unfold found
  rw [List.getElem?_map]
  cases row[idx]? with
  | none => exact iff_of_false Bool.false_ne_true (by rintro ⟨s, hs, -⟩; cases hs)
  | some s =>
    show (f s == id) = true ↔ _
    rw [beq_iff_eq]
    exact ⟨fun h => ⟨s, rfl, h⟩, fun ⟨s', hs, h⟩ => by rwa [Option.some.inj hs]⟩

theorem combine_iff {holds : Filter → Prop} {found0 found1 : Bool}
    (h₀ : found0 = true ↔ holds query.first) (h₁ : found1 = true ↔ holds query.second) :
    query.whereClause.combine found0 found1 = true ↔ query.Combine holds := by
  unfold WhereClause.combine Query.Combine
  cases query.whereClause with
  | AND => rw [Bool.and_eq_true, h₀, h₁]
  | OR => rw [Bool.or_eq_true, h₀, h₁]

theorem masked_eq_rounded (g : Generator) (x : ℕ) (s : ℤ) :
    masked g x s = rounded s (linear g x s) (quadratic g x s) := by
  unfold masked rounded linear quadratic
  push_cast
  rfl

theorem linear_mem {x : ℕ} (h₁ : 1 ≤ x) (h₆ : x ≤ 6) (s : ℤ) :
    0 < linear g x s ∧ linear g x s ≤ 600 := by
  have hc := (g (seed s 6 3) 0).property
  unfold linear
  constructor <;> nlinarith

theorem quadratic_mem {x : ℕ} (h₁ : 1 ≤ x) (h₆ : x ≤ 6) (s : ℤ) :
    0 < quadratic g x s ∧ quadratic g x s ≤ 3600 := by
  have hc := (g (seed s 6 3) 1).property
  have hx : (1 : ℤ) ≤ x ^ 2 ∧ (x : ℤ) ^ 2 ≤ 36 := by constructor <;> nlinarith
  unfold quadratic
  constructor <;> nlinarith

/-- Up to `2 ^ 52` the sums are exact. -/
theorem masked_eq_add {x : ℕ} (h₁ : 1 ≤ x) (h₆ : x ≤ 6) {s : ℤ} (hs : |s| ≤ 2 ^ 52) :
    masked g x s = s + linear g x s + quadratic g x s := by
  obtain ⟨hlow, hhigh⟩ := abs_le.mp hs
  have hlinear := linear_mem (g := g) h₁ h₆ s
  have hquadratic := quadratic_mem (g := g) h₁ h₆ s
  -- integers below `2 ^ 53` are doubles
  have hexact : ∀ z : ℤ, |z| < 2 ^ 53 → int64 (double z) = z := fun z hz => by
    rw [double_intCast hz, int64_intCast hz]
  have hfirst : |s + linear g x s| < 2 ^ 53 := abs_lt.mpr (by omega)
  have hsecond : |s + linear g x s + quadratic g x s| < 2 ^ 53 := abs_lt.mpr (by omega)
  have hzero : |s| < 2 ^ 53 := abs_lt.mpr (by omega)
  rw [masked_eq_rounded]
  show int64 (double (double (int64 (double (double (int64 (double s)) + _))) + _)) = _
  rw [hexact s hzero, double_intCast hzero, ← Int.cast_add, hexact _ hfirst,
    double_intCast hfirst, ← Int.cast_add, hexact _ hsecond]

/-- Two shares are equal if the terms make up for the difference of the values. -/
theorem masked_eq_iff {x x' : ℕ} (hx : 1 ≤ x ∧ x ≤ 6) (hx' : 1 ≤ x' ∧ x' ≤ 6) (v c : ℤ) :
    masked g x v = masked g x' c ↔ Compensates g x x' v c := by
  unfold Compensates
  split
  next hsmall =>
    rw [masked_eq_add hx.1 hx.2 hsmall.1, masked_eq_add hx'.1 hx'.2 hsmall.2]
    constructor <;> intro heq <;> linarith
  next => rw [masked_eq_rounded, masked_eq_rounded]

theorem not_absorbed {c : ℤ} (hc : |c| ≤ 2 ^ 52) : ¬ Absorbed g c :=
  fun habsorbed => habsorbed.1.not_ge hc

/-- The share of a condition grows from the first server to the second one, because the numbers
drawn are positive, unless rounding loses the growth. -/
theorem masked_two_eq_one_iff (c : ℤ) : masked g 2 c = masked g 1 c ↔ Absorbed g c := by
  unfold Absorbed
  rcases le_or_gt |c| (2 ^ 52) with hsmall | hlarge
  · refine iff_of_false ?_ (not_absorbed hsmall)
    have hc := (g (seed c 6 3) 0).property
    have hd := (g (seed c 6 3) 1).property
    rw [masked_eq_add (by decide) (by decide) hsmall, masked_eq_add (by decide) (by decide) hsmall]
    unfold linear quadratic
    push_cast
    omega
  · rw [masked_eq_rounded, masked_eq_rounded]
    exact (and_iff_right hlarge).symm

theorem Filter.Holds.not_mistaken {x x' : ℕ} {row : List ℤ} {filter : Filter}
    (h : filter.Holds row) : ¬ filter.Mistaken g x x' row := by
  rintro ⟨v, hv, hne, -⟩
  exact hne (Option.some.inj (hv.symm.trans h))

/-- A filter finds the value it asks for, if that has the same share at both servers, and the
values that it takes for it. -/
theorem exists_masked_iff {x x' : ℕ} (hx : 1 ≤ x ∧ x ≤ 6) (hx' : 1 ≤ x' ∧ x' ≤ 6) (row : List ℤ)
    (filter : Filter) :
    (∃ s, row[filter.attr.index]? = some s ∧ masked g x s = masked g x' filter.condition) ↔
      (filter.Holds row ∧ masked g x filter.condition = masked g x' filter.condition) ∨
        filter.Mistaken g x x' row := by
  constructor
  · rintro ⟨s, hs, heq⟩
    -- the value is the one of the condition, or another one with the same share
    by_cases hsame : s = filter.condition
    · subst hsame
      exact Or.inl ⟨hs, heq⟩
    · exact Or.inr ⟨s, hs, hsame, (masked_eq_iff hx hx' _ _).mp heq⟩
  · rintro (⟨hholds, heq⟩ | ⟨v, hv, -, hcompensates⟩)
    · exact ⟨_, hholds, heq⟩
    · exact ⟨v, hv, (masked_eq_iff hx hx' _ _).mpr hcompensates⟩

/-- **A server with its own conditions** selects a row rightly if the mistakes in it have no
consequence. -/
theorem harmless_iff {x : ℕ} (hx : 1 ≤ x ∧ x ≤ 6) (query : Query) (row : List ℤ) :
    (query.Covered g x x row ↔ query.Satisfied row) ↔ query.Harmless g x row := by
  obtain ⟨first, whereClause, second⟩ := query
  -- at one server a value always matches itself
  have hfound : ∀ filter : Filter,
      (∃ s, row[filter.attr.index]? = some s ∧ masked g x s = masked g x filter.condition) ↔
        filter.Holds row ∨ filter.Mistaken g x x row := fun filter =>
    (exists_masked_iff hx hx row filter).trans (or_congr_left (and_iff_left rfl))
  have hfirst : first.Holds row → ¬ first.Mistaken g x x row := Filter.Holds.not_mistaken
  have hsecond : second.Holds row → ¬ second.Mistaken g x x row := Filter.Holds.not_mistaken
  -- a mistake matters only where the other filter does not decide
  cases whereClause with
  | AND =>
    refine (iff_congr (and_congr (hfound first) (hfound second)) Iff.rfl).trans ?_
    show (_ ↔ first.Holds row ∧ second.Holds row) ↔ _
    unfold Query.Harmless
    tauto
  | OR =>
    refine (iff_congr (or_congr (hfound first) (hfound second)) Iff.rfl).trans ?_
    show (_ ↔ first.Holds row ∨ second.Holds row) ↔ _
    unfold Query.Harmless
    tauto

/-- **The count**, with the conditions of another server. -/
theorem countsRight_iff (query : Query) (row : List ℤ) :
    (query.Covered g 2 1 row ↔ query.Satisfied row) ↔ query.CountsRight g row := by
  obtain ⟨first, whereClause, second⟩ := query
  have hfound : ∀ filter : Filter,
      (∃ s, row[filter.attr.index]? = some s ∧ masked g 2 s = masked g 1 filter.condition) ↔
        (filter.Holds row ∧ Absorbed g filter.condition) ∨
          filter.Mistaken g 2 1 row := fun filter =>
    (exists_masked_iff (by decide) (by decide) row filter).trans
      (or_congr_left (and_congr_right fun _ => masked_two_eq_one_iff _))
  have hfirst : first.Holds row → ¬ first.Mistaken g 2 1 row := Filter.Holds.not_mistaken
  have hsecond : second.Holds row → ¬ second.Mistaken g 2 1 row := Filter.Holds.not_mistaken
  cases whereClause with
  | AND =>
    refine (iff_congr (and_congr (hfound first) (hfound second)) Iff.rfl).trans ?_
    show (_ ↔ first.Holds row ∧ second.Holds row) ↔ _
    -- What is left is about four filters: held or mistaken, the first or the second.
    unfold Query.CountsRight
    grind
  | OR =>
    refine (iff_congr (or_congr (hfound first) (hfound second)) Iff.rfl).trans ?_
    show (_ ↔ first.Holds row ∨ second.Holds row) ↔ _
    unfold Query.CountsRight
    grind

/-- The count for conditions up to `2 ^ 52`. A filter that holds is never found, so that a
conjunction may not hold in any row, and a disjunction has to hold by one filter where the other
one is mistaken. -/
theorem countsRight_iff_of_le {first second : Filter} (hfirst : |first.condition| ≤ 2 ^ 52)
    (hsecond : |second.condition| ≤ 2 ^ 52) (row : List ℤ) :
    (Query.CountsRight g ⟨first, .AND, second⟩ row ↔
      ¬(first.Holds row ∧ second.Holds row) ∧
        ¬(first.Mistaken g 2 1 row ∧ second.Mistaken g 2 1 row)) ∧
    (Query.CountsRight g ⟨first, .OR, second⟩ row ↔
      (first.Holds row ↔ second.Mistaken g 2 1 row) ∧
        (second.Holds row ↔ first.Mistaken g 2 1 row)) := by
  -- small conditions: the terms of the two servers are never rounded to the same share
  have habsorbed := not_absorbed (g := g) hfirst
  have habsorbed' := not_absorbed (g := g) hsecond
  have hholds : second.Holds row → ¬ second.Mistaken g 2 1 row := Filter.Holds.not_mistaken
  unfold Query.CountsRight
  constructor <;> grind

/-- **Selection.** A server selects the rows that are covered. -/
theorem select_eq_iff (x x' : ℕ) (hx : 1 ≤ x ∧ x ≤ 6) (hx' : 1 ≤ x' ∧ x' ≤ 6) :
    select g (loadSecretShares g rows x) query (x' - 1) = satisfying rows query ↔
      ∀ row ∈ rows, query.Covered g x x' row ↔ query.Satisfied row := by
  have htuples : loadSecretShares g rows x = rows.map fun row => row.map (masked g x) :=
    List.map_congr_left fun row _ => List.map_congr_left fun s _ =>
      getD_shamirSecretSharing hx.1 hx.2 s
  -- a tuple is selected when the shares of its row match
  have hselected : ∀ t (ht : t < rows.length),
      query.whereClause.combine
        (found ((loadSecretShares g rows x).getD t []) query.first.attr.index
          (filterId g query.first (x' - 1)))
        (found ((loadSecretShares g rows x).getD t []) query.second.attr.index
          (filterId g query.second (x' - 1))) = true ↔ query.Covered g x x' rows[t] := by
    intro t ht
    have htuple : (loadSecretShares g rows x).getD t [] = rows[t].map (masked g x) := by
      rw [htuples, List.getD_eq_getElem _ _ (by rwa [List.length_map]), List.getElem_map]
    have hid : ∀ filter, filterId g filter (x' - 1) = masked g x' filter.condition := fun filter =>
      getD_shamirSecretSharing hx'.1 hx'.2 filter.condition
    rw [htuple, hid, hid]
    exact combine_iff found_map_iff found_map_iff
  have hlen : (loadSecretShares g rows x).length = rows.length := List.length_map _
  unfold select satisfying
  rw [hlen]
  constructor
  -- the positions that are selected are those of the satisfied rows
  · intro heq row hrow
    obtain ⟨t, ht, rfl⟩ := List.getElem_of_mem hrow
    have hmem := congrArg (t ∈ ·) heq
    simp only [List.mem_filter, List.mem_range, ht, true_and, decide_eq_true_eq,
      hselected t ht, List.getD_eq_getElem _ _ ht] at hmem
    exact iff_of_eq hmem
  · intro hrows
    refine List.filter_congr fun t ht => ?_
    have ht' := List.mem_range.mp ht
    rw [Bool.eq_iff_iff, hselected t ht', decide_eq_true_iff, List.getD_eq_getElem _ _ ht']
    exact hrows _ (List.getElem_mem ht')

end Agreement

/-! ### Two rows -/

theorem one_mem_range : (1 : ℤ) ≤ 1 ∧ (1 : ℤ) ≤ 100 := by decide

theorem five_mem_range : (1 : ℤ) ≤ 5 ∧ (5 : ℤ) ≤ 100 := by decide

/-- A generator that draws 5 and 1 for the value 78 and ones for the others. -/
def fiveForN : Generator := fun seed i =>
  if seed = 75 ∧ i = 0 then ⟨5, five_mem_range⟩ else ⟨1, one_mem_range⟩

/-- Two rows that have the return flags `N` and `R`, and the line status `O`. -/
def twoRows : List (List ℤ) :=
  [[1, 1, 1, 1, 17, 15317, 4, 2, 78, 79, 826675200, 824083200, 827452800, 0, 0, 0],
    [1, 1, 1, 2, 36, 32436, 9, 6, 82, 79, 829267200, 825465600, 829958400, 0, 0, 0]]

/-- The return flag `R` or the line status `F`. -/
def returnedOrFinished : Query := ⟨⟨.RETURNFLAG, 82⟩, .OR, ⟨.LINESTATUS, 70⟩⟩

/-- The first server selects both rows, the second server one of them, and its count none. -/
example :
    satisfying twoRows returnedOrFinished = [1] ∧
      ORAMTestSQL fiveForN twoRows returnedOrFinished 1 = [0, 1] ∧
      ORAMTestSQL fiveForN twoRows returnedOrFinished 2 = [1] ∧
      ORAMTestSSS.count fiveForN twoRows returnedOrFinished = [] := by
  decide +kernel

end SQLQuery
