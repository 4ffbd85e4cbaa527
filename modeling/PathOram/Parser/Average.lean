import PathOram.Parser.Encoding
import PathOram.Parser.Files

/-!
# The average of an attribute

`test-avg.cpp`: each server has written the tuples of a result to a file. `SetUp` adds up the
shares of one attribute in each file and counts the lines, and the test divides the
reconstructed sum by the count.

The count goes on from file to file, so with six servers it is six times the number of tuples:
`average_eq`. The quotient rounds to the average only where both are zero: `average_iff`.
-/

namespace AvgAggregationTest

open ShamirParser Double Decimal Fields

/-! ### The code -/

/-- The white space that is trimmed. -/
def blank (c : Char) : Bool := c = ' ' || c = '\t'

def readToken : List ℤ → List Char → Except Fault (List ℤ) := readTrimmed blank

/-- The tuple on a line. -/
def readTuple (line : List Char) : Except Fault (List ℤ) :=
  (fields '|' line).foldlM readToken []

/-- What is kept of an integer in a type. It may be applied to the summands or to the sum. -/
structure Kept where
  keep : ℤ → ℤ
  zero : keep 0 = 0
  add : ∀ a b, keep (keep a + b) = keep (a + b)

/-- The types of the count and of the sums. -/
structure Arithmetic where
  int : Kept
  int64 : Kept

/-- Integers without a bound. -/
def Arithmetic.exact : Arithmetic where
  int := ⟨id, rfl, fun _ _ => rfl⟩
  int64 := ⟨id, rfl, fun _ _ => rfl⟩

/-- An `int` and an `int64_t`. Their overflow is undefined; the compiled code wraps around. -/
def Arithmetic.machine : Arithmetic where
  int := ⟨fun z => z.bmod (2 ^ 32), Int.zero_bmod, fun _ _ => Int.bmod_add_bmod⟩
  int64 := ⟨fun z => z.bmod (2 ^ 64), Int.zero_bmod, fun _ _ => Int.bmod_add_bmod⟩

@[simp] theorem Arithmetic.machine_int (z : ℤ) : machine.int.keep z = z.bmod (2 ^ 32) := rfl

@[simp] theorem Arithmetic.machine_int64 (z : ℤ) : machine.int64.keep z = z.bmod (2 ^ 64) := rfl

/-- The members that `SetUp` fills. -/
structure Totals where
  totalTuples : ℤ
  server_sums : List ℤ
  server_indices : List ℤ

/-- The loop over the lines of a file, with the count of tuples and the sum. -/
def readLine (arith : Arithmetic) (sumIdx : ℕ) (totals : ℤ × ℤ) (line : List Char) :
    Except Fault (ℤ × ℤ) := do
  let tuple ← readTuple line
  pure (arith.int.keep (totals.1 + 1),
    if sumIdx < tuple.length then arith.int64.keep (totals.2 + tuple.getD sumIdx 0) else totals.2)

/-- The loop over the servers. The sum begins with zero for each of them, the count does not. -/
def readServer (arith : Arithmetic) (files : ℕ → List Char) (sumIdx : ℕ) (totals : Totals)
    (i : ℕ) : Except Fault Totals := do
  let (totalTuples, sum) ← (fields '\n' (files (i + 1))).foldlM (readLine arith sumIdx)
    (totals.totalTuples, 0)
  pure ⟨totalTuples, totals.server_sums ++ [sum], totals.server_indices ++ [((i + 1 : ℕ) : ℤ)]⟩

/-- `SetUp`, where the attribute is known. -/
def SetUp (arith : Arithmetic) (files : ℕ → List Char) (sumIdx : ℕ) : Except Fault Totals :=
  (List.range 6).foldlM (readServer arith files sumIdx) ⟨0, [], []⟩

def reconstructSecret : (ℚ → ℚ) → List (ℤ × ℤ) → ℕ → Except Fault ℤ :=
  ShamirParser.reconstructSecret

/-- The test `ReconstructAvgWithShamirParser`: the average that it prints. -/
def ReconstructAvg (fl : ℚ → ℚ) (totals : Totals) : Except Fault ℤ := do
  let shares := totals.server_indices.zip totals.server_sums
  let actual_sum ← reconstructSecret fl shares 3
  let quotient ← divide fl actual_sum totals.totalTuples
  pure (nearest quotient)

/-! ### The files of a result -/

/-- The line of a tuple, as the queries write it. -/
def resultLine : List ℤ → List Char
  | [] => []
  | [y] => print y
  | y :: ys => print y ++ ' ' :: '|' :: ' ' :: resultLine ys

/-- A row of a result: the tuples that the servers have of it, and the secret value of the
attribute that is averaged. -/
structure Row where
  tuple : ℕ → List ℤ
  secret : ℤ

/-- The files of the servers. -/
def resultFiles (rows : List Row) (server : ℕ) : List Char :=
  rows.flatMap fun row => resultLine (row.tuple server) ++ ['\n']

open Polynomial in
/-- The servers have shares of the secret, with the threshold three. -/
structure Row.Shared (sumIdx : ℕ) (row : Row) : Prop where
  length_gt : ∀ i < 6, sumIdx < (row.tuple (i + 1)).length
  inRange : ∀ i < 6, InRange (row.tuple (i + 1))
  shares : ∃ f : ℚ[X], f.degree < 3 ∧ f.eval 0 = row.secret ∧
    ∀ i < 6, (((row.tuple (i + 1)).getD sumIdx 0 : ℤ) : ℚ) = f.eval (((i + 1 : ℕ) : ℤ) : ℚ)

section Reading

variable {ys : List ℤ} {sumIdx : ℕ} {rows : List Row} {tuples : ℕ → List (List ℤ)}
  {results : ℕ → List Char}

theorem blank_of_mem_print {y : ℤ} {c : Char} (h : c ∈ print y) : blank c = false := by
  have hwide : ShamirParser.blank c = false := ShamirParser.blank_of_mem_print h
  unfold ShamirParser.blank at hwide
  unfold blank
  simp only [Bool.or_eq_false_iff] at hwide ⊢
  exact hwide.1.1

theorem separator_notMem_print {before : List Char} {y : ℤ} (after : List Char)
    (hbefore : ∀ c ∈ before, c = ' ') (hafter : ∀ c ∈ after, c = ' ') :
    '|' ∉ before ++ (print y ++ after) := by
  have hspace : '|' ≠ ' ' := by decide
  rw [List.mem_append, List.mem_append, not_or, not_or]
  refine ⟨fun h => hspace (hbefore _ h), notMem_print (by decide) (by decide), fun h => ?_⟩
  exact hspace (hafter _ h)

/-- What is left of a line, behind the blank that follows a separator. -/
theorem readTokens_resultLine {blank : Char → Bool} (hspace : blank ' ' = true)
    (hprint : ∀ {y : ℤ} {c : Char}, c ∈ print y → blank c = false) (hne : ys ≠ [])
    (hys : InRange ys) {before : List Char} (hbefore : ∀ c ∈ before, c = ' ') (tuple : List ℤ) :
    (fields '|' (before ++ resultLine ys)).foldlM (readTrimmed blank) tuple =
      .ok (tuple ++ ys) := by
  have hone : ∀ c ∈ [' '], c = ' ' := List.forall_mem_singleton.mpr rfl
  have hnil : ∀ c ∈ ([] : List Char), c = ' ' := fun c hc => by cases hc
  have hread : ∀ y, -2 ^ 63 ≤ y ∧ y < 2 ^ 63 → ∀ tuple before after, (∀ c ∈ before, c = ' ') →
      (∀ c ∈ after, c = ' ') →
        readTrimmed blank tuple (before ++ (print y ++ after)) = .ok (tuple ++ [y]) :=
    fun y hy tuple before after hbefore hafter =>
      readTrimmed_between hprint hy tuple (fun c hc => hbefore c hc ▸ hspace)
        fun c hc => hafter c hc ▸ hspace
  -- The blank in front of a token goes with it, so that the induction is for any such blanks.
  induction ys generalizing before tuple with
  | nil => exact absurd rfl hne
  | cons y ys ih =>
    have hy := hys y List.mem_cons_self
    have hrest : InRange ys := fun z hz => hys z (List.mem_cons_of_mem y hz)
    cases ys with
    | nil =>
      have hlast : fields '|' (before ++ resultLine [y]) = [before ++ (print y ++ [])] := by
        rw [List.append_nil]
        refine fields_of_notMem ?_ ?_
        · have hnot := separator_notMem_print (y := y) [] hbefore hnil
          rwa [List.append_nil] at hnot
        · exact List.append_ne_nil_of_right_ne_nil _ (print_ne_nil y)
      rw [hlast, List.foldlM_cons, hread y hy tuple before [] hbefore hnil]
      rfl
    | cons z zs =>
      have hsplit : before ++ resultLine (y :: z :: zs) =
          (before ++ (print y ++ [' '])) ++ '|' :: ([' '] ++ resultLine (z :: zs)) := by
        show before ++ (print y ++ ' ' :: '|' :: ' ' :: resultLine (z :: zs)) = _
        simp only [List.append_assoc, List.cons_append, List.nil_append]
      rw [hsplit, fields_append (separator_notMem_print [' '] hbefore hone),
        List.foldlM_cons, hread y hy tuple before [' '] hbefore hone]
      refine (ih (List.cons_ne_nil z zs) hrest hone (tuple ++ [y])).trans ?_
      rw [List.append_assoc, List.singleton_append]

/-- **A line of a result is read back.** -/
theorem readTuple_resultLine (hne : ys ≠ []) (hys : InRange ys) :
    readTuple (resultLine ys) = .ok ys :=
  readTokens_resultLine rfl blank_of_mem_print hne hys (List.forall_mem_nil (· = ' ')) []

/-- It is read back as a line of shares too. -/
theorem parser_readTuple_resultLine (hne : ys ≠ []) (hys : InRange ys) :
    ShamirParser.readTuple (resultLine ys) = .ok ys :=
  readTokens_resultLine rfl ShamirParser.blank_of_mem_print hne hys
    (List.forall_mem_nil (· = ' ')) []

theorem newline_notMem_resultLine (ys : List ℤ) : '\n' ∉ resultLine ys := by
  have hprint : ∀ y, '\n' ∉ print y := fun y => notMem_print (by decide) (by decide)
  induction ys with
  | nil => exact List.not_mem_nil
  | cons y ys ih =>
    cases ys with
    | nil => exact hprint y
    | cons z zs =>
      show '\n' ∉ print y ++ ' ' :: '|' :: ' ' :: resultLine (z :: zs)
      rw [List.mem_append, not_or]
      refine ⟨hprint y, fun h => ?_⟩
      rw [List.mem_cons, List.mem_cons, List.mem_cons] at h
      -- the separator has no newline
      rcases h with h | h | h | h
      · exact absurd h (by decide)
      · exact absurd h (by decide)
      · exact absurd h (by decide)
      · exact ih h

/-- The result files hold the tuples. -/
def Written (tuples : ℕ → List (List ℤ)) (results : ℕ → List Char) : Prop :=
  ∀ i < 6, results (i + 1) = (tuples i).flatMap fun tuple => resultLine tuple ++ ['\n']

/-- The sum of the shares that the server `i + 1` has. -/
def shareSum (tuples : ℕ → List (List ℤ)) (sumIdx i : ℕ) : ℤ :=
  ((tuples i).map fun tuple => tuple.getD sumIdx 0).sum

/-- How many tuples the first `m` servers have. -/
def tupleCount (tuples : ℕ → List (List ℤ)) (m : ℕ) : ℕ :=
  ((List.range m).map fun i => (tuples i).length).sum

/-- **A loop over the lines of a result file** is one over the tuples. -/
theorem readLines_spec {β : Type} {body : β → List Char → Except Fault β}
    {I : List (List ℤ) → β → Prop} (hwritten : Written tuples results) {i : ℕ} (hi : i < 6) {b : β}
    (h₀ : I [] b)
    (hstep : ∀ done tuple b, tuple ∈ tuples i → I done b →
      Returns (body b (resultLine tuple)) (I (done ++ [tuple]))) :
    Returns ((fields '\n' (results (i + 1))).foldlM body b) (I (tuples i)) := by
  -- every tuple was written on a line of its own
  have hlines : fields '\n' (results (i + 1)) = (tuples i).map resultLine := by
    rw [hwritten i hi]
    exact fields_flatMap_append fun tuple _ => newline_notMem_resultLine tuple
  rw [hlines, List.foldlM_map]
  refine Returns.foldlM h₀ fun done tuple rest b hsplit hI => hstep done tuple b ?_ hI
  rw [hsplit]
  exact List.mem_append_right _ List.mem_cons_self

/-- A line is read as its tuple, which has the attribute. -/
theorem readTuple_returns {tuple : List ℤ} (h : sumIdx < tuple.length ∧ InRange tuple) :
    Returns (readTuple (resultLine tuple)) (· = tuple) :=
  ⟨_, readTuple_resultLine (List.ne_nil_of_length_pos (Nat.zero_lt_of_lt h.1)) h.2, rfl⟩

/-- **One file** adds its lines to the count, and the sum of its shares. -/
theorem readServer_spec (arith : Arithmetic) (hwritten : Written tuples results) {i : ℕ}
    (hi : i < 6) (htuples : ∀ tuple ∈ tuples i, sumIdx < tuple.length ∧ InRange tuple)
    {totals : Totals} {n : ℕ} (hn : totals.totalTuples = arith.int.keep n) :
    Returns (readServer arith results sumIdx totals i)
      (· = ⟨arith.int.keep (n + (tuples i).length : ℕ),
        totals.server_sums ++ [arith.int64.keep (shareSum tuples sumIdx i)],
        totals.server_indices ++ [((i + 1 : ℕ) : ℤ)]⟩) := by
  unfold readServer
  refine (readLines_spec (I := fun done (counts : ℤ × ℤ) =>
    counts = (arith.int.keep (n + done.length : ℕ),
      arith.int64.keep (done.map fun tuple : List ℤ => tuple.getD sumIdx 0).sum)) hwritten hi ?_
    fun done tuple counts htuple hI => ?_).bind fun counts hcounts => Returns.pure ?_
  · rw [hn, List.map_nil, List.sum_nil, arith.int64.zero]
    rfl
  -- one more tuple: the count and the sum go on in their own width
  · refine (readTuple_returns (htuples tuple htuple)).bind fun ys hys => Returns.pure ?_
    subst hys
    rw [if_pos (htuples ys htuple).1, hI, arith.int.add, arith.int64.add, List.map_append,
      List.sum_append, List.map_singleton, List.sum_singleton, List.length_append,
      List.length_singleton]
    rfl
  · subst hcounts
    rfl

/-- **The count** is that of all the files together. -/
theorem SetUp_eq (arith : Arithmetic) (hwritten : Written tuples results)
    (htuples : ∀ i < 6, ∀ tuple ∈ tuples i, sumIdx < tuple.length ∧ InRange tuple) :
    SetUp arith results sumIdx =
      .ok ⟨arith.int.keep (tupleCount tuples 6),
        (List.range 6).map fun i => arith.int64.keep (shareSum tuples sumIdx i),
        (List.range 6).map fun i => ((i + 1 : ℕ) : ℤ)⟩ := by
  refine Returns.eq_ok (Returns.foldlM_range (I := fun m (totals : Totals) =>
    totals = ⟨arith.int.keep (tupleCount tuples m),
      (List.range m).map fun i => arith.int64.keep (shareSum tuples sumIdx i),
      (List.range m).map fun i => ((i + 1 : ℕ) : ℤ)⟩) ?_ fun i totals hi hI => ?_)
  · show (⟨0, [], []⟩ : Totals) = ⟨arith.int.keep ((0 : ℕ) : ℤ), [], []⟩
    rw [Nat.cast_zero, arith.int.zero]
  -- the next server adds its tuples and its sum
  · have hn : totals.totalTuples = arith.int.keep (tupleCount tuples i) := by rw [hI]
    refine (readServer_spec arith hwritten hi (htuples i hi) hn).mono fun totals' h => ?_
    rw [h, hI]
    unfold tupleCount
    rw [List.range_succ, List.map_append, List.map_append, List.map_append, List.sum_append,
      List.map_singleton, List.sum_singleton]
    rfl

/-- The tuples of the rows. -/
def tuplesOf (rows : List Row) (i : ℕ) : List (List ℤ) := rows.map fun row => row.tuple (i + 1)

theorem written_resultFiles (rows : List Row) : Written (tuplesOf rows) (resultFiles rows) := by
  intro i _
  unfold tuplesOf resultFiles
  rw [List.flatMap_map]

theorem tupleCount_tuplesOf (rows : List Row) : tupleCount (tuplesOf rows) 6 = 6 * rows.length := by
  unfold tupleCount tuplesOf
  simp only [List.length_map, List.map_const', List.sum_replicate, List.length_range, smul_eq_mul]

/-- **Exact arithmetic on the files of shared rows.** -/
theorem SetUp_resultFiles (hrows : ∀ row ∈ rows, row.Shared sumIdx) :
    SetUp .exact (resultFiles rows) sumIdx =
      .ok ⟨(6 * rows.length : ℕ), (List.range 6).map (shareSum (tuplesOf rows) sumIdx),
        (List.range 6).map fun i => ((i + 1 : ℕ) : ℤ)⟩ := by
  rw [SetUp_eq .exact (written_resultFiles rows) fun i hi tuple htuple => ?_,
    tupleCount_tuplesOf]
  · rfl
  · obtain ⟨row, hrow, rfl⟩ := List.mem_map.mp htuple
    exact ⟨(hrows row hrow).length_gt i hi, (hrows row hrow).inRange i hi⟩

end Reading

/-! ### The average -/

section Average

variable {sumIdx : ℕ} {rows : List Row}

open Polynomial in
/-- The sums of the servers are shares of the sum of the secrets. -/
theorem exists_polynomial (hrows : ∀ row ∈ rows, row.Shared sumIdx) :
    ∃ f : ℚ[X], f.degree < 3 ∧ f.eval 0 = (rows.map Row.secret).sum ∧
      ∀ i < 6, (shareSum (tuplesOf rows) sumIdx i : ℚ) = f.eval (((i + 1 : ℕ) : ℤ) : ℚ) := by
  unfold shareSum tuplesOf
  -- on the rows: the polynomials are added up
  induction rows with
  | nil => exact ⟨0, by rw [degree_zero]; exact WithBot.bot_lt_coe 3, by simp, by simp⟩
  | cons row rows ih =>
    obtain ⟨f, hf, hzero, heval⟩ := ih fun row' hrow' => hrows row' (List.mem_cons_of_mem row hrow')
    obtain ⟨g, hg, hzero', heval'⟩ := (hrows row List.mem_cons_self).shares
    refine ⟨g + f, (degree_add_le g f).trans_lt (max_lt hg hf), ?_, fun i hi => ?_⟩
    · rw [eval_add, hzero, hzero', List.map_cons, List.sum_cons, Int.cast_add]
    · rw [eval_add, ← heval i hi, ← heval' i hi, List.map_cons, List.map_cons, List.sum_cons,
        Int.cast_add]

theorem reconstructSecret_eq (hrows : ∀ row ∈ rows, row.Shared sumIdx) :
    reconstructSecret id (((List.range 6).map fun i => ((i + 1 : ℕ) : ℤ)).zip
      ((List.range 6).map (shareSum (tuplesOf rows) sumIdx))) 3 =
        .ok (rows.map Row.secret).sum := by
  obtain ⟨f, hdegree, hzero, heval⟩ := exists_polynomial hrows
  have hshares : ((List.range 6).map fun i => ((i + 1 : ℕ) : ℤ)).zip
      ((List.range 6).map (shareSum (tuplesOf rows) sumIdx)) =
        (List.range 6).map fun i => (((i + 1 : ℕ) : ℤ), shareSum (tuplesOf rows) sumIdx i) :=
    List.zip_map'
  -- the first three servers are the ones that are read
  have hget : ∀ i < 3, ((List.range 6).map fun i =>
      (((i + 1 : ℕ) : ℤ), shareSum (tuplesOf rows) sumIdx i)).getD i (0, 0) =
        (((i + 1 : ℕ) : ℤ), shareSum (tuplesOf rows) sumIdx i) := fun i hi => by
    rw [List.getD_eq_getElem _ _ (by rw [List.length_map, List.length_range]; omega),
      List.getElem_map, List.getElem_range]
  rw [hshares]
  refine reconstructSecret_eval (k := 3) (distinct_of_nodup ?_ ?_) hdegree (fun i hi => ?_) hzero
  · rw [List.length_map, List.length_range]
    decide
  · rw [← List.map_take, List.map_map]
    show ((List.range 3).map fun i : ℕ => ((i + 1 : ℕ) : ℤ)).Nodup
    decide
  · unfold server
    rw [hget i hi]
    exact heval i (by omega)

/-- **The sum is divided by six times the number of the rows.** -/
theorem average_eq (hne : rows ≠ []) (hrows : ∀ row ∈ rows, row.Shared sumIdx) :
    (SetUp .exact (resultFiles rows) sumIdx >>= ReconstructAvg id) =
      .ok (nearest ((rows.map Row.secret).sum / rows.length / 6)) := by
  -- every row is counted once per server, so the count is not zero
  have hcount : ((6 * rows.length : ℕ) : ℤ) ≠ 0 := by
    have hlength : 0 < rows.length := List.length_pos_iff.mpr hne
    omega
  rw [SetUp_resultFiles hrows]
  refine Returns.eq_ok (Returns.bind ⟨_, rfl, rfl⟩ fun totals htotals => ?_)
  subst htotals
  refine Returns.bind ⟨_, reconstructSecret_eq hrows, rfl⟩ fun sum hsum => ?_
  subst hsum
  refine Returns.bind (divide_returns hcount) fun quotient hquotient => Returns.pure ?_
  rw [hquotient, div_div, mul_comm (rows.length : ℚ)]
  push_cast
  rfl

/-- **The average** is the one that is printed if and only if it is less than one half. The number
of tuples is added up over all six servers, so the sum is divided by six times the number of rows;
the two quotients are rounded to one integer only when both of them are rounded to zero. -/
theorem average_iff (hne : rows ≠ []) (attr : AttributeID)
    (hrows : ∀ row ∈ rows, row.Shared attr.index) :
    (SetUp .exact (resultFiles rows) attr.index >>= ReconstructAvg id) =
        .ok (nearest ((rows.map Row.secret).sum / rows.length)) ↔
      2 * |(rows.map Row.secret).sum| < rows.length := by
  have hlength : (0 : ℚ) < rows.length := by exact_mod_cast List.length_pos_iff.mpr hne
  rw [average_eq hne hrows, Except.ok.injEq, nearest_div_eq_iff (by norm_num), abs_div,
    abs_of_pos hlength, div_lt_div_iff₀ hlength two_pos, one_mul, mul_comm]
  exact_mod_cast Iff.rfl

end Average

/-! ### One row -/

/-- A row whose only value is 7, shared with zeros as coefficients. -/
def seven : Row := ⟨fun _ => [7], 7⟩

theorem shared_seven : seven.Shared 0 := by
  refine ⟨fun i _ => Nat.one_pos, fun i _ => ?_, Polynomial.C 7, ?_, ?_, fun i _ => ?_⟩
  · show InRange [7]
    unfold InRange
    decide
  · exact Polynomial.degree_C_le.trans_lt (by decide)
  · exact Polynomial.eval_C
  · exact Polynomial.eval_C.symm

theorem average_iff_seven :
    (SetUp .exact (resultFiles [seven]) AttributeID.ORDERKEY.index >>= ReconstructAvg id) =
        .ok (nearest (([seven].map Row.secret).sum / [seven].length)) ↔
      2 * |([seven].map Row.secret).sum| < [seven].length :=
  average_iff (List.cons_ne_nil seven []) .ORDERKEY fun row hrow => by
    rw [List.mem_singleton.mp hrow]
    exact shared_seven

/-- The average of one row with the value 7 is 7. The test prints 1. -/
theorem not_average :
    (SetUp .exact (resultFiles [seven]) AttributeID.ORDERKEY.index >>= ReconstructAvg id) ≠
      .ok (nearest (([seven].map Row.secret).sum / [seven].length)) := by
  have hrows : ∀ row ∈ [seven], row.Shared AttributeID.ORDERKEY.index := fun row hrow => by
    rw [List.mem_singleton.mp hrow]
    exact shared_seven
  rw [average_eq (List.cons_ne_nil seven []) hrows, ne_eq, Except.ok.injEq,
    nearest_div_eq_iff (by norm_num)]
  show ¬ |((7 : ℤ) : ℚ) / (1 : ℕ)| < 1 / 2
  norm_num

end AvgAggregationTest
