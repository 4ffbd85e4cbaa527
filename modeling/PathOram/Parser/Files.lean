import PathOram.Parser.Sharing
import PathOram.Lib.Decimal
import PathOram.Lib.Fields

/-!
# The share files of the servers

`shamir_parser.cpp`: `saveAllShares` appends the shares of a tuple to the files of the
servers, one line each; `loadAllShares` reads them back, `transformShares` sorts them by
attribute and tuple, and `main` reconstructs the tuples.

`loadAllShares(n)` opens the files of the servers `1..n-1` only and leaves the last entry
empty (`reload_eq`). Three shares are needed, so nothing is lost: `tuples_restored`.
-/

namespace ShamirParser

open Double Decimal Fields

/-- The files `server_x.txt` that exist. -/
abbrev Files : Type := ℕ → Option (List Char)

/-- A secret, and the coefficients that are drawn for it. -/
structure Attribute where
  secret : ℤ
  draws : ℕ → Coefficient

/-! ### Writing -/

/-- `file << "|" << " " << shares[i].second << " "`. -/
def field (y : ℤ) : List Char := '|' :: ' ' :: (print y ++ [' '])

/-- The line of a tuple in the file of a server. -/
def line (ys : List ℤ) : List Char := ys.flatMap field ++ ['\n']

/-- Append a text to a file, which is made if it does not exist. -/
def append (files : Files) (x : ℕ) (text : List Char) : Files := fun x' =>
  if x' = x then some ((files x).getD [] ++ text) else files x'

/-- The shares `shares[i].second` of all the attributes. -/
def sharesFor (allShares : List (List (ℤ × ℤ))) (i : ℕ) : Except Fault (List ℤ) :=
  allShares.mapM fun shares => do
    let share ← entry shares i
    pure share.2

def saveAllShares (files : Files) : List (List (ℤ × ℤ)) → Except Fault Files
  | [] => .error .outOfBounds
  | first :: rest =>
    (List.range first.length).foldlM
      (fun files i => do
        let ys ← sharesFor (first :: rest) i
        pure (append files (i + 1) (line ys)))
      files

/-- The shares of a tuple, for six servers with the threshold three. -/
def shareTuple (row : List Attribute) : List (List (ℤ × ℤ)) :=
  row.map fun item => sharesOf (coefficients item.secret item.draws 3) 6 3

/-- The loop of `main` over the tuples. -/
def encrypt (files : Files) (rows : List (List Attribute)) : Except Fault Files :=
  rows.foldlM (fun files row => saveAllShares files (shareTuple row)) files

/-! ### Reading -/

/-- The white space that is trimmed. -/
def blank (c : Char) : Bool := c = ' ' || c = '\t' || c = '\n' || c = '\r'

def stoll (text : List Char) : Except Fault ℤ :=
  match parse text with
  | none => .error .invalidArgument
  | some y => if -2 ^ 63 ≤ y ∧ y < 2 ^ 63 then .ok y else .error .outOfRange

/-- The number in a token. One that is empty without white space is skipped. The programs differ
in the white space that they trim. -/
def readTrimmed (blank : Char → Bool) (tuple : List ℤ) (token : List Char) :
    Except Fault (List ℤ) :=
  if (trim blank token).isEmpty then pure tuple
  else do
    let y ← stoll (trim blank token)
    pure (tuple ++ [y])

/-- The share in a token. -/
def readToken : List ℤ → List Char → Except Fault (List ℤ) := readTrimmed blank

/-- The shares on a line. -/
def readTuple (line : List Char) : Except Fault (List ℤ) :=
  (fields '|' line).foldlM readToken []

/-- The tuples in a file; a file that does not exist is reported and has none. -/
def loadServer (files : Files) (serverIndex : ℕ) : Except Fault (List (List ℤ)) :=
  match files serverIndex with
  | none => pure []
  | some text => (fields '\n' text).mapM readTuple

/-- Only the servers below `n` are read. -/
def loadAllShares (files : Files) (n : ℕ) : Except Fault (List (List (List ℤ))) :=
  (List.range n).mapM fun i => if i + 1 < n then loadServer files (i + 1) else pure []

/-- `allShares[serverIndex][tupleIndex][attributeIndex]`, where all the indices are in range. -/
def shareIn (allShares : List (List (List ℤ))) (serverIndex tupleIndex attributeIndex : ℕ) :
    Option ℤ := do
  let tuples ← allShares[serverIndex]?
  let tuple ← tuples[tupleIndex]?
  tuple[attributeIndex]?

def transformShares (allShares : List (List (List ℤ))) :
    Except Fault (List (List (List (ℤ × ℤ)))) :=
  match allShares with
  | [] => .ok []
  | [] :: _ => .error .outOfBounds
  | (first :: tuples) :: _ =>
    .ok ((List.range first.length).map fun attributeIndex =>
      (List.range (first :: tuples).length).map fun tupleIndex =>
        (List.range allShares.length).filterMap fun serverIndex =>
          (shareIn allShares serverIndex tupleIndex attributeIndex).map fun y =>
            ((serverIndex + 1 : ℕ), y))

/-- `allShares[attributeIndex][tupleIndex]`. -/
def sharesAt (allShares : List (List (List (ℤ × ℤ)))) (attributeIndex tupleIndex : ℕ) :
    Except Fault (List (ℤ × ℤ)) :=
  match allShares[attributeIndex]? with
  | none => .error .outOfBounds
  | some tuples =>
    match tuples[tupleIndex]? with
    | none => .error .outOfBounds
    | some shares => .ok shares

/-- The loop of `main` over the tuples that are in the file of the first server. -/
def decrypt (files : Files) : Except Fault (List (List ℤ)) := do
  let tempShares ← loadAllShares files 6
  let allShares ← transformShares tempShares
  (List.range (tempShares.headD []).length).mapM fun i =>
    (List.range 16).mapM fun attributeIndex => do
      let shares ← sharesAt allShares attributeIndex i
      reconstructSecret double shares 3

/-! ### What is written -/

section Written

variable {row : List Attribute} {rows : List (List Attribute)} {files : Files}
  {allShares : List (List (ℤ × ℤ))} {tables : List (List (List (ℤ × ℤ)))} {n : ℕ}

/-- The shares for the server `i + 1`, one for each attribute. -/
def sharesOn (i : ℕ) (allShares : List (List (ℤ × ℤ))) : List ℤ :=
  allShares.map fun shares => (shares.getD i (0, 0)).2

/-- Shares of a tuple for `n` servers. -/
structure Tabular (n : ℕ) (allShares : List (List (ℤ × ℤ))) : Prop where
  ne_nil : allShares ≠ []
  length_eq : ∀ shares ∈ allShares, shares.length = n

theorem sharesFor_spec (h : Tabular n allShares) {i : ℕ} (hi : i < n) :
    Returns (sharesFor allShares i) (· = sharesOn i allShares) :=
  Returns.mapM fun shares hshares =>
    (entry_returns (h.length_eq shares hshares).ge hi).bind fun s hs =>
      Returns.pure (by rw [hs])

/-- The share files of the servers. -/
def Texts (n : ℕ) (files : Files) (text : ℕ → List Char) : Prop :=
  ∀ i < n, (files (i + 1)).getD [] = text i

theorem saveAllShares_spec (h : Tabular n allShares) {text : ℕ → List Char}
    (hfiles : Texts n files text) :
    Returns (saveAllShares files allShares) fun files' =>
      Texts n files' fun i => text i ++ line (sharesOn i allShares) := by
  have htable := h
  obtain ⟨hne, hlength⟩ := h
  obtain ⟨first, rest, rfl⟩ := List.exists_cons_of_ne_nil hne
  obtain rfl : first.length = n := hlength first List.mem_cons_self
  -- The servers that have been served, and the others.
  refine (Returns.foldlM_range (I := fun m files' => ∀ i < first.length,
      (files' (i + 1)).getD [] =
        if i < m then text i ++ line (sharesOn i (first :: rest)) else text i) ?_
    fun m files' hm hI => ?_).mono fun files' hI i hi => ?_
  · exact fun i hi => (hfiles i hi).trans (if_neg (Nat.not_lt_zero i)).symm
  · refine (sharesFor_spec htable hm).bind fun ys hys => Returns.pure fun i hi => ?_
    subst hys
    have hfile := hI i hi
    rcases Nat.lt_trichotomy i m with hlt | rfl | hgt
    · have hother : append files' (m + 1) (line (sharesOn m (first :: rest))) (i + 1) =
          files' (i + 1) := if_neg (by omega)
      rw [hother, hfile, if_pos hlt, if_pos (by omega)]
    · have hown : append files' (i + 1) (line (sharesOn i (first :: rest))) (i + 1) =
          some ((files' (i + 1)).getD [] ++ line (sharesOn i (first :: rest))) := if_pos rfl
      rw [hown, Option.getD_some, hfile, if_neg (Nat.lt_irrefl i), if_pos (Nat.lt_succ_self i)]
    · have hother : append files' (m + 1) (line (sharesOn m (first :: rest))) (i + 1) =
          files' (i + 1) := if_neg (by omega)
      rw [hother, hfile, if_neg (by omega), if_neg (by omega)]
  · rw [hI i hi, if_pos hi]

/-- **Each file gets a line for each tuple.** -/
theorem saveTables_spec (htables : ∀ table ∈ tables, Tabular n table)
    (hfiles : Texts n files fun _ => []) :
    Returns (tables.foldlM saveAllShares files) fun files' =>
      Texts n files' fun i => tables.flatMap fun table => line (sharesOn i table) := by
  -- after some tables: the lines of their tuples, one behind the other
  refine Returns.foldlM (I := fun done files' =>
    Texts n files' fun i => done.flatMap fun table => line (sharesOn i table))
    hfiles fun done table rest files' hsplit hI => ?_
  have htable : Tabular n table := by
    refine htables table ?_
    rw [hsplit]
    exact List.mem_append_right _ List.mem_cons_self
  refine (saveAllShares_spec htable hI).mono fun files'' h i hi => (h i hi).trans ?_
  show _ = (done ++ [table]).flatMap _
  rw [List.flatMap_append, List.flatMap_singleton]

/-- The shares of a tuple for the server `i + 1`. -/
def ysOf (i : ℕ) (row : List Attribute) : List ℤ :=
  row.map fun item => shareAt (coefficients item.secret item.draws 3) 3 (i + 1 : ℕ)

theorem tabular_shareTuple (hne : row ≠ []) : Tabular 6 (shareTuple row) := by
  refine ⟨fun h => hne (List.map_eq_nil_iff.mp h), fun shares hshares => ?_⟩
  obtain ⟨item, -, rfl⟩ := List.mem_map.mp hshares
  exact length_sharesOf _ 6 3

theorem sharesOn_shareTuple {i : ℕ} (hi : i < 6) (row : List Attribute) :
    sharesOn i (shareTuple row) = ysOf i row := by
  unfold sharesOn shareTuple ysOf
  rw [List.map_map]
  refine List.map_congr_left fun item _ => ?_
  show ((sharesOf _ 6 3).getD i (0, 0)).2 = _
  rw [getD_sharesOf hi]

/-- The share files of the six servers. -/
def Holds (files : Files) (text : ℕ → List Char) : Prop :=
  ∀ i < 6, (files (i + 1)).getD [] = text i

theorem encrypt_spec (hrows : ∀ row ∈ rows, row ≠ []) (hfiles : Holds files fun _ => []) :
    Returns (encrypt files rows) fun files' =>
      Holds files' fun i => (rows.map (ysOf i)).flatMap line := by
  -- the rows are shared as they come, so the loop is one over the shared tables
  have hmap : encrypt files rows = (rows.map shareTuple).foldlM saveAllShares files :=
    List.foldlM_map.symm
  rw [hmap]
  refine (saveTables_spec (fun table htable => ?_) hfiles).mono fun files' h i hi => ?_
  · obtain ⟨row, hrow, rfl⟩ := List.mem_map.mp htable
    exact tabular_shareTuple (hrows row hrow)
  · refine (h i hi).trans ?_
    show (rows.map shareTuple).flatMap _ = (rows.map (ysOf i)).flatMap line
    rw [List.flatMap_map, List.flatMap_map]
    exact List.flatMap_congr fun row _ => by rw [sharesOn_shareTuple hi]

end Written

/-! ### What is read -/

section Read

variable {ys : List ℤ} {rows : List (List Attribute)} {files : Files}

/-- The values of a type of 64 bits. -/
def InRange (ys : List ℤ) : Prop := ∀ y ∈ ys, -2 ^ 63 ≤ y ∧ y < 2 ^ 63

theorem blank_of_isDigit {c : Char} (h : c.isDigit = true) : blank c = false := by
  unfold blank
  simp only [Bool.or_eq_false_iff, decide_eq_false_iff_not]
  refine ⟨⟨⟨?_, ?_⟩, ?_⟩, ?_⟩ <;> rintro rfl <;> exact absurd h (by decide)

theorem blank_of_mem_print {y : ℤ} {c : Char} (h : c ∈ print y) : blank c = false := by
  rcases mem_print h with rfl | hdigit
  · decide
  · exact blank_of_isDigit hdigit

/-- A share is printed without delimiters. -/
theorem notMem_print {y : ℤ} {c : Char} (hsign : c ≠ '-') (hdigit : c.isDigit = false) :
    c ∉ print y := by
  intro h
  rcases mem_print h with rfl | h
  · exact hsign rfl
  · rw [hdigit] at h
    exact absurd h (by decide)

theorem stoll_print {y : ℤ} (h : -2 ^ 63 ≤ y ∧ y < 2 ^ 63) : stoll (print y) = .ok y := by
  unfold stoll
  rw [parse_print]
  exact if_pos h

/-- A token between blanks. -/
theorem readTrimmed_between {blank : Char → Bool}
    (hprint : ∀ {y : ℤ} {c : Char}, c ∈ print y → blank c = false) {y : ℤ}
    (h : -2 ^ 63 ≤ y ∧ y < 2 ^ 63) (tuple : List ℤ) {before after : List Char}
    (hbefore : ∀ c ∈ before, blank c = true) (hafter : ∀ c ∈ after, blank c = true) :
    readTrimmed blank tuple (before ++ (print y ++ after)) = .ok (tuple ++ [y]) := by
  have htrim : trim blank (before ++ (print y ++ after)) = print y :=
    trim_append hbefore hafter fun c hc => hprint hc
  have hne : ¬ (print y).isEmpty = true := fun hempty =>
    print_ne_nil y (List.isEmpty_iff.mp hempty)
  unfold readTrimmed
  rw [htrim, if_neg hne, stoll_print h]
  rfl

theorem readToken_print {y : ℤ} (h : -2 ^ 63 ≤ y ∧ y < 2 ^ 63) (tuple : List ℤ) :
    readToken tuple (' ' :: (print y ++ [' '])) = .ok (tuple ++ [y]) := by
  have hspace : ∀ c ∈ [' '], blank c = true := List.forall_mem_singleton.mpr rfl
  exact readTrimmed_between blank_of_mem_print h tuple hspace hspace

theorem readTokens_print (hys : InRange ys) (tuple : List ℤ) :
    (ys.map fun y => ' ' :: (print y ++ [' '])).foldlM readToken tuple = .ok (tuple ++ ys) := by
  induction ys generalizing tuple with
  | nil => exact congrArg _ (List.append_nil tuple).symm
  | cons y ys ih =>
    rw [List.map_cons, List.foldlM_cons, readToken_print (hys y List.mem_cons_self)]
    refine (ih (fun z hz => hys z (List.mem_cons_of_mem y hz)) (tuple ++ [y])).trans ?_
    rw [List.append_assoc, List.singleton_append]

/-- **A line is read back.** -/
theorem readTuple_fields (hne : ys ≠ []) (hys : InRange ys) :
    readTuple (ys.flatMap field) = .ok ys := by
  have hfields : fields '|' (ys.flatMap field) =
      [] :: ys.map fun y => ' ' :: (print y ++ [' ']) := by
    refine fields_flatMap_cons (fun y _ hmem => ?_) (fun y _ => List.cons_ne_nil _ _) hne
    rw [List.mem_cons, List.mem_append, List.mem_singleton] at hmem
    rcases hmem with h | h | h
    · exact absurd h (by decide)
    · exact notMem_print (by decide) (by decide) h
    · exact absurd h (by decide)
  unfold readTuple
  -- The empty token in front of the first delimiter is skipped.
  rw [hfields, List.foldlM_cons]
  exact readTokens_print hys []

theorem newline_notMem_fields (ys : List ℤ) : '\n' ∉ ys.flatMap field := by
  intro h
  obtain ⟨y, -, hy⟩ := List.mem_flatMap.mp h
  unfold field at hy
  rw [List.mem_cons, List.mem_cons, List.mem_append, List.mem_singleton] at hy
  rcases hy with h | h | h | h
  · exact absurd h (by decide)
  · exact absurd h (by decide)
  · exact notMem_print (by decide) (by decide) h
  · exact absurd h (by decide)

/-- **A file is read back**, whatever the rows are of. -/
theorem loadServer_eq {tuples : List (List ℤ)} {serverIndex : ℕ}
    (hfile : (files serverIndex).getD [] = tuples.flatMap line)
    (hne : ∀ ys ∈ tuples, ys ≠ []) (htuples : ∀ ys ∈ tuples, InRange ys) :
    loadServer files serverIndex = .ok tuples := by
  have hlines : fields '\n' (tuples.flatMap line) = tuples.map fun ys => ys.flatMap field :=
    fields_flatMap_append fun ys _ => newline_notMem_fields ys
  -- A file that does not exist is like an empty one.
  have hload : loadServer files serverIndex =
      (fields '\n' ((files serverIndex).getD [])).mapM readTuple := by
    unfold loadServer
    cases files serverIndex <;> rfl
  rw [hload, hfile, hlines, List.mapM_map]
  refine Returns.eq_ok ((Returns.mapM (g := id) fun ys hys =>
    ⟨ys, readTuple_fields (hne ys hys) (htuples ys hys), rfl⟩).mono fun result h => ?_)
  rw [h, List.map_id]

theorem stoll_inRange {text : List Char} {y : ℤ} (h : stoll text = .ok y) :
    -2 ^ 63 ≤ y ∧ y < 2 ^ 63 := by
  unfold stoll at h
  split at h
  · cases h
  · split at h
    next hy =>
      cases h
      exact hy
    next => cases h

theorem readToken_inRange {tuple : List ℤ} {token : List Char} (hys : InRange ys)
    (h : readToken ys token = .ok tuple) : InRange tuple := by
  unfold readToken readTrimmed at h
  -- an empty token adds nothing, any other one number
  by_cases hempty : (trim blank token).isEmpty = true
  · rw [if_pos hempty] at h
    cases h
    exact hys
  · rw [if_neg hempty] at h
    obtain ⟨y, hy, htuple⟩ := Returns.exists_of_bind_ok h
    cases htuple
    intro z hz
    rcases List.mem_append.mp hz with hz | hz
    · exact hys z hz
    · rw [List.mem_singleton.mp hz]
      exact stoll_inRange hy

/-- **What is loaded from a file is in range**, whatever stands in it. -/
theorem loadServer_inRange {tuples : List (List ℤ)} {serverIndex : ℕ}
    (h : loadServer files serverIndex = .ok tuples) : ∀ ys ∈ tuples, InRange ys := by
  unfold loadServer at h
  -- a file that cannot be opened is an empty one
  cases hfile : files serverIndex with
  | none =>
    rw [hfile] at h
    cases h
    exact List.forall_mem_nil _
  | some text =>
    rw [hfile] at h
    exact Returns.forall_of_mapM_ok h fun line _ ys hline =>
      Returns.of_foldlM_ok hline (List.forall_mem_nil _) fun _ _ _ hys => readToken_inRange hys

/-- **All the files but the last** are read back. -/
theorem loadAllShares_eq {n : ℕ} {tuples : ℕ → List (List ℤ)}
    (hfiles : Texts n files fun i => (tuples i).flatMap line)
    (hne : ∀ i < n, ∀ ys ∈ tuples i, ys ≠ []) (hrange : ∀ i < n, ∀ ys ∈ tuples i, InRange ys) :
    loadAllShares files n =
      .ok ((List.range n).map fun i => if i + 1 < n then tuples i else []) := by
  refine Returns.eq_ok (Returns.mapM fun i hi => ?_)
  have hin := List.mem_range.mp hi
  split
  · exact ⟨_, loadServer_eq (hfiles i hin) (hne i hin) (hrange i hin), rfl⟩
  · exact Returns.pure rfl

end Read

/-! ### The tuples are restored -/

section RoundTrip

variable {rows : List (List Attribute)} {files : Files}

/-- The tuples that the server `i + 1` has. The last server is not read. -/
def loaded (rows : List (List Attribute)) (i : ℕ) : List (List ℤ) :=
  if i < 5 then rows.map (ysOf i) else []

theorem loadAllShares_rows (hne : ∀ row ∈ rows, row ≠ [])
    (hrange : ∀ i < 6, ∀ row ∈ rows, InRange (ysOf i row))
    (hfiles : Holds files fun i => (rows.map (ysOf i)).flatMap line) :
    loadAllShares files 6 = .ok ((List.range 6).map (loaded rows)) := by
  rw [loadAllShares_eq hfiles (fun i _ ys hys => ?_) (fun i hi ys hys => ?_)]
  · refine congrArg Except.ok (List.map_congr_left fun i _ => ?_)
    exact if_congr (by omega) rfl rfl
  · obtain ⟨row, hrow, rfl⟩ := List.mem_map.mp hys
    exact fun hnil => hne row hrow (List.map_eq_nil_iff.mp hnil)
  · obtain ⟨row, hrow, rfl⟩ := List.mem_map.mp hys
    exact hrange i hi row hrow

/-- The attribute of a tuple. -/
def attr (rows : List (List Attribute)) (tupleIndex attributeIndex : ℕ) : Attribute :=
  (rows.getD tupleIndex []).getD attributeIndex ⟨0, fun _ => ⟨1, le_rfl, by omega⟩⟩

/-- The share of it that the server `i + 1` has. -/
def shareOf (rows : List (List Attribute)) (tupleIndex attributeIndex i : ℕ) : ℤ :=
  shareAt (coefficients (attr rows tupleIndex attributeIndex).secret
    (attr rows tupleIndex attributeIndex).draws 3) 3 (i + 1 : ℕ)

theorem shareIn_loaded {t a i : ℕ} (hi : i < 6) (ht : t < rows.length)
    (ha : a < (rows.getD t []).length) :
    shareIn ((List.range 6).map (loaded rows)) i t a =
      if i < 5 then some (shareOf rows t a i) else none := by
  unfold shareIn
  rw [List.getElem?_map, List.getElem?_range hi]
  show (do let tuple ← (loaded rows i)[t]?; tuple[a]?) = _
  unfold loaded
  split
  -- the server was loaded and has the tuple
  next h₅ =>
    rw [List.getD_eq_getElem _ _ ht] at ha
    rw [List.getElem?_map, List.getElem?_eq_getElem ht]
    show (ysOf i rows[t])[a]? = _
    unfold ysOf shareOf attr
    rw [List.getElem?_map, List.getElem?_eq_getElem ha, List.getD_eq_getElem _ _ ht,
      List.getD_eq_getElem _ _ ha]
    rfl
  next h₅ => rfl

/-- The five servers that are read have a share of every attribute of every tuple. -/
theorem filterMap_shareIn {t a : ℕ} (ht : t < rows.length) (ha : a < (rows.getD t []).length) :
    ((List.range 6).filterMap fun i =>
      (shareIn ((List.range 6).map (loaded rows)) i t a).map fun y => (((i + 1 : ℕ) : ℤ), y)) =
      fiveShares (shareOf rows t a) := by
  have hshare := fun i (hi : i < 6) => shareIn_loaded hi ht ha
  rw [List.filterMap_congr fun i hi => by rw [hshare i (List.mem_range.mp hi)]]
  rfl

theorem transformShares_eq (hne : rows ≠ []) (hwidth : ∀ row ∈ rows, row.length = 16) :
    transformShares ((List.range 6).map (loaded rows)) =
      .ok ((List.range 16).map fun a => (List.range rows.length).map fun t =>
        fiveShares (shareOf rows t a)) := by
  obtain ⟨row, rest, rfl⟩ := List.exists_cons_of_ne_nil hne
  -- the loops run over the tuples and the width of the first server
  have hlen : (ysOf 0 row).length = 16 := by
    unfold ysOf
    rw [List.length_map, hwidth row List.mem_cons_self]
  show Except.ok ((List.range (ysOf 0 row).length).map fun a =>
    (List.range (ysOf 0 row :: rest.map (ysOf 0)).length).map fun t =>
      (List.range 6).filterMap fun i =>
        (shareIn ((List.range 6).map (loaded (row :: rest))) i t a).map fun y =>
          (((i + 1 : ℕ) : ℤ), y)) = _
  rw [hlen, List.length_cons, List.length_map, ← List.length_cons]
  refine congrArg Except.ok (List.map_congr_left fun a ha => List.map_congr_left fun t ht => ?_)
  have ht' := List.mem_range.mp ht
  refine filterMap_shareIn ht' ?_
  rw [List.getD_eq_getElem _ _ ht', hwidth _ (List.getElem_mem ht')]
  exact List.mem_range.mp ha

theorem sharesAt_eq {t a : ℕ} (ht : t < rows.length) (ha : a < 16) :
    sharesAt ((List.range 16).map fun a => (List.range rows.length).map fun t =>
      fiveShares (shareOf rows t a)) a t = .ok (fiveShares (shareOf rows t a)) := by
  unfold sharesAt
  rw [List.getElem?_map, List.getElem?_range ha]
  show (match ((List.range rows.length).map fun t => fiveShares (shareOf rows t a))[t]? with
    | none => _
    | some shares => _) = _
  rw [List.getElem?_map, List.getElem?_range ht]
  rfl

/-- The rows, entry by entry. -/
theorem map_attr (hwidth : ∀ row ∈ rows, row.length = 16) :
    ((List.range rows.length).map fun t => (List.range 16).map fun a => (attr rows t a).secret) =
      rows.map fun row => row.map Attribute.secret := by
  refine List.ext_getElem (by simp) fun t ht ht' => ?_
  rw [List.length_map] at ht'
  have hlen := hwidth _ (List.getElem_mem ht')
  rw [List.getElem_map, List.getElem_map, List.getElem_range]
  refine List.ext_getElem (by simp [hlen]) fun a ha ha' => ?_
  rw [List.length_map] at ha'
  rw [List.getElem_map, List.getElem_map, List.getElem_range]
  unfold attr
  rw [List.getD_eq_getElem _ _ ht', List.getD_eq_getElem _ _ ha']

/-- The shares of small secrets are small. -/
theorem shareAt_bounds {item : Attribute} (h : |item.secret| ≤ 2 ^ 50) {i : ℕ} (hi : i < 6) :
    shareAt (coefficients item.secret item.draws 3) 3 (i + 1 : ℕ) =
        item.secret + (item.draws 0).val * (i + 1) + (item.draws 1).val * (i + 1) ^ 2 ∧
      |shareAt (coefficients item.secret item.draws 3) 3 (i + 1 : ℕ)| < 2 ^ 50 + 2 ^ 13 := by
  have hc := (item.draws 0).property
  have hd := (item.draws 1).property
  have hs := abs_le.mp h
  have heq := shareAt_coefficients h item.draws (x := (i + 1 : ℕ)) (by omega) (by omega)
  rw [Nat.cast_add, Nat.cast_one] at heq ⊢
  rw [heq, abs_lt]
  have hi' : (i : ℤ) < 6 := by exact_mod_cast hi
  refine ⟨rfl, ?_, ?_⟩ <;> nlinarith

/-- The first three shares determine the secret. -/
theorem reconstructSecret_shareOf {t a : ℕ} (h : |(attr rows t a).secret| ≤ 2 ^ 50) :
    reconstructSecret double (fiveShares (shareOf rows t a)) 3 = .ok (attr rows t a).secret := by
  have hy : ∀ i < 3, |shareOf rows t a i| < 2 ^ 50 + 2 ^ 13 := fun i hi =>
    (shareAt_bounds h (by omega)).2
  rw [reconstructSecret_fiveShares hy]
  unfold shareOf
  rw [(shareAt_bounds h (by decide : 0 < 6)).1, (shareAt_bounds h (by decide : 1 < 6)).1,
    (shareAt_bounds h (by decide : 2 < 6)).1]
  refine congrArg Except.ok ?_
  push_cast
  ring

/-- **The tuples are restored from the share files**, in their order. Shares are integers and the
interpolation works on `double`s, so the secrets are bounded: up to `2 ^ 50` no weight and no
partial sum is rounded. -/
theorem tuples_restored (hfiles : ∀ x, (files x).getD [] = []) (hne : rows ≠ [])
    (hwidth : ∀ row ∈ rows, row.length = 16)
    (hbound : ∀ row ∈ rows, ∀ item ∈ row, |item.secret| ≤ 2 ^ 50) :
    (encrypt files rows >>= decrypt) = .ok (rows.map fun row => row.map Attribute.secret) := by
  have hrows : ∀ row ∈ rows, row ≠ [] := fun row hrow =>
    List.ne_nil_of_length_pos (by rw [hwidth row hrow]; decide)
  -- the shares of small secrets are small, so `stoll` reads them
  have hrange : ∀ i < 6, ∀ row ∈ rows, InRange (ysOf i row) := by
    intro i hi row hrow y hy
    obtain ⟨item, hitem, rfl⟩ := List.mem_map.mp hy
    have hy := abs_lt.mp (shareAt_bounds (hbound row hrow item hitem) hi).2
    omega
  -- the two branches of `main` one after the other
  refine Returns.eq_ok ((encrypt_spec hrows fun i _ => hfiles (i + 1)).bind
    fun files' hfiles' => ?_)
  unfold decrypt
  rw [loadAllShares_rows hrows hrange hfiles']
  refine Returns.bind ⟨_, rfl, rfl⟩ fun tempShares htemp => ?_
  rw [← htemp, transformShares_eq hne hwidth]
  refine Returns.bind ⟨_, rfl, rfl⟩ fun allShares hall => ?_
  rw [← hall, ← map_attr hwidth]
  have hlen : (((List.range 6).map (loaded rows)).headD []).length = rows.length :=
    List.length_map _
  rw [hlen]
  refine Returns.mapM fun t ht => Returns.mapM fun a ha => ?_
  have ht' := List.mem_range.mp ht
  have ha' := List.mem_range.mp ha
  -- five shares of each value are there, and three are used
  rw [sharesAt_eq ht' ha']
  refine Returns.bind ⟨_, rfl, rfl⟩ fun shares hshares => ?_
  rw [← hshares]
  have hrow := List.getElem_mem ht'
  refine ⟨_, reconstructSecret_shareOf ?_, rfl⟩
  unfold attr
  have hlen' := hwidth _ hrow
  rw [List.getD_eq_getElem _ _ ht', List.getD_eq_getElem _ _ (by omega)]
  exact hbound _ hrow _ (List.getElem_mem _)

theorem tuples_restored_two_rows :
    (encrypt (fun _ => none)
      [List.replicate 16 ⟨-5, fun _ => ⟨7, by decide⟩⟩,
        List.replicate 16 ⟨12345, fun i => ⟨1 + i % 100, by omega⟩⟩] >>= decrypt) =
      .ok [List.replicate 16 (-5), List.replicate 16 12345] :=
  tuples_restored (fun _ => rfl) (by decide) (by decide) (by decide)

end RoundTrip

/-! ### All the share files -/

section Reload

variable {files : Files} {tables : List (List (List (ℤ × ℤ)))} {n a : ℕ}

/-- The shares of a tuple with `a` attributes, for `n` servers. -/
structure Tuple (n a : ℕ) (table : List (List (ℤ × ℤ))) : Prop where
  length_eq : table.length = a
  servers : ∀ shares ∈ table, shares.length = n
  range : ∀ shares ∈ table, InRange (shares.map Prod.snd)

theorem Tuple.tabular {table : List (List (ℤ × ℤ))} (h : Tuple n a table) (ha : 1 ≤ a) :
    Tabular n table :=
  ⟨List.ne_nil_of_length_pos (by rw [h.length_eq]; exact ha), h.servers⟩

theorem Tuple.inRange {table : List (List (ℤ × ℤ))} (h : Tuple n a table) {i : ℕ} (hi : i < n) :
    InRange (sharesOn i table) := by
  intro y hy
  obtain ⟨shares, hshares, rfl⟩ := List.mem_map.mp hy
  have hlt : i < shares.length := hi.trans_eq (h.servers shares hshares).symm
  rw [List.getD_eq_getElem _ _ hlt]
  exact h.range shares hshares _ (List.mem_map_of_mem (List.getElem_mem hlt))

/-- The last server has no tuples. -/
theorem reload_eq (ha : 1 ≤ a) (htables : ∀ table ∈ tables, Tuple n a table)
    (hfiles : ∀ x, (files x).getD [] = []) :
    (tables.foldlM saveAllShares files >>= fun files' => loadAllShares files' n) =
      .ok ((List.range n).map fun i => if i + 1 < n then tables.map (sharesOn i) else []) := by
  have htabular : ∀ table ∈ tables, Tabular n table := fun table htable =>
    (htables table htable).tabular ha
  refine Returns.eq_ok ((saveTables_spec htabular fun i _ => hfiles (i + 1)).bind
    fun files' hfiles' => ?_)
  -- the last server is skipped by the loop
  have hload : loadAllShares files' n =
      .ok ((List.range n).map fun i => if i + 1 < n then tables.map (sharesOn i) else []) := by
    refine loadAllShares_eq (fun i hi => ?_) (fun i _ ys hys => ?_) fun i hi ys hys => ?_
    -- what was written is what a loaded server has
    · refine (hfiles' i hi).trans ?_
      exact (List.flatMap_map (sharesOn i) line tables).symm
    · obtain ⟨table, htable, rfl⟩ := List.mem_map.mp hys
      exact fun hnil => (htabular table htable).ne_nil (List.map_eq_nil_iff.mp hnil)
    · obtain ⟨table, htable, rfl⟩ := List.mem_map.mp hys
      exact (htables table htable).inRange hi
  exact ⟨_, hload, rfl⟩

/-- **Reloading** gives the shares of all the servers only when there are no tuples. The loop over
the servers stops before the last one, whose list stays empty whatever its file holds. -/
theorem reload_iff (hn : 1 ≤ n) (ha : 1 ≤ a) (htables : ∀ table ∈ tables, Tuple n a table)
    (hfiles : ∀ x, (files x).getD [] = []) :
    (tables.foldlM saveAllShares files >>= fun files' => loadAllShares files' n) =
        .ok ((List.range n).map fun i => tables.map (sharesOn i)) ↔
      tables = [] := by
  rw [reload_eq ha htables hfiles]
  constructor
  · intro heq
    -- The last server.
    have hlast := congrArg (fun servers => servers[n - 1]?) (Except.ok.inj heq)
    simp only [List.getElem?_map, List.getElem?_range (by omega : n - 1 < n), Option.map_some,
      Option.some.injEq] at hlast
    rw [if_neg (by omega)] at hlast
    exact List.map_eq_nil_iff.mp hlast.symm
  · rintro rfl
    refine congrArg Except.ok (List.map_congr_left fun i _ => ?_)
    rw [List.map_nil, ite_self]

theorem reload_iff_two :
    ([[[(1, 5), (2, -6)]]].foldlM saveAllShares (fun _ => none) >>=
        fun files' => loadAllShares files' 2) =
        .ok ((List.range 2).map fun i => [[[((1 : ℤ), (5 : ℤ)), (2, -6)]]].map (sharesOn i)) ↔
      [[[((1 : ℤ), (5 : ℤ)), (2, -6)]]] = [] :=
  reload_iff (by decide) (by decide : 1 ≤ 1)
    (fun table htable => by
      rw [List.mem_singleton.mp htable]
      exact ⟨rfl, by decide, by unfold InRange; decide⟩)
    fun _ => rfl

/-- One tuple with one attribute, for two servers. -/
theorem not_reload :
    ([[[(1, 5), (2, -6)]]].foldlM saveAllShares (fun _ => none) >>=
        fun files' => loadAllShares files' 2) ≠
      .ok ((List.range 2).map fun i => [[[((1 : ℤ), (5 : ℤ)), (2, -6)]]].map (sharesOn i)) := by
  rw [reload_eq (by decide : 1 ≤ 1) (fun table htable => by
    rw [List.mem_singleton.mp htable]
    exact ⟨rfl, by decide, by unfold InRange; decide⟩) fun _ => rfl]
  decide

end Reload

end ShamirParser
