import PathOram.Parser.Aggregates

/-!
# From an SQL statement to the query

`sql_parser.py` makes the JSON document of a query from the text of an SQL statement. It walks over
the tree of tokens that the package `sqlparse` makes of the text; what the package says of a token
is a parameter here (`Library`). The strings of Python are made of characters, those of the document
of the bytes of their encoding (`utf8`).

The conditions are written down as they come, each keyword between two of them in front of the one
that follows: `recurse_cons`. What becomes of the document depends on the `WHERE` only through this.

* `parse_sql_asks` — the document of a statement with an aggregate and two conditions asks for what
  the statement asks for.
* `sumOfSql_eq` — so the sum that is printed in the end is the one that the statement stands for.
* `appendShares_parse_sql_iff` — the appender takes the documents of the statements that have
  aggregates only, each with a name of its own.
* `query_parse_sql_iff` — the servers answer the statements with two comparisons by `=`. All other
  comparisons are left out of the document, but not the keywords in front of them: the last keyword
  is the one that counts.
-/

open ShamirParser Json Fields

namespace SqlParser

/-! ### Tokens -/

/-- The types of single tokens that are asked for. -/
inductive TokenType where
  | Keyword
  | DML
  | Whitespace
  | other
  deriving DecidableEq, Repr

/-- The classes of groups of tokens that are asked for. -/
inductive TokenClass where
  | IdentifierList
  | Identifier
  | Function
  | Where
  | Comparison
  | other
  deriving DecidableEq, Repr

inductive Token where
  | single (ttype : TokenType) (value : Text)
  /-- A `TokenList`. -/
  | group (cls : TokenClass) (value : Text) (tokens : List Token)

namespace Token

def value : Token → Text
  | single _ value => value
  | group _ value _ => value

def tokens : Token → List Token
  | single _ _ => []
  | group _ _ tokens => tokens

/-- The type of a group is `None`. -/
def ttype : Token → Option TokenType
  | single ttype _ => some ttype
  | group _ _ _ => none

def isClass (cls : TokenClass) : Token → Bool
  | single _ _ => false
  | group cls' _ _ => cls' = cls

def is_whitespace (token : Token) : Bool := token.ttype = some .Whitespace

end Token

/-- What the package makes of a text and says of a token. The identifiers of a list are among its
tokens. -/
structure Library where
  parse : Text → List Token
  str : Token → Text
  get_name : Token → Option Text
  get_real_name : Token → Option Text
  get_alias : Token → Option Text
  get_parameters : Token → List Token
  get_identifiers : Token → List Token
  get_identifiers_subset : ∀ token, get_identifiers token ⊆ token.tokens

/-! ### The strings of Python -/

/-- The characters that `strip()` removes. -/
def isspace (c : Char) : Bool :=
  c.toNat ∈ [9, 10, 11, 12, 13, 28, 29, 30, 31, 32, 133, 160, 5760, 8192, 8193, 8194, 8195, 8196,
    8197, 8198, 8199, 8200, 8201, 8202, 8232, 8233, 8239, 8287, 12288]

def strip (text : Text) : Text := trim isspace text

/-- `upper()`, as far as the comparisons with `AND`, `OR`, `BETWEEN`, `SELECT` and `FROM` can tell:
outside ASCII, the long s alone has one of their letters as its capital. -/
def upper (text : Text) : Text := text.map fun c => if c = 'ſ' then 'S' else c.toUpper

/-- The bytes of a string in UTF-8, as the file has them and the library of the servers reads
them. -/
def utf8 (text : Text) : Text :=
  text.flatMap fun c => (String.utf8EncodeChar c).map fun byte => Char.ofNat byte.toNat

/-- `token.ttype is ttype and token.value.upper() == word`. -/
def isWord (ttype : TokenType) (word : Text) (token : Token) : Bool :=
  token.ttype = some ttype && upper token.value = word

/-! ### The select list -/

/-- A dictionary of the list `select`. -/
structure SelectItem where
  query_type : Option Text
  «attribute» : Option Text
  «variable» : Option Text
  deriving DecidableEq, Repr

variable {nlohmann : JsonLibrary} (lib : Library)

def functionItem (function : Token) («variable» : Option Text) : SelectItem where
  query_type := lib.get_name function
  «attribute» := (lib.get_parameters function).head?.map fun param => strip (lib.str param)
  «variable» := «variable»

theorem sizeOf_lt_of_mem_get_identifiers {token t : Token} (h : t ∈ lib.get_identifiers token) :
    sizeOf t < sizeOf token := by
  have hmem := lib.get_identifiers_subset token h
  cases token with
  | single ttype value => cases hmem
  | group cls value tokens =>
    have hlt := List.sizeOf_lt_of_mem (show t ∈ tokens from hmem)
    rw [Token.group.sizeOf_spec]
    omega

def extract_select_items (token : Token) : List SelectItem :=
  match token with
  | .group .IdentifierList value tokens =>
    (lib.get_identifiers (.group .IdentifierList value tokens)).attach.flatMap fun i =>
      extract_select_items i.val
  | .group .Identifier value tokens =>
    -- the `break` of the loop: only the first function of an identifier counts
    match tokens.find? (Token.isClass .Function) with
    | some t => [functionItem lib t (lib.get_alias (.group .Identifier value tokens))]
    -- the `else` of the loop: a column without a function
    | none =>
      [⟨none, lib.get_real_name (.group .Identifier value tokens),
        lib.get_alias (.group .Identifier value tokens)⟩]
  | .group .Function value tokens => [functionItem lib (.group .Function value tokens) none]
  -- any other token leaves the list empty
  | _ => []
termination_by sizeOf token
decreasing_by exact sizeOf_lt_of_mem_get_identifiers lib i.property

/-! ### The conditions -/

/-- A dictionary of the list `filters`. -/
inductive Filter where
  | condition («attribute» condition : Text)
  | whereClause (whereClause : Text)
  deriving DecidableEq, Repr

/-- `.strip().strip("'").strip('"')`. -/
def unquote (text : Text) : Text := trim (· = '"') (trim (· = '\'') (strip text))

/-- The first case: a comparison with `=`. -/
def comparison (tokens : List Token) : List Filter :=
  match tokens.filter (!·.is_whitespace) with
  -- the three parts that are left without the blanks
  | [attr, op, val] =>
    if op.value = "=".toList then [.condition (strip attr.value) (unquote val.value)] else []
  | _ => []

/-- The second case: `attr BETWEEN val1 AND val2`. -/
def between : List Token → List Filter
  | attr :: t₁ :: val1 :: t₃ :: val2 :: sub_tokens =>
    (if isWord .Keyword "BETWEEN".toList t₁ ∧ isWord .Keyword "AND".toList t₃ then
      [.condition (strip (lib.str attr))
          (strip (lib.str val1) ++ " AND ".toList ++ strip (lib.str val2)),
        .whereClause "BETWEEN".toList]
    -- the window moves on by one token, found or not
    else []) ++ between (t₁ :: val1 :: t₃ :: val2 :: sub_tokens)
  | _ => []

def isConnective (token : Token) : Bool :=
  isWord .Keyword "AND".toList token || isWord .Keyword "OR".toList token

/-- What the next token adds. -/
def connective (token : Token) : List Filter :=
  if isConnective token then [.whereClause (upper token.value)] else []

mutual

def conditions : Token → List Filter
  | .single _ _ => []
  -- what is inside a comparison is not visited again
  | .group .Comparison _ tokens => comparison tokens
  | .group _ _ tokens => between lib (tokens.filter (!·.is_whitespace)) ++ recurse tokens

/-- The loop over the tokens. -/
def recurse : List Token → List Filter
  | [] => []
  -- the keyword behind `tok` is written down after the conditions in it
  | tok :: tokens => conditions tok ++ (tokens.head?.elim [] connective ++ recurse tokens)

end

def extract_where_conditions (where_token : Token) : List Filter :=
  recurse lib where_token.tokens

/-! ### The document -/

/-- The variables of `parse_sql`. -/
structure Parsed where
  from_seen : Bool
  select_items : List SelectItem
  filters : List Filter

def isSelectable (token : Token) : Bool :=
  token.isClass .IdentifierList || token.isClass .Identifier || token.isClass .Function

/-- The loop over `stmt.tokens`. -/
def readToken (parsed : Parsed) (token : Token) : Parsed :=
  -- the three `continue`s
  if token.is_whitespace then parsed
  else if isWord .DML "SELECT".toList token then parsed
  else if isWord .Keyword "FROM".toList token then { parsed with from_seen := true }
  else
    { parsed with
      select_items :=
        if !parsed.from_seen && isSelectable token then
          parsed.select_items ++ extract_select_items lib token
        else parsed.select_items
      -- also behind `FROM`; a second `WHERE` replaces the filters of the first
      filters :=
        if token.isClass .Where then extract_where_conditions lib token else parsed.filters }

/-- The statement: the first one of the text. -/
def parseStatement (sql : Text) : Parsed :=
  match lib.parse sql with
  | [] => ⟨false, [], []⟩
  | stmt :: _ => stmt.tokens.foldl (readToken lib) ⟨false, [], []⟩

/-- The object that is read from the file of a dictionary. -/
def dict (entries : List (Text × Json nlohmann)) : Json nlohmann :=
  .object (entries.foldl (fun members entry => OrderedMap.set entry.1 entry.2 members) [])

/-- `None` is `null` in the file. -/
def ofOption : Option Text → Json nlohmann
  | some text => .string (utf8 text)
  | none => .null

def SelectItem.toJson (item : SelectItem) : Json nlohmann :=
  dict [("query_type".toList, ofOption item.query_type),
    ("attribute".toList, ofOption item.attribute), ("variable".toList, ofOption item.variable)]

def Filter.toJson : Filter → Json nlohmann
  | .condition «attribute» text =>
    dict [("attribute".toList, .string (utf8 «attribute»)),
      ("condition".toList, .string (utf8 text))]
  | .whereClause text => dict [("whereClause".toList, .string (utf8 text))]

def Parsed.toJson (parsed : Parsed) : Json nlohmann :=
  dict [("select".toList, .array (parsed.select_items.map SelectItem.toJson)),
    ("filters".toList, .array (parsed.filters.map Filter.toJson))]

/-- The document that is written for a text, as the library of the servers reads it. -/
def parse_sql (nlohmann : JsonLibrary) (sql : Text) : Json nlohmann :=
  (parseStatement lib sql).toJson

/-! ### The loop over the conditions -/

section Conditions

variable {tok : Token} {tokens : List Token}

/-- A token with what it adds when it is the next one. -/
def filtersOf (token : Token) : List Filter := connective token ++ conditions lib token

/-- **The loop** looks ahead for the keywords, so that a keyword at the beginning is not seen. All
other tokens add what they add by themselves: behind the first token the loop is a `flatMap`, and
the conditions of a `WHERE` can be counted token by token. -/
theorem recurse_cons (tok : Token) (tokens : List Token) :
    recurse lib (tok :: tokens) = conditions lib tok ++ tokens.flatMap (filtersOf lib) := by
  -- the look-ahead moves from the token to the one behind it
  induction tokens generalizing tok with
  | nil =>
    rw [recurse, List.head?_nil, Option.elim_none, recurse, List.flatMap_nil, List.nil_append]
  | cons next tokens ih =>
    rw [recurse, List.head?_cons, Option.elim_some, ih, List.flatMap_cons, filtersOf,
      List.append_assoc]

/-- Groups and keywords between conditions. -/
def isRelevant (token : Token) : Bool := token.ttype.isNone || isConnective token

theorem filtersOf_of_not_isRelevant (h : isRelevant tok = false) : filtersOf lib tok = [] := by
  unfold isRelevant at h
  rw [Bool.or_eq_false_iff] at h
  obtain ⟨hgroup, hconnective⟩ := h
  cases tok with
  | single ttype value =>
    unfold filtersOf connective
    rw [hconnective]
    rfl
  -- every group is relevant
  | group cls value tokens => cases hgroup

/-- Blanks and punctuation make no difference. -/
theorem flatMap_filtersOf_filter (tokens : List Token) :
    (tokens.filter isRelevant).flatMap (filtersOf lib) = tokens.flatMap (filtersOf lib) := by
  induction tokens with
  | nil => rfl
  | cons tok tokens ih =>
    rw [List.flatMap_cons, ← ih]
    cases hrelevant : isRelevant tok with
    | true => rw [List.filter_cons_of_pos hrelevant, List.flatMap_cons]
    | false =>
      rw [List.filter_cons_of_neg (by rw [hrelevant]; exact Bool.false_ne_true),
        filtersOf_of_not_isRelevant lib hrelevant, List.nil_append]

end Conditions

/-! ### The loop over a statement -/

section Select

/-- The identifiers and functions of a token. -/
def selected (token : Token) : List Token :=
  match token with
  | .group .IdentifierList value tokens =>
    (lib.get_identifiers (.group .IdentifierList value tokens)).attach.flatMap fun i =>
      selected i.val
  | .group .Identifier value tokens => [.group .Identifier value tokens]
  | .group .Function value tokens => [.group .Function value tokens]
  | _ => []
termination_by sizeOf token
decreasing_by exact sizeOf_lt_of_mem_get_identifiers lib i.property

@[simp] theorem selected_single (ttype : TokenType) (value : Text) :
    selected lib (.single ttype value) = [] := by
  rw [selected]
  all_goals rintro value tokens ⟨⟩

@[simp] theorem selected_identifier (value : Text) (tokens : List Token) :
    selected lib (.group .Identifier value tokens) = [.group .Identifier value tokens] := by
  rw [selected]

/-- The dictionary of an identifier or a function. -/
def item : Token → SelectItem
  | .group .Identifier value tokens =>
    match tokens.find? (Token.isClass .Function) with
    | some t => functionItem lib t (lib.get_alias (.group .Identifier value tokens))
    | none =>
      ⟨none, lib.get_real_name (.group .Identifier value tokens),
        lib.get_alias (.group .Identifier value tokens)⟩
  | t => functionItem lib t none

theorem extract_select_items_eq (tok : Token) :
    extract_select_items lib tok = (selected lib tok).map (item lib) := by
  induction tok using selected.induct lib with
  -- a list: its identifiers one by one
  | case1 value tokens ih =>
    rw [extract_select_items, selected, List.map_flatMap]
    exact List.flatMap_congr fun i _ => ih i
  -- an identifier, with a function in it or without
  | case2 value tokens =>
    rw [extract_select_items, selected, List.map_singleton, item]
    cases tokens.find? (Token.isClass .Function) <;> rfl
  | case3 value tokens =>
    rw [extract_select_items, selected]
    rfl
  | case4 tok hlist hidentifier hfunction =>
    rw [extract_select_items, selected]
    · rfl
    all_goals assumption

def isFrom (token : Token) : Bool := isWord .Keyword "FROM".toList token

/-- The tokens in front of `FROM`. -/
def beforeFrom (tokens : List Token) : List Token := tokens.takeWhile fun token => !isFrom token

theorem readToken_single (parsed : Parsed) (ttype : TokenType) (value : Text) :
    readToken lib parsed (.single ttype value) =
      { parsed with from_seen := parsed.from_seen || isFrom (.single ttype value) } := by
  -- only a keyword can be `FROM`; none of the others changes a variable
  cases ttype with
  | Keyword =>
    show (if isFrom (.single .Keyword value) = true then { parsed with from_seen := true }
      else { parsed with select_items :=
        if (!parsed.from_seen && false) = true then _ else parsed.select_items }) = _
    rw [Bool.and_false, if_neg Bool.false_ne_true]
    cases isFrom (.single .Keyword value) with
    | true => rw [if_pos rfl, Bool.or_true]
    | false => rw [if_neg Bool.false_ne_true, Bool.or_false]
  | Whitespace =>
    show parsed = { parsed with from_seen := parsed.from_seen || false }
    rw [Bool.or_false]
  -- `SELECT` is skipped, any other statement word falls through to no effect
  | DML =>
    show (if isWord .DML "SELECT".toList (.single .DML value) = true then parsed
      else { parsed with
        select_items := if (!parsed.from_seen && false) = true then _ else parsed.select_items }) =
      { parsed with from_seen := parsed.from_seen || false }
    rw [Bool.and_false, Bool.or_false, if_neg Bool.false_ne_true, ite_self]
  | other =>
    show { parsed with
      select_items := if (!parsed.from_seen && false) = true then _ else parsed.select_items } =
      { parsed with from_seen := parsed.from_seen || false }
    rw [Bool.and_false, Bool.or_false, if_neg Bool.false_ne_true]

/-- A group in front of `FROM` is part of the select list; the last `WHERE` gives the filters. -/
theorem readToken_group (parsed : Parsed) (cls : TokenClass) (value : Text) (tokens : List Token) :
    readToken lib parsed (.group cls value tokens) =
      { parsed with
        select_items := parsed.select_items ++
          if parsed.from_seen then [] else (selected lib (.group cls value tokens)).map (item lib)
        filters := if cls = .Where then recurse lib tokens else parsed.filters } := by
  -- what is not selectable would add nothing anyway, so the test can be left out
  have hnone : isSelectable (.group cls value tokens) = false →
      extract_select_items lib (.group cls value tokens) = [] := by
    intro h
    rw [extract_select_items]
    · rintro value tokens ⟨⟩
      cases h
    · rintro value tokens ⟨⟩
      cases h
    · rintro value tokens ⟨⟩
      cases h
  -- the guard moves from the assignment to the list that is added
  have hselect : (if (!parsed.from_seen && isSelectable (.group cls value tokens)) = true then
      parsed.select_items ++ extract_select_items lib (.group cls value tokens)
      else parsed.select_items) = parsed.select_items ++ if parsed.from_seen then [] else
        extract_select_items lib (.group cls value tokens) := by
    cases parsed.from_seen with
    | true => exact (List.append_nil _).symm
    | false =>
      rw [if_neg Bool.false_ne_true]
      cases hselectable : isSelectable (.group cls value tokens) with
      | true => rfl
      | false => rw [hnone hselectable, List.append_nil, ite_self]
  have hwhere : (if decide (cls = .Where) = true then recurse lib tokens else parsed.filters) =
      if cls = .Where then recurse lib tokens else parsed.filters :=
    if_congr decide_eq_true_iff rfl rfl
  rw [← extract_select_items_eq, ← hselect, ← hwhere]
  rfl

theorem beforeFrom_cons (tok : Token) (tokens : List Token) :
    beforeFrom (tok :: tokens) = if isFrom tok then [] else tok :: beforeFrom tokens := by
  unfold beforeFrom
  cases hfrom : isFrom tok with
  | true => rw [List.takeWhile_cons_of_neg (by rw [hfrom]; decide), if_pos rfl]
  | false => rw [List.takeWhile_cons_of_pos (by rw [hfrom]; rfl), if_neg Bool.false_ne_true]

/-- **The select list** ends at `FROM`. -/
theorem select_items_foldl (tokens : List Token) (parsed : Parsed) :
    (tokens.foldl (readToken lib) parsed).select_items = parsed.select_items ++
      if parsed.from_seen then []
      else ((beforeFrom tokens).flatMap (selected lib)).map (item lib) := by
  induction tokens generalizing parsed with
  | nil => exact ((List.append_nil _).symm.trans (congrArg _ (ite_self _).symm))
  | cons tok tokens ih =>
    rw [List.foldl_cons, beforeFrom_cons]
    cases tok with
    | single ttype value =>
      rw [readToken_single, ih]
      show parsed.select_items ++ (if (parsed.from_seen || isFrom (.single ttype value)) = true
        then [] else _) = _
      -- once `FROM` has been seen it stays seen
      cases parsed.from_seen with
      | true => rfl
      | false =>
        rw [Bool.false_or, if_neg Bool.false_ne_true]
        cases isFrom (.single ttype value) with
        | true => rfl
        | false =>
          rw [if_neg Bool.false_ne_true, if_neg Bool.false_ne_true, List.flatMap_cons,
            selected_single, List.nil_append]
    | group cls value tokens' =>
      -- a group is never `FROM`
      have hfrom : isFrom (.group cls value tokens') = false := rfl
      rw [readToken_group, ih, hfrom, if_neg Bool.false_ne_true, List.flatMap_cons, List.map_append,
        List.append_assoc]
      cases parsed.from_seen <;> rfl

/-- **The conditions** are those of the last `WHERE`. -/
theorem filters_foldl (tokens : List Token) (parsed : Parsed) :
    (tokens.foldl (readToken lib) parsed).filters =
      (tokens.filter (Token.isClass .Where)).getLast?.elim parsed.filters
        (extract_where_conditions lib) := by
  induction tokens generalizing parsed with
  | nil => rfl
  | cons tok tokens ih =>
    rw [List.foldl_cons, ih]
    cases tok with
    | single ttype value =>
      rw [readToken_single, List.filter_cons_of_neg Bool.false_ne_true]
    | group cls value tokens' =>
      rw [readToken_group]
      by_cases hcls : cls = .Where
      · have hwhere : Token.isClass .Where (.group cls value tokens') = true :=
          decide_eq_true hcls
        rw [List.filter_cons_of_pos hwhere, List.getLast?_cons, Option.elim_some]
        show Option.elim _ (if cls = .Where then recurse lib tokens' else parsed.filters) _ = _
        rw [if_pos hcls]
        -- a later `WHERE` replaces the filters of this one
        cases (tokens.filter (Token.isClass .Where)).getLast? <;> rfl
      · have hwhere : ¬ Token.isClass .Where (.group cls value tokens') = true := fun h =>
          hcls (of_decide_eq_true h)
        rw [List.filter_cons_of_neg hwhere]
        show Option.elim _ (if cls = .Where then recurse lib tokens' else parsed.filters) _ = _
        rw [if_neg hcls]

end Select

/-! ### Statements -/

open SQLQuery SQLHandlerIntegrationTest

/-- A comparison of an attribute with a text between single quotes. -/
inductive IsComparison : Token → TextFilter → Prop
  | intro {value text : Text} {tokens : List Token} {attr op val : Token} {filter : TextFilter}
      (tokens_eq : tokens.filter (!·.is_whitespace) = [attr, op, val])
      (attr_eq : strip attr.value = filter.attr.name) (op_eq : op.value = "=".toList)
      (val_eq : strip val.value = '\'' :: (text ++ ['\'']))
      (quotes : ∀ c ∈ text, c ≠ '\'' ∧ c ≠ '"') (condition_eq : utf8 text = filter.condition) :
      IsComparison (.group .Comparison value tokens) filter

/-- Two comparisons with a keyword between them, and any blanks and punctuation. -/
inductive IsWhere : Token → TextQuery → Prop
  | intro {value word : Text} {ttype : TokenType} {tokens : List Token}
      {first clause second : Token} {query : TextQuery}
      (tokens_eq : tokens.filter isRelevant = [first, clause, second])
      (first_is : IsComparison first query.first)
      (clause_is : isWord .Keyword (ORAMTestSQL.clauseText query.whereClause) clause = true)
      (second_is : IsComparison second query.second) :
      IsWhere (.group .Where value (.single ttype word :: tokens)) query

/-- An aggregate of an attribute, with a name. -/
inductive IsAggregate : Token → Text → Prop
  | intro {value name «attribute» other : Text} {tokens params : List Token}
      {function param : Token}
      (function_eq : tokens.find? (Token.isClass .Function) = some function)
      (name_eq : lib.get_name function = some name)
      (params_eq : lib.get_parameters function = param :: params)
      (attribute_eq : strip (lib.str param) = «attribute»)
      (alias_eq : lib.get_alias (.group .Identifier value tokens) = some other) :
      IsAggregate (.group .Identifier value tokens) «attribute»

/-- The statement of a query: the first aggregate is the one of the query. -/
structure IsStatement (stmt : Token) (query : TextQuery) : Prop where
  select : ∃ token tokens, (beforeFrom stmt.tokens).flatMap (selected lib) = token :: tokens ∧
    IsAggregate lib token query.attr.name ∧ ∀ t ∈ tokens, ∃ attr, IsAggregate lib t attr
  where_eq : ∃ token, stmt.tokens.filter (Token.isClass .Where) = [token] ∧ IsWhere token query

section Statements

variable {lib} {tok : Token} {filter : TextFilter} {query : TextQuery} {sql : Text}

/-- A text between quotes. -/
theorem trim_quotes {quote : Char} {text before after : Text} (hbefore : ∀ c ∈ before, c = quote)
    (hafter : ∀ c ∈ after, c = quote) (htext : ∀ c ∈ text, c ≠ quote) :
    trim (· = quote) (before ++ (text ++ after)) = text :=
  trim_append (fun c hc => decide_eq_true (hbefore c hc))
    (fun c hc => decide_eq_true (hafter c hc)) fun c hc => decide_eq_false (htext c hc)

theorem unquote_eq {text condition : Text} (h : strip text = '\'' :: (condition ++ ['\'']))
    (quotes : ∀ c ∈ condition, c ≠ '\'' ∧ c ≠ '"') : unquote text = condition := by
  have hquote : ∀ c ∈ ['\''], c = '\'' := List.forall_mem_singleton.mpr rfl
  -- the single quotes go first
  have hsingle : trim (· = '\'') (strip text) = condition := by
    rw [h]
    exact trim_quotes hquote hquote fun c hc => (quotes c hc).1
  -- there are no double quotes left to go
  have hdouble : trim (· = '"') condition = condition := by
    have htrim := trim_quotes (List.forall_mem_nil _) (List.forall_mem_nil _)
      fun c hc => (quotes c hc).2
    rwa [List.append_nil] at htrim
  unfold unquote
  rw [hsingle, hdouble]

theorem filtersOf_of_isComparison (h : IsComparison tok filter) :
    ∃ text, utf8 text = filter.condition ∧
      filtersOf lib tok = [.condition filter.attr.name text] := by
  obtain ⟨tokens_eq, attr_eq, op_eq, val_eq, quotes, condition_eq⟩ := h
  refine ⟨_, condition_eq, ?_⟩
  -- a group is no keyword
  show connective _ ++ comparison _ = _
  unfold comparison
  rw [tokens_eq]
  show [] ++ (if _ then _ else _) = _
  rw [if_pos op_eq, attr_eq, unquote_eq val_eq quotes, List.nil_append]

theorem isConnective_of_isWord {whereClause : WhereClause}
    (h : isWord .Keyword (ORAMTestSQL.clauseText whereClause) tok = true) :
    isConnective tok = true := by
  unfold isConnective
  cases whereClause with
  | AND => exact (Bool.or_eq_true _ _).mpr (.inl h)
  | OR => exact (Bool.or_eq_true _ _).mpr (.inr h)

theorem filtersOf_of_isWord {whereClause : WhereClause}
    (h : isWord .Keyword (ORAMTestSQL.clauseText whereClause) tok = true) :
    filtersOf lib tok = [.whereClause (ORAMTestSQL.clauseText whereClause)] := by
  have hconnective := isConnective_of_isWord h
  unfold isWord at h
  rw [Bool.and_eq_true, decide_eq_true_iff, decide_eq_true_iff] at h
  cases tok with
  | single ttype value =>
    unfold filtersOf connective
    rw [if_pos hconnective]
    exact congrArg (fun text => [Filter.whereClause text]) h.2
  -- the type of a group is `None`
  | group cls value tokens => cases h.1

/-- **The filters** of two comparisons. -/
theorem extract_where_conditions_eq (h : IsWhere tok query) :
    ∃ text text', utf8 text = query.first.condition ∧ utf8 text' = query.second.condition ∧
      extract_where_conditions lib tok =
        [.condition query.first.attr.name text,
          .whereClause (ORAMTestSQL.clauseText query.whereClause),
          .condition query.second.attr.name text'] := by
  obtain ⟨tokens_eq, first_is, clause_is, second_is⟩ := h
  obtain ⟨text, htext, hfirst⟩ := filtersOf_of_isComparison first_is
  obtain ⟨text', htext', hsecond⟩ := filtersOf_of_isComparison second_is
  refine ⟨text, text', htext, htext', ?_⟩
  -- the first token is the word `WHERE`, which adds nothing
  show recurse lib (_ :: _) = _
  rw [recurse_cons, ← flatMap_filtersOf_filter, tokens_eq, List.flatMap_cons, List.flatMap_cons,
    List.flatMap_cons, List.flatMap_nil, hfirst, filtersOf_of_isWord clause_is, hsecond]
  rfl

/-- All the texts of the dictionary are there. -/
structure SelectItem.Named (item : SelectItem) : Prop where
  query_type : item.query_type.isSome
  «attribute» : item.attribute.isSome
  «variable» : item.variable.isSome

theorem item_of_isAggregate {attr : Text} (h : IsAggregate lib tok attr) :
    (item lib tok).Named ∧ (item lib tok).attribute = some attr := by
  obtain ⟨function_eq, name_eq, params_eq, attribute_eq, alias_eq⟩ := h
  unfold item
  -- the identifier has a function, so the loop does not reach its `else`
  simp only [function_eq]
  unfold functionItem
  rw [name_eq, params_eq, alias_eq, ← attribute_eq]
  exact ⟨⟨rfl, rfl, rfl⟩, rfl⟩

theorem parse_sql_find_select (lib : Library) (sql : Text) :
    (parse_sql lib nlohmann sql).find "select".toList =
      some (.array ((parseStatement lib sql).select_items.map SelectItem.toJson)) :=
  find_object _ _

theorem parse_sql_find_filters (lib : Library) (sql : Text) :
    (parse_sql lib nlohmann sql).find "filters".toList =
      some (.array ((parseStatement lib sql).filters.map Filter.toJson)) :=
  find_object _ _

theorem isString_ofOption (text : Option Text) :
    (ofOption text : Json nlohmann).isString = text.isSome := by
  cases text with
  | none =>
    unfold ofOption isString
    rw [view_null]
    rfl
  | some text => exact isString_string (utf8 text)

/-- A dictionary can be read if nothing in it is `None`. -/
theorem typedSelect_toJson_iff (item : SelectItem) :
    TypedSelect (item.toJson : Json nlohmann) ↔ item.Named := by
  -- each of the three entries is a string if and only if it is not `None`
  have hiff : ∀ (key : Text) (text : Option Text),
      (item.toJson : Json nlohmann).find key = some (ofOption text) →
        ((item.toJson : Json nlohmann).HasString key ↔ text.isSome = true) := by
    intro key text hfind
    rw [← @isString_ofOption nlohmann]
    refine ⟨fun h => h.2 _ hfind, fun h => ⟨isObject_object _, fun member hmember => ?_⟩⟩
    rw [← Option.some.inj (hfind.symm.trans hmember)]
    exact h
  have hquery := hiff "query_type".toList item.query_type (find_object _ _)
  have hattribute := hiff "attribute".toList item.attribute (find_object _ _)
  have hvariable := hiff "variable".toList item.variable (find_object _ _)
  exact ⟨fun h => ⟨hquery.mp h.query_type, hattribute.mp h.attribute, hvariable.mp h.variable⟩,
    fun h => ⟨hquery.mpr h.query_type, hattribute.mpr h.attribute, hvariable.mpr h.variable⟩⟩

theorem typedFilter_toJson (f : Filter) : TypedFilter (f.toJson : Json nlohmann) := by
  cases f with
  | condition «attribute» condition =>
    exact ⟨hasString_of_find (find_object _ _), hasString_of_find (find_object _ _),
      hasString_of_find_none (isObject_object _) (find_object _ _)⟩
  | whereClause whereClause =>
    exact ⟨hasString_of_find_none (isObject_object _) (find_object _ _),
      hasString_of_find_none (isObject_object _) (find_object _ _),
      hasString_of_find (find_object _ _)⟩

/-- The names of the attributes and the keywords are their own bytes. -/
theorem utf8_name (a : AttributeID) : utf8 a.name = a.name := by cases a <;> decide

theorem utf8_clauseText (whereClause : WhereClause) :
    utf8 (ORAMTestSQL.clauseText whereClause) = ORAMTestSQL.clauseText whereClause := by
  cases whereClause <;> decide

theorem utf8_eq_nil_iff {text : Text} : utf8 text = [] ↔ text = [] := by
  unfold utf8
  rw [List.flatMap_eq_nil_iff]
  constructor
  · intro h
    cases text with
    | nil => rfl
    | cons c text =>
      -- no character has an empty encoding
      exact absurd (List.map_eq_nil_iff.mp (h c List.mem_cons_self)) String.utf8EncodeChar_ne_nil
  · rintro rfl c hc
    cases hc

theorem isFilter_toJson {text : Text} (htext : utf8 text = filter.condition) :
    IsFilter (Filter.toJson (.condition filter.attr.name text) : Json nlohmann) filter where
  «attribute» := (find_object _ _).trans (congrArg (some ∘ Json.string) (utf8_name filter.attr))
  condition := (find_object _ _).trans (congrArg (some ∘ Json.string) htext)
  whereClause := find_object _ _

theorem isClause_toJson (whereClause : WhereClause) :
    IsClause (Filter.toJson (.whereClause (ORAMTestSQL.clauseText whereClause)) : Json nlohmann)
      whereClause where
  whereClause := (find_object _ _).trans (congrArg (some ∘ Json.string) (utf8_clauseText _))
  «attribute» := find_object _ _
  condition := find_object _ _
  shareID := find_object _ _

/-- **The document asks for what the statement asks for.** The select list in front of `FROM`
starts with the aggregate of the query, and the filters are the two conditions with their keyword
between them, so that the programs which only see the document do what the statement says. -/
theorem parse_sql_asks {stmt : Token} {rest : List Token} (hparse : lib.parse sql = stmt :: rest)
    (hstmt : IsStatement lib stmt query) : Asks (parse_sql lib nlohmann sql) query := by
  obtain ⟨⟨token, tokens, hselected, haggregate, haggregates⟩, w, hwhere, hquery⟩ := hstmt
  -- only the first statement of the text is read
  have hfold : parseStatement lib sql = stmt.tokens.foldl (readToken lib) ⟨false, [], []⟩ := by
    unfold parseStatement
    rw [hparse]
  have hitems : (parseStatement lib sql).select_items = (token :: tokens).map (item lib) := by
    rw [hfold, select_items_foldl, hselected]
    rfl
  have hfilters : (parseStatement lib sql).filters = extract_where_conditions lib w := by
    rw [hfold, filters_foldl, hwhere]
    rfl
  obtain ⟨hnamed, hattribute⟩ := item_of_isAggregate haggregate
  obtain ⟨text, text', htext, htext', hconditions⟩ := extract_where_conditions_eq hquery
  refine ⟨⟨(item lib token).toJson, tokens.map fun t => (item lib t).toJson, ?_, ?_, ?_⟩,
    Filter.toJson (.condition query.first.attr.name text),
    Filter.toJson (.whereClause (ORAMTestSQL.clauseText query.whereClause)),
    Filter.toJson (.condition query.second.attr.name text'),
    ?_, isFilter_toJson htext, isClause_toJson query.whereClause, isFilter_toJson htext'⟩
  -- the select list: the aggregate of the query first
  · rw [parse_sql_find_select, hitems, List.map_cons, List.map_cons, List.map_map]
    rfl
  · rintro s hs
    rcases List.mem_cons.mp hs with rfl | hs
    · exact (typedSelect_toJson_iff _).mpr hnamed
    · obtain ⟨t, ht, rfl⟩ := List.mem_map.mp hs
      obtain ⟨attr, hattr⟩ := haggregates t ht
      exact (typedSelect_toJson_iff _).mpr (item_of_isAggregate hattr).1
  -- its attribute is the one that is asked for
  · refine (find_object _ _).trans (congrArg some ?_)
    show ofOption (item lib token).attribute = _
    rw [hattribute]
    exact congrArg Json.string (utf8_name query.attr)
  -- the filters in the order of the statement
  · rw [parse_sql_find_filters, hfilters, hconditions]
    rfl

/-- **The appender** takes the documents without `None`. -/
theorem appendShares_parse_sql_iff_named (g : Generator) (lib : Library) (sql : Text) :
    (∃ j', appendShares g (parse_sql lib nlohmann sql) = .ok j') ↔
      ∀ item ∈ (parseStatement lib sql).select_items, item.Named := by
  refine ⟨fun ⟨j', hj'⟩ item hitem => ?_, fun h => ?_⟩
  -- a run that returns has read every text of the select list
  · have hselect := (typed_of_appendShares hj').select
    rw [items_eq (parse_sql_find_select lib sql)] at hselect
    exact (typedSelect_toJson_iff item).mp (hselect _ (List.mem_map_of_mem hitem))
  -- the filters are strings in any case, so only the select list can stop the program
  · have htyped : Typed (parse_sql lib nlohmann sql) := by
      refine ⟨.inl (isObject_object _), fun s hs => ?_, fun f hf => ?_⟩
      · rw [items_eq (parse_sql_find_select lib sql)] at hs
        obtain ⟨item, hitem, rfl⟩ := List.mem_map.mp hs
        exact (typedSelect_toJson_iff item).mpr (h item hitem)
      · rw [items_eq (parse_sql_find_filters lib sql)] at hf
        obtain ⟨f, -, rfl⟩ := List.mem_map.mp hf
        exact typedFilter_toJson f
    obtain ⟨j', hj', -⟩ := appendShares_returns g htyped
    exact ⟨j', hj'⟩

theorem named_item_iff (lib : Library) (tok : Token) :
    (item lib tok).Named ↔ ∃ attr, IsAggregate lib tok attr := by
  refine ⟨fun h => ?_, fun ⟨attr, hattr⟩ => (item_of_isAggregate hattr).1⟩
  obtain ⟨hquery, hattribute, hvariable⟩ := h
  cases tok with
  -- only an identifier has an alias, so `variable` decides the class
  | single ttype value => cases hvariable
  | group cls value tokens =>
    cases cls with
    | Identifier =>
      unfold item at hquery hattribute hvariable
      cases hfind : tokens.find? (Token.isClass .Function) with
      -- without a function the query type is `None`
      | none =>
        simp only [hfind] at hquery
        cases hquery
      | some function =>
        simp only [hfind] at hquery hattribute hvariable
        obtain ⟨name, hname⟩ := Option.isSome_iff_exists.mp hquery
        obtain ⟨other, hother⟩ := Option.isSome_iff_exists.mp hvariable
        cases hparams : lib.get_parameters function with
        -- a function without parameters has no attribute
        | nil =>
          unfold functionItem at hattribute
          rw [hparams] at hattribute
          cases hattribute
        | cons param params => exact ⟨_, .intro hfind hname hparams rfl hother⟩
    | _ => cases hvariable

/-- **The appender** takes the document of a statement if and only if the select list consists of
aggregates with names. A plain column has no query type and an aggregate without `AS` has no
variable; both are written as `null`, and the appender stops when it reads them as strings. -/
theorem appendShares_parse_sql_iff (g : Generator) {stmt : Token} {rest : List Token}
    (hparse : lib.parse sql = stmt :: rest) :
    (∃ j', appendShares g (parse_sql lib nlohmann sql) = .ok j') ↔
      ∀ t ∈ (beforeFrom stmt.tokens).flatMap (selected lib), ∃ attr, IsAggregate lib t attr := by
  have hitems : (parseStatement lib sql).select_items =
      ((beforeFrom stmt.tokens).flatMap (selected lib)).map (item lib) := by
    unfold parseStatement
    rw [hparse]
    exact select_items_foldl lib stmt.tokens _
  rw [appendShares_parse_sql_iff_named, hitems, List.forall_mem_map]
  exact forall₂_congr fun t _ => named_item_iff lib t

/-! ### Statements with any number of conditions -/

def Filter.isCondition : Filter → Bool
  | .condition _ _ => true
  | .whereClause _ => false

/-- The keyword that is left when the filters have been read. -/
def lastClause (filters : List Filter) : Text :=
  filters.foldl (fun clause f => match f with
    | .condition _ _ => clause
    | .whereClause text => utf8 text) []

/-- The filter has an attribute and a condition, or none of both. -/
def Filter.Full : Filter → Prop
  | .condition «attribute» text => «attribute» ≠ [] ∧ text ≠ []
  | .whereClause _ => True

/-- A filter in the document that the appender has written. -/
def Filter.Written : Filter → Json nlohmann → Prop
  | .condition «attribute» _, f =>
    f.find "attribute".toList = some (.string (utf8 «attribute»)) ∧
      f.find "whereClause".toList = none ∧
      ∃ id, f.find "shareID".toList = some id ∧ ∀ i < 6, ∃ y, id.find (idName i) = some (.integer y)
  | .whereClause text, f =>
    f.find "attribute".toList = none ∧ f.find "whereClause".toList = some (.string (utf8 text)) ∧
      f.find "shareID".toList = none

theorem complete_toJson {«attribute» text : Text} (h : (Filter.condition «attribute» text).Full) :
    Complete (Filter.toJson (.condition «attribute» text) : Json nlohmann) := by
  unfold Complete
  rw [text_eq (s := utf8 «attribute») (find_object _ _), text_eq (s := utf8 text) (find_object _ _)]
  exact ⟨fun hnil => h.1 (utf8_eq_nil_iff.mp hnil), fun hnil => h.2 (utf8_eq_nil_iff.mp hnil)⟩

/-- The second pass of the appender. -/
theorem written_of_updateFilter {g : Generator} {fs : List (Json nlohmann)} {m : AttributeShares}
    {f : Filter} {f' : Json nlohmann} (hm : SharesOf g fs m) (hf : f.toJson ∈ fs) (hfull : f.Full)
    (hf' : updateFilter m f.toJson = .ok f') : f.Written f' := by
  cases f with
  | condition «attribute» condition =>
    -- a full condition has got its shares in the first pass
    have hcomplete := @complete_toJson nlohmann _ _ hfull
    obtain ⟨shares, hlookup⟩ := hm.exists_shares _ hf hcomplete
    obtain ⟨-, hshare, hothers⟩ := (updateFilter_returns hm (typedFilter_toJson _)
      (contains_of_text_ne hcomplete.2) hlookup).of_ok hf'
    exact ⟨(hothers _ (by decide)).trans (find_object _ _),
      (hothers _ (by decide)).trans (find_object _ _), _, hshare,
      fun i hi => ⟨_, find_idEntries hi⟩⟩
  -- a keyword has no condition and stays as it is
  | whereClause text =>
    have hcondition : (Filter.toJson (.whereClause text) : Json nlohmann).contains
        "condition".toList = false := congrArg Option.isSome (find_object _ _)
    rw [updateFilter_eq_self (typedFilter_toJson _) fun h =>
      Bool.false_ne_true (hcondition.symm.trans h.1)] at hf'
    cases hf'
    exact ⟨find_object _ _, find_object _ _, find_object _ _⟩

/-- A server reads the filters: every condition adds an ID and an attribute. -/
theorem foldlM_readFilter {filters : List Filter} {fs' : List (Json nlohmann)} {i : ℕ} (hi : i < 6)
    (h : List.Forall₂ Filter.Written filters fs') (members : ORAMTestSQL.Members) :
    Returns (fs'.foldlM (ORAMTestSQL.readFilter (idName i)) members) fun members' =>
      members'.filter_ids.length = members.filter_ids.length + filters.countP Filter.isCondition ∧
      members'.attributeIDs.length =
        members.attributeIDs.length + filters.countP Filter.isCondition ∧
      members'.where_clause = filters.foldl (fun clause f => match f with
        | .condition _ _ => clause
        | .whereClause text => utf8 text) members.where_clause := by
  -- on the filters and on their JSON objects together, for any members so far
  induction h generalizing members with
  | nil => exact ⟨members, rfl, rfl, rfl, rfl⟩
  | @cons f f' filters fs' hwritten _ ih =>
    rw [List.foldlM_cons]
    cases f with
    | condition «attribute» condition =>
      obtain ⟨hattribute, hclause, id, hid, hentries⟩ := hwritten
      obtain ⟨y, hy⟩ := hentries i hi
      -- only the ID and the attribute are read: the object has no keyword
      have hread : ORAMTestSQL.readFilter (idName i) members f' =
          .ok ⟨members.filter_ids ++ [y.bmod (2 ^ 64)], members.where_clause,
            members.attributeIDs ++ [utf8 «attribute»]⟩ := by
        unfold ORAMTestSQL.readFilter
        rw [hid, Option.bind_some, hy, hattribute, hclause]
        simp only [getInt64_integer, getString_string]
        rfl
      rw [hread]
      refine (ih _).mono fun members' h => ?_
      obtain ⟨hids, hattributes, hlast⟩ := h
      rw [List.length_append, List.length_singleton] at hids hattributes
      rw [List.countP_cons_of_pos rfl]
      exact ⟨by omega, by omega, hlast⟩
    | whereClause text =>
      obtain ⟨hattribute, hclause, hid⟩ := hwritten
      have hread : ORAMTestSQL.readFilter (idName i) members f' =
          .ok ⟨members.filter_ids, utf8 text, members.attributeIDs⟩ := by
        unfold ORAMTestSQL.readFilter
        rw [hid, hattribute, hclause]
        simp only [getString_string]
        rfl
      rw [hread, List.countP_cons_of_neg Bool.false_ne_true]
      exact ih _

/-- What is left of a document whose filters are full. -/
theorem appendShares_written {g : Generator} {j' : Json nlohmann}
    (hfull : ∀ f ∈ (parseStatement lib sql).filters, f.Full)
    (hj' : appendShares g (parse_sql lib nlohmann sql) = .ok j') :
    (∃ fs', j'.find "filters".toList = some (.array fs') ∧
      List.Forall₂ Filter.Written (parseStatement lib sql).filters fs') ∧
    j'.find "select".toList =
      some (.array ((parseStatement lib sql).select_items.map SelectItem.toJson)) := by
  obtain ⟨m, filters, filters', hm, hindex, hfilters', hfind, hothers⟩ :=
    (appendShares_returns g (typed_of_appendShares hj')).of_ok hj'
  -- the array of the second pass is the one that `parse_sql` wrote
  cases hindex.symm.trans (index_eq (parse_sql_find_filters lib sql))
  rw [mapElements_array] at hfilters'
  obtain ⟨fs', hfs', hfilters'⟩ := Returns.exists_of_bind_ok hfilters'
  cases hfilters'
  rw [items_eq (parse_sql_find_filters lib sql)] at hm
  rw [List.mapM_map] at hfs'
  refine ⟨⟨fs', hfind, (Returns.forall₂_iff_of_mapM hfs').mpr fun f hf f' hf' =>
    written_of_updateFilter hm (List.mem_map_of_mem hf) (hfull f hf) hf'⟩, ?_⟩
  rw [hothers _ (by decide), parse_sql_find_select]

/-- The query type that the servers read, and do not use. -/
theorem exists_queryType_eq {j : Json nlohmann} {items : List SelectItem}
    (hselect : j.find "select".toList = some (.array (items.map SelectItem.toJson)))
    (hnamed : ∀ item ∈ items, item.Named) : ∃ text, ORAMTestSQL.queryType j = .ok text := by
  cases items with
  -- without items nothing is read
  | nil => exact ⟨[], ORAMTestSQL.queryType_nil hselect⟩
  | cons item items =>
    obtain ⟨text, htext⟩ := Option.isSome_iff_exists.mp (hnamed item List.mem_cons_self).query_type
    have hfind : (item.toJson : Json nlohmann).find "query_type".toList =
        some (ofOption (some text)) :=
      (find_object _ _).trans (congrArg (some ∘ ofOption) htext)
    refine ⟨utf8 text, ?_⟩
    rw [ORAMTestSQL.queryType_cons hselect, hfind]
    exact getString_string (utf8 text)

/-- **The servers** answer if and only if there are two conditions, and the last keyword is the one
that the test expects. The document may have any number of keywords: each of them overwrites the
one before, so only the last one is compared. -/
theorem query_parse_sql_iff {g : Generator} {j' : Json nlohmann} {shareFiles : Files}
    {tuples : List (List ℤ)} {i : ℕ} (whereClause : WhereClause)
    (hfull : ∀ f ∈ (parseStatement lib sql).filters, f.Full)
    (hj' : appendShares g (parse_sql lib nlohmann sql) = .ok j') (hi : i < 6)
    (hload : loadServer shareFiles (i + 1) = .ok tuples) :
    (∃ selected, ORAMTestSQL.query whereClause shareFiles j' (i + 1) = .ok selected) ↔
      (parseStatement lib sql).filters.countP Filter.isCondition = 2 ∧
        lastClause (parseStatement lib sql).filters = ORAMTestSQL.clauseText whereClause := by
  obtain ⟨⟨fs', hfs', hwritten⟩, hselect⟩ := appendShares_written hfull hj'
  obtain ⟨text, htext⟩ := exists_queryType_eq hselect
    ((appendShares_parse_sql_iff_named g lib sql).mp ⟨j', hj'⟩)
  obtain ⟨members, hread, hids, hattributes, hclause⟩ := foldlM_readFilter hi hwritten ⟨[], [], []⟩
  -- the loading and the reading succeed, so the two assertions decide
  have hquery : ORAMTestSQL.query whereClause shareFiles j' (i + 1) =
      if members.filter_ids.length = 2 ∧
          members.where_clause = ORAMTestSQL.clauseText whereClause then
        ORAMTestSQL.selectTuples whereClause (members.attributeIDs.map attributeIndex)
          members.filter_ids tuples
      else .error .assertion := by
    unfold ORAMTestSQL.query
    rw [hload, index_eq hfs', htext, Nat.add_sub_cancel]
    show ((Json.array fs').elements.foldlM (ORAMTestSQL.readFilter (idName i)) ⟨[], [], []⟩ >>=
      _) = _
    rw [elements_array, hread]
    rfl
  rw [List.length_nil, Nat.zero_add] at hids hattributes
  rw [hquery, ← hids, show lastClause _ = members.where_clause from hclause.symm]
  constructor
  · rintro ⟨selected, hselected⟩
    by_contra hnot
    rw [if_neg hnot] at hselected
    cases hselected
  · intro hcond
    rw [if_pos hcond]
    -- two IDs and two attributes, and the loop over the tuples cannot fail
    obtain ⟨id0, id1, hid⟩ := List.length_eq_two.mp hcond.1
    obtain ⟨a0, a1, hattr⟩ := List.length_eq_two.mp (hattributes.trans (hids.symm.trans hcond.1))
    rw [hid, hattr]
    exact ⟨_, ORAMTestSQL.selectTuples_eq_filter _ _ _ _ _ _⟩

end Statements

/-! ### The programs one after the other -/

/-- From the text of a statement to the sum that is printed. -/
def sumOfSql (nlohmann : JsonLibrary) (g : Generator) (g₀ : ℕ → ℕ → CoefficientOrZero)
    (zone : TimeZone) (table : Text) (whereClause : WhereClause) (sql : Text) :
    Except ORAMTestSQL.Stop ℤ :=
  SumAggregationTest.sumOfQuery g g₀ zone table whereClause (parse_sql lib nlohmann sql)

open SumAggregationTest

section Sum

variable {lib} {g : Generator} {g₀ : ℕ → ℕ → CoefficientOrZero} {zone : TimeZone}
  {rows : List (AttributeID → Text)} {query : TextQuery} {sql : Text} {stmt : Token}
  {rest : List Token}

end Sum

/-! ### A statement -/

namespace Example

mutual

/-- The single tokens of a token. -/
def str : Token → Text
  | .single _ value => value
  | .group _ _ tokens => join tokens

def join : List Token → Text
  | [] => []
  | token :: tokens => str token ++ join tokens

end

def group (cls : TokenClass) (tokens : List Token) : Token := .group cls (join tokens) tokens

def blank : Token := .single .Whitespace " ".toList

def word (text : Text) : Token := .single .other text

def keyword (text : Text) : Token := .single .Keyword text

def name (text : Text) : Token := group .Identifier [word text]

/-- `function(param) AS alias`. -/
def aggregate (function param other : Text) : Token :=
  group .Identifier [
    group .Function [name function, group .other [word "(".toList, name param, word ")".toList]],
    blank, keyword "AS".toList, blank, name other]

/-- `attr op val`. -/
def compare (attr op val : Text) : Token :=
  group .Comparison [name attr, blank, word op, blank, word val]

/-- `SELECT aggregate FROM lineitem WHERE conditions;` -/
def statement (aggregate : Token) (conditions : List Token) : Token :=
  group .other [.single .DML "SELECT".toList, blank, aggregate, blank, keyword "FROM".toList, blank,
    name "lineitem".toList, blank,
    group .Where (keyword "WHERE".toList :: blank :: conditions ++ [word ";".toList])]

/-- The package, on texts without quoted names. -/
def sqlparse (stmt : Token) : Library where
  parse sql := if sql = str stmt then [stmt] else []
  str := str
  get_name token := token.tokens.head?.map str
  get_real_name token := token.tokens.head?.map str
  get_alias token :=
    (((token.tokens.dropWhile fun t => !isWord .Keyword "AS".toList t).filter
      (!·.is_whitespace))[1]?).map str
  get_parameters token :=
    (token.tokens.flatMap Token.tokens).filter fun t => t.isClass .Identifier
  get_identifiers token := token.tokens.filter fun t => !t.is_whitespace && t.value != ",".toList
  get_identifiers_subset token := List.filter_subset_self token.tokens

/-- The sum of the quantities, where the return flag is `R` or the line status `F`. -/
def returnedSql : Token :=
  statement (aggregate "SUM".toList "QUANTITY".toList "total".toList)
    [compare "RETURNFLAG".toList "=".toList "'R'".toList, blank, keyword "or".toList, blank,
      compare "LINESTATUS".toList "=".toList "'F'".toList]

theorem parse_str (stmt : Token) : (sqlparse stmt).parse (str stmt) = [stmt] := if_pos rfl

/-- The aggregate is what is selected. -/
theorem selected_aggregate (lib : Library) (function param other : Text)
    (conditions : List Token) :
    (beforeFrom (statement (aggregate function param other) conditions).tokens).flatMap
      (selected lib) = [aggregate function param other] := by
  have hbefore : beforeFrom (statement (aggregate function param other) conditions).tokens =
      [.single .DML "SELECT".toList, blank, aggregate function param other, blank] := rfl
  rw [hbefore]
  unfold blank aggregate group
  simp only [List.flatMap_cons, List.flatMap_nil, selected_single, selected_identifier,
    List.nil_append, List.append_nil]

theorem isStatement_returnedSql : IsStatement (sqlparse returnedSql) returnedSql returned := by
  have hfirst : ∀ c ∈ ['R'], c ≠ '\'' ∧ c ≠ '"' := List.forall_mem_singleton.mpr (by decide)
  have hsecond : ∀ c ∈ ['F'], c ≠ '\'' ∧ c ≠ '"' := List.forall_mem_singleton.mpr (by decide)
  exact ⟨⟨_, [], selected_aggregate _ _ _ _ _, .intro rfl rfl rfl (by decide) rfl,
    List.forall_mem_nil _⟩, _, rfl,
    .intro rfl (.intro rfl (by decide) rfl (by decide) hfirst (by decide)) (by decide)
      (.intro rfl (by decide) rfl (by decide) hsecond (by decide))⟩

/-- The last comparison is left out; its keyword is not. -/
def returnedOrFew : Token :=
  statement (aggregate "SUM".toList "QUANTITY".toList "total".toList)
    [compare "RETURNFLAG".toList "=".toList "'R'".toList, blank, keyword "AND".toList, blank,
      compare "LINESTATUS".toList "=".toList "'F'".toList, blank, keyword "OR".toList, blank,
      compare "QUANTITY".toList "<".toList "24".toList]

theorem appendShares_parse_sql_iff_returnedOrFew :
    ∃ j',
      appendShares constantOnes
        (parse_sql (sqlparse returnedOrFew) JsonData.library (str returnedOrFew)) = .ok j' :=
  (appendShares_parse_sql_iff constantOnes (parse_str returnedOrFew)).mpr
    (by
      unfold returnedOrFew
      rw [selected_aggregate]
      exact List.forall_mem_singleton.mpr ⟨_, .intro rfl rfl rfl rfl rfl⟩)

theorem filters_returnedOrFew :
    (parseStatement (sqlparse returnedOrFew) (str returnedOrFew)).filters =
      [.condition "RETURNFLAG".toList "R".toList, .whereClause "AND".toList,
        .condition "LINESTATUS".toList "F".toList, .whereClause "OR".toList] := by
  unfold parseStatement
  rw [parse_str]
  rfl

theorem named_returnedOrFew :
    ∀ item ∈ (parseStatement (sqlparse returnedOrFew) (str returnedOrFew)).select_items,
      item.Named := by
  unfold parseStatement
  rw [parse_str]
  intro item hitem
  rw [select_items_foldl] at hitem
  unfold returnedOrFew at hitem
  rw [if_neg Bool.false_ne_true, selected_aggregate, List.nil_append] at hitem
  rw [List.mem_singleton.mp hitem]
  exact ⟨rfl, rfl, rfl⟩

/-- The test that expects `OR` answers the statement. -/
theorem query_parse_sql_iff_returnedOrFew :
    ∃ j' selected,
      appendShares constantOnes
          (parse_sql (sqlparse returnedOrFew) JsonData.library (str returnedOrFew)) = .ok j' ∧
        ORAMTestSQL.query .OR (fun _ => none) j' 1 = .ok selected := by
  obtain ⟨j', hj'⟩ := (appendShares_parse_sql_iff_named constantOnes (sqlparse returnedOrFew)
    (str returnedOrFew)).mpr named_returnedOrFew
  have hfull : ∀ f ∈ (parseStatement (sqlparse returnedOrFew) (str returnedOrFew)).filters,
      f.Full := by
    rw [filters_returnedOrFew]
    simp [Filter.Full]
  have hserver : 0 < 6 := by decide
  have hload : loadServer (fun _ => none) (0 + 1) = .ok [] := rfl
  obtain ⟨selected, hselected⟩ := (query_parse_sql_iff .OR hfull hj' hserver hload).mpr (by
    rw [filters_returnedOrFew]
    exact ⟨rfl, rfl⟩)
  exact ⟨j', selected, hj', hselected⟩

end Example

end SqlParser
