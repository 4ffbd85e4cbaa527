import PathOram.Lib.Double
import PathOram.Lib.Returns

/-!
# JSON values

A JSON library is known by its documentation. `JsonLibrary` is its type of values, with the
operations and what is documented about them: a value is `null`, a number, a string, an array or
an object (`JsonView`), and each operation depends on that only. A string is a list of bytes,
written as characters. An object is an ordered map from names to values, and an operation on a
value of the wrong type is an exception.

* `OrderedMap.set` — the assignment to an entry of an ordered map, with what is found in it
  afterwards; `List.lookup` is the search, `OrderedMap.ofList` the map of a list of entries.
* `JsonView.find`, `JsonView.value`, `JsonView.index`, `JsonView.set` — the members of an object, as
  they are documented; `JsonView.elements`, `JsonView.mapElements` — a loop over the elements of a
  value, and one that changes them; `JsonView.stored` — what is kept of a value that is made.
* `Json` — the values of a library, with its operations.
* `Json.HasString` — the values that `Json.value` reads a text from: `Json.value_eq`,
  `Json.hasString_of_value`.
* `JsonData.library` — the trees of values, with the members of each object in order, are a library.
-/

/-! ### Ordered maps -/

namespace OrderedMap

variable {κ α : Type} [BEq κ] [LT κ] [DecidableLT κ] {key key' : κ} {value : α}

/-- `map[key] = value`. -/
def set (key : κ) (value : α) : List (κ × α) → List (κ × α)
  | [] => [(key, value)]
  | (k, v) :: rest =>
    if k == key then (key, value) :: rest
    else if key < k then (key, value) :: (k, v) :: rest
    else (k, v) :: set key value rest

/-- The map of the entries. Of two with the same key the first one stays. -/
def ofList (entries : List (κ × α)) : List (κ × α) :=
  entries.foldr (fun entry map => set entry.1 entry.2 map) []

omit [BEq κ] [DecidableLT κ] in
/-- The keys are in order. -/
def Sorted (map : List (κ × α)) : Prop := map.Pairwise fun entry entry' => entry.1 < entry'.1

theorem mem_of_mem_set {entry : κ × α} {map : List (κ × α)} (h : entry ∈ set key value map) :
    entry = (key, value) ∨ entry ∈ map := by
  induction map with
  | nil => exact .inl (List.mem_singleton.mp h)
  | cons first rest ih =>
    -- the three cases of `set`: the key itself, a greater one, a smaller one
    unfold set at h
    split at h
    next => exact (List.mem_cons.mp h).imp_right (List.mem_cons_of_mem _)
    next =>
      split at h
      next => exact List.mem_cons.mp h
      next =>
        rcases List.mem_cons.mp h with rfl | h
        · exact .inr List.mem_cons_self
        · exact (ih h).imp_right (List.mem_cons_of_mem _)

variable [LawfulBEq κ]

section Order

variable [IsTrans κ (· < ·)] [Std.Trichotomous (α := κ) (· < ·)]

theorem Sorted.set {map : List (κ × α)} (h : Sorted map) :
    Sorted (OrderedMap.set key value map) := by
  induction map with
  | nil => exact List.pairwise_singleton _ _
  | cons first rest ih =>
    obtain ⟨k, v⟩ := first
    obtain ⟨hfirst, hrest⟩ := List.pairwise_cons.mp h
    unfold OrderedMap.set
    split
    -- the value is replaced, the keys are the same
    next heq =>
      refine List.pairwise_cons.mpr ⟨fun entry hentry => ?_, hrest⟩
      rw [← eq_of_beq heq]
      exact hfirst entry hentry
    next hne =>
      split
      next hlt =>
        -- the new entry goes in front
        refine List.pairwise_cons.mpr ⟨fun entry hentry => ?_, h⟩
        rcases List.mem_cons.mp hentry with rfl | hentry
        · exact hlt
        · exact IsTrans.trans _ _ _ hlt (hfirst entry hentry)
      -- it goes further back: neither equal nor smaller is greater
      next hge =>
        refine List.pairwise_cons.mpr ⟨fun entry hentry => ?_, ih hrest⟩
        rcases mem_of_mem_set hentry with rfl | hentry
        · by_contra hnot
          exact hne (beq_of_eq (Std.Trichotomous.trichotomous k key hnot hge))
        · exact hfirst entry hentry

theorem sorted_ofList (entries : List (κ × α)) : Sorted (ofList entries) := by
  induction entries with
  | nil => exact List.Pairwise.nil
  | cons entry entries ih => exact ih.set

end Order

/-- Entries that are in order are a map. -/
theorem ofList_eq_self [Std.Irrefl (α := κ) (· < ·)] {map : List (κ × α)} (h : Sorted map) :
    ofList map = map := by
  induction map with
  | nil => rfl
  | cons entry rest ih =>
    obtain ⟨hfirst, hrest⟩ := List.pairwise_cons.mp h
    show set entry.1 entry.2 (ofList rest) = _
    rw [ih hrest]
    -- each entry is smaller than the next one, so it goes in front
    cases rest with
    | nil => rfl
    | cons next rest =>
      have hlt : entry.1 < next.1 := hfirst next List.mem_cons_self
      rw [set, if_neg fun heq => ?_, if_pos hlt]
      rw [eq_of_beq heq] at hlt
      exact Std.Irrefl.irrefl _ hlt

@[simp] theorem lookup_set_self (map : List (κ × α)) :
    (set key value map).lookup key = some value := by
  induction map with
  | nil => exact List.lookup_cons_self
  | cons entry rest ih =>
    obtain ⟨k, v⟩ := entry
    unfold set
    split
    next => exact List.lookup_cons_self
    next hne =>
      split
      next => exact List.lookup_cons_self
      next =>
        have hskip : (key == k) = false := beq_false_of_ne fun h => hne (beq_of_eq h.symm)
        rw [List.lookup_cons, hskip]
        exact ih

theorem lookup_set_of_ne (hne : key' ≠ key) (map : List (κ × α)) :
    (set key value map).lookup key' = map.lookup key' := by
  -- the entry that is written is passed over
  have hskip : ∀ rest, ((key, value) :: rest).lookup key' = rest.lookup key' := fun rest => by
    rw [List.lookup_cons, beq_false_of_ne hne]
  induction map with
  | nil => exact hskip []
  | cons entry rest ih =>
    obtain ⟨k, v⟩ := entry
    unfold set
    split
    next heq =>
      rw [hskip, List.lookup_cons, eq_of_beq heq, beq_false_of_ne hne]
    next =>
      split
      next => exact hskip _
      next =>
        rw [List.lookup_cons, List.lookup_cons]
        split
        · rfl
        · exact ih

/-- What is found in the map of the entries. -/
@[simp] theorem lookup_ofList (entries : List (κ × α)) (key : κ) :
    (ofList entries).lookup key = entries.lookup key := by
  induction entries with
  | nil => rfl
  | cons entry entries ih =>
    show (set entry.1 entry.2 (ofList entries)).lookup key = _
    by_cases heq : key = entry.1
    · rw [heq, lookup_set_self, List.lookup_cons, beq_self_eq_true]
    · rw [lookup_set_of_ne heq, ih, List.lookup_cons, beq_false_of_ne heq]

/-- A key behind all others. -/
theorem set_of_forall_not_lt {map : List (κ × α)}
    (h : ∀ entry ∈ map, entry.1 ≠ key ∧ ¬ key < entry.1) :
    set key value map = map ++ [(key, value)] := by
  induction map with
  | nil => rfl
  | cons entry rest ih =>
    obtain ⟨hne, hlt⟩ := h entry List.mem_cons_self
    rw [set, if_neg fun heq => hne (eq_of_beq heq), if_neg hlt,
      ih fun entry' hentry' => h entry' (List.mem_cons_of_mem entry hentry'), List.cons_append]

end OrderedMap

/-! ### What is documented -/

/-- The exceptions of the operations on a value of the wrong type. -/
inductive Json.TypeError where
  /-- The value is not a string. -/
  | string
  /-- The value is not a number. -/
  | number
  /-- `operator[]`. -/
  | index
  /-- `value()`. -/
  | value
  deriving DecidableEq, Repr

open Json (TypeError)

/-- The type of a value, with what it holds. The type of the floating-point numbers is a parameter
of the library. -/
inductive JsonView (F J : Type) where
  | null
  | boolean (value : Bool)
  | integer (value : ℤ)
  | double (value : F)
  | string (value : List Char)
  | array (elements : List J)
  | object (members : List (List Char × J))

namespace JsonView

variable {F J : Type}

/-- What is kept of a value that is made: an integer has 64 bits, with a sign or without one, and
an object is the map of its members. -/
def stored : JsonView F J → JsonView F J
  | integer value =>
    integer (if -2 ^ 63 ≤ value ∧ value < 2 ^ 64 then value else value.bmod (2 ^ 64))
  | object members => object (OrderedMap.ofList members)
  | view => view

/-- The conversion to a string. -/
def getString : JsonView F J → Except TypeError (List Char)
  | string value => .ok value
  | _ => .error .string

/-- `empty()`. -/
def empty : JsonView F J → Bool
  | null => true
  | array elements => elements.isEmpty
  | object members => members.isEmpty
  | _ => false

/-- The member of an object. -/
def find (key : List Char) : JsonView F J → Option J
  | object members => members.lookup key
  | _ => none

/-- The text of a member, `fallback` where it is missing. -/
def value (view : J → JsonView F J) (key fallback : List Char) :
    JsonView F J → Except TypeError (List Char)
  | object members =>
    match members.lookup key with
    | some member => (view member).getString
    | none => .ok fallback
  | _ => .error .value

section Make

variable (make : JsonView F J → J)

/-- `j[key]`. A member that is missing is made, as `null`. -/
def index (key : List Char) : JsonView F J → Except TypeError J
  | null => .ok (make null)
  | object members => .ok ((members.lookup key).getD (make null))
  | _ => .error .index

/-- `j[0]`. An element that is missing is made, as `null`. -/
def first : JsonView F J → Except TypeError J
  | null => .ok (make null)
  | array elements => .ok (elements.headD (make null))
  | _ => .error .index

/-- `j[key] = member`. -/
def set (key : List Char) (member : J) : JsonView F J → Except TypeError J
  | null => .ok (make (object [(key, member)]))
  | object members => .ok (make (object (OrderedMap.set key member members)))
  | _ => .error .index

/-- The values that a loop over a value sees. -/
def elements : JsonView F J → List J
  | null => []
  | array elements => elements
  | object members => members.map Prod.snd
  | view => [make view]

/-- A loop that may change the elements. -/
def mapElements {ε : Type} (f : J → Except ε J) : JsonView F J → Except ε J
  | null => .ok (make null)
  | array elements => do
    let elements ← elements.mapM f
    pure (make (array elements))
  | object members => do
    let members ← members.mapM fun entry => do
      let member ← f entry.2
      pure (entry.1, member)
    pure (make (object members))
  | view => f (make view)

end Make

end JsonView

/-! ### Libraries -/

/-- The values of a JSON library, and the operations on them that are used here. The laws are what
is documented about each operation; the conversion of other values than integers to an integer
is left open. -/
structure JsonLibrary where
  Double : Type
  Value : Type
  view : Value → JsonView Double Value
  make : JsonView Double Value → Value
  getString : Value → Except TypeError (List Char)
  getInt64 : Value → Except TypeError ℤ
  empty : Value → Bool
  find : Value → List Char → Option Value
  value : Value → List Char → List Char → Except TypeError (List Char)
  index : Value → List Char → Except TypeError Value
  first : Value → Except TypeError Value
  set : Value → List Char → Value → Except TypeError Value
  elements : Value → List Value
  mapElements : {ε : Type} → (Value → Except ε Value) → Value → Except ε Value
  view_make : ∀ v, view (make v) = v.stored
  make_view : ∀ j, make (view j) = j
  getString_eq : ∀ j, getString j = (view j).getString
  getInt64_integer : ∀ z, getInt64 (make (.integer z)) = .ok (z.bmod (2 ^ 64))
  empty_eq : ∀ j, empty j = (view j).empty
  find_eq : ∀ j key, find j key = (view j).find key
  value_eq : ∀ j key fallback, value j key fallback = (view j).value view key fallback
  index_eq : ∀ j key, index j key = (view j).index make key
  first_eq : ∀ j, first j = (view j).first make
  set_eq : ∀ j key member, set j key member = (view j).set make key member
  elements_eq : ∀ j, elements j = (view j).elements make
  mapElements_eq : ∀ {ε : Type} (f : Value → Except ε Value) (j : Value),
    mapElements f j = (view j).mapElements make f

/-- The values of a library. -/
def Json (lib : JsonLibrary) : Type := lib.Value

namespace Json

variable {lib : JsonLibrary}

def view (j : Json lib) : JsonView lib.Double (Json lib) := lib.view j

def null : Json lib := lib.make .null

def integer (value : ℤ) : Json lib := lib.make (.integer value)

def string (value : List Char) : Json lib := lib.make (.string value)

def array (elements : List (Json lib)) : Json lib := lib.make (.array elements)

def object (members : List (List Char × Json lib)) : Json lib := lib.make (.object members)

def getString (j : Json lib) : Except TypeError (List Char) := lib.getString j

def getInt64 (j : Json lib) : Except TypeError ℤ := lib.getInt64 j

def empty (j : Json lib) : Bool := lib.empty j

def find (j : Json lib) (key : List Char) : Option (Json lib) := lib.find j key

def contains (j : Json lib) (key : List Char) : Bool := (j.find key).isSome

def value (j : Json lib) (key fallback : List Char) : Except TypeError (List Char) :=
  lib.value j key fallback

def index (j : Json lib) (key : List Char) : Except TypeError (Json lib) := lib.index j key

def first (j : Json lib) : Except TypeError (Json lib) := lib.first j

def set (j : Json lib) (key : List Char) (member : Json lib) : Except TypeError (Json lib) :=
  lib.set j key member

def elements (j : Json lib) : List (Json lib) := lib.elements j

def mapElements {ε : Type} (f : Json lib → Except ε (Json lib)) (j : Json lib) :
    Except ε (Json lib) :=
  lib.mapElements f j

def isObject (j : Json lib) : Bool :=
  match j.view with
  | .object _ => true
  | _ => false

def isString (j : Json lib) : Bool :=
  match j.view with
  | .string _ => true
  | _ => false

/-- The text of a member, empty where there is none. -/
def text (j : Json lib) (key : List Char) : List Char :=
  match (j.find key).map view with
  | some (.string value) => value
  | _ => []

/-- An object whose member, if it is there, is a string. -/
def HasString (j : Json lib) (key : List Char) : Prop :=
  j.isObject = true ∧ ∀ member ∈ j.find key, member.isString = true

instance (j : Json lib) (key : List Char) : Decidable (j.HasString key) :=
  inferInstanceAs (Decidable (_ ∧ _))

/-- The elements of a member, none where it is missing. -/
def items (j : Json lib) (key : List Char) : List (Json lib) :=
  match j.find key with
  | some member => member.elements
  | none => []

/-- The same value. An object is the map of its members. -/
def Same (j j' : Json lib) : Prop :=
  j' = j ∨ j.isObject = true ∧ j'.isObject = true ∧ ∀ key, j'.find key = j.find key

/-! ### The views of values -/

section Views

variable {j : Json lib}

@[simp] theorem view_null : (null : Json lib).view = .null := lib.view_make _

@[simp] theorem view_string (value : List Char) : (string value : Json lib).view = .string value :=
  lib.view_make _

@[simp] theorem view_array (elements : List (Json lib)) : (array elements).view = .array elements :=
  lib.view_make _

@[simp] theorem view_object (members : List (List Char × Json lib)) :
    (object members).view = .object (OrderedMap.ofList members) :=
  lib.view_make _

/-- A value is known by its view. -/
theorem eq_of_view_eq {j' : Json lib} (h : j.view = j'.view) : j = j' :=
  (lib.make_view j).symm.trans ((congrArg lib.make h).trans (lib.make_view j'))

theorem array_injective : Function.Injective (array : List (Json lib) → Json lib) := fun a b h => by
  have hview := congrArg view h
  rw [view_array, view_array] at hview
  exact JsonView.array.inj hview

/-- A value is made of its view. -/
theorem eq_object_of_view {members : List (List Char × Json lib)} (h : j.view = .object members) :
    j = object members :=
  (lib.make_view j).symm.trans (congrArg lib.make h)

theorem isObject_iff : j.isObject = true ↔ ∃ members, j = object members := by
  constructor
  · intro h
    unfold isObject at h
    split at h
    next members hview => exact ⟨members, eq_object_of_view hview⟩
    next => cases h
  · rintro ⟨members, rfl⟩
    unfold isObject
    rw [view_object]

theorem isString_iff : j.isString = true ↔ ∃ value, j = string value := by
  constructor
  · intro h
    unfold isString at h
    split at h
    next value hview => exact ⟨value, eq_of_view_eq (hview.trans (view_string value).symm)⟩
    next => cases h
  · rintro ⟨value, rfl⟩
    unfold isString
    rw [view_string]

@[simp] theorem isString_string (value : List Char) : (string value : Json lib).isString = true :=
  isString_iff.mpr ⟨value, rfl⟩

@[simp] theorem isObject_object (members : List (List Char × Json lib)) :
    (object members).isObject = true :=
  isObject_iff.mpr ⟨members, rfl⟩

/-! The documentation of the operations. -/

theorem getString_view (j : Json lib) : j.getString = j.view.getString := lib.getString_eq j

theorem empty_view (j : Json lib) : j.empty = j.view.empty := lib.empty_eq j

theorem find_view (j : Json lib) (key : List Char) : j.find key = j.view.find key :=
  lib.find_eq j key

theorem value_view (j : Json lib) (key fallback : List Char) :
    j.value key fallback = j.view.value view key fallback :=
  lib.value_eq j key fallback

theorem index_view (j : Json lib) (key : List Char) : j.index key = j.view.index lib.make key :=
  lib.index_eq j key

theorem first_view (j : Json lib) : j.first = j.view.first lib.make := lib.first_eq j

theorem set_view (j : Json lib) (key : List Char) (member : Json lib) :
    j.set key member = j.view.set lib.make key member :=
  lib.set_eq j key member

theorem elements_view (j : Json lib) : j.elements = j.view.elements lib.make := lib.elements_eq j

theorem mapElements_view {ε : Type} (f : Json lib → Except ε (Json lib)) (j : Json lib) :
    j.mapElements f = j.view.mapElements lib.make f :=
  lib.mapElements_eq f j

@[simp] theorem getString_string (value : List Char) :
    (string value : Json lib).getString = .ok value := by
  rw [getString_view, view_string]
  rfl

@[simp] theorem getInt64_integer (value : ℤ) :
    (integer value : Json lib).getInt64 = .ok (value.bmod (2 ^ 64)) :=
  lib.getInt64_integer value

/-- A number with a sign is read as it is. -/
theorem getInt64_integer_of_mem {value : ℤ} (h : -2 ^ 63 ≤ value ∧ value < 2 ^ 63) :
    (integer value : Json lib).getInt64 = .ok value := by
  rw [getInt64_integer]
  refine congrArg Except.ok (Int.bmod_eq_of_le_mul_two ?_ ?_)
  · push_cast
    omega
  · push_cast
    omega

theorem eq_of_integer_eq {a b : ℤ} (ha : -2 ^ 63 ≤ a ∧ a < 2 ^ 63) (hb : -2 ^ 63 ≤ b ∧ b < 2 ^ 63)
    (h : (integer a : Json lib) = integer b) : a = b := by
  have hread := congrArg getInt64 h
  rw [getInt64_integer_of_mem ha, getInt64_integer_of_mem hb] at hread
  exact Except.ok.inj hread

@[simp] theorem find_object (members : List (List Char × Json lib)) (key : List Char) :
    (object members).find key = members.lookup key := by
  rw [find_view, view_object]
  exact OrderedMap.lookup_ofList members key

@[simp] theorem elements_array (elements : List (Json lib)) :
    (array elements).elements = elements := by
  rw [elements_view, view_array]
  rfl

@[simp] theorem empty_array (elements : List (Json lib)) :
    (array elements).empty = elements.isEmpty := by
  rw [empty_view, view_array]
  rfl

@[simp] theorem first_array_cons (e : Json lib) (elements : List (Json lib)) :
    (array (e :: elements)).first = .ok e := by
  rw [first_view, view_array]
  rfl

@[simp] theorem elements_null : (null : Json lib).elements = [] := by
  rw [elements_view, view_null]
  rfl

end Views

section Members

variable {j member : Json lib} {key fallback s : List Char}

theorem find_of_not_contains (h : ¬ j.contains key = true) : j.find key = none := by
  unfold contains at h
  rwa [Option.not_isSome_iff_eq_none] at h

theorem text_eq (h : j.find key = some (string s)) : j.text key = s := by
  unfold text
  rw [h, Option.map_some, view_string]

theorem text_of_find_none (h : j.find key = none) : j.text key = [] := by
  unfold text
  rw [h, Option.map_none]

theorem text_of_not_contains (h : ¬ j.contains key = true) : j.text key = [] :=
  text_of_find_none (find_of_not_contains h)

theorem hasString_of_find_none (hobject : j.isObject = true) (h : j.find key = none) :
    j.HasString key := by
  refine ⟨hobject, fun member hmember => ?_⟩
  rw [h] at hmember
  cases hmember

theorem hasString_of_not_contains (hobject : j.isObject = true) (h : ¬ j.contains key = true) :
    j.HasString key :=
  hasString_of_find_none hobject (find_of_not_contains h)

theorem contains_of_text_ne (h : j.text key ≠ []) : j.contains key = true := by
  by_contra hcontains
  exact h (text_of_not_contains hcontains)

/-- Only objects have members. -/
theorem isObject_of_find (h : j.find key = some member) : j.isObject = true := by
  rw [find_view] at h
  unfold isObject
  split
  next => rfl
  next hview =>
    unfold JsonView.find at h
    split at h
    next members hmembers => exact absurd hmembers (hview members)
    next => cases h

theorem hasString_of_find (h : j.find key = some (string s)) : j.HasString key := by
  refine ⟨isObject_of_find h, fun member hmember => ?_⟩
  rw [← Option.some.inj (h.symm.trans hmember)]
  exact isString_string s

theorem Same.find_eq {j' : Json lib} (h : j.Same j') (key : List Char) :
    j'.find key = j.find key := by
  rcases h with rfl | ⟨-, -, hfind⟩
  · rfl
  · exact hfind key

/-- What `value()` reads in an object. -/
theorem value_object (members : List (List Char × Json lib)) (key fallback : List Char) :
    (object members).value key fallback =
      match members.lookup key with
      | some member => member.getString
      | none => .ok fallback := by
  rw [value_view, view_object]
  dsimp only [JsonView.value]
  rw [OrderedMap.lookup_ofList]
  cases members.lookup key with
  | none => rfl
  | some member => exact (getString_view member).symm

/-- The text is read where the member is a string. -/
theorem value_eq (h : j.HasString key) : j.value key [] = .ok (j.text key) := by
  obtain ⟨hobject, hstring⟩ := h
  obtain ⟨members, rfl⟩ := isObject_iff.mp hobject
  rw [find_object] at hstring
  rw [value_object]
  -- without the member, the fallback is the empty text
  cases hfind : members.lookup key with
  | none => rw [text_of_find_none (by rwa [find_object])]
  | some member =>
    obtain ⟨value, rfl⟩ := isString_iff.mp (hstring member hfind)
    rw [text_eq (s := value) (by rwa [find_object])]
    exact getString_string value

/-- It is read only there. -/
theorem hasString_of_value (h : j.value key fallback = .ok s) : j.HasString key := by
  -- `value` throws for anything but an object
  have hobject : j.isObject = true := by
    rw [value_view] at h
    unfold isObject
    split
    next => rfl
    next hview =>
      unfold JsonView.value at h
      split at h
      next members hmembers => exact absurd hmembers (hview members)
      next => cases h
  obtain ⟨members, rfl⟩ := isObject_iff.mp hobject
  refine ⟨hobject, fun member hmember => ?_⟩
  rw [find_object] at hmember
  rw [value_object, show members.lookup key = some member from hmember] at h
  -- and the conversion throws for anything but a string
  have hread : member.getString = .ok s := h
  rw [getString_view] at hread
  unfold isString
  split
  next => rfl
  next hview =>
    unfold JsonView.getString at hread
    split at hread
    next value hvalue => exact absurd hvalue (hview value)
    next => cases hread

theorem index_object (members : List (List Char × Json lib)) (key : List Char) :
    (object members).index key = .ok ((members.lookup key).getD null) := by
  rw [index_view, view_object, ← OrderedMap.lookup_ofList]
  rfl

theorem index_null (key : List Char) : (null : Json lib).index key = .ok null := by
  rw [index_view, view_null]
  rfl

theorem index_eq (h : j.find key = some member) : j.index key = .ok member := by
  obtain ⟨members, rfl⟩ := isObject_iff.mp (isObject_of_find h)
  rw [find_object] at h
  rw [index_object, h, Option.getD_some]

/-- A member that is a string. -/
theorem getString_index (h : j.HasString key) (hcontains : j.contains key = true) :
    (j.index key >>= getString) = .ok (j.text key) := by
  obtain ⟨member, hmember⟩ := Option.isSome_iff_exists.mp hcontains
  obtain ⟨value, rfl⟩ := isString_iff.mp (h.2 member hmember)
  rw [index_eq hmember, text_eq hmember]
  exact getString_string value

/-- The name of a member is an index of an object, and of `null`. -/
theorem isObject_or_of_index (h : j.index key = .ok member) : j.isObject = true ∨ j = null := by
  rw [index_view] at h
  cases hview : j.view with
  | null => exact .inr (eq_of_view_eq (hview.trans view_null.symm))
  | object members =>
    exact .inl (isObject_iff.mpr ⟨members, eq_object_of_view hview⟩)
  | _ =>
    rw [hview] at h
    cases h

theorem exists_index_eq (h : j.isObject = true ∨ j = null) (key : List Char) :
    ∃ member, j.index key = .ok member ∧ member.elements = j.items key := by
  rcases h with h | rfl
  · obtain ⟨members, rfl⟩ := isObject_iff.mp h
    unfold items
    cases hfind : (object members).find key with
    | some member => exact ⟨member, index_eq hfind, rfl⟩
    -- a member that is missing is added as `null`
    | none =>
      rw [find_object] at hfind
      refine ⟨null, ?_, elements_null⟩
      rw [index_object, hfind, Option.getD_none]
  · refine ⟨null, index_null key, ?_⟩
    unfold items
    rw [elements_null, find_view, view_null]
    rfl

theorem items_eq {fs : List (Json lib)} (h : j.find key = some (array fs)) : j.items key = fs := by
  unfold items
  rw [h]
  exact elements_array fs

theorem set_object (members : List (List Char × Json lib)) (key : List Char) (member : Json lib) :
    (object members).set key member =
      .ok (object (OrderedMap.set key member (OrderedMap.ofList members))) := by
  rw [set_view, view_object]
  rfl

theorem set_null (key : List Char) (member : Json lib) :
    (null : Json lib).set key member = .ok (object [(key, member)]) := by
  rw [set_view, view_null]
  rfl

/-- **What is found after an assignment.** -/
theorem set_returns (h : j.isObject = true ∨ j = null) (key : List Char) (member : Json lib) :
    Returns (j.set key member) fun j' => j'.isObject = true ∧ j'.find key = some member ∧
      ∀ key' ≠ key, j'.find key' = j.find key' := by
  rcases h with h | rfl
  · obtain ⟨members, rfl⟩ := isObject_iff.mp h
    refine ⟨_, set_object members key member, isObject_object _, ?_, fun key' hne => ?_⟩
    · rw [find_object, OrderedMap.lookup_set_self]
    · rw [find_object, find_object, OrderedMap.lookup_set_of_ne hne, OrderedMap.lookup_ofList]
  -- `null` becomes an object with one member
  · refine ⟨_, set_null key member, isObject_object _, ?_, fun key' hne => ?_⟩
    · rw [find_object, List.lookup_cons_self]
    · rw [find_object, List.lookup_cons, beq_false_of_ne hne, find_view, view_null]
      rfl

theorem mapElements_array {ε : Type} (f : Json lib → Except ε (Json lib))
    (elements : List (Json lib)) :
    (array elements).mapElements f =
      (elements.mapM f >>= fun elements => pure (array elements)) := by
  rw [mapElements_view, view_array]
  rfl

/-- A loop that returns for every element. -/
theorem exists_mapElements_eq {ε : Type} {f : Json lib → Except ε (Json lib)}
    (h : ∀ e ∈ j.elements, ∃ e', f e = .ok e') : ∃ j', j.mapElements f = .ok j' := by
  rw [elements_view] at h
  rw [mapElements_view]
  -- The cases are those of the view: a value that holds no others is its own element.
  cases hview : j.view with
  | null => exact ⟨null, rfl⟩
  | array elements =>
    rw [hview] at h
    obtain ⟨elements', helements⟩ := Returns.exists_mapM_eq_ok h
    refine ⟨array elements', ?_⟩
    show (elements.mapM f >>= fun elements => pure (array elements)) = _
    rw [show elements.mapM f = _ from helements]
    rfl
  | object members =>
    rw [hview] at h
    let body : List Char × Json lib → Except ε (List Char × Json lib) := fun entry => do
      let member ← f entry.2
      pure (entry.1, member)
    obtain ⟨members', hmembers⟩ := Returns.exists_mapM_eq_ok (l := members) (f := body)
      fun entry hentry => by
        obtain ⟨member, hmember⟩ := h entry.2 (List.mem_map_of_mem hentry)
        exact ⟨(entry.1, member), by show (f entry.2 >>= _) = _; rw [hmember]; rfl⟩
    refine ⟨object members', ?_⟩
    show (members.mapM body >>= fun members => pure (object members)) = _
    rw [hmembers]
    rfl
  | _ =>
    rw [hview] at h
    exact h _ List.mem_cons_self

end Members

end Json

/-! ### Trees -/

/-- The trees of values. -/
inductive JsonData where
  | null
  | boolean (value : Bool)
  | integer (value : ℤ)
  | double (value : ℚ)
  | string (value : List Char)
  | array (elements : List JsonData)
  | object (members : List (List Char × JsonData))

namespace JsonData

/-- The integers have 64 bits, and the members of each object are in order. -/
inductive Stored : JsonData → Prop
  | null : Stored null
  | boolean (value : Bool) : Stored (boolean value)
  | integer {value : ℤ} (fits : -2 ^ 63 ≤ value ∧ value < 2 ^ 64) : Stored (integer value)
  | double (value : ℚ) : Stored (double value)
  | string (value : List Char) : Stored (string value)
  | array {elements : List JsonData} (stored : ∀ e ∈ elements, Stored e) : Stored (array elements)
  | object {members : List (List Char × JsonData)} (sorted : OrderedMap.Sorted members)
      (stored : ∀ entry ∈ members, Stored entry.2) : Stored (object members)

theorem Stored.elements {es : List JsonData} (h : Stored (JsonData.array es)) :
    ∀ e ∈ es, Stored e := by
  cases h
  assumption

theorem Stored.members {ms : List (List Char × JsonData)} (h : Stored (JsonData.object ms)) :
    ∀ entry ∈ ms, Stored entry.2 := by
  cases h
  assumption

/-- An entry of a stored object. -/
def entry (e : List Char × JsonData) (h : Stored e.2) : List Char × {j // Stored j} :=
  (e.1, ⟨e.2, h⟩)

def view : {j // Stored j} → JsonView ℚ {j // Stored j}
  | ⟨null, _⟩ => .null
  | ⟨boolean value, _⟩ => .boolean value
  | ⟨integer value, _⟩ => .integer value
  | ⟨double value, _⟩ => .double value
  | ⟨string value, _⟩ => .string value
  | ⟨array es, h⟩ => .array (es.pmap Subtype.mk h.elements)
  | ⟨object ms, h⟩ => .object (ms.pmap entry h.members)

/-- The 64 bits of an integer. -/
theorem fits_stored (value : ℤ) :
    -2 ^ 63 ≤ (if -2 ^ 63 ≤ value ∧ value < 2 ^ 64 then value else value.bmod (2 ^ 64)) ∧
      (if -2 ^ 63 ≤ value ∧ value < 2 ^ 64 then value else value.bmod (2 ^ 64)) < 2 ^ 64 := by
  split
  next h => exact h
  next =>
    have hle := Int.le_bmod (x := value) (m := 2 ^ 64) (by decide)
    have hlt := Int.bmod_lt (x := value) (m := 2 ^ 64) (by decide)
    omega

def make : JsonView ℚ {j // Stored j} → {j // Stored j}
  | .null => ⟨null, .null⟩
  | .boolean value => ⟨boolean value, .boolean value⟩
  | .integer value => ⟨integer _, .integer (fits_stored value)⟩
  | .double value => ⟨double value, .double value⟩
  | .string value => ⟨string value, .string value⟩
  | .array elements => ⟨array (elements.map Subtype.val), .array fun e he => by
      obtain ⟨element, -, rfl⟩ := List.mem_map.mp he
      exact element.2⟩
  | .object members =>
    ⟨object ((OrderedMap.ofList members).map (Prod.map id Subtype.val)),
      .object ((OrderedMap.sorted_ofList members).map (Prod.map id Subtype.val) fun _ _ h => h)
        fun entry hentry => by
          obtain ⟨member, -, rfl⟩ := List.mem_map.mp hentry
          exact member.2.2⟩

theorem view_make (v : JsonView ℚ {j // Stored j}) : view (make v) = v.stored := by
  cases v with
  -- the stored elements are the given ones, without their proofs
  | array elements =>
    refine congrArg JsonView.array ?_
    rw [List.pmap_map]
    exact (List.pmap_eq_map _).trans (List.map_id _)
  | object members =>
    refine congrArg JsonView.object ?_
    rw [List.pmap_map]
    exact (List.pmap_eq_map _).trans (List.map_id _)
  | _ => rfl

theorem make_view (j : {j // Stored j}) : make (view j) = j := by
  obtain ⟨j, h⟩ := j
  refine Subtype.ext ?_
  cases h with
  | integer fits => exact congrArg integer (if_pos fits)
  | array stored =>
    refine congrArg array ?_
    rw [List.map_pmap]
    exact (List.pmap_eq_map _).trans (List.map_id _)
  | @object members sorted stored =>
    refine congrArg object ?_
    -- the members are stored in the order of their keys, so making the object again moves none
    have hsorted : OrderedMap.Sorted (members.pmap entry stored) :=
      sorted.pmap stored fun _ _ _ _ h => h
    show (OrderedMap.ofList (members.pmap entry stored)).map _ = members
    rw [OrderedMap.ofList_eq_self hsorted, List.map_pmap]
    exact (List.pmap_eq_map _).trans (List.map_id _)
  | _ => rfl

/-- `get<int64_t>()`. A number that does not fit is left to the conversion. -/
def getInt64 : JsonData → Except TypeError ℤ
  | boolean value => .ok (if value then 1 else 0)
  | integer value => .ok (value.bmod (2 ^ 64))
  | double value => .ok ((Double.trunc value).bmod (2 ^ 64))
  | _ => .error .number

/-- **The trees are a library.** -/
def library : JsonLibrary where
  Double := ℚ
  Value := {j // Stored j}
  view := view
  make := make
  getString j := (view j).getString
  getInt64 j := getInt64 j.1
  empty j := (view j).empty
  find j key := (view j).find key
  value j key fallback := (view j).value view key fallback
  index j key := (view j).index make key
  first j := (view j).first make
  set j key member := (view j).set make key member
  elements j := (view j).elements make
  mapElements f j := (view j).mapElements make f
  view_make := view_make
  make_view := make_view
  getString_eq _ := rfl
  getInt64_integer z := by
    refine congrArg Except.ok ?_
    split
    · rfl
    · exact Int.bmod_bmod
  empty_eq _ := rfl
  find_eq _ _ := rfl
  value_eq _ _ _ := rfl
  index_eq _ _ := rfl
  first_eq _ := rfl
  set_eq _ _ _ := rfl
  elements_eq _ := rfl
  mapElements_eq _ _ := rfl

/-- Values of this library. -/
abbrev Tree : Type := Json library

end JsonData
