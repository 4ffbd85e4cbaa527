import PathOram.Definitions
import Mathlib.Data.Finset.Lattice.Lemmas
import Mathlib.Data.Set.Basic

/-!
# The key-value store

What an ORAM is for: a client sees a store from block IDs to payloads.

* `Op` is one operation on the store, `Op.apply` its effect and `Op.Answered` what the
  response to it has to be. The storage pads payloads with zero bytes up to the block
  size, so a read answers with a `Padding` of the payload that was put last.
* `Call` is a call to the public interface: `get`, `put`, or `multiple`, which serves
  its requests in order. `Call.Answered` judges the responses of a whole call.
-/

namespace PathORAM

/-- What each ID was put to last. -/
abbrev Store := ℕ → Option Bytes

/-- `d` is the payload `p` followed only by zero bytes, up to at most `size` bytes. -/
def Padding (size : ℕ) (p d : Bytes) : Prop :=
  ∃ zeros, d = p ++ List.replicate zeros 0 ∧ d.length ≤ max size p.length

theorem Padding.refl (size : ℕ) (p : Bytes) : Padding size p p :=
  ⟨0, (List.append_nil p).symm, le_max_right _ _⟩

/-- A payload longer than the block size is not padded. -/
theorem Padding.eq_of_lt {size : ℕ} {p d : Bytes} (h : Padding size p d)
    (hlong : size < d.length) : d = p := by
  obtain ⟨zeros, rfl, hlen⟩ := h
  -- No zero byte fits, since the payload alone is longer than the block size.
  rw [List.length_append, List.length_replicate] at hlen hlong
  obtain rfl : zeros = 0 := by omega
  exact List.append_nil p

/-- Nor is one that has the block size. -/
theorem Padding.eq_of_length {size : ℕ} {p d : Bytes} (h : Padding size p d)
    (hp : p.length = size) : d = p := by
  obtain ⟨zeros, rfl, hle⟩ := h
  rw [List.length_append, List.length_replicate, hp, max_self] at hle
  obtain rfl : zeros = 0 := by omega
  exact List.append_nil p

theorem Padding.length_le {size : ℕ} {p d : Bytes} (h : Padding size p d)
    (hp : p.length ≤ size) : d.length ≤ size := by
  obtain ⟨zeros, -, hlen⟩ := h
  omega

/-- A single operation. -/
inductive Op where
  | read (block : ℕ)
  | write (block : ℕ) (data : Bytes)

namespace Op

/-- The ID an operation is about. -/
def block : Op → ℕ
  | read block => block
  | write block _ => block

/-- The effect on the store. -/
def apply : Op → Store → Store
  | read _, kv => kv
  | write block data, kv => Function.update kv block (some data)

/-- The effect of several operations. -/
def applyAll (ops : List Op) (kv : Store) : Store :=
  ops.foldl (fun kv op => op.apply kv) kv

/-- The response the store gives: a padding of the payload, nothing for an ID that was
never put, and the supplied payload for a write. -/
def Answered (size : ℕ) (kv : Store) : Op → Bytes → Prop
  | read block, response =>
    match kv block with
    | none => response = []
    | some p => Padding size p response
  | write _ data, response => response = data

/-- The responses to several operations, each judged in the store it finds. -/
def AnsweredAll (size : ℕ) : Store → List Op → List Bytes → Prop
  | _, [], responses => responses = []
  | kv, op :: ops, responses =>
    ∃ response rest, responses = response :: rest ∧ op.Answered size kv response ∧
      AnsweredAll size (op.apply kv) ops rest

/-- The same, with nothing said about operations on the IDs in `T`. -/
def AnsweredOutside (size : ℕ) (T : Set ℕ) : Store → List Op → List Bytes → Prop
  | _, [], responses => responses = []
  | kv, op :: ops, responses =>
    ∃ response rest, responses = response :: rest ∧
      (op.block ∉ T → op.Answered size kv response) ∧
      AnsweredOutside size T (op.apply kv) ops rest

/-- The IDs that are written. -/
def puts : List Op → Finset ℕ
  | [] => ∅
  | read _ :: ops => puts ops
  | write block _ :: ops => insert block (puts ops)

theorem apply_of_ne (op : Op) {id : ℕ} (h : id ≠ op.block) (kv : Store) :
    op.apply kv id = kv id := by
  cases op with
  | read _ => rfl
  | write block data => exact Function.update_of_ne h _ _

theorem apply_write_self (block : ℕ) (data : Bytes) (kv : Store) :
    (write block data).apply kv block = some data :=
  Function.update_self _ _ _

/-- A payload that the store holds afterwards was put, or was there before. -/
theorem apply_cases {op : Op} {kv : Store} {id : ℕ} {p : Bytes} (h : op.apply kv id = some p) :
    op = write id p ∨ kv id = some p := by
  cases op with
  | read _ => exact Or.inr h
  | write block data =>
    by_cases hid : id = block
    · subst hid
      rw [apply_write_self, Option.some.injEq] at h
      exact Or.inl (congrArg (write id) h)
    · rw [apply_of_ne (write block data) hid] at h
      exact Or.inr h

theorem answered_read_some {size : ℕ} {kv : Store} {block : ℕ} {p response : Bytes}
    (hkv : kv block = some p) :
    (read block).Answered size kv response ↔ Padding size p response := by
  simp only [Answered, hkv]

theorem answered_read_none {size : ℕ} {kv : Store} {block : ℕ} {response : Bytes}
    (hkv : kv block = none) : (read block).Answered size kv response ↔ response = [] := by
  simp only [Answered, hkv]

theorem answeredAll_of_outside {size : ℕ} {ops : List Op} {kv : Store} {responses : List Bytes}
    (h : AnsweredOutside size ∅ kv ops responses) : AnsweredAll size kv ops responses := by
  induction ops generalizing kv responses with
  | nil => exact h
  | cons op ops ih =>
    -- The exempt set is empty, so each operation is judged.
    obtain ⟨response, rest, rfl, hanswer, hrest⟩ := h
    exact ⟨response, rest, rfl, hanswer (Set.notMem_empty _), ih hrest⟩

/-- The ID of a write is among the IDs written. -/
theorem mem_puts {ops : List Op} {id : ℕ} {data : Bytes} (h : write id data ∈ ops) :
    id ∈ puts ops := by
  induction ops with
  | nil => exact absurd h List.not_mem_nil
  | cons op ops ih =>
    rcases List.mem_cons.mp h with rfl | hmem
    · exact Finset.mem_insert_self _ _
    · cases op with
      | read _ => exact ih hmem
      | write _ _ => exact Finset.mem_insert_of_mem (ih hmem)

theorem puts_append (ops ops' : List Op) : puts (ops ++ ops') = puts ops ∪ puts ops' := by
  induction ops with
  | nil => exact (Finset.empty_union _).symm
  | cons op ops ih =>
    cases op with
    | read _ => exact ih
    | write block _ => exact (congrArg (insert block) ih).trans (Finset.insert_union _ _ _).symm

@[simp] theorem applyAll_nil (kv : Store) : applyAll [] kv = kv := rfl

@[simp] theorem applyAll_cons (op : Op) (ops : List Op) (kv : Store) :
    applyAll (op :: ops) kv = applyAll ops (op.apply kv) := rfl

theorem applyAll_append (ops ops' : List Op) (kv : Store) :
    applyAll (ops ++ ops') kv = applyAll ops' (applyAll ops kv) :=
  List.foldl_append

/-- A payload that the store holds after several operations was put by one of them, or was
there before. -/
theorem applyAll_cases {ops : List Op} {kv : Store} {id : ℕ} {p : Bytes}
    (h : applyAll ops kv id = some p) : write id p ∈ ops ∨ kv id = some p := by
  induction ops generalizing kv with
  | nil => exact Or.inr h
  | cons op ops ih =>
    rcases ih h with hmem | hp
    · exact Or.inl (List.mem_cons_of_mem _ hmem)
    · rcases apply_cases hp with rfl | hp
      · exact Or.inl List.mem_cons_self
      · exact Or.inr hp

end Op

/-- A call to the public interface of the ORAM. -/
inductive Call where
  | get (block : ℕ)
  | put (block : ℕ) (data : Bytes)
  | multiple (requests : List Block)

namespace Call

/-- A request of `multiple`: a `get` if its payload is empty, otherwise a `put`. -/
def opOf (request : Block) : Op :=
  if request.2.length = 0 then .read request.1 else .write request.1 request.2

/-- The operations a call stands for, in order. -/
def ops : Call → List Op
  | get block => [.read block]
  | put block data => [.write block data]
  | multiple requests => requests.map opOf

/-- A `get` or a `put`. -/
def Single : Call → Prop
  | multiple _ => False
  | _ => True

instance : (call : Call) → Decidable call.Single
  | get _ => inferInstanceAs (Decidable True)
  | put _ _ => inferInstanceAs (Decidable True)
  | multiple _ => inferInstanceAs (Decidable False)

/-- A single call stands for one operation. -/
theorem Single.exists_ops : ∀ {call : Call}, call.Single → ∃ op, call.ops = [op]
  | get block, _ => ⟨.read block, rfl⟩
  | put block data, _ => ⟨.write block data, rfl⟩

/-- The responses a call hands to its caller. -/
def report : Call → List Bytes → List Bytes
  | put _ _, _ => []
  | _, responses => responses

/-- The effect of a call on the store. -/
def apply (call : Call) (kv : Store) : Store := Op.applyAll call.ops kv

/-- The responses of a call are those of the store. -/
def Answered (size : ℕ) (kv : Store) (call : Call) (responses : List Bytes) : Prop :=
  match call with
  | put _ _ => responses = []
  | call => Op.AnsweredAll size kv call.ops responses

theorem block_opOf (request : Block) : (opOf request).block = request.1 := by
  unfold opOf
  split <;> rfl

/-- What a call reports is right when every operation was answered. -/
theorem answered_report {size : ℕ} {kv : Store} {call : Call} {responses : List Bytes}
    (h : Op.AnsweredAll size kv call.ops responses) :
    call.Answered size kv (call.report responses) := by
  -- A `put` reports nothing; the others report what the operations returned.
  cases call with
  | get block => exact h
  | put block data => rfl
  | multiple requests => exact h

/-- A completed `get` answers with the payload that was put last. -/
theorem answered_get {size : ℕ} {kv : Store} {block : ℕ} {responses : List Bytes}
    (h : (get block).Answered size kv responses) :
    ∃ response, responses = [response] ∧ (Op.read block).Answered size kv response := by
  obtain ⟨response, rest, rfl, hanswer, rfl⟩ := h
  exact ⟨response, rfl, hanswer⟩

end Call

end PathORAM
