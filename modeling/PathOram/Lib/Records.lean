import Mathlib.Data.List.Basic
import Mathlib.Tactic.Ring

/-!
# Files of fixed-size records

A file is a list of bytes, seen as consecutive records of `size` bytes each.

* `record size i file` — the bytes of record `i`, what a seek to `i * size` and a read
  of `size` bytes return.
* `overwrite offset bytes file` — the file after a seek to `offset` and a write.

Overwriting a record inside the file keeps the length (`length_overwrite`), is read
back (`record_overwrite_self`) and leaves every other record alone
(`record_overwrite_of_ne`). A file that was written record by record returns them
(`record_flatMap`).
-/

namespace Records

variable {α β : Type} {size i j : ℕ} {file bytes : List α}

/-- Record `i` of the file. -/
def record (size i : ℕ) (file : List α) : List α := (file.drop (i * size)).take size

/-- Replace the bytes from `offset` on. -/
def overwrite (offset : ℕ) (bytes file : List α) : List α :=
  file.take offset ++ bytes ++ file.drop (offset + bytes.length)

theorem length_overwrite {offset : ℕ} (h : offset + bytes.length ≤ file.length) :
    (overwrite offset bytes file).length = file.length := by
  unfold overwrite
  rw [List.length_append, List.length_append, List.length_take, List.length_drop]
  omega

/-- Writing behind a prefix replaces what follows it. -/
theorem overwrite_append {offset : ℕ} {start rest : List α} (h : start.length = offset) :
    overwrite offset bytes (start ++ rest) = start ++ bytes ++ rest.drop bytes.length := by
  unfold overwrite
  rw [List.take_left' h, ← List.drop_drop, List.drop_left' h]

/-- Record `i` ends before the end of a file of more than `i` records. -/
theorem add_size_le (size : ℕ) {n : ℕ} (hi : i < n) : i * size + size ≤ n * size :=
  calc i * size + size = (i + 1) * size := (Nat.succ_mul i size).symm
    _ ≤ n * size := Nat.mul_le_mul_right size hi

theorem length_record {n : ℕ} (hfile : file.length = n * size) (hi : i < n) :
    (record size i file).length = size := by
  have hle : i * size + size ≤ n * size := add_size_le size hi
  unfold record
  rw [List.length_take, List.length_drop, hfile]
  omega

/-- **What is written to a record is read back.** -/
theorem record_overwrite_self (hbytes : bytes.length = size)
    (h : i * size ≤ file.length) :
    record size i (overwrite (i * size) bytes file) = bytes := by
  have hlen : (file.take (i * size)).length = i * size := List.length_take_of_le h
  unfold record overwrite
  rw [List.append_assoc, List.drop_left' hlen]
  exact List.take_left' hbytes

/-- **The other records stay as they are.** -/
theorem record_overwrite_of_ne (hbytes : bytes.length = size)
    (h : i * size + size ≤ file.length) (hne : j ≠ i) :
    record size j (overwrite (i * size) bytes file) = record size j file := by
  have hlen : (file.take (i * size)).length = i * size := List.length_take_of_le (by omega)
  unfold record overwrite
  rcases Nat.lt_or_gt_of_ne hne with hlt | hgt
  -- A record in front of the written one is a part of the bytes that are kept.
  · have hle : j * size + size ≤ i * size := add_size_le size hlt
    rw [List.append_assoc, List.drop_append_of_le_length (by omega),
      List.take_append_of_le_length (by rw [List.length_drop, hlen]; omega),
      List.drop_take, List.take_take, Nat.min_eq_left (by omega)]
  -- A record behind it starts after the bytes written.
  · have hle : i * size + size ≤ j * size := add_size_le size hgt
    have hwritten : (file.take (i * size) ++ bytes).length = i * size + size := by
      rw [List.length_append, hlen, hbytes]
    have hdrop : (file.take (i * size) ++ bytes ++
        file.drop (i * size + bytes.length)).drop (j * size) = file.drop (j * size) := by
      rw [List.drop_append, hwritten, List.drop_eq_nil_of_le (by omega), List.nil_append,
        List.drop_drop, hbytes]
      congr 1
      omega
    rw [hdrop]

/-- A file that was written record by record, without its first `i` records. -/
theorem drop_flatMap {f : β → List α} {l : List β} (hf : ∀ b ∈ l, (f b).length = size)
    (i : ℕ) : (l.flatMap f).drop (i * size) = (l.drop i).flatMap f := by
  induction i generalizing l with
  | zero => rw [Nat.zero_mul, List.drop_zero, List.drop_zero]
  | succ i ih =>
    cases l with
    | nil => simp
    | cons b l =>
      -- One record is dropped from the file and one element from the list.
      rw [List.flatMap_cons, Nat.succ_mul, Nat.add_comm, ← List.drop_drop,
        List.drop_left' (hf b List.mem_cons_self), List.drop_succ_cons]
      exact ih fun b hb => hf b (List.mem_cons_of_mem _ hb)

/-- **A file that was written record by record returns the records.** -/
theorem record_flatMap {f : β → List α} {l : List β} (hf : ∀ b ∈ l, (f b).length = size)
    (hi : i < l.length) : record size i (l.flatMap f) = f l[i] := by
  unfold record
  rw [drop_flatMap hf, List.drop_eq_getElem_cons hi, List.flatMap_cons]
  exact List.take_left' (hf _ (List.getElem_mem hi))

/-- A record of a record. -/
theorem record_record {k : ℕ} (hj : j < k) :
    record size j (record (k * size) i file) = record size (i * k + j) file := by
  have hle : j * size + size ≤ k * size := add_size_le size hj
  unfold record
  rw [List.drop_take, List.take_take, List.drop_drop, Nat.min_eq_left (by omega), ← mul_assoc,
    Nat.add_mul]

/-- The records of a file make up its beginning. -/
theorem flatMap_record (size n : ℕ) (file : List α) :
    (List.range n).flatMap (fun i => record size i file) = file.take (n * size) := by
  induction n with
  | zero => rw [List.range_zero, List.flatMap_nil, Nat.zero_mul, List.take_zero]
  | succ n ih =>
    rw [List.range_succ, List.flatMap_append, ih, List.flatMap_singleton, Nat.succ_mul,
      List.take_add]
    rfl

theorem length_flatMap {f : β → List α} {l : List β} (hf : ∀ b ∈ l, (f b).length = size) :
    (l.flatMap f).length = l.length * size := by
  induction l with
  | nil => simp
  | cons b l ih =>
    rw [List.flatMap_cons, List.length_append, hf b List.mem_cons_self,
      ih fun b hb => hf b (List.mem_cons_of_mem _ hb), List.length_cons, Nat.succ_mul,
      Nat.add_comm]

end Records
