import Mathlib.Algebra.Order.Group.Nat
import Mathlib.Data.List.Basic
import Mathlib.Data.List.TakeDrop
import Mathlib.Tactic.Common

/-!
# Cutting a list into chunks

A loop that reads `size` elements at a time and stops when fewer are there sees the chunks
`chunks size l`. The last chunk is always a short one, and it is empty when `size` divides
the length of the list.

* `Cut` — all chunks but the last are full, the last is not.
* `chunks_induction` — the induction of the loop.
* `chunks_flatten` — the loop sees the chunks that were put together.
-/

namespace Chunks

variable {α : Type} {size : ℕ}

def chunks (size : ℕ) (l : List α) : List (List α) :=
  if 0 < size ∧ size ≤ l.length then l.take size :: chunks size (l.drop size) else [l]
termination_by l.length
decreasing_by
  rename_i h
  rw [List.length_drop]
  exact Nat.sub_lt (Nat.lt_of_lt_of_le h.1 h.2) h.1

theorem chunks_of_lt {l : List α} (h : l.length < size) : chunks size l = [l] := by
  rw [chunks]
  exact if_neg fun hle => absurd h (Nat.not_lt.mpr hle.2)

theorem chunks_of_le {l : List α} (hsize : 0 < size) (h : size ≤ l.length) :
    chunks size l = l.take size :: chunks size (l.drop size) := by
  rw [chunks]
  exact if_pos ⟨hsize, h⟩

theorem chunks_ne_nil (l : List α) : chunks size l ≠ [] := by
  rw [chunks]
  split
  · exact List.cons_ne_nil _ _
  · exact List.cons_ne_nil _ _

/-- The induction of a reading loop. -/
theorem chunks_induction {motive : List α → Prop} (hsize : 0 < size)
    (last : ∀ l, l.length < size → motive l)
    (step : ∀ l, size ≤ l.length → motive (l.drop size) → motive l) (l : List α) : motive l := by
  induction hn : l.length using Nat.strongRecOn generalizing l with
  | ind n ih =>
    rcases Nat.lt_or_ge l.length size with hlt | hle
    · exact last l hlt
    · refine step l hle (ih (l.drop size).length ?_ (l.drop size) rfl)
      rw [List.length_drop, ← hn]
      exact Nat.sub_lt (Nat.lt_of_lt_of_le hsize hle) hsize

/-- All chunks are full but the last. -/
inductive Cut (size : ℕ) : List (List α) → Prop
  | last {chunk : List α} (h : chunk.length < size) : Cut size [chunk]
  | cons {chunk : List α} {rest : List (List α)} (h : chunk.length = size)
      (hrest : Cut size rest) : Cut size (chunk :: rest)

theorem Cut.ne_nil {cs : List (List α)} (h : Cut size cs) : cs ≠ [] := by
  cases h with
  | last h => exact List.cons_ne_nil _ _
  | cons h hrest => exact List.cons_ne_nil _ _

/-- What has been put together is cut at the same places. -/
theorem chunks_flatten (hsize : 0 < size) {cs : List (List α)} (h : Cut size cs) :
    chunks size cs.flatten = cs := by
  induction h with
  | last h => rw [List.flatten_singleton, chunks_of_lt h]
  | @cons chunk rest h hrest ih =>
    have hle : size ≤ (chunk ++ rest.flatten).length := by
      rw [List.length_append, h]
      exact Nat.le_add_right _ _
    rw [List.flatten_cons, chunks_of_le hsize hle, List.take_left' h, List.drop_left' h, ih]

end Chunks
