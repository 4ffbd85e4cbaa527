import Mathlib.Order.Bounds.Basic

/-!
# The smallest and the largest of some values

Loops that keep the best value seen so far.

* `Extremum.least`, `Extremum.greatest` — the loops.
* `Extremum.isLeast_least`, `Extremum.isGreatest_greatest` — what they find, if they start at a
  value that none of the others passes.
-/

namespace Extremum

variable {α β : Type} [LinearOrder α]

/-- The smallest value of `f`, or `start`. -/
def least (start : α) (f : β → α) (l : List β) : α :=
  l.foldl (fun best b => if f b < best then f b else best) start

/-- The largest value of `f`, or `start`. -/
def greatest (start : α) (f : β → α) (l : List β) : α :=
  l.foldl (fun best b => if best < f b then f b else best) start

section Least

variable {start : α} {f : β → α} {l : List β}

/-- The loop ends at its start or at a value, and no value is below. -/
theorem least_spec (start : α) (f : β → α) (l : List β) :
    (least start f l = start ∨ ∃ b ∈ l, f b = least start f l) ∧ least start f l ≤ start ∧
      ∀ b ∈ l, least start f l ≤ f b := by
  induction l generalizing start with
  | nil => exact ⟨.inl rfl, le_rfl, fun b hb => absurd hb List.not_mem_nil⟩
  | cons b l ih =>
    have hcons : least start f (b :: l) = least (if f b < start then f b else start) f l := rfl
    obtain ⟨hvalue, hstart, hall⟩ := ih (if f b < start then f b else start)
    rw [hcons]
    refine ⟨?_, hstart.trans ?_, fun b' hb' => ?_⟩
    · rcases hvalue with hvalue | ⟨b', hb', hvalue⟩
      · rw [hvalue]
        split
        · exact .inr ⟨b, List.mem_cons_self, rfl⟩
        · exact .inl rfl
      · exact .inr ⟨b', List.mem_cons_of_mem b hb', hvalue⟩
    · split
      next h => exact h.le
      next => exact le_rfl
    · rcases List.mem_cons.mp hb' with rfl | hb'
      · refine hstart.trans ?_
        split
        next => exact le_rfl
        next h => exact not_lt.mp h
      · exact hall b' hb'

/-- **The smallest value** is found, if there is one. -/
theorem isLeast_least (hne : l ≠ []) (h : ∀ b ∈ l, f b ≤ start) :
    IsLeast {a | ∃ b ∈ l, f b = a} (least start f l) := by
  obtain ⟨hvalue, hstart, hall⟩ := least_spec start f l
  refine ⟨?_, fun a ha => ?_⟩
  · rcases hvalue with hvalue | hvalue
    · obtain ⟨b, hb⟩ := List.exists_mem_of_ne_nil l hne
      exact ⟨b, hb, le_antisymm ((h b hb).trans_eq hvalue.symm) (hall b hb)⟩
    · exact hvalue
  · obtain ⟨b, hb, rfl⟩ := ha
    exact hall b hb

/-- **The largest value**, in the same way: it is the smallest one of the dual order. -/
theorem isGreatest_greatest (hne : l ≠ []) (h : ∀ b ∈ l, start ≤ f b) :
    IsGreatest {a | ∃ b ∈ l, f b = a} (greatest start f l) :=
  isLeast_least (α := αᵒᵈ) hne h

end Least

end Extremum
