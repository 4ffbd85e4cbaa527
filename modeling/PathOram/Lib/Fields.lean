import Mathlib.Data.List.Basic
import Mathlib.Data.List.TakeWhile
import Mathlib.Tactic.Common

/-!
# Fields of a text

`fields sep text` is what calls of `getline` with the delimiter `sep` give one after the
other: the pieces between the delimiters, but no empty piece behind the last one. `trim`
takes the elements off both ends that satisfy a predicate.

* `fields_append` — the piece in front of a delimiter.
* `fields_flatMap_append` — pieces that each end with the delimiter are read back.
* `fields_flatMap_cons` — pieces that each begin with it, behind an empty one.
* `trim_append` — what stands between blanks.
-/

namespace Fields

variable {α β : Type}

/-- The pieces of a text between delimiters. -/
def fields [DecidableEq α] (sep : α) : List α → List (List α)
  | [] => []
  | c :: text =>
    if c = sep then [] :: fields sep text
    else
      match fields sep text with
      | [] => [[c]]
      | piece :: pieces => (c :: piece) :: pieces

/-- A text without the blanks at its two ends. -/
def trim (blank : α → Bool) (text : List α) : List α :=
  ((text.dropWhile blank).reverse.dropWhile blank).reverse

section Pieces

variable [DecidableEq α] {sep : α} {piece : List α}

theorem fields_cons_sep (sep : α) (rest : List α) :
    fields sep (sep :: rest) = [] :: fields sep rest := if_pos rfl

theorem fields_append (h : sep ∉ piece) (rest : List α) :
    fields sep (piece ++ sep :: rest) = piece :: fields sep rest := by
  induction piece with
  | nil => exact fields_cons_sep sep rest
  | cons c piece ih =>
    rw [List.mem_cons, not_or] at h
    rw [List.cons_append, fields, if_neg (Ne.symm h.1), ih h.2]

theorem fields_of_notMem (h : sep ∉ piece) (hne : piece ≠ []) : fields sep piece = [piece] := by
  induction piece with
  | nil => exact absurd rfl hne
  | cons c piece ih =>
    rw [List.mem_cons, not_or] at h
    rw [fields, if_neg (Ne.symm h.1)]
    rcases eq_or_ne piece [] with rfl | hpiece
    · rfl
    · rw [ih h.2 hpiece]

/-- Pieces that end with the delimiter. -/
theorem fields_flatMap_append {f : β → List α} {xs : List β} (h : ∀ x ∈ xs, sep ∉ f x) :
    fields sep (xs.flatMap fun x => f x ++ [sep]) = xs.map f := by
  induction xs with
  | nil => rfl
  | cons x xs ih =>
    rw [List.flatMap_cons, List.append_assoc, List.singleton_append,
      fields_append (h x List.mem_cons_self), ih fun y hy => h y (List.mem_cons_of_mem x hy),
      List.map_cons]

/-- Pieces that begin with the delimiter. -/
theorem fields_flatMap_cons {f : β → List α} {xs : List β} (h : ∀ x ∈ xs, sep ∉ f x)
    (hne : ∀ x ∈ xs, f x ≠ []) (hxs : xs ≠ []) :
    fields sep (xs.flatMap fun x => sep :: f x) = [] :: xs.map f := by
  obtain ⟨x, xs, rfl⟩ := List.exists_cons_of_ne_nil hxs
  rw [List.flatMap_cons, List.cons_append, fields_cons_sep]
  refine congrArg _ ?_
  clear hxs
  induction xs generalizing x with
  | nil =>
    have hx := List.mem_singleton_self x
    rw [List.flatMap_nil, List.append_nil, fields_of_notMem (h x hx) (hne x hx)]
    rfl
  | cons y ys ih =>
    -- The delimiter of the next piece ends this one.
    rw [List.flatMap_cons, List.cons_append, fields_append (h x List.mem_cons_self),
      ih y (fun z hz => h z (List.mem_cons_of_mem x hz))
        (fun z hz => hne z (List.mem_cons_of_mem x hz))]
    rfl

end Pieces

section Trim

variable {text : List α} {blank : α → Bool}

theorem dropWhile_of_head {c : α} {cs : List α} (h : text = c :: cs) (hc : blank c = false) :
    text.dropWhile blank = text := by
  rw [h, List.dropWhile_cons_of_neg (by rw [hc]; decide)]

/-- What stands between blanks, when it neither begins nor ends with one. -/
theorem trim_append {before after : List α} (hbefore : ∀ c ∈ before, blank c = true)
    (hafter : ∀ c ∈ after, blank c = true) (htext : ∀ c ∈ text, blank c = false) :
    trim blank (before ++ (text ++ after)) = text := by
  unfold trim
  rw [List.dropWhile_append_of_pos hbefore]
  rcases text.eq_nil_or_concat' with rfl | ⟨init, last, rfl⟩
  · rw [List.nil_append, List.dropWhile_eq_nil_iff.mpr hafter]
    rfl
  · have hhead : ((init ++ [last]) ++ after).dropWhile blank = (init ++ [last]) ++ after := by
      cases init with
      | nil => exact dropWhile_of_head rfl (htext _ (List.mem_append_right _ List.mem_cons_self))
      | cons c cs => exact dropWhile_of_head rfl (htext c List.mem_cons_self)
    rw [hhead, List.reverse_append, List.dropWhile_append_of_pos fun c hc =>
      hafter c (List.mem_reverse.mp hc), List.reverse_append, List.reverse_singleton,
      List.singleton_append, List.dropWhile_cons_of_neg (by
        rw [htext last (List.mem_append_right _ List.mem_cons_self)]
        decide),
      List.reverse_cons, List.reverse_reverse]

end Trim

end Fields
