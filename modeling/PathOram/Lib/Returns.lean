import Mathlib.Algebra.Order.Group.Nat
import Mathlib.Data.List.Basic
import Mathlib.Data.List.Forall2
import Mathlib.Data.List.TakeDrop
import Mathlib.Tactic.Common

/-!
# Total correctness of fallible programs

A program without a state that may fail is an `Except ε α`. `Returns x Q` says that `x`
does not fail and that its result satisfies `Q`; `Ends x E Q` also allows it to fail, with an
error that satisfies `E`.

* `Returns.bind`, `Returns.mono` — sequencing and consequence;
  `Returns.exists_of_bind_ok` takes a sequence that returned apart.
* `Returns.mapError` — a program inside another one that has more kinds of errors.
* `Returns.foldlM` — the invariant rule of a loop over a list: the invariant speaks
  about the elements that are done.
* `Returns.foldlM_range` — the same for a loop that counts from `0` to `n - 1`.
* `Returns.mapM` — a program for every element of a list; `Returns.mapM_eq_ok_iff` takes its
  results apart.
* `Returns.exists_of_foldlM_ok` — a loop that returned went through its body for every element.
* `Ends.bind`, `Ends.mono`, `Ends.foldlM_range` — the same rules for programs that may fail.
-/

variable {ε α β σ : Type}

/-- The last pass of a counting loop. -/
theorem foldlM_range_succ (body : σ → ℕ → Except ε σ) (n : ℕ) (s : σ) :
    (List.range (n + 1)).foldlM body s =
      ((List.range n).foldlM body s >>= fun s' => body s' n) := by
  rw [List.range_succ, List.foldlM_append]
  refine bind_congr fun s' => ?_
  rw [List.foldlM_cons]
  simp only [List.foldlM_nil, bind_pure]

/-- Two loops whose bodies do the same for every element of the list. -/
theorem foldlM_congr {body body' : σ → α → Except ε σ} {l : List α} (s : σ)
    (h : ∀ x ∈ l, ∀ s, body s x = body' s x) : l.foldlM body s = l.foldlM body' s := by
  induction l generalizing s with
  | nil => rfl
  | cons x rest ih =>
    rw [List.foldlM_cons, List.foldlM_cons, h x List.mem_cons_self]
    exact bind_congr fun s' => ih s' fun y hy => h y (List.mem_cons_of_mem x hy)

/-- A program that has returned. -/
theorem ok_bind (a : α) (f : α → Except ε β) : ((.ok a : Except ε α) >>= f) = f a := rfl

/-- `x` returns a value that satisfies `Q`. -/
def Returns (x : Except ε α) (Q : α → Prop) : Prop := ∃ a, x = .ok a ∧ Q a

namespace Returns

variable {x : Except ε α} {Q R : α → Prop} {a : α}

theorem pure (h : Q a) : Returns (Pure.pure a : Except ε α) Q := ⟨a, rfl, h⟩

/-- Consequence. -/
theorem mono (h : Returns x Q) (hQ : ∀ a, Q a → R a) : Returns x R := by
  obtain ⟨a, hx, ha⟩ := h
  exact ⟨a, hx, hQ a ha⟩

/-- Sequencing. -/
theorem bind {f : α → Except ε β} {S : β → Prop} (h : Returns x Q)
    (hf : ∀ a, Q a → Returns (f a) S) : Returns (x >>= f) S := by
  obtain ⟨a, hx, ha⟩ := h
  rw [hx]
  exact hf a ha

/-- A sequence that returned went through its first step. -/
theorem exists_of_bind_ok {f : α → Except ε β} {b : β} (h : (x >>= f) = .ok b) :
    ∃ a, x = .ok a ∧ f a = .ok b := by
  cases hx : x with
  | ok a =>
    rw [hx] at h
    exact ⟨a, rfl, h⟩
  | error e =>
    rw [hx] at h
    cases h

/-- Reading the postcondition off the result. -/
theorem of_ok (h : Returns x Q) (hx : x = .ok a) : Q a := by
  obtain ⟨b, hb, hQ⟩ := h
  rw [hx] at hb
  cases hb
  exact hQ

/-- A program whose errors are given another form. -/
theorem mapError {δ : Type} {f : ε → δ} (h : Returns x Q) : Returns (x.mapError f) Q := by
  obtain ⟨a, rfl, ha⟩ := h
  exact ⟨a, rfl, ha⟩

theorem ok_of_mapError_ok {δ : Type} {f : ε → δ} (h : x.mapError f = .ok a) : x = .ok a := by
  cases x with
  | ok b =>
    cases h
    rfl
  | error e => cases h

/-- The result that the program is known to return. -/
theorem eq_ok (h : Returns x (· = a)) : x = .ok a := by
  obtain ⟨b, hb, rfl⟩ := h
  exact hb

/-- **Loops.** An invariant `I` of the elements done so far that the body keeps holds of
the whole list at the end. -/
theorem foldlM {body : σ → α → Except ε σ} {I : List α → σ → Prop} {l : List α} {s : σ}
    (h : I [] s)
    (hstep : ∀ done x rest s, l = done ++ x :: rest → I done s →
      Returns (body s x) (I (done ++ [x]))) :
    Returns (l.foldlM body s) (I l) := by
  -- The induction is on what is left of the list.
  suffices key : ∀ rest done s, l = done ++ rest → I done s →
      Returns (rest.foldlM body s) (I l) from key l [] s rfl h
  intro rest
  induction rest with
  | nil =>
    intro done s hl hI
    rw [List.append_nil] at hl
    subst hl
    exact Returns.pure hI
  | cons x rest ih =>
    intro done s hl hI
    rw [List.foldlM_cons]
    refine (hstep done x rest s hl hI).bind fun s' hI' => ?_
    refine ih (done ++ [x]) s' ?_ hI'
    rw [hl, List.append_assoc, List.singleton_append]

/-- **Counting loops.** The invariant is indexed by the number of passes. -/
theorem foldlM_range {body : σ → ℕ → Except ε σ} {I : ℕ → σ → Prop} {n : ℕ} {s : σ}
    (h : I 0 s) (hstep : ∀ i s, i < n → I i s → Returns (body s i) (I (i + 1))) :
    Returns ((List.range n).foldlM body s) (I n) := by
  induction n with
  | zero => exact Returns.pure h
  | succ n ih =>
    rw [foldlM_range_succ]
    refine (ih fun i s hi hI => hstep i s (Nat.lt_succ_of_lt hi) hI).bind fun s' hI => ?_
    exact hstep n s' (Nat.lt_succ_self n) hI

/-- A program for every element of a list. -/
theorem mapM {f : α → Except ε β} {g : α → β} {l : List α}
    (h : ∀ x ∈ l, Returns (f x) (· = g x)) : Returns (l.mapM f) (· = l.map g) := by
  induction l with
  | nil => exact Returns.pure rfl
  | cons x rest ih =>
    rw [List.mapM_cons]
    refine (h x List.mem_cons_self).bind fun b hb => ?_
    refine (ih fun y hy => h y (List.mem_cons_of_mem x hy)).bind fun bs hbs => Returns.pure ?_
    rw [hb, hbs, List.map_cons]

/-- The results of a program for every element, one by one. -/
theorem mapM_eq_ok_iff {f : α → Except ε β} {l : List α} {bs : List β} :
    l.mapM f = .ok bs ↔ List.Forall₂ (fun x b => f x = .ok b) l bs := by
  -- on the list: the results that are collected are those of the elements
  induction l generalizing bs with
  | nil =>
    rw [List.mapM_nil, List.forall₂_nil_left_iff]
    exact ⟨fun h => by cases h; rfl, fun h => by rw [h]; rfl⟩
  | cons x rest ih =>
    rw [List.mapM_cons, List.forall₂_cons_left_iff]
    constructor
    · intro h
      obtain ⟨b, hb, h⟩ := exists_of_bind_ok h
      obtain ⟨bs', hbs', h⟩ := exists_of_bind_ok h
      cases h
      exact ⟨b, bs', hb, ih.mp hbs', rfl⟩
    · rintro ⟨b, bs', hb, hbs', rfl⟩
      rw [hb, ih.mpr hbs']
      rfl

theorem exists_mapM_eq_ok {f : α → Except ε β} {l : List α} (h : ∀ x ∈ l, ∃ b, f x = .ok b) :
    ∃ bs, l.mapM f = .ok bs := by
  induction l with
  | nil => exact ⟨[], rfl⟩
  | cons x rest ih =>
    obtain ⟨b, hb⟩ := h x List.mem_cons_self
    obtain ⟨bs, hbs⟩ := ih fun y hy => h y (List.mem_cons_of_mem x hy)
    refine ⟨b :: bs, ?_⟩
    rw [List.mapM_cons, hb, hbs]
    rfl

/-- Programs for every element that all returned. -/
theorem exists_of_mapM_ok {f : α → Except ε β} {l : List α} {bs : List β}
    (h : l.mapM f = .ok bs) {x : α} (hx : x ∈ l) : ∃ b, f x = .ok b := by
  rw [mapM_eq_ok_iff] at h
  induction h with
  | nil => exact absurd hx List.not_mem_nil
  | cons hb _ ih =>
    rcases List.mem_cons.mp hx with rfl | hx
    · exact ⟨_, hb⟩
    · exact ih hx

/-- What holds of every result holds of the list of the results. -/
theorem forall_of_mapM_ok {f : α → Except ε β} {Q : β → Prop} {l : List α} {bs : List β}
    (h : l.mapM f = .ok bs) (hf : ∀ x ∈ l, ∀ b, f x = .ok b → Q b) : ∀ b ∈ bs, Q b := by
  rw [mapM_eq_ok_iff] at h
  induction h with
  | nil => exact List.forall_mem_nil _
  | cons hb _ ih =>
    rw [List.forall_mem_cons] at hf ⊢
    exact ⟨hf.1 _ hb, ih hf.2⟩

/-- A relation between the elements and their results. -/
theorem forall₂_iff_of_mapM {f : α → Except ε β} {S : α → β → Prop} {l : List α} {bs : List β}
    (h : l.mapM f = .ok bs) :
    List.Forall₂ S l bs ↔ ∀ x ∈ l, ∀ b, f x = .ok b → S x b := by
  rw [mapM_eq_ok_iff] at h
  induction h with
  | nil => exact iff_of_true .nil fun x hx => absurd hx List.not_mem_nil
  | cons hb _ ih =>
    rw [List.forall₂_cons, ih, List.forall_mem_cons]
    refine and_congr ⟨fun hS b hb' => ?_, fun hS => hS _ hb⟩ Iff.rfl
    cases hb.symm.trans hb'
    exact hS

/-- A program for every index of a list. -/
theorem mapM_range {f : ℕ → Except ε β} {S : α → β → Prop} {l : List α}
    (h : ∀ t (ht : t < l.length), Returns (f t) (S l[t])) :
    Returns ((List.range l.length).mapM f) (List.Forall₂ S l) := by
  obtain ⟨bs, hbs⟩ := exists_mapM_eq_ok (l := List.range l.length) (f := f) fun t ht => by
    obtain ⟨b, hb, -⟩ := h t (List.mem_range.mp ht)
    exact ⟨b, hb⟩
  refine ⟨bs, hbs, ?_⟩
  obtain ⟨hlength, hget⟩ := List.forall₂_iff_get.mp (mapM_eq_ok_iff.mp hbs)
  rw [List.length_range] at hlength
  refine List.forall₂_iff_get.mpr ⟨hlength, fun t ht ht' => ?_⟩
  have hb := hget t (by rwa [List.length_range]) ht'
  rw [List.get_eq_getElem, List.getElem_range] at hb
  exact (h t ht).of_ok hb

/-- A loop that returned went through its body for every element. -/
theorem exists_of_foldlM_ok {body : σ → α → Except ε σ} {l : List α} {s r : σ}
    (h : l.foldlM body s = .ok r) {x : α} (hx : x ∈ l) : ∃ s s', body s x = .ok s' := by
  induction l generalizing s with
  | nil => exact absurd hx List.not_mem_nil
  | cons y rest ih =>
    rw [List.foldlM_cons] at h
    obtain ⟨s', hbody, hrest⟩ := exists_of_bind_ok h
    rcases List.mem_cons.mp hx with rfl | hx
    · exact ⟨s, s', hbody⟩
    · exact ih hrest hx

/-- A property that the body keeps where it returns. -/
theorem of_foldlM_ok {body : σ → α → Except ε σ} {I : σ → Prop} {l : List α} {s r : σ}
    (h : l.foldlM body s = .ok r) (hs : I s)
    (hbody : ∀ s x s', I s → body s x = .ok s' → I s') : I r := by
  -- a fold that returns has run every step of the list
  induction l generalizing s with
  | nil =>
    cases h
    exact hs
  | cons x rest ih =>
    rw [List.foldlM_cons] at h
    obtain ⟨s', hs', hrest⟩ := exists_of_bind_ok h
    exact ih hrest (hbody s x s' hs hs')

end Returns

/-- `x` fails with an error that satisfies `E`, or returns a value that satisfies `Q`. -/
def Ends (x : Except ε α) (E : ε → Prop) (Q : α → Prop) : Prop :=
  match x with
  | .ok a => Q a
  | .error e => E e

namespace Ends

variable {x : Except ε α} {E E' : ε → Prop} {Q R : α → Prop} {a : α} {e : ε}

theorem pure (h : Q a) : Ends (Pure.pure a : Except ε α) E Q := h

theorem error (h : E e) : Ends (.error e : Except ε α) E Q := h

theorem of_returns (h : Returns x Q) : Ends x E Q := by
  obtain ⟨a, rfl, ha⟩ := h
  exact ha

/-- A program without the errors that it may end with returns. -/
theorem returns (h : Ends x E Q) (hE : ∀ e, ¬ E e) : Returns x Q := by
  cases x with
  | ok a => exact ⟨a, rfl, h⟩
  | error e => exact absurd h (hE e)

/-- Consequence. -/
theorem mono (h : Ends x E Q) (hE : ∀ e, E e → E' e) (hQ : ∀ a, Q a → R a) : Ends x E' R := by
  cases x with
  | ok a => exact hQ a h
  | error e => exact hE e h

/-- Sequencing. -/
theorem bind {f : α → Except ε β} {S : β → Prop} (h : Ends x E Q)
    (hf : ∀ a, Q a → Ends (f a) E S) : Ends (x >>= f) E S := by
  cases x with
  | ok a => exact hf a h
  | error e => exact h

/-- **Counting loops.** The invariant is indexed by the number of passes. -/
theorem foldlM_range {body : σ → ℕ → Except ε σ} {I : ℕ → σ → Prop} {n : ℕ} {s : σ}
    (h : I 0 s) (hstep : ∀ i s, i < n → I i s → Ends (body s i) E (I (i + 1))) :
    Ends ((List.range n).foldlM body s) E (I n) := by
  induction n with
  | zero => exact Ends.pure h
  | succ n ih =>
    rw [foldlM_range_succ]
    refine (ih fun i s hi hI => hstep i s (Nat.lt_succ_of_lt hi) hI).bind fun s' hI => ?_
    exact hstep n s' (Nat.lt_succ_self n) hI

end Ends
