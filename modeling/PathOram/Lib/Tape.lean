import Mathlib.Data.Fintype.Pi
import Mathlib.Data.List.NodupEquivFin
import Mathlib.Logic.Equiv.Fintype

/-!
# Reading a random tape

A tape has a value in every cell. Drawing the values independently and uniformly is drawing
a tape uniformly, so that probabilities are numbers of tapes.

* `count_comp_eq` — two readings of a tape with the same distribution.
* `count_map_eq` — the values in distinct cells are distributed alike, whichever cells
  they are.
* `reveal` — a table whose entries are draws: reading an entry reveals its draw, and the
  entry is then drawn again. `nodup_reveal`: no draw is revealed twice.
-/

namespace Tape

/-! ### Counting tapes -/

section Counting

variable {κ α : Type*} [Fintype κ] [DecidableEq κ] [Fintype α] {l l' : List κ}
  {P Q : List α → Prop} [DecidablePred P] [DecidablePred Q]

/-- The number of tapes with a property. -/
def count (P : (κ → α) → Prop) [DecidablePred P] : ℕ := (Finset.univ.filter P).card

theorem count_congr {P Q : (κ → α) → Prop} [DecidablePred P] [DecidablePred Q]
    (h : ∀ τ, P τ ↔ Q τ) : count P = count Q := by
  unfold count
  congr 1
  ext τ
  rw [Finset.mem_filter, Finset.mem_filter, h]

/-- What two readings of a tape give equally often, they also have in common: any property of
it holds equally often. -/
theorem count_comp_eq {β : Type*} [DecidableEq β] {f g : (κ → α) → β}
    (h : ∀ t, count (fun τ => f τ = t) = count (fun τ => g τ = t)) (P : β → Prop)
    [DecidablePred P] : count (fun τ => P (f τ)) = count (fun τ => P (g τ)) := by
  have hmap : (Finset.univ : Finset (κ → α)).val.map f =
      (Finset.univ : Finset (κ → α)).val.map g := by
    ext t
    rw [Multiset.count_map, Multiset.count_map]
    simp only [eq_comm (a := t)]
    exact h t
  show (Multiset.filter _ _).card = (Multiset.filter _ _).card
  rw [← Multiset.countP_eq_card_filter, ← Multiset.countP_eq_card_filter]
  calc Multiset.countP (fun τ => P (f τ)) (Finset.univ : Finset (κ → α)).val
      = Multiset.countP P ((Finset.univ : Finset (κ → α)).val.map f) := by
        rw [Multiset.countP_map, Multiset.countP_eq_card_filter]
    _ = Multiset.countP P ((Finset.univ : Finset (κ → α)).val.map g) := by rw [hmap]
    _ = Multiset.countP (fun τ => P (g τ)) (Finset.univ : Finset (κ → α)).val := by
        rw [Multiset.countP_map, Multiset.countP_eq_card_filter]

omit [Fintype κ] [DecidableEq κ] in
/-- A permutation of the cells takes one list of distinct cells to another. -/
theorem exists_perm_map_eq (hl : l.Nodup) (hl' : l'.Nodup) (hlength : l.length = l'.length) :
    ∃ π : Equiv.Perm κ, l.map π = l' := by
  obtain ⟨π, hπ⟩ := Equiv.Perm.exists_extending_pair l.get (fun i => l'.get (i.cast hlength))
    (List.nodup_iff_injective_get.mp hl)
    ((List.nodup_iff_injective_get.mp hl').comp (Fin.cast_injective hlength))
  refine ⟨π, List.ext_getElem (by rw [List.length_map, hlength]) fun i hi _ => ?_⟩
  rw [List.length_map] at hi
  rw [List.getElem_map]
  exact hπ ⟨i, hi⟩

/-- **Distinct cells are alike.** How many tapes have values with a property in some distinct
cells does not depend on the cells. -/
theorem count_map_eq (hl : l.Nodup) (hl' : l'.Nodup) (hlength : l.length = l'.length) :
    count (fun τ : κ → α => P (l.map τ)) = count (fun τ => P (l'.map τ)) := by
  obtain ⟨π, rfl⟩ := exists_perm_map_eq hl hl' hlength
  -- a tape and the tape with its cells moved by `π`
  refine Finset.card_equiv (Equiv.arrowCongr π (Equiv.refl α)) fun τ => ?_
  have hmoved : (l.map π).map (Equiv.arrowCongr π (Equiv.refl α) τ) = l.map τ := by
    rw [List.map_map]
    refine List.map_congr_left fun cell _ => ?_
    show τ (π.symm (π cell)) = τ cell
    rw [Equiv.symm_apply_apply]
  rw [Finset.mem_filter, Finset.mem_filter, hmoved]
  exact and_congr_left fun _ => iff_of_true (Finset.mem_univ _) (Finset.mem_univ _)

omit [Fintype κ] [Fintype α] in
/-- Distinct cells can have any values. -/
theorem exists_map_eq [Nonempty α] (hl : l.Nodup) {w : List α} (hw : w.length = l.length) :
    ∃ τ : κ → α, l.map τ = w := by
  refine ⟨fun cell => (w[l.idxOf cell]?).getD (Classical.arbitrary α), ?_⟩
  refine List.ext_getElem (by rw [List.length_map, hw]) fun i hi hi' => ?_
  rw [List.length_map] at hi
  rw [List.getElem_map, hl.idxOf_getElem i hi, List.getElem?_eq_getElem hi', Option.getD_some]

/-- A property of the values that is weaker for some values holds for more tapes. -/
theorem count_map_lt [Nonempty α] (hl : l.Nodup)
    (hPQ : ∀ w, w.length = l.length → P w → Q w) {w : List α} (hw : w.length = l.length)
    (hP : ¬P w) (hQ : Q w) :
    count (fun τ : κ → α => P (l.map τ)) < count (fun τ : κ → α => Q (l.map τ)) := by
  obtain ⟨τ, rfl⟩ := exists_map_eq hl hw
  refine Finset.card_lt_card (Finset.ssubset_iff_of_subset ?_ |>.mpr ⟨τ, ?_, ?_⟩)
  · intro τ hτ
    rw [Finset.mem_filter] at hτ ⊢
    exact ⟨hτ.1, hPQ _ (List.length_map _) hτ.2⟩
  · exact Finset.mem_filter.mpr ⟨Finset.mem_univ τ, hQ⟩
  · exact fun h => hP (Finset.mem_filter.mp h).2

end Counting

/-! ### Tables of draws -/

section Tables

variable {ι : Type*} [DecidableEq ι] {σ : ι → ℕ} {k x : ℕ} {keys : List ι} {S : Set ι}

/-- The draws that are revealed when the entries of `keys` are read one after the other. The
entry of a key is the draw `σ key`; once read it is drawn again, and the next draw is
`k`. -/
def reveal : (ι → ℕ) → ℕ → List ι → List ℕ
  | _, _, [] => []
  | σ, k, key :: keys => σ key :: reveal (Function.update σ key k) (k + 1) keys

@[simp] theorem length_reveal : (reveal σ k keys).length = keys.length := by
  induction keys generalizing σ k with
  | nil => rfl
  | cons key keys ih => rw [reveal, List.length_cons, List.length_cons, ih]

/-- The draws from before that are revealed are the entries from before. -/
theorem mem_reveal_iff (hx : x < k) : x ∈ reveal σ k keys ↔ ∃ key ∈ keys, σ key = x := by
  induction keys generalizing σ k with
  | nil => simp [reveal]
  | cons key keys ih =>
    rw [reveal, List.mem_cons, ih (hx.trans k.lt_succ_self)]
    constructor
    · rintro (rfl | ⟨key', hkey', hσ⟩)
      · exact ⟨key, List.mem_cons_self, rfl⟩
      · -- an entry that was drawn again holds `k`
        have hne : key' ≠ key := by
          rintro rfl
          rw [Function.update_self] at hσ
          omega
        rw [Function.update_of_ne hne] at hσ
        exact ⟨key', List.mem_cons_of_mem key hkey', hσ⟩
    · rintro ⟨key', hkey', hσ⟩
      by_cases heq : key' = key
      · exact Or.inl (by rw [← hσ, heq])
      · refine Or.inr ⟨key', (List.mem_cons.mp hkey').resolve_left heq, ?_⟩
        rw [Function.update_of_ne heq, hσ]

/-- Entries are draws from before, also after one was drawn again. -/
theorem update_lt (hσ : ∀ key ∈ S, σ key < k) (key : ι) :
    ∀ key' ∈ S, Function.update σ key k key' < k + 1 := by
  intro key' hkey'
  by_cases heq : key' = key
  · rw [heq, Function.update_self]
    exact k.lt_succ_self
  · rw [Function.update_of_ne heq]
    exact (hσ key' hkey').trans k.lt_succ_self

/-- Different keys hold different draws, also after one was drawn again. -/
theorem injOn_update (hσ : ∀ key ∈ S, σ key < k) (hinj : Set.InjOn σ S) (key : ι) :
    Set.InjOn (Function.update σ key k) S := by
  intro a ha b hb heq
  by_cases hak : a = key <;> by_cases hbk : b = key
  · rw [hak, hbk]
  · rw [hak, Function.update_self, Function.update_of_ne hbk] at heq
    exact absurd heq (hσ b hb).ne'
  · rw [hbk, Function.update_self, Function.update_of_ne hak] at heq
    exact absurd heq (hσ a ha).ne
  · rw [Function.update_of_ne hak, Function.update_of_ne hbk] at heq
    exact hinj ha hb heq

/-- Only draws that were made are revealed. -/
theorem lt_of_mem_reveal (hσ : ∀ key ∈ S, σ key < k) (hkeys : ∀ key ∈ keys, key ∈ S)
    (hx : x ∈ reveal σ k keys) : x < k + keys.length := by
  induction keys generalizing σ k with
  | nil => exact absurd hx List.not_mem_nil
  | cons key keys ih =>
    rw [List.length_cons]
    rcases List.mem_cons.mp hx with rfl | hx
    · have := hσ key (hkeys key List.mem_cons_self)
      omega
    · have := ih (update_lt hσ key) (fun key' h => hkeys key' (List.mem_cons_of_mem _ h)) hx
      omega

/-- **No draw is revealed twice**, when different keys hold different draws. -/
theorem nodup_reveal (hσ : ∀ key ∈ S, σ key < k) (hinj : Set.InjOn σ S)
    (hkeys : ∀ key ∈ keys, key ∈ S) : (reveal σ k keys).Nodup := by
  induction keys generalizing σ k with
  | nil => exact List.nodup_nil
  | cons key keys ih =>
    have hkey : key ∈ S := hkeys key List.mem_cons_self
    have htail : ∀ key' ∈ keys, key' ∈ S := fun key' h => hkeys key' (List.mem_cons_of_mem _ h)
    refine List.nodup_cons.mpr
      ⟨fun hmem => ?_, ih (update_lt hσ key) (injOn_update hσ hinj key) htail⟩
    -- the draw was replaced, and no other key holds it
    have hlt := hσ key hkey
    obtain ⟨key', hkey', hheld⟩ := (mem_reveal_iff (hlt.trans k.lt_succ_self)).mp hmem
    by_cases heq : key' = key
    · rw [heq, Function.update_self] at hheld
      exact absurd hheld hlt.ne'
    · rw [Function.update_of_ne heq] at hheld
      exact heq (hinj (htail key' hkey') hkey hheld)

/-- As many draws from before are revealed as there are different keys. -/
theorem length_filter_reveal (hσ : ∀ key ∈ S, σ key < k) (hinj : Set.InjOn σ S)
    (hkeys : ∀ key ∈ keys, key ∈ S) :
    ((reveal σ k keys).filter (· < k)).length = keys.toFinset.card := by
  have hnodup := (nodup_reveal hσ hinj hkeys).filter (· < k)
  have himage : ((reveal σ k keys).filter (· < k)).toFinset = keys.toFinset.image σ := by
    ext x
    rw [List.mem_toFinset, List.mem_filter, Finset.mem_image, decide_eq_true_eq]
    constructor
    · rintro ⟨hmem, hx⟩
      obtain ⟨key, hkey, hheld⟩ := (mem_reveal_iff hx).mp hmem
      exact ⟨key, List.mem_toFinset.mpr hkey, hheld⟩
    · rintro ⟨key, hkey, rfl⟩
      have hkey := List.mem_toFinset.mp hkey
      have hx := hσ key (hkeys key hkey)
      exact ⟨(mem_reveal_iff hx).mpr ⟨key, hkey, rfl⟩, hx⟩
  calc ((reveal σ k keys).filter (· < k)).length
      = ((reveal σ k keys).filter (· < k)).toFinset.card :=
        (List.toFinset_card_of_nodup hnodup).symm
    _ = (keys.toFinset.image σ).card := by rw [himage]
    _ = keys.toFinset.card := Finset.card_image_of_injOn fun a ha b hb h =>
        hinj (hkeys a (List.mem_toFinset.mp ha)) (hkeys b (List.mem_toFinset.mp hb)) h

end Tables

end Tape
