import Mathlib.Algebra.GroupWithZero.Nat
import Mathlib.Data.List.Perm.Subperm
import Mathlib.Data.List.Sort
import Mathlib.Order.Bounds.Basic

/-!
# Greedy filling of bins

Items are put in bins of capacity `Z`, one bin for each level, from the last level
down to level 0. Each bin takes, in the order of the list, the first items that fit
it until it is full.

* `take p n l` and `rest p n l` split a list to the first `n` elements that satisfy
  `p` and the others.
* `placedAt` and `leftover` are the outcome of the filling: what the bin of a level
  gets, and what is left. `placed_append_leftover_perm` says that every item is in one of
  them.
* `isLeast_leftover` says that no other way to fill the bins leaves less, if an item that fits
  a bin fits the bins of all smaller levels.
* `select` is the split as an imperative scan computes it, with the positions of the
  selected elements; `foldl_eraseIdx_select` says that erasing these positions,
  largest first, leaves `rest`.
-/

namespace Greedy

variable {α : Type}

/-- The first `n` elements of `l` that satisfy `p`. -/
def take (p : α → Bool) : ℕ → List α → List α
  | 0, _ => []
  | _ + 1, [] => []
  | n + 1, x :: l => if p x then x :: take p n l else take p (n + 1) l

/-- What is left of `l` without the first `n` elements that satisfy `p`. -/
def rest (p : α → Bool) : ℕ → List α → List α
  | 0, l => l
  | _ + 1, [] => []
  | n + 1, x :: l => if p x then rest p n l else x :: rest p (n + 1) l

section Split

variable (p : α → Bool)

theorem length_take_le (n : ℕ) (l : List α) : (take p n l).length ≤ n := by
  induction l generalizing n with
  | nil => cases n <;> exact Nat.zero_le _
  | cons x l ih =>
    cases n with
    | zero => exact Nat.zero_le _
    | succ n =>
      rw [take]
      split
      · exact Nat.succ_le_succ (ih n)
      · exact ih (n + 1)

theorem of_mem_take {n : ℕ} {l : List α} {x : α} (h : x ∈ take p n l) : p x = true := by
  induction l generalizing n with
  | nil => cases n <;> exact absurd h List.not_mem_nil
  | cons y l ih =>
    cases n with
    | zero => exact absurd h List.not_mem_nil
    | succ n =>
      rw [take] at h
      split at h
      · next hy =>
        rcases List.mem_cons.mp h with rfl | h
        · exact hy
        · exact ih h
      · exact ih h

/-- All elements that satisfy `p` are taken, if they are no more than `n`. -/
theorem mem_take {n : ℕ} {l : List α} (hle : l.countP p ≤ n) {x : α} (hx : x ∈ l)
    (hp : p x = true) : x ∈ take p n l := by
  induction l generalizing n with
  | nil => exact absurd hx List.not_mem_nil
  | cons y l ih =>
    cases n with
    | zero => exact absurd (List.countP_pos_iff.mpr ⟨x, hx, hp⟩) (not_lt.mpr hle)
    | succ n =>
      rw [take]
      split
      · next hy =>
        rw [List.countP_cons_of_pos hy] at hle
        rcases List.mem_cons.mp hx with rfl | hx
        · exact List.mem_cons_self
        · exact List.mem_cons_of_mem _ (ih (Nat.le_of_succ_le_succ hle) hx)
      · next hy =>
        rw [List.countP_cons_of_neg hy] at hle
        rcases List.mem_cons.mp hx with rfl | hx
        · exact absurd hp hy
        · exact ih hle hx

/-- If fewer than `n` elements are taken, the others do not satisfy `p`. -/
theorem not_fits_of_mem_rest {n : ℕ} {l : List α} (hlt : (take p n l).length < n) {x : α}
    (hx : x ∈ rest p n l) : ¬p x = true := by
  induction l generalizing n with
  | nil => cases n <;> exact absurd hx List.not_mem_nil
  | cons y l ih =>
    cases n with
    | zero => exact absurd hlt (Nat.not_lt_zero _)
    | succ n =>
      rw [take] at hlt
      rw [rest] at hx
      split at hx
      · next hy =>
        rw [if_pos hy, List.length_cons] at hlt
        exact ih (Nat.lt_of_succ_lt_succ hlt) hx
      · next hy =>
        rw [if_neg hy] at hlt
        rcases List.mem_cons.mp hx with rfl | hx
        · exact hy
        · exact ih hlt hx

theorem countP_or_le (q : α → Bool) (l : List α) :
    l.countP (fun x => p x || q x) ≤ l.countP p + l.countP q := by
  induction l with
  | nil => exact Nat.zero_le _
  | cons x l ih =>
    rw [List.countP_cons, List.countP_cons, List.countP_cons]
    cases p x <;> cases q x <;> simp <;> omega

/-- The split loses and duplicates nothing. -/
theorem take_append_rest_perm (n : ℕ) (l : List α) : (take p n l ++ rest p n l).Perm l := by
  induction l generalizing n with
  | nil => cases n <;> exact List.Perm.refl _
  | cons x l ih =>
    cases n with
    | zero => exact List.Perm.refl _
    | succ n =>
      -- The first element goes to one of the two parts.
      rw [take, rest]
      split
      · exact (ih n).cons x
      · exact List.perm_middle.trans ((ih (n + 1)).cons x)

end Split

/-! ### The scan of an imperative program -/

/-- The selected elements and their positions, counted from `i`. -/
def select (p : α → Bool) : ℕ → List α → ℕ → List α × List ℕ
  | 0, _, _ => ([], [])
  | _ + 1, [], _ => ([], [])
  | n + 1, x :: l, i =>
    if p x then (x :: (select p n l (i + 1)).1, i :: (select p n l (i + 1)).2)
    else select p (n + 1) l (i + 1)

section Select

variable (p : α → Bool)

theorem select_fst (n : ℕ) (l : List α) (i : ℕ) : (select p n l i).1 = take p n l := by
  induction l generalizing n i with
  | nil => cases n <;> rfl
  | cons x l ih =>
    cases n with
    | zero => rfl
    | succ n =>
      rw [select, take]
      split
      · rw [ih n (i + 1)]
      · exact ih (n + 1) (i + 1)

theorem le_of_mem_select {n : ℕ} {l : List α} {i k : ℕ} (h : k ∈ (select p n l i).2) :
    i ≤ k := by
  induction l generalizing n i with
  | nil => cases n <;> exact absurd h List.not_mem_nil
  | cons x l ih =>
    cases n with
    | zero => exact absurd h List.not_mem_nil
    | succ n =>
      rw [select] at h
      split at h
      · rcases List.mem_cons.mp h with rfl | h
        · exact le_rfl
        · exact (Nat.le_succ i).trans (ih h)
      · exact (Nat.le_succ i).trans (ih h)

/-- The positions are found in increasing order. -/
theorem pairwise_select (n : ℕ) (l : List α) (i : ℕ) :
    (select p n l i).2.Pairwise (· < ·) := by
  induction l generalizing n i with
  | nil => cases n <;> exact List.Pairwise.nil
  | cons x l ih =>
    cases n with
    | zero => exact List.Pairwise.nil
    | succ n =>
      rw [select]
      split
      · exact List.Pairwise.cons (fun k hk => le_of_mem_select p hk) (ih n (i + 1))
      · exact ih (n + 1) (i + 1)

/-- Sorting the positions in decreasing order reverses them. -/
theorem mergeSort_select (n : ℕ) (l : List α) (i : ℕ) :
    (select p n l i).2.mergeSort (· ≥ ·) = (select p n l i).2.reverse := by
  -- A sorted permutation is unique, and the reversed list is one.
  have hsorted : ((select p n l i).2.mergeSort (· ≥ ·)).Pairwise (· ≥ ·) :=
    List.pairwise_mergeSort' (· ≥ ·) _
  have hreverse : ((select p n l i).2.reverse).Pairwise (· ≥ ·) :=
    List.pairwise_reverse.mpr ((pairwise_select p n l i).imp le_of_lt)
  exact List.Perm.eq_of_pairwise' hsorted hreverse
    ((List.mergeSort_perm _ _).trans (List.reverse_perm _).symm)

/-- Erasing the selected positions, largest first, leaves the rest. -/
theorem foldl_eraseIdx_reverse (n : ℕ) (l pre : List α) :
    (select p n l pre.length).2.reverse.foldl List.eraseIdx (pre ++ l) =
      pre ++ rest p n l := by
  -- The positions are those in the whole list, of which `pre` was scanned without a selection.
  induction l generalizing n pre with
  | nil => cases n <;> rfl
  | cons x l ih =>
    cases n with
    | zero => rfl
    | succ n =>
      have hsnoc : pre ++ x :: l = (pre ++ [x]) ++ l := by simp
      have hlen : pre.length + 1 = (pre ++ [x]).length := by simp
      rw [select, rest, hsnoc, hlen]
      split
      -- The position of `x` is the smallest, so it is erased last.
      · rw [List.reverse_cons, List.foldl_append, ih n (pre ++ [x]), List.foldl_cons,
          List.foldl_nil, List.append_assoc, List.eraseIdx_append_of_length_le le_rfl,
          Nat.sub_self]
        rfl
      -- `x` is left, and joins what the scan has passed.
      · rw [ih (n + 1) (pre ++ [x]), List.append_assoc]
        rfl

theorem foldl_eraseIdx_select (n : ℕ) (l : List α) :
    ((select p n l 0).2.mergeSort (· ≥ ·)).foldl List.eraseIdx l = rest p n l := by
  rw [mergeSort_select]
  exact foldl_eraseIdx_reverse p n l []

end Select

/-! ### Filling the bins of all levels -/

section Levels

variable (fits : ℕ → α → Bool) (Z : ℕ)

/-- What the bin of level `k` gets when levels `levels - 1, …, 0` are filled. -/
def placedAt : ℕ → List α → ℕ → List α
  | 0, _, _ => []
  | level + 1, l, k =>
    if k = level then take (fits level) Z l
    else placedAt level (rest (fits level) Z l) k

/-- What is left after all levels. -/
def leftover : ℕ → List α → List α
  | 0, l => l
  | level + 1, l => leftover level (rest (fits level) Z l)

/-- Everything that was placed, last level first. -/
def placed : ℕ → List α → List α
  | 0, _ => []
  | level + 1, l => take (fits level) Z l ++ placed level (rest (fits level) Z l)

variable {fits Z} {levels k : ℕ} {l : List α} {x : α}

/-- The last level is filled first, from all of the list. -/
theorem placedAt_last (hlevels : 0 < levels) :
    placedAt fits Z levels l (levels - 1) = take (fits (levels - 1)) Z l := by
  cases levels with
  | zero => exact absurd hlevels (Nat.lt_irrefl 0)
  | succ level => exact if_pos rfl

theorem fits_of_mem_placedAt (h : x ∈ placedAt fits Z levels l k) : fits k x = true := by
  induction levels generalizing l with
  | zero => exact absurd h List.not_mem_nil
  | succ level ih =>
    -- Either this is the level, or the block was placed on a level below.
    rw [placedAt] at h
    split at h
    · next hk =>
      subst hk
      exact of_mem_take _ h
    · exact ih h

theorem mem_placed : x ∈ placed fits Z levels l ↔ ∃ k < levels, x ∈ placedAt fits Z levels l k := by
  induction levels generalizing l with
  | zero => simp [placed]
  | succ level ih =>
    rw [placed, List.mem_append, ih]
    constructor
    · rintro (h | ⟨k, hk, h⟩)
      · exact ⟨level, Nat.lt_succ_self level, by rwa [placedAt, if_pos rfl]⟩
      · exact ⟨k, Nat.lt_succ_of_lt hk, by rwa [placedAt, if_neg (by omega)]⟩
    · rintro ⟨k, hk, h⟩
      rw [placedAt] at h
      split at h
      · exact Or.inl h
      · exact Or.inr ⟨k, by omega, h⟩

/-- **Every item is placed once or left over.** -/
theorem placed_append_leftover_perm :
    (placed fits Z levels l ++ leftover fits Z levels l).Perm l := by
  induction levels generalizing l with
  | zero => exact List.Perm.refl _
  | succ level ih =>
    rw [placed, leftover, List.append_assoc]
    -- The levels below split what this level leaves.
    exact (ih.append_left _).trans (take_append_rest_perm _ _ _)

/-- The first item of the list is placed if it fits any bin. -/
theorem mem_placed_of_head (hZ : 0 < Z) (hk : k < levels) (hfits : fits k x = true) :
    x ∈ placed fits Z levels (x :: l) := by
  obtain ⟨room, rfl⟩ := Nat.exists_eq_succ_of_ne_zero (Nat.ne_of_gt hZ)
  induction levels generalizing l with
  | zero => exact absurd hk (Nat.not_lt_zero k)
  | succ level ih =>
    rw [placed, take, rest]
    split
    · exact List.mem_append_left _ List.mem_cons_self
    · next hlevel =>
      -- It is still the first item when the next bin is filled.
      have hne : k ≠ level := fun h => hlevel (h ▸ hfits)
      exact List.mem_append_right _ (ih (lt_of_le_of_ne (Nat.lt_succ_iff.mp hk) hne))

/-- The bins together hold what was placed. -/
theorem flatMap_placedAt_perm :
    ((List.range levels).flatMap (placedAt fits Z levels l)).Perm (placed fits Z levels l) := by
  induction levels generalizing l with
  | zero => exact List.Perm.refl _
  | succ level ih =>
    -- The last level has the first bin, and the others are those of the levels below.
    have hlast : placedAt fits Z (level + 1) l level = take (fits level) Z l := by
      rw [placedAt, if_pos rfl]
    have hinit : (List.range level).flatMap (placedAt fits Z (level + 1) l) =
        (List.range level).flatMap (placedAt fits Z level (rest (fits level) Z l)) :=
      List.flatMap_congr fun k hk => by
        rw [placedAt, if_neg (List.mem_range.mp hk).ne]
    rw [List.range_succ, List.flatMap_append, List.flatMap_singleton, hinit, hlast, placed]
    exact List.perm_append_comm.trans (ih.append_left _)

/-- Counting bin by bin. -/
theorem sum_countP_placedAt (q : α → Bool) :
    ((List.range levels).map (fun k => (placedAt fits Z levels l k).countP q)).sum =
      (placed fits Z levels l).countP q := by
  rw [← flatMap_placedAt_perm.countP_eq, List.countP_flatMap]
  rfl

end Levels

/-! ### No other filling leaves less -/

section Optimal

/-- Items are assigned to bins that they fit, and no bin gets more than it holds. -/
structure Assignment (fits : ℕ → α → Bool) (Z levels : ℕ) (l : List α) (a : α → Option ℕ) :
    Prop where
  fits : ∀ x ∈ l, ∀ k, a x = some k → k < levels ∧ fits k x = true
  capacity : ∀ k < levels, l.countP (fun x => a x = some k) ≤ Z

/-- The item fits no bin from level `m` on. -/
def blocked (fits : ℕ → α → Bool) (levels m : ℕ) (x : α) : Bool :=
  decide (∀ k < levels, m ≤ k → fits k x = false)

variable {fits : ℕ → α → Bool} {Z levels m : ℕ} {l l' : List α} {a : α → Option ℕ}

theorem Assignment.perm (h : Assignment fits Z levels l a) (hl : l.Perm l') :
    Assignment fits Z levels l' a where
  fits x hx := h.fits x (hl.mem_iff.mpr hx)
  capacity k hk := hl.countP_eq (fun x => a x = some k) ▸ h.capacity k hk

/-- The bins of the first `m` levels hold at most `m * Z` items. -/
theorem Assignment.countP_lt_le (h : Assignment fits Z levels l a) (hm : m ≤ levels) :
    l.countP (fun x => decide (∃ k < m, a x = some k)) ≤ m * Z := by
  induction m with
  | zero => simp
  | succ m ih =>
    have hsplit : ∀ x ∈ l, decide (∃ k < m + 1, a x = some k) = true →
        (decide (∃ k < m, a x = some k) || decide (a x = some m)) = true := fun x _ hx => by
      obtain ⟨k, hk, hak⟩ := of_decide_eq_true hx
      rcases Nat.lt_succ_iff_lt_or_eq.mp hk with hlt | rfl
      · exact Bool.or_eq_true_iff.mpr (Or.inl (decide_eq_true ⟨k, hlt, hak⟩))
      · exact Bool.or_eq_true_iff.mpr (Or.inr (decide_eq_true hak))
    calc l.countP (fun x => decide (∃ k < m + 1, a x = some k))
        ≤ l.countP (fun x => decide (∃ k < m, a x = some k) || decide (a x = some m)) :=
          List.countP_mono_left hsplit
      _ ≤ l.countP (fun x => decide (∃ k < m, a x = some k)) +
            l.countP (fun x => decide (a x = some m)) := countP_or_le _ _ l
      _ ≤ m * Z + Z := Nat.add_le_add (ih (Nat.le_of_succ_le hm)) (h.capacity m hm)
      _ = (m + 1) * Z := (Nat.succ_mul m Z).symm

/-- **A lower bound for every filling.** What is blocked from level `m` on goes to the first
`m` bins or is left. -/
theorem Assignment.countP_blocked_le (h : Assignment fits Z levels l a) (hm : m ≤ levels) :
    l.countP (blocked fits levels m) ≤ l.countP (fun x => a x = none) + m * Z := by
  have hsplit : ∀ x ∈ l, blocked fits levels m x = true →
      (decide (a x = none) || decide (∃ k < m, a x = some k)) = true := fun x hx hblocked => by
    refine Bool.or_eq_true_iff.mpr ?_
    cases hax : a x with
    | none => exact Or.inl (decide_eq_true rfl)
    | some k =>
      obtain ⟨hk, hfits⟩ := h.fits x hx k hax
      refine Or.inr (decide_eq_true ⟨k, ?_, rfl⟩)
      by_contra hle
      have hno := of_decide_eq_true hblocked k hk (not_lt.mp hle)
      exact Bool.false_ne_true (hno.symm.trans hfits)
  calc l.countP (blocked fits levels m)
      ≤ l.countP (fun x => decide (a x = none) || decide (∃ k < m, a x = some k)) :=
        List.countP_mono_left hsplit
    _ ≤ l.countP (fun x => a x = none) + l.countP (fun x => decide (∃ k < m, a x = some k)) :=
        countP_or_le _ _ l
    _ ≤ l.countP (fun x => a x = none) + m * Z := Nat.add_le_add_left (h.countP_lt_le hm) _

/-- **The greedy filling meets the bound** of some level: below it all bins are full, and what
fits a bin above it is placed above it. -/
theorem exists_tight_level (hmono : ∀ k x, fits (k + 1) x = true → fits k x = true) :
    ∃ m ≤ levels, (leftover fits Z levels l).length + m * Z ≤ l.countP (blocked fits levels m) := by
  induction levels generalizing l with
  | zero =>
    refine ⟨0, le_rfl, ?_⟩
    have hall : ∀ x ∈ l, blocked fits 0 0 x = true := fun x _ =>
      decide_eq_true fun k hk => absurd hk (Nat.not_lt_zero k)
    rw [leftover, List.countP_eq_length.mpr hall, Nat.zero_mul]
    exact le_rfl
  | succ level ih =>
    rw [leftover]
    set taken := take (fits level) Z l
    set r := rest (fits level) Z l
    have hperm : (taken ++ r).Perm l := take_append_rest_perm (fits level) Z l
    obtain ⟨m, hm, htight⟩ := ih (l := r)
    have hle : ∀ q : α → Bool, r.countP q ≤ l.countP q := fun q => by
      rw [← hperm.countP_eq, List.countP_append]
      exact Nat.le_add_left _ _
    -- It is enough that what is blocked among the rest does not fit the last bin either.
    have hkeep : (∀ x ∈ r, blocked fits level m x = true → fits level x = false) →
        (leftover fits Z level r).length + m * Z ≤ l.countP (blocked fits (level + 1) m) := by
      intro hlast
      refine htight.trans (le_trans (List.countP_mono_left fun x hx hblocked => ?_) (hle _))
      refine decide_eq_true fun k hk hmk => ?_
      rcases Nat.lt_succ_iff_lt_or_eq.mp hk with hlt | rfl
      · exact of_decide_eq_true hblocked k hlt hmk
      · exact hlast x hx hblocked
    by_cases hfull : taken.length = Z
    · rcases hm.lt_or_eq with hlt | rfl
      · -- What does not fit the bin before does not fit the last one.
        refine ⟨m, hm.trans (Nat.le_succ _), hkeep fun x _ hblocked => ?_⟩
        obtain ⟨k, rfl⟩ := Nat.exists_eq_succ_of_ne_zero (Nat.ne_of_gt (Nat.zero_lt_of_lt hlt))
        have hno := of_decide_eq_true hblocked k (Nat.lt_succ_self k) (Nat.le_of_lt_succ hlt)
        exact Bool.eq_false_iff.mpr fun h => Bool.false_ne_true (hno.symm.trans (hmono k x h))
      · -- All bins are full.
        refine ⟨m + 1, le_rfl, ?_⟩
        have hall : ∀ x ∈ l, blocked fits (m + 1) (m + 1) x = true := fun x _ =>
          decide_eq_true fun k hk hmk => absurd hk (not_lt.mpr hmk)
        have hlength : taken.length + r.length = l.length := by
          rw [← List.length_append]
          exact hperm.length_eq
        have hcount : (leftover fits Z m r).length + m * Z ≤ r.length :=
          htight.trans List.countP_le_length
        rw [List.countP_eq_length.mpr hall, Nat.succ_mul]
        omega
    · -- The last bin has room, so it took all that fit.
      have hroom : taken.length < Z := lt_of_le_of_ne (length_take_le _ _ _) hfull
      exact ⟨m, hm.trans (Nat.le_succ _), hkeep fun x hx _ =>
        Bool.eq_false_iff.mpr (not_fits_of_mem_rest _ hroom hx)⟩

/-- No bin gets more than it holds. -/
theorem length_placedAt_le {k : ℕ} : (placedAt fits Z levels l k).length ≤ Z := by
  induction levels generalizing l with
  | zero => exact Nat.zero_le _
  | succ level ih =>
    rw [placedAt]
    split
    · exact length_take_le _ _ _
    · exact ih

/-- The filling as an assignment. -/
def binOf [DecidableEq α] (fits : ℕ → α → Bool) (Z levels : ℕ) (l : List α) (x : α) : Option ℕ :=
  (List.range levels).find? fun k => x ∈ placedAt fits Z levels l k

variable [DecidableEq α]

theorem mem_placedAt_of_binOf {x : α} {k : ℕ} (h : binOf fits Z levels l x = some k) :
    k < levels ∧ x ∈ placedAt fits Z levels l k := by
  have hfound : decide (x ∈ placedAt fits Z levels l k) = true :=
    List.find?_some (p := fun k => decide (x ∈ placedAt fits Z levels l k)) h
  exact ⟨List.mem_range.mp (List.mem_of_find?_eq_some h), of_decide_eq_true hfound⟩

theorem binOf_eq_none {x : α} :
    binOf fits Z levels l x = none ↔ x ∉ placed fits Z levels l := by
  rw [binOf, List.find?_eq_none, mem_placed]
  simp only [List.mem_range, decide_eq_true_eq, not_exists, not_and]

theorem assignment_binOf (hl : l.Nodup) :
    Assignment fits Z levels l (binOf fits Z levels l) where
  fits x _ k h := ⟨(mem_placedAt_of_binOf h).1, fits_of_mem_placedAt (mem_placedAt_of_binOf h).2⟩
  capacity k _ := by
    have hle : (placedAt fits Z levels l k).length ≤ Z := length_placedAt_le
    refine le_trans ?_ hle
    rw [List.countP_eq_length_filter]
    refine (List.Nodup.subperm (hl.filter _) fun x hx => ?_).length_le
    exact (mem_placedAt_of_binOf (of_decide_eq_true (List.mem_filter.mp hx).2)).2

/-- The filling leaves what it does not place. -/
theorem countP_binOf (hl : l.Nodup) :
    l.countP (fun x => binOf fits Z levels l x = none) = (leftover fits Z levels l).length := by
  have hperm : (placed fits Z levels l ++ leftover fits Z levels l).Perm l :=
    placed_append_leftover_perm
  have hdisjoint := List.disjoint_of_nodup_append (hperm.nodup_iff.mpr hl)
  have hplaced : (placed fits Z levels l).countP (fun x => binOf fits Z levels l x = none) = 0 :=
    List.countP_eq_zero.mpr fun x hx h => binOf_eq_none.mp (of_decide_eq_true h) hx
  have hleft : (leftover fits Z levels l).countP (fun x => binOf fits Z levels l x = none) =
      (leftover fits Z levels l).length :=
    List.countP_eq_length.mpr fun x hx =>
      decide_eq_true (binOf_eq_none.mpr fun h => hdisjoint h hx)
  rw [← hperm.countP_eq, List.countP_append, hplaced, hleft, Nat.zero_add]

/-- **The greedy filling leaves as few items as any.** -/
theorem isLeast_leftover (hmono : ∀ k x, fits (k + 1) x = true → fits k x = true) (hl : l.Nodup) :
    IsLeast {n | ∃ a, Assignment fits Z levels l a ∧ l.countP (fun x => a x = none) = n}
      (leftover fits Z levels l).length := by
  refine ⟨⟨_, assignment_binOf hl, countP_binOf hl⟩, ?_⟩
  rintro _ ⟨a, ha, rfl⟩
  obtain ⟨m, hm, htight⟩ : ∃ m ≤ levels, (leftover fits Z levels l).length + m * Z ≤
      l.countP (blocked fits levels m) := exists_tight_level hmono
  have hbound := ha.countP_blocked_le hm
  omega

end Optimal

end Greedy
