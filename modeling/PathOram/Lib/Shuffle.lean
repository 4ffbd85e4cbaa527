import Mathlib.Algebra.BigOperators.Intervals
import Mathlib.Data.List.Perm.Basic
import Mathlib.Data.List.Permutation
import Mathlib.Data.Nat.Factorial.BigOperators
import Mathlib.Data.Set.Card
import Mathlib.Data.Stream.Init

/-!
# The Fisher–Yates shuffle

The in-place shuffle of an array driven by a stream of draws. Step `i` swaps position
`i` with position `i + d % (n - i)`, where `d` is the next draw, and the last
position is not drawn for. Whatever the draws, the result is a permutation of the
input (`perm_shuffle`), so a shuffle with arbitrary draws also stands for an order
that a container leaves unspecified. When the elements are different, every order comes from
one sequence of draws (`bijOn_shuffleBy`), so uniform draws give a uniform order.
-/

namespace FisherYates

variable {α : Type}

/-- `steps` swaps from position `i` on, the draws reduced for an array of `n`
elements. Returns the array and the draws that are left. -/
def shuffleFrom (n : ℕ) : ℕ → ℕ → Array α → Stream' ℕ → Array α × Stream' ℕ
  | 0, _, xs, draws => (xs, draws)
  | steps + 1, i, xs, draws =>
    shuffleFrom n steps (i + 1) (xs.swapIfInBounds i (i + draws.head % (n - i))) draws.tail

/-- Shuffle the first `n` elements of a list: `n - 1` swaps, none when `n < 2`. -/
def shuffleN (n : ℕ) (l : List α) (draws : Stream' ℕ) : List α × Stream' ℕ :=
  ((shuffleFrom n (n - 1) 0 l.toArray draws).1.toList,
    (shuffleFrom n (n - 1) 0 l.toArray draws).2)

/-- Shuffle a whole list. -/
def shuffle (l : List α) (draws : Stream' ℕ) : List α × Stream' ℕ :=
  shuffleN l.length l draws

theorem perm_swapIfInBounds (xs : Array α) (i j : ℕ) :
    (xs.swapIfInBounds i j).toList.Perm xs.toList := by
  rw [Array.swapIfInBounds_def]
  -- Positions out of bounds leave the array alone.
  split
  · split
    · next hi hj => exact Array.perm_iff_toList_perm.mp (Array.swap_perm hi hj)
    · exact List.Perm.refl _
  · exact List.Perm.refl _

theorem perm_shuffleFrom (n steps i : ℕ) (xs : Array α) (draws : Stream' ℕ) :
    (shuffleFrom n steps i xs draws).1.toList.Perm xs.toList := by
  induction steps generalizing i xs draws with
  | zero => exact List.Perm.refl _
  -- The swap comes first, then the other steps.
  | succ steps ih => exact (ih _ _ _).trans (perm_swapIfInBounds xs i _)

/-- **No element is lost or duplicated**, whatever the draws. -/
theorem perm_shuffleN (n : ℕ) (l : List α) (draws : Stream' ℕ) :
    (shuffleN n l draws).1.Perm l :=
  perm_shuffleFrom n (n - 1) 0 l.toArray draws

theorem perm_shuffle (l : List α) (draws : Stream' ℕ) : (shuffle l draws).1.Perm l :=
  perm_shuffleN l.length l draws

/-! ### The first element -/

/-- The swaps from position `i` on leave the elements before it alone. -/
theorem getElem?_shuffleFrom {n steps i p : ℕ} (hi : p < i) (xs : Array α) (draws : Stream' ℕ) :
    (shuffleFrom n steps i xs draws).1[p]? = xs[p]? := by
  induction steps generalizing i xs draws with
  | zero => rfl
  | succ steps ih =>
    rw [shuffleFrom, ih (Nat.lt_succ_of_lt hi), Array.swapIfInBounds_def]
    -- both positions of the swap are at `i` or beyond
    have hj : i + draws.head % (n - i) ≠ p :=
      Nat.ne_of_gt (Nat.lt_of_lt_of_le hi (Nat.le_add_right _ _))
    split
    · split
      · rw [Array.getElem?_swap, if_neg hj, if_neg (Nat.ne_of_gt hi)]
      · rfl
    · rfl

/-- What a swap brings to a position. -/
theorem getElem?_swapIfInBounds_left {xs : Array α} {i j : ℕ} (hi : i < xs.size)
    (hj : j < xs.size) : (xs.swapIfInBounds i j)[i]? = xs[j]? := by
  rw [Array.swapIfInBounds_def, dif_pos hi, dif_pos hj, Array.getElem?_swap,
    Array.getElem?_eq_getElem hj]
  split
  · next h => simp only [h]
  · rw [if_pos rfl]

/-- The first draw decides which element comes first. -/
theorem head?_shuffleN {n : ℕ} (hn : 2 ≤ n) {l : List α} (hle : n ≤ l.length)
    (draws : Stream' ℕ) : (shuffleN n l draws).1.head? = l[draws.head % n]? := by
  obtain ⟨steps, hsteps⟩ : ∃ steps, n - 1 = steps + 1 := ⟨n - 2, by omega⟩
  have hlt : draws.head % n < n := Nat.mod_lt _ (by omega)
  have hzero : 0 < l.toArray.size := by
    rw [List.size_toArray]
    omega
  have hdraw : 0 + draws.head % (n - 0) < l.toArray.size := by
    rw [List.size_toArray, Nat.zero_add, Nat.sub_zero]
    omega
  -- the first swap decides position 0, the later ones leave it alone
  rw [shuffleN, hsteps, shuffleFrom, List.head?_eq_getElem?, Array.getElem?_toList,
    getElem?_shuffleFrom Nat.one_pos, getElem?_swapIfInBounds_left hzero hdraw,
    List.getElem?_toArray, Nat.zero_add, Nat.sub_zero]

theorem shuffleN_of_lt_two {n : ℕ} (hn : n < 2) (l : List α) (draws : Stream' ℕ) :
    shuffleN n l draws = (l, draws) := by
  have hsteps : n - 1 = 0 := by omega
  rw [shuffleN, hsteps]
  rfl

/-- Every element comes first for some draws. -/
theorem exists_head?_shuffle {l : List α} {x : α} (hx : x ∈ l) :
    ∃ draws, (shuffle l draws).1.head? = some x := by
  obtain ⟨i, hget⟩ := List.mem_iff_getElem?.mp hx
  obtain ⟨hi, -⟩ := List.getElem?_eq_some_iff.mp hget
  refine ⟨Stream'.cons i (Stream'.const 0), ?_⟩
  rw [shuffle]
  by_cases hn : 2 ≤ l.length
  · rw [head?_shuffleN hn le_rfl, Stream'.head_cons, Nat.mod_eq_of_lt hi, hget]
  · have hzero : i = 0 := by omega
    rw [shuffleN_of_lt_two (not_le.mp hn), List.head?_eq_getElem?, ← hzero, hget]

/-- Draws of zero leave the first element where it is. -/
theorem head?_shuffleN_zero {n : ℕ} {l : List α} (hle : n ≤ l.length) :
    (shuffleN n l (Stream'.const 0)).1.head? = l.head? := by
  by_cases hn : 2 ≤ n
  · have hhead : (Stream'.const 0 : Stream' ℕ).head = 0 := rfl
    rw [head?_shuffleN hn hle, hhead, Nat.zero_mod, List.head?_eq_getElem?]
  · rw [shuffleN_of_lt_two (not_le.mp hn)]

/-! ### Every order once -/

/-- The numbers drawn for `n` elements. -/
abbrev DrawSequence (n : ℕ) : Type := (i : Fin (n - 1)) → Fin (n - i)

/-- The draws as the loop reduces them. -/
def reduced (n : ℕ) (draws : Stream' ℕ) : DrawSequence n := fun i =>
  ⟨draws.get i % (n - i), Nat.mod_lt _ (by have := i.isLt; omega)⟩

/-- A stream of draws that begins with the numbers. -/
def DrawSequence.stream {n : ℕ} (d : DrawSequence n) : Stream' ℕ := fun i =>
  if h : i < n - 1 then d ⟨i, h⟩ else 0

@[simp] theorem reduced_stream {n : ℕ} (d : DrawSequence n) : reduced n d.stream = d := by
  funext i
  refine Fin.ext ?_
  have hget : d.stream.get i = (d i : ℕ) := dif_pos i.isLt
  show d.stream.get i % (n - i) = d i
  rw [hget, Nat.mod_eq_of_lt (d i).isLt]

/-- There are `n!` sequences of numbers. -/
theorem card_drawSequence (n : ℕ) : Fintype.card (DrawSequence n) = n.factorial := by
  have hprod : ∏ i ∈ Finset.range (n - 1), (n - i) = n.factorial := by
    have hone : (n - (n - 1)).factorial = 1 := Nat.factorial_eq_one.mpr (by omega)
    have hmul := Nat.factorial_mul_descFactorial (Nat.sub_le n 1)
    rwa [hone, one_mul, Nat.descFactorial_eq_prod_range] at hmul
  rw [Fintype.card_pi]
  simp only [Fintype.card_fin]
  rw [Fin.prod_univ_eq_prod_range fun i => n - i, hprod]

/-- Only the reduced draws matter. -/
theorem shuffleFrom_congr {n steps i : ℕ} {draws draws' : Stream' ℕ} (xs : Array α)
    (h : ∀ j < steps, draws.get j % (n - (i + j)) = draws'.get j % (n - (i + j))) :
    (shuffleFrom n steps i xs draws).1 = (shuffleFrom n steps i xs draws').1 := by
  induction steps generalizing i xs draws draws' with
  | zero => rfl
  | succ steps ih =>
    -- only the draws reduced to their range matter
    have hhead : draws.head % (n - i) = draws'.head % (n - i) := h 0 (Nat.succ_pos steps)
    rw [shuffleFrom, shuffleFrom, hhead]
    refine ih _ fun j hj => ?_
    have hnext := h (j + 1) (Nat.succ_lt_succ hj)
    rw [← Nat.add_assoc, Nat.add_right_comm] at hnext
    exact hnext

/-- **The result determines the reduced draws**, when the elements are different: each of them
brings an element to a position that no later swap touches. -/
theorem reduced_eq_of_shuffleFrom_eq {n steps i : ℕ} {xs : Array α} {draws draws' : Stream' ℕ}
    (hnodup : xs.toList.Nodup) (hsize : xs.size = n) (hsteps : i + steps < n)
    (h : (shuffleFrom n steps i xs draws).1 = (shuffleFrom n steps i xs draws').1) :
    ∀ j < steps, draws.get j % (n - (i + j)) = draws'.get j % (n - (i + j)) := by
  induction steps generalizing i xs draws draws' with
  | zero => exact fun j hj => absurd hj (Nat.not_lt_zero j)
  | succ steps ih =>
    have hbound : ∀ d : ℕ, i + d % (n - i) < xs.size := fun d => by
      have hlt : d % (n - i) < n - i := Nat.mod_lt _ (by omega)
      omega
    have hi : i < xs.size := by omega
    -- The element that comes to position `i`.
    have hget : xs[i + draws.head % (n - i)]? = xs[i + draws'.head % (n - i)]? := by
      have hat := congrArg (fun ys : Array α => ys[i]?) h
      simp only [shuffleFrom, getElem?_shuffleFrom (Nat.lt_succ_self i)] at hat
      rwa [getElem?_swapIfInBounds_left hi (hbound _),
        getElem?_swapIfInBounds_left hi (hbound _)] at hat
    have hhead : draws.head % (n - i) = draws'.head % (n - i) := by
      rw [← Array.getElem?_toList, ← Array.getElem?_toList] at hget
      exact Nat.add_left_cancel ((List.getElem?_inj (hbound _) hnodup).mp hget)
    have hperm := perm_swapIfInBounds xs i (i + draws.head % (n - i))
    rw [shuffleFrom, shuffleFrom, ← hhead] at h
    have hrest := ih (hperm.nodup_iff.mpr hnodup) (by rw [Array.size_swapIfInBounds, hsize])
      (by omega) h
    intro j hj
    cases j with
    | zero => exact hhead
    | succ j =>
      have hnext := hrest j (Nat.lt_of_succ_lt_succ hj)
      rw [Nat.add_right_comm, Nat.add_assoc] at hnext
      exact hnext

/-- A shuffle with the given numbers. -/
def shuffleBy {n : ℕ} (l : List α) (d : DrawSequence n) : List α := (shuffleN n l d.stream).1

/-- A shuffle depends on the reduced draws. -/
theorem shuffleN_eq_shuffleBy (n : ℕ) (l : List α) (draws : Stream' ℕ) :
    (shuffleN n l draws).1 = shuffleBy l (reduced n draws) := by
  refine congrArg Array.toList (shuffleFrom_congr l.toArray fun j hj => ?_)
  have h := congrArg Fin.val (congrFun (reduced_stream (reduced n draws)) ⟨j, hj⟩)
  rw [Nat.zero_add]
  exact h.symm

/-- The orders of a list without duplicates. -/
theorem ncard_perm {l : List α} (hnodup : l.Nodup) :
    {l' : List α | l'.Perm l}.Finite ∧ {l' : List α | l'.Perm l}.ncard = l.length.factorial := by
  classical
  have horders : {l' : List α | l'.Perm l} = (l.permutations.toFinset : Set (List α)) := by
    ext l'
    rw [Finset.mem_coe, List.mem_toFinset, List.mem_permutations]
    rfl
  rw [horders, Set.ncard_coe_finset,
    List.toFinset_card_of_nodup (List.nodup_permutations l hnodup), List.length_permutations]
  exact ⟨Finset.finite_toSet _, rfl⟩

/-- **Every order comes from one sequence of draws.** -/
theorem bijOn_shuffleBy {n : ℕ} {l : List α} (hlen : l.length = n) (hnodup : l.Nodup) :
    Set.BijOn (shuffleBy l : DrawSequence n → List α) Set.univ {l' | l'.Perm l} := by
  have hmaps : Set.MapsTo (shuffleBy l : DrawSequence n → List α) Set.univ {l' | l'.Perm l} :=
    fun d _ => perm_shuffleN n l d.stream
  have hinj : Set.InjOn (shuffleBy l : DrawSequence n → List α) Set.univ := by
    intro d _ d' _ heq
    funext i
    have hi := i.isLt
    have harray : (shuffleFrom n (n - 1) 0 l.toArray d.stream).1 =
        (shuffleFrom n (n - 1) 0 l.toArray d'.stream).1 := Array.toList_inj.mp heq
    have hdraws := reduced_eq_of_shuffleFrom_eq hnodup (by rw [List.size_toArray, hlen])
      (by omega) harray i hi
    rw [Nat.zero_add] at hdraws
    rw [← reduced_stream d, ← reduced_stream d']
    exact Fin.ext hdraws
  -- There are as many sequences as orders.
  obtain ⟨hfinite, hcard⟩ := ncard_perm hnodup
  refine ⟨hmaps, hinj,
    (Set.eq_of_subset_of_ncard_le (Set.mapsTo_iff_image_subset.mp hmaps) ?_ hfinite).ge⟩
  rw [hcard, hinj.ncard_image, Set.ncard_univ, Nat.card_eq_fintype_card, card_drawSequence, hlen]

end FisherYates
