import Mathlib.Algebra.BigOperators.Group.Finset.Basic
import Mathlib.Data.Nat.Log
import Mathlib.Data.List.Nodup
import Mathlib.Tactic.Ring
import Mathlib.Tactic.Linarith

/-!
# Paths of a complete binary tree in heap order

A complete binary tree of `height` levels whose nodes are numbered in heap order: the
root is 1, the children of `b` are `2 b` and `2 b + 1`, and level `l` holds the nodes
`2 ^ l, …, 2 ^ (l + 1) - 1`. The `2 ^ (height - 1)` leaves are numbered from 0.

* `node height level leaf` is the ancestor of a leaf on a level, and `path` the list
  of all of them.
* `InTree height b` says that `b` is one of the `2 ^ height - 1` nodes.
* `OnPath height b leaf` says that node `b` is an ancestor of the leaf;
  `onPath_iff_mem_path` and `onPath_iff_range` are its two readings, as membership in
  the path and as an interval of leaves.
* `sum_path` turns a sum over the nodes of a path into one over levels.
-/

namespace HeapTree

/-- The ancestor of `leaf` on `level`. -/
def node (height level leaf : ℕ) : ℕ :=
  (leaf + 2 ^ (height - 1)) / 2 ^ (height - 1 - level)

/-- The ancestors of `leaf`, root first. -/
def path (height leaf : ℕ) : List ℕ :=
  (List.range height).map (node height · leaf)

/-- `b` is a node of the tree. -/
def InTree (height b : ℕ) : Prop := 1 ≤ b ∧ b < 2 ^ height

instance (height b : ℕ) : Decidable (InTree height b) :=
  inferInstanceAs (Decidable (_ ∧ _))

/-- Node `b` is an ancestor of `leaf`. -/
def OnPath (height b leaf : ℕ) : Prop :=
  b = node height (Nat.log2 b) leaf

instance (height b leaf : ℕ) : Decidable (OnPath height b leaf) :=
  inferInstanceAs (Decidable (b = node height (Nat.log2 b) leaf))

variable {height level level' leaf leaf' b : ℕ}

theorem two_pow_split (hlevel : level < height) :
    2 ^ (height - 1) = 2 ^ level * 2 ^ (height - 1 - level) := by
  rw [← pow_add]
  congr 1
  omega

theorem two_pow_le_node (hlevel : level < height) : 2 ^ level ≤ node height level leaf := by
  unfold node
  -- `2 ^ level` subtrees of `2 ^ (height - 1 - level)` leaves make up the last level.
  rw [Nat.le_div_iff_mul_le (Nat.two_pow_pos _), ← two_pow_split hlevel]
  exact Nat.le_add_left _ _

theorem node_lt (hlevel : level < height) (hleaf : leaf < 2 ^ (height - 1)) :
    node height level leaf < 2 ^ (level + 1) := by
  unfold node
  rw [Nat.div_lt_iff_lt_mul (Nat.two_pow_pos _), pow_succ, mul_right_comm,
    ← two_pow_split hlevel]
  omega

/-- The ancestors of a leaf are nodes of the tree. -/
theorem node_lt_two_pow (hlevel : level < height) (hleaf : leaf < 2 ^ (height - 1)) :
    node height level leaf < 2 ^ height :=
  (node_lt hlevel hleaf).trans_le (Nat.pow_le_pow_right (by norm_num) hlevel)

theorem node_pos (hlevel : level < height) : 0 < node height level leaf :=
  (Nat.two_pow_pos level).trans_le (two_pow_le_node hlevel)

theorem log2_node (hlevel : level < height) (hleaf : leaf < 2 ^ (height - 1)) :
    Nat.log2 (node height level leaf) = level :=
  (Nat.log2_eq_iff (node_pos hlevel).ne').mpr ⟨two_pow_le_node hlevel, node_lt hlevel hleaf⟩

/-- The parent of a node is half of it, rounded down. -/
theorem node_half (hlevel : level + 1 < height) :
    node height level leaf = node height (level + 1) leaf / 2 := by
  have hsucc : height - 1 - level = height - 1 - (level + 1) + 1 := by omega
  unfold node
  rw [hsucc, pow_succ, Nat.div_div_eq_div_mul]

/-- Paths that meet on a level are the same above it. -/
theorem node_eq_of_le (hlevel : level < height) (hle : level' ≤ level)
    (h : node height level leaf = node height level leaf') :
    node height level' leaf = node height level' leaf' := by
  induction level with
  | zero =>
    obtain rfl : level' = 0 := Nat.le_zero.mp hle
    exact h
  | succ level ih =>
    rcases Nat.of_le_succ hle with hle | rfl
    · refine ih (Nat.lt_of_succ_lt hlevel) hle ?_
      rw [node_half hlevel, h, ← node_half hlevel]
    · exact h

/-- On the last level the ancestor is the leaf itself. -/
theorem node_last (height leaf : ℕ) :
    node height (height - 1) leaf = leaf + 2 ^ (height - 1) := by
  unfold node
  rw [Nat.sub_self, pow_zero, Nat.div_one]

theorem onPath_node (hlevel : level < height) (hleaf : leaf < 2 ^ (height - 1)) :
    OnPath height (node height level leaf) leaf := by
  unfold OnPath
  rw [log2_node hlevel hleaf]

/-- Two leaves share the node of a level exactly when it is on the other's path too. -/
theorem onPath_node_iff (hlevel : level < height) (hleaf : leaf < 2 ^ (height - 1)) :
    OnPath height (node height level leaf) leaf' ↔
      node height level leaf' = node height level leaf := by
  unfold OnPath
  rw [log2_node hlevel hleaf]
  exact eq_comm

theorem mem_path : b ∈ path height leaf ↔ ∃ level < height, node height level leaf = b := by
  unfold path
  rw [List.mem_map]
  exact exists_congr fun level => and_congr_left fun _ => List.mem_range

theorem onPath_of_mem_path (hleaf : leaf < 2 ^ (height - 1)) (h : b ∈ path height leaf) :
    OnPath height b leaf := by
  obtain ⟨level, hlevel, rfl⟩ := mem_path.mp h
  exact onPath_node hlevel hleaf

/-- Among the nodes of the tree, the path of a leaf holds exactly its ancestors. -/
theorem onPath_iff_mem_path (hleaf : leaf < 2 ^ (height - 1)) (hb : InTree height b) :
    OnPath height b leaf ↔ b ∈ path height leaf := by
  -- The level of a node is its logarithm, and a node of the tree has a level of the tree.
  refine ⟨fun h => mem_path.mpr ⟨Nat.log2 b, ?_, h.symm⟩, onPath_of_mem_path hleaf⟩
  exact (Nat.log2_lt (Nat.one_le_iff_ne_zero.mp hb.1)).mpr hb.2

theorem inTree_of_mem_path (hleaf : leaf < 2 ^ (height - 1)) (h : b ∈ path height leaf) :
    InTree height b := by
  obtain ⟨level, hlevel, rfl⟩ := mem_path.mp h
  exact ⟨node_pos hlevel, node_lt_two_pow hlevel hleaf⟩

theorem node_mem_path (hlevel : level < height) : node height level leaf ∈ path height leaf :=
  mem_path.mpr ⟨level, hlevel, rfl⟩

/-- Nodes of different levels differ. -/
theorem node_injective_level (hlevel : level < height) (hlevel' : level' < height)
    (hleaf : leaf < 2 ^ (height - 1)) (hleaf' : leaf' < 2 ^ (height - 1))
    (h : node height level leaf = node height level' leaf') : level = level' := by
  -- Both levels are the logarithm of the node.
  rw [← log2_node hlevel hleaf, h, log2_node hlevel' hleaf']

theorem nodup_path (hleaf : leaf < 2 ^ (height - 1)) : (path height leaf).Nodup := by
  unfold path
  rw [List.nodup_map_iff_inj_on List.nodup_range]
  intro level hlevel level' hlevel' h
  exact node_injective_level (List.mem_range.mp hlevel) (List.mem_range.mp hlevel')
    hleaf hleaf h

/-- A path determines its leaf. -/
theorem leaf_eq_of_mem_path (hpos : 1 ≤ height) (hleaf : leaf < 2 ^ (height - 1))
    (hleaf' : leaf' < 2 ^ (height - 1))
    (h : node height (height - 1) leaf ∈ path height leaf') : leaf = leaf' := by
  obtain ⟨level, hlevel, hnode⟩ := mem_path.mp h
  -- A node of the last level can only be the last of the other path.
  obtain rfl : level = height - 1 :=
    node_injective_level hlevel (by omega) hleaf' hleaf hnode
  rw [node_last, node_last] at hnode
  omega

/-- A node is the ancestor of the leaves of an interval. -/
theorem onPath_iff_range :
    OnPath height b leaf ↔
      b * 2 ^ (height - 1 - Nat.log2 b) ≤ leaf + 2 ^ (height - 1) ∧
        leaf + 2 ^ (height - 1) < (b + 1) * 2 ^ (height - 1 - Nat.log2 b) := by
  -- The division by a power of two is read as two inequalities.
  have hpos := Nat.two_pow_pos (height - 1 - Nat.log2 b)
  unfold OnPath node
  rw [eq_comm, Nat.div_eq_iff hpos]
  constructor
  · rintro ⟨hlo, hhi⟩
    refine ⟨hlo, ?_⟩
    rw [Nat.succ_mul]
    omega
  · rintro ⟨hlo, hhi⟩
    refine ⟨hlo, ?_⟩
    rw [Nat.succ_mul] at hhi
    omega

/-- A sum over the nodes of a path is a sum over its levels. -/
theorem sum_path {β : Type*} [AddCommMonoid β] (hleaf : leaf < 2 ^ (height - 1)) (f : ℕ → β) :
    ∑ b ∈ (path height leaf).toFinset, f b =
      ((List.range height).map (fun level => f (node height level leaf))).sum := by
  rw [List.sum_toFinset f (nodup_path hleaf), path, List.map_map]
  rfl

end HeapTree
