import Mathlib.Algebra.GroupWithZero.Nat
import ConstraintExpr.Expr.Counts
import ConstraintExpr.Proofs.Tree

/-!
# Counts by worklist and by recursion

A worklist counts what its trees have together (`Expr.countNodes_eq`), so that the
number of nodes is the size of the tree (`Expr.nodeCount_eq_size`).

The number of levels that the worklist finds is the height of the tree
(`Expr.depth_eq_height`): the deepest level among the pending trees stays within
a bound exactly when each of them does (`Expr.deepestLevel_le_iff`).

Both counts are recursive in the children (`Expr.nodeCount_eq`, `Expr.depth_eq`), and
each of them is one for the trees without children and no others.
-/

namespace ConstraintExpr.Expr

theorem foldr_max_le_iff {ns : List Nat} {bound : Nat} :
    ns.foldr max 0 ≤ bound ↔ ∀ n ∈ ns, n ≤ bound := by
  induction ns with
  | nil => simp
  | cons n ns ih => rw [List.foldr_cons, Nat.max_le, ih, List.forall_mem_cons]

/-- A tree fits into one level more than its children do. -/
theorem height_le_succ_iff {e : Expr} {bound : Nat} :
    e.height ≤ bound + 1 ↔ ∀ child ∈ e.children, child.height ≤ bound := by
  rw [height_eq, Nat.add_le_add_iff_right, foldr_max_le_iff, List.forall_mem_map]

theorem height_pos (e : Expr) : 0 < e.height := by
  rw [height_eq]
  exact Nat.succ_pos _

theorem height_lt_of_mem_children {e child : Expr} (hchild : child ∈ e.children) :
    child.height < e.height := by
  have hpos := e.height_pos
  have hle : e.height ≤ (e.height - 1) + 1 := by omega
  have := height_le_succ_iff.mp hle child hchild
  omega

theorem deepestLevel_le_iff {deepest bound : Nat} {pending : List (Expr × Nat)} :
    deepestLevel deepest pending ≤ bound ↔
      deepest ≤ bound ∧ ∀ p ∈ pending, p.2 + p.1.height ≤ bound + 1 := by
  fun_induction deepestLevel deepest pending with
  | case1 deepest => simp
  | case2 deepest e level pending ih =>
      -- the root of a pending tree gives way to its children, one level deeper
      have hroot : level + e.height ≤ bound + 1 ↔
          level ≤ bound ∧ ∀ child ∈ e.children, level + 1 + child.height ≤ bound + 1 := by
        constructor
        · intro h
          have hpos := e.height_pos
          refine ⟨by omega, fun child hchild => ?_⟩
          have hbelow : e.height ≤ (bound - level) + 1 := by omega
          have := height_le_succ_iff.mp hbelow child hchild
          omega
        · rintro ⟨hlevel, hbelow⟩
          have : e.height ≤ (bound - level) + 1 := by
            refine height_le_succ_iff.mpr fun child hchild => ?_
            have := hbelow child hchild
            omega
          omega
      simp only [ih, List.forall_mem_cons, List.forall_mem_append, List.mem_reverse]
      rw [List.forall_mem_map, hroot, Nat.max_le, and_assoc, and_assoc]

/-- The depth of a tree is its height. -/
theorem depth_eq_height (e : Expr) : e.depth = e.height := by
  have hbound : ∀ bound, e.depth ≤ bound ↔ e.height ≤ bound := by
    intro bound
    rw [depth, deepestLevel_le_iff, List.forall_mem_singleton]
    show 0 ≤ bound ∧ 1 + e.height ≤ bound + 1 ↔ e.height ≤ bound
    omega
  exact Nat.le_antisymm ((hbound _).mpr (Nat.le_refl _)) ((hbound _).mp (Nat.le_refl _))

/-- The worklist adds the sizes of the pending trees, whichever of them comes first. -/
theorem countNodes_eq (count : Nat) (pending : List Expr) :
    countNodes count pending = count + totalSize pending := by
  fun_induction countNodes count pending with
  | case1 count => rfl
  | case2 count e pending ih =>
      rw [ih, totalSize_append, totalSize_reverse, totalSize, size_eq e]
      omega

/-- The number of nodes of a tree is its size. -/
theorem nodeCount_eq_size (e : Expr) : e.nodeCount = e.size := by
  rw [nodeCount, countNodes_eq, totalSize, totalSize]
  omega

/-! ### Counts by the children -/

theorem totalSize_eq_sum (es : List Expr) : totalSize es = (es.map size).sum := by
  induction es with
  | nil => rfl
  | cons e es ih => rw [totalSize, List.map_cons, List.sum_cons, ih]

theorem nodeCount_eq (e : Expr) : e.nodeCount = 1 + (e.children.map nodeCount).sum := by
  have hsize : e.children.map nodeCount = e.children.map size :=
    List.map_congr_left fun child _ => child.nodeCount_eq_size
  rw [hsize, nodeCount_eq_size, size_eq, totalSize_eq_sum, Nat.add_comm]

theorem depth_eq (e : Expr) : e.depth = 1 + (e.children.map depth).foldr max 0 := by
  have hheight : e.children.map depth = e.children.map height :=
    List.map_congr_left fun child _ => child.depth_eq_height
  rw [hheight, depth_eq_height, height_eq, Nat.add_comm]

/-- Each level has a node. -/
theorem height_le_size (e : Expr) : e.height ≤ e.size := by
  induction e using childInduction with
  | step e ih =>
      rw [size_eq]
      refine height_le_succ_iff.mpr fun child hchild => ?_
      exact Nat.le_trans (ih child hchild) (size_le_totalSize hchild)

/-! ### Trees without children -/

theorem isLeaf_iff {e : Expr} : e.isLeaf = true ↔ e.children = [] := by
  cases e <;> simp [isLeaf, hasChildren, children]

theorem height_eq_one_iff {e : Expr} : e.height = 1 ↔ e.children = [] := by
  constructor
  · intro h
    refine List.eq_nil_iff_forall_not_mem.mpr fun child hchild => ?_
    have hlt := height_lt_of_mem_children hchild
    have hpos := child.height_pos
    omega
  · intro h
    rw [height_eq, h]
    rfl

theorem size_eq_one_iff {e : Expr} : e.size = 1 ↔ e.children = [] := by
  constructor
  · intro h
    have hle := e.height_le_size
    have hpos := e.height_pos
    exact height_eq_one_iff.mp (by omega)
  · intro h
    rw [size_eq, h]
    rfl

end ConstraintExpr.Expr
