import Mathlib.Data.List.Basic
import Mathlib.Data.List.Flatten
import ConstraintExpr.Expr.Dismantle
import ConstraintExpr.Proofs.Counts
import ConstraintExpr.Proofs.Subtree

/-!
# Taking trees apart, completely and shallowly

Taking a tree apart detaches subtree after subtree until only pieces are left.

* `Stage` tells what has been detached and what has been released after a number of
  turns; `Stage.Conserved` says that no node is lost on the way and none is there twice;
* `Expr.innerDescendants` are the nodes that are detached, one in each turn
  (`Stage.pending_eq_nil_iff`, `Stage.Conserved.moved_perm_innerDescendants`);
* `Expr.ReleasesWithin` bounds how deep releases nest: pieces have only children without
  children, so that three levels suffice for every tree (`Expr.releasesWithin_three`).
-/

namespace ConstraintExpr

/-! ### Pieces -/

namespace Expr

theorem hasChildren_eq_false_iff {e : Expr} : e.hasChildren = false ↔ e.children = [] := by
  rw [← isLeaf_iff, isLeaf, Bool.not_eq_true']

theorem label_piece (e : Expr) : e.piece.label = e.label := by
  cases e <;> simp [piece, label]

/-- In a piece, a placeholder stands for each child that has children. -/
theorem children_piece (e : Expr) : e.piece.children = e.children.map leave := by
  cases e <;> rfl

theorem children_leave (e : Expr) : e.leave.children = [] := by
  cases h : e.hasChildren with
  | true =>
      rw [leave, if_pos h]
      rfl
  | false =>
      rw [leave, h, if_neg Bool.false_ne_true]
      exact hasChildren_eq_false_iff.mp h

theorem children_of_mem_children_piece {e child : Expr} (h : child ∈ e.piece.children) :
    child.children = [] := by
  rw [children_piece] at h
  obtain ⟨original, _, rfl⟩ := List.mem_map.mp h
  exact original.children_leave

/-- What taking trees apart yields are pieces. -/
theorem exists_of_mem_dismantleAll {pending : List Expr} {released : Expr}
    (h : released ∈ dismantleAll pending) : ∃ node : Expr, released = node.piece := by
  fun_induction dismantleAll pending with
  | case1 => exact absurd h List.not_mem_nil
  | case2 e pending ih =>
      rcases List.mem_cons.mp h with rfl | h
      · exact ⟨e, by rw [detachChildren_run]⟩
      · exact ih h

theorem exists_of_mem_dismantle {e released : Expr} (h : released ∈ e.dismantle) :
    ∃ node : Expr, released = node.piece := by
  rw [dismantle_eq] at h
  rcases List.mem_append.mp h with h | h
  · exact exists_of_mem_dismantleAll h
  · exact ⟨e, List.mem_singleton.mp h⟩

/-! ### How deep releases nest -/

/-- To release a tree is to detach its children, to take the trees detached apart, each of
which is released once its own children have been detached, and to release what is left
of its children. The number bounds how deep these releases nest. -/
def ReleasesWithin : Nat → Expr → Prop
  | 0, _ => False
  | levels + 1, e =>
      (∀ piece ∈ dismantleAll (e.detachChildren.run []).2, ReleasesWithin levels piece) ∧
        ∀ child ∈ (e.detachChildren.run []).1.children, ReleasesWithin levels child

/-- Nothing is detached from a node whose children have no children. -/
theorem detached_eq_nil {e : Expr} (h : ∀ child ∈ e.children, child.children = []) :
    e.detached = [] := by
  refine List.filter_eq_nil_iff.mpr fun child hchild => ?_
  rw [hasChildren_eq_false_iff.mpr (h child hchild)]
  exact Bool.false_ne_true

theorem releasesWithin_of_childless {e : Expr} (h : e.children = []) (levels : Nat) :
    e.ReleasesWithin (levels + 1) := by
  rw [ReleasesWithin, detachChildren_run, children_piece, detached, h]
  exact ⟨fun _ h => absurd h (by simp [dismantleAll]), fun _ h => absurd h List.not_mem_nil⟩

/-- A piece is released together with its children, which is one level more. -/
theorem releasesWithin_piece (e : Expr) : e.piece.ReleasesWithin 2 := by
  have hchildren : ∀ child ∈ e.piece.children, child.children = [] :=
    fun child => children_of_mem_children_piece
  rw [ReleasesWithin, detachChildren_run, detached_eq_nil hchildren]
  refine ⟨fun _ h => absurd h (by simp [dismantleAll]), fun child hchild => ?_⟩
  exact releasesWithin_of_childless (children_of_mem_children_piece hchild) 0

/-- However deep the tree is, releases nest at most three deep. -/
theorem releasesWithin_three (e : Expr) : e.ReleasesWithin 3 := by
  rw [ReleasesWithin, detachChildren_run]
  refine ⟨fun released hreleased => ?_, fun child hchild => ?_⟩
  · obtain ⟨node, rfl⟩ := exists_of_mem_dismantleAll hreleased
    exact node.releasesWithin_piece
  · exact releasesWithin_of_childless (children_of_mem_children_piece hchild) 1

/-! ### The nodes that are detached -/

/-- The nodes beneath the root that have children. -/
def innerDescendants (e : Expr) : List Address :=
  e.addresses.filter fun a => a ≠ [] && (e.node? a).any hasChildren

theorem mem_innerDescendants {e : Expr} {a : Address} :
    a ∈ e.innerDescendants ↔
      a ≠ [] ∧ ∃ node, e.node? a = some node ∧ node.hasChildren = true := by
  rw [innerDescendants, List.mem_filter, mem_addresses, Bool.and_eq_true, decide_eq_true_eq,
    Option.any_eq_true]
  constructor
  · rintro ⟨_, h⟩
    exact h
  · rintro ⟨hne, node, hnode, hchildren⟩
    exact ⟨Option.isSome_of_eq_some hnode, hne, node, hnode, hchildren⟩

end Expr

namespace Subtree

/-- The children that are detached from the root. -/
def detached (s : Subtree) : List Subtree :=
  s.children.filter fun t => t.tree.hasChildren

/-- The nodes that stay in the piece of the root: the root and its children without
children. -/
def kept (s : Subtree) : List Address :=
  s.address :: (s.children.filter fun t => !t.tree.hasChildren).map address

theorem map_tree_detached (s : Subtree) : s.detached.map tree = s.tree.detached := by
  rw [Expr.detached, ← map_tree_children, List.filter_map]
  rfl

theorem mem_kept {s : Subtree} {a : Address} :
    a ∈ s.kept ↔
      a = s.address ∨ ∃ t ∈ s.children, t.tree.hasChildren = false ∧ t.address = a := by
  simp [kept, and_assoc]

theorem nodes_of_childless {s : Subtree} (h : s.tree.hasChildren = false) :
    s.nodes = [s.address] := by
  rw [nodes, Expr.addresses_eq, Expr.hasChildren_eq_false_iff.mp h]
  exact congrArg (· :: []) (List.append_nil _)

/-- The nodes of a subtree are those that stay and those of what is detached. -/
theorem nodes_perm_kept (s : Subtree) : s.nodes.Perm (s.kept ++ s.detached.flatMap nodes) := by
  have hleaves : (s.children.filter fun t => !t.tree.hasChildren).flatMap nodes =
      (s.children.filter fun t => !t.tree.hasChildren).map address := by
    rw [List.map_eq_flatMap]
    refine List.flatMap_congr fun t ht => nodes_of_childless ?_
    simpa using (List.mem_filter.mp ht).2
  have hsplit := List.filter_append_perm (fun t => !t.tree.hasChildren) s.children
  simp only [Bool.not_not] at hsplit
  have hchildren := hsplit.symm.flatMap_right nodes
  rw [List.flatMap_append, hleaves] at hchildren
  exact s.nodes_perm.trans (hchildren.cons _)

end Subtree

/-! ### Stages -/

/-- What taking a tree apart has come to. -/
structure Stage where
  /-- The subtrees still to be taken apart, the top one first. -/
  pending : List Subtree
  /-- All subtrees that have been detached, the first one first. -/
  moved : List Subtree
  /-- The subtrees taken apart, whose pieces have been released. -/
  released : List Subtree

namespace Stage

/-- One more turn: the children of the subtree on top are detached, and what is left of
it is released. -/
def next : Stage → Stage
  | ⟨[], moved, released⟩ => ⟨[], moved, released⟩
  | ⟨top :: pending, moved, released⟩ =>
      ⟨top.detached.reverse ++ pending, moved ++ top.detached, released ++ [top]⟩

/-- The stage of a tree after a number of turns. First the children of its root are
detached. -/
def after (e : Expr) : Nat → Stage
  | 0 => ⟨(Subtree.whole e).detached.reverse, (Subtree.whole e).detached, []⟩
  | turns + 1 => (after e turns).next

/-- The children of the root are detached first. -/
theorem run_detachChildren (e : Expr) :
    e.detachChildren.run [] = (e.piece, (after e 0).pending.map Subtree.tree) := by
  rw [Expr.detachChildren_run, after, List.map_reverse, Subtree.map_tree_detached,
    List.append_nil]
  rfl

/-- A turn does to the tree on top, which is taken off the list, what it does to the
subtree on top. -/
theorem run_detachChildren_next (top : Subtree) (pending moved released : List Subtree) :
    top.tree.detachChildren.run (pending.map Subtree.tree) =
      (top.tree.piece, (next ⟨top :: pending, moved, released⟩).pending.map Subtree.tree) := by
  rw [Expr.detachChildren_run, next, List.map_append, List.map_reverse,
    Subtree.map_tree_detached]

/-- What every turn preserves. -/
structure Conserved (e : Expr) (t : Stage) : Prop where
  /-- The pieces released are the first ones of the tree, and those of the pending
  subtrees are the next ones. -/
  dismantle_eq : e.dismantle = t.released.map (fun s => s.tree.piece) ++
    (Expr.dismantleAll (t.pending.map Subtree.tree) ++ [e.piece])
  /-- What has been detached was a subtree with children, other than the whole tree. -/
  intact : ∀ s ∈ t.moved, s.IsIn e ∧ s.address ≠ [] ∧ s.tree.hasChildren = true
  /-- What has been detached is either pending or has been released. -/
  moved_perm : t.moved.Perm (t.released ++ t.pending)
  /-- Each node of the tree stays with the root, has been released or is pending. -/
  nodes_perm : e.addresses.Perm ((Subtree.whole e).kept ++
    (t.released.flatMap Subtree.kept ++ t.pending.flatMap Subtree.nodes))

variable {e : Expr} {t : Stage}

theorem intact_of_mem_detached {s u : Subtree} (hs : s.IsIn e) (hu : u ∈ s.detached) :
    u.IsIn e ∧ u.address ≠ [] ∧ u.tree.hasChildren = true := by
  obtain ⟨hchild, hchildren⟩ := List.mem_filter.mp hu
  obtain ⟨i, _, haddress⟩ := Subtree.mem_children.mp hchild
  refine ⟨hs.child hchild, ?_, hchildren⟩
  rw [haddress]
  exact List.append_ne_nil_of_right_ne_nil _ (List.cons_ne_nil i [])

theorem Conserved.next (h : t.Conserved e) : t.next.Conserved e := by
  rcases t with ⟨_ | ⟨top, pending⟩, moved, released⟩
  · exact h
  obtain ⟨hdismantle, hintact, hmoved, hnodes⟩ := h
  have htop : top ∈ moved := hmoved.mem_iff.mpr (List.mem_append_right _ List.mem_cons_self)
  constructor
  case dismantle_eq =>
    rw [hdismantle, List.map_cons, Expr.dismantleAll,
      run_detachChildren_next top pending moved released]
    simp only [Stage.next, List.map_append, List.map_cons, List.map_nil, List.append_assoc,
      List.cons_append, List.nil_append]
  case intact =>
    exact List.forall_mem_append.mpr
      ⟨hintact, fun s hs => intact_of_mem_detached (hintact top htop).1 hs⟩
  case moved_perm =>
    -- the subtree on top goes to those released, what is detached from it is pending
    have hdetached : top.detached.Perm top.detached.reverse := (List.reverse_perm _).symm
    refine (hmoved.append hdetached).trans ?_
    simp only [Stage.next, List.append_assoc, List.cons_append, List.nil_append]
    exact ((List.perm_append_comm).cons top).append_left released
  case nodes_perm =>
    refine hnodes.trans (List.Perm.append_left _ ?_)
    simp only [Stage.next, List.flatMap_append, List.flatMap_cons, List.flatMap_nil,
      List.append_nil, List.append_assoc]
    refine List.Perm.append_left _ ?_
    have hdetached : (top.detached.flatMap Subtree.nodes).Perm
        (top.detached.reverse.flatMap Subtree.nodes) :=
      (List.reverse_perm _).symm.flatMap_right _
    rw [← List.append_assoc]
    exact (top.nodes_perm_kept.trans (hdetached.append_left _)).append_right _

theorem conserved_after (e : Expr) (turns : Nat) : (after e turns).Conserved e := by
  induction turns with
  | zero =>
      refine ⟨?_, fun s hs => intact_of_mem_detached (Subtree.isIn_whole e) hs,
        (List.reverse_perm _).symm, ?_⟩
      · rw [Expr.dismantle, run_detachChildren]
        rfl
      · rw [← Subtree.nodes_whole]
        exact (Subtree.whole e).nodes_perm_kept.trans
          (((List.reverse_perm _).symm.flatMap_right _).append_left _)
  | succ turns ih => exact ih.next

/-! ### Each node once -/

theorem map_address_sublist {f : Subtree → List Address} (h : ∀ s : Subtree, s.address ∈ f s)
    (subtrees : List Subtree) : (subtrees.map Subtree.address).Sublist (subtrees.flatMap f) := by
  rw [List.map_eq_flatMap]
  exact List.Sublist.flatMap_right subtrees fun s _ => List.singleton_sublist.mpr (h s)

/-- No subtree is detached twice. -/
theorem Conserved.nodup_moved (h : t.Conserved e) : (t.moved.map Subtree.address).Nodup := by
  have hnodup := h.nodes_perm.nodup_iff.mp e.nodup_addresses
  have hrest := hnodup.sublist (List.sublist_append_right _ _)
  rw [(h.moved_perm.map _).nodup_iff, List.map_append]
  refine hrest.sublist (List.Sublist.append ?_ ?_)
  · exact map_address_sublist (fun s => List.mem_cons_self) t.released
  · exact map_address_sublist Subtree.address_mem_nodes t.pending

/-- When nothing is pending, all inner nodes beneath the root have been detached. -/
theorem Conserved.moved_perm_innerDescendants (h : t.Conserved e) (hpending : t.pending = []) :
    (t.moved.map Subtree.address).Perm e.innerDescendants := by
  have hreleased : ∀ s, s ∈ t.moved ↔ s ∈ t.released := by
    intro s
    rw [h.moved_perm.mem_iff, hpending, List.append_nil]
  have hnodup : e.innerDescendants.Nodup := e.nodup_addresses.filter _
  refine (List.perm_ext_iff_of_nodup h.nodup_moved hnodup).mpr fun a => ?_
  rw [List.mem_map, Expr.mem_innerDescendants]
  constructor
  · rintro ⟨s, hs, rfl⟩
    obtain ⟨hin, hne, hchildren⟩ := h.intact s hs
    exact ⟨hne, s.tree, hin, hchildren⟩
  · rintro ⟨hne, node, hnode, hchildren⟩
    -- a node with children stays in a piece only as its root
    have hroot : ∀ s : Subtree, s.IsIn e → a ∈ s.kept → a = s.address := by
      intro s hs ha
      rcases Subtree.mem_kept.mp ha with ha | ⟨u, hu, hleaf, rfl⟩
      · exact ha
      · have hu : e.node? u.address = some u.tree := hs.child hu
        rw [hu] at hnode
        cases hnode
        rw [hchildren] at hleaf
        cases hleaf
    have ha : a ∈ e.addresses := Expr.mem_addresses.mpr (Option.isSome_of_eq_some hnode)
    rw [h.nodes_perm.mem_iff, hpending, List.flatMap_nil, List.append_nil] at ha
    rcases List.mem_append.mp ha with ha | ha
    · exact absurd (hroot _ (Subtree.isIn_whole e) ha) hne
    · obtain ⟨s, hs, ha⟩ := List.mem_flatMap.mp ha
      have hs := (hreleased s).mpr hs
      exact ⟨s, hs, (hroot s (h.intact s hs).1 ha).symm⟩

/-! ### Turns -/

/-- Each turn that finds a subtree pending releases one piece. -/
theorem length_released (e : Expr) (turns : Nat) :
    (after e turns).released.length ≤ turns ∧
      ((after e turns).pending ≠ [] → (after e turns).released.length = turns) := by
  induction turns with
  | zero => exact ⟨Nat.le_refl 0, fun _ => rfl⟩
  | succ turns ih =>
      rw [after]
      generalize after e turns = t at ih ⊢
      rcases t with ⟨_ | ⟨top, pending⟩, moved, released⟩
      · exact ⟨Nat.le_succ_of_le ih.1, fun h => absurd rfl h⟩
      · have hlength : (released ++ [top]).length = turns + 1 := by
          rw [List.length_append, List.length_singleton, ih.2 (List.cons_ne_nil _ _)]
        exact ⟨Nat.le_of_eq hlength, fun _ => hlength⟩

theorem pending_eq_nil_iff_length_dismantle (e : Expr) (turns : Nat) :
    (after e turns).pending = [] ↔ e.dismantle.length ≤ turns + 1 := by
  obtain ⟨hle, heq⟩ := length_released e turns
  have hdismantle := congrArg List.length (conserved_after e turns).dismantle_eq
  simp only [List.length_append, List.length_map, List.length_singleton] at hdismantle
  cases hpending : (after e turns).pending with
  | nil =>
      rw [hpending, List.map_nil, Expr.dismantleAll, List.length_nil] at hdismantle
      exact iff_of_true rfl (by omega)
  | cons top pending =>
      have hturns := heq (by rw [hpending]; exact List.cons_ne_nil _ _)
      rw [hpending, List.map_cons, Expr.dismantleAll_cons, List.length_cons] at hdismantle
      exact iff_of_false (List.cons_ne_nil _ _) (by omega)

theorem length_dismantle (e : Expr) : e.dismantle.length = e.innerDescendants.length + 1 := by
  have hconserved := conserved_after e e.dismantle.length
  have hpending := (pending_eq_nil_iff_length_dismantle e _).mpr (Nat.le_succ _)
  have hdismantle := congrArg List.length hconserved.dismantle_eq
  have hmoved := hconserved.moved_perm.length_eq
  have hinner := (hconserved.moved_perm_innerDescendants hpending).length_eq
  rw [hpending, List.map_nil, Expr.dismantleAll, List.nil_append, List.length_append,
    List.length_map, List.length_singleton] at hdismantle
  rw [hpending, List.append_nil] at hmoved
  rw [List.length_map] at hinner
  omega

/-- The loop takes as many turns as there are nodes with children beneath the root. -/
theorem pending_eq_nil_iff (e : Expr) (turns : Nat) :
    (after e turns).pending = [] ↔ e.innerDescendants.length ≤ turns := by
  rw [pending_eq_nil_iff_length_dismantle, length_dismantle, Nat.add_le_add_iff_right]

end Stage

/-- A tree is taken apart in as many turns as there are nodes with children beneath its
root. Each of these is detached once, with all that is beneath it, and at every turn each
node of the tree stays with the root, is in a piece that has been released, or is in a
subtree that is pending; in the end none is pending. What is released is a node as it was
with its children without children, and placeholders for the others, so that nothing
released has grandchildren and releases nest no deeper than three levels in all. -/
theorem Expr.dismantle_complete_shallow (e : Expr) :
    (dismantleAll (e.detachChildren.run []).2).length = e.innerDescendants.length ∧
      e.detachChildren.run [] = (e.piece, (Stage.after e 0).pending.map Subtree.tree) ∧
      (∀ turns top pending, (Stage.after e turns).pending = top :: pending →
        top.tree.detachChildren.run (pending.map Subtree.tree) =
          (top.tree.piece, (Stage.after e (turns + 1)).pending.map Subtree.tree)) ∧
      (∀ turns, (Stage.after e turns).Conserved e ∧
        ((Stage.after e turns).moved.map Subtree.address).Nodup ∧
        ((Stage.after e turns).pending = [] ↔ e.innerDescendants.length ≤ turns)) ∧
      (∀ turns, (Stage.after e turns).pending = [] →
        ((Stage.after e turns).moved.map Subtree.address).Perm e.innerDescendants ∧
          e.addresses.Perm
            ((Subtree.whole e).kept ++ (Stage.after e turns).released.flatMap Subtree.kept)) ∧
      (∀ node : Expr, node.piece.label = node.label ∧
        node.piece.children = node.children.map fun child =>
          if child.hasChildren then placeholder else child) ∧
      (∀ piece ∈ e.dismantle,
        (∀ child ∈ piece.children, child.children = []) ∧ piece.ReleasesWithin 2) ∧
      e.ReleasesWithin 3 := by
  refine ⟨?_, Stage.run_detachChildren e, fun turns top pending hstack => ?_, fun turns => ?_,
    fun turns hpending => ?_, fun node => ⟨node.label_piece, node.children_piece⟩,
    fun piece hpiece => ?_, e.releasesWithin_three⟩
  · have hlength := Stage.length_dismantle e
    rw [dismantle, List.length_append, List.length_singleton] at hlength
    exact Nat.add_right_cancel hlength
  · rw [Stage.after]
    generalize Stage.after e turns = t at hstack ⊢
    rcases t with ⟨_, moved, released⟩
    subst hstack
    exact Stage.run_detachChildren_next top pending moved released
  · have hconserved := Stage.conserved_after e turns
    exact ⟨hconserved, hconserved.nodup_moved, Stage.pending_eq_nil_iff e turns⟩
  · have hconserved := Stage.conserved_after e turns
    have hnodes := hconserved.nodes_perm
    rw [hpending, List.flatMap_nil, List.append_nil] at hnodes
    exact ⟨hconserved.moved_perm_innerDescendants hpending, hnodes⟩
  · obtain ⟨node, rfl⟩ := exists_of_mem_dismantle hpiece
    exact ⟨fun child => children_of_mem_children_piece, node.releasesWithin_piece⟩

end ConstraintExpr
