import ConstraintExpr.Proofs.Preorder

/-!
# Subtrees in their places

A loop that takes subtrees off a list forgets where they stand in the tree. A
`Subtree` keeps the address, so that equal subtrees in different places are told
apart.

* `Subtree.children` are the subtrees one level further down, and they stand in the
  tree where the subtree does (`Subtree.IsIn.child`);
* `Subtree.nodes` are the nodes of a subtree. They are its root and the nodes of its
  children, each of them once (`Subtree.nodes_perm`).
-/

namespace ConstraintExpr

/-- The node at an address that goes on below another one. -/
theorem Expr.node?_append (e : Expr) (a b : Address) :
    e.node? (a ++ b) = (e.node? a).bind fun below => below.node? b := by
  induction a generalizing e with
  | nil => rfl
  | cons i a ih =>
      rw [List.cons_append, node?, node?]
      cases e.children[i]? with
      | none => rfl
      | some child => exact ih child

/-- A tree and the address at which it stands in a larger one. -/
structure Subtree where
  address : Address
  tree : Expr

namespace Subtree

/-- A tree as a subtree of itself. -/
def whole (e : Expr) : Subtree := ⟨[], e⟩

/-- The subtree stands in the tree at its address. -/
def IsIn (s : Subtree) (e : Expr) : Prop :=
  e.node? s.address = some s.tree

theorem isIn_whole (e : Expr) : (whole e).IsIn e := rfl

/-! ### Children -/

/-- The children from number `i` on. -/
def childrenFrom (a : Address) (i : Nat) (es : List Expr) : List Subtree :=
  (es.zipIdx i).map fun p => ⟨a ++ [p.2], p.1⟩

/-- The children of the root, in order. -/
def children (s : Subtree) : List Subtree :=
  childrenFrom s.address 0 s.tree.children

theorem childrenFrom_cons (a : Address) (i : Nat) (e : Expr) (es : List Expr) :
    childrenFrom a i (e :: es) = ⟨a ++ [i], e⟩ :: childrenFrom a (i + 1) es := by
  rw [childrenFrom, List.zipIdx_cons, List.map_cons]
  rfl

theorem map_tree_children (s : Subtree) : s.children.map tree = s.tree.children := by
  rw [children, childrenFrom, List.map_map]
  exact List.zipIdx_map_fst 0 s.tree.children

theorem mem_children {s t : Subtree} :
    t ∈ s.children ↔ ∃ i, s.tree.children[i]? = some t.tree ∧ t.address = s.address ++ [i] := by
  simp only [children, childrenFrom, List.mem_map, Prod.exists, List.mem_zipIdx_iff_getElem?]
  constructor
  · rintro ⟨child, i, hchild, rfl⟩
    exact ⟨i, hchild, rfl⟩
  · rintro ⟨i, hchild, haddress⟩
    exact ⟨t.tree, i, hchild, by rw [← haddress]⟩

theorem IsIn.child {e : Expr} {s t : Subtree} (h : s.IsIn e) (ht : t ∈ s.children) :
    t.IsIn e := by
  obtain ⟨i, hchild, haddress⟩ := mem_children.mp ht
  rw [IsIn, haddress, Expr.node?_append, h, Option.bind_some, Expr.node?_cons hchild]
  rfl

/-- The children stand from left to right. -/
theorem pairwise_children (s : Subtree) :
    s.children.Pairwise fun t u => t.address.LeftOf u.address := by
  have haddress : s.children.map address =
      (List.range' 0 s.tree.children.length).map fun i => s.address ++ [i] := by
    rw [children, childrenFrom, List.map_map, ← List.zipIdx_map_snd, List.map_map]
    rfl
  refine List.pairwise_map.mp ?_
  rw [haddress]
  refine List.Pairwise.map _ (fun _ _ => Address.LeftOf.concat s.address) ?_
  rw [← List.range_eq_range']
  exact List.pairwise_lt_range

/-! ### Nodes -/

/-- The nodes of the subtree, by their addresses in the larger tree. -/
def nodes (s : Subtree) : List Address :=
  s.tree.addresses.map (s.address ++ ·)

theorem nodes_whole (e : Expr) : (whole e).nodes = e.addresses :=
  List.map_id _

theorem mem_nodes {s : Subtree} {a : Address} :
    a ∈ s.nodes ↔ ∃ b, (s.tree.node? b).isSome ∧ a = s.address ++ b := by
  simp only [nodes, List.mem_map, Expr.mem_addresses, eq_comm]

theorem address_mem_nodes (s : Subtree) : s.address ∈ s.nodes :=
  mem_nodes.mpr ⟨[], rfl, (List.append_nil _).symm⟩

/-- All nodes of a subtree lie beneath its root. -/
theorem prefix_of_mem_nodes {s : Subtree} {a : Address} (h : a ∈ s.nodes) : s.address <+: a := by
  obtain ⟨b, _, rfl⟩ := mem_nodes.mp h
  exact List.prefix_append _ _

/-- The nodes of a subtree of the tree are nodes of the tree. -/
theorem IsIn.nodes_subset {e : Expr} {s : Subtree} (h : s.IsIn e) : s.nodes ⊆ e.addresses := by
  intro a ha
  obtain ⟨b, hb, rfl⟩ := mem_nodes.mp ha
  rw [Expr.mem_addresses, Expr.node?_append, h]
  exact hb

theorem map_addressesBelow (a : Address) (i : Nat) (es : List Expr) :
    (Expr.addressesBelow i (es.map Expr.addresses)).map (a ++ ·) =
      (childrenFrom a i es).flatMap nodes := by
  induction es generalizing i with
  | nil => rfl
  | cons e es ih =>
      have hfirst : (e.addresses.map (i :: ·)).map (a ++ ·) = nodes ⟨a ++ [i], e⟩ := by
        rw [List.map_map]
        exact List.map_congr_left fun b _ => List.append_cons a i b
      rw [List.map_cons, Expr.addressesBelow, List.map_append, ih, hfirst, childrenFrom_cons,
        List.flatMap_cons]

/-- The root and what is below each child make up the nodes of a subtree. -/
theorem nodes_perm (s : Subtree) : s.nodes.Perm (s.address :: s.children.flatMap nodes) := by
  rw [nodes, Expr.addresses_eq, List.map_append, map_addressesBelow, List.map_singleton,
    List.append_nil]
  exact List.perm_append_singleton _ _

end Subtree

end ConstraintExpr
