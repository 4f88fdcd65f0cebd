import ConstraintExpr.Proofs.Tree

/-!
# Nodes of a tree and their order

Equal subtrees may stand in several places of a tree. A node is therefore told
by its address: the numbers of the children on the way down from the root.

* `Expr.node?` finds the subtree at an address;
* `Expr.addresses` lists the nodes in post-order, each of them once
  (`Expr.mem_addresses`, `Expr.nodup_addresses`);
* `Address.Before` says of two nodes which one comes first in post-order
  without listing any (`Expr.pairwise_addresses`).
-/

namespace ConstraintExpr

/-- The numbers of the children on the way down to a node. -/
abbrev Address := List Nat

/-- Post-order: a node follows everything below it, and what is below one child
precedes what is below the next ones. -/
inductive Address.Before : Address → Address → Prop
  | root {i a} : Before (i :: a) []
  | beside {i j a b} : i < j → Before (i :: a) (j :: b)
  | within {i a b} : Before a b → Before (i :: a) (i :: b)

namespace Address.Before

theorem irrefl (a : Address) : ¬ Before a a := by
  induction a with
  | nil => intro h; cases h
  | cons i a ih =>
      intro h
      cases h with
      | beside hlt => omega
      | within h => exact ih h

theorem ne {a b : Address} (h : Before a b) : a ≠ b := by
  intro heq
  subst heq
  exact irrefl a h

end Address.Before

namespace Expr

/-- The subtree at an address, if the tree has a node there. -/
def node? (e : Expr) : Address → Option Expr
  | [] => some e
  | i :: a => e.children[i]?.bind fun child => child.node? a

theorem node?_cons {e child : Expr} {i : Nat} (hchild : e.children[i]? = some child)
    (a : Address) : e.node? (i :: a) = child.node? a := by
  rw [node?, hchild]
  rfl

/-- The first one of the children from number `i` on, and those after it. -/
theorem drop_children_eq_cons {e first : Expr} {i : Nat} {rest : List Expr}
    (h : e.children.drop i = first :: rest) :
    e.children[i]? = some first ∧ e.children.drop (i + 1) = rest := by
  constructor
  · rw [← List.head?_drop, h, List.head?_cons]
  · rw [← List.tail_drop, h, List.tail_cons]

/-- The addresses below the children from number `i` on, given those inside each
of these children. -/
def addressesBelow (i : Nat) : List (List Address) → List Address
  | [] => []
  | inside :: rest => inside.map (i :: ·) ++ addressesBelow (i + 1) rest

/-- The nodes of a tree in post-order. -/
def addresses (e : Expr) : List Address :=
  e.fold fun _ inside => addressesBelow 0 inside ++ [[]]

theorem addresses_eq (e : Expr) :
    e.addresses = addressesBelow 0 (e.children.map addresses) ++ [[]] :=
  fold_eq _ e

theorem mem_addressesBelow {i : Nat} {insides : List (List Address)} {a : Address} :
    a ∈ addressesBelow i insides ↔
      ∃ j inside b, insides[j]? = some inside ∧ b ∈ inside ∧ a = (i + j) :: b := by
  induction insides generalizing i with
  | nil => simp [addressesBelow]
  | cons first rest ih =>
      simp only [addressesBelow, List.mem_append, List.mem_map, ih]
      constructor
      · rintro (⟨b, hb, rfl⟩ | ⟨j, inside, b, hj, hb, rfl⟩)
        · exact ⟨0, first, b, rfl, hb, rfl⟩
        · refine ⟨j + 1, inside, b, by simpa using hj, hb, ?_⟩
          rw [Nat.add_right_comm, Nat.add_assoc]
      · rintro ⟨j, inside, b, hj, hb, rfl⟩
        cases j with
        | zero =>
            simp only [List.getElem?_cons_zero, Option.some.injEq] at hj
            subst hj
            exact .inl ⟨b, hb, rfl⟩
        | succ j =>
            refine .inr ⟨j, inside, b, by simpa using hj, hb, ?_⟩
            rw [Nat.add_right_comm, Nat.add_assoc]

/-- The listing has exactly the nodes of the tree. -/
theorem mem_addresses {e : Expr} {a : Address} : a ∈ e.addresses ↔ (e.node? a).isSome := by
  induction e using childInduction generalizing a with
  | step e ih =>
      rw [addresses_eq, List.mem_append, List.mem_singleton, mem_addressesBelow]
      cases a with
      | nil => simp [node?]
      | cons i a =>
          simp only [Nat.zero_add, List.cons.injEq, List.getElem?_map, Option.map_eq_some_iff,
            reduceCtorEq, or_false, node?]
          constructor
          · rintro ⟨_, _, _, ⟨child, hchild, rfl⟩, hb, rfl, rfl⟩
            rw [hchild]
            exact (ih child (List.mem_of_getElem? hchild)).mp hb
          · intro h
            cases hchild : e.children[i]? with
            | none => simp [hchild] at h
            | some child =>
                rw [hchild] at h
                exact ⟨i, _, a, ⟨child, hchild, rfl⟩,
                  (ih child (List.mem_of_getElem? hchild)).mpr h, rfl, rfl⟩

/-- The listing is in post-order. -/
theorem pairwise_addresses (e : Expr) : e.addresses.Pairwise Address.Before := by
  -- what is below one child precedes what is below the later ones
  have hbelow : ∀ (insides : List (List Address)) (i : Nat),
      (∀ inside ∈ insides, inside.Pairwise Address.Before) →
      (addressesBelow i insides).Pairwise Address.Before := by
    intro insides
    induction insides with
    | nil => intro i _; exact List.Pairwise.nil
    | cons first rest ih =>
        intro i h
        refine List.pairwise_append.mpr ⟨?_, ih (i + 1) fun inside hinside =>
          h inside (List.mem_cons_of_mem _ hinside), ?_⟩
        · exact List.Pairwise.map _ (fun _ _ => .within) (h first List.mem_cons_self)
        · intro a ha b hb
          obtain ⟨a, _, rfl⟩ := List.mem_map.mp ha
          obtain ⟨j, _, b, _, _, rfl⟩ := mem_addressesBelow.mp hb
          exact .beside (by omega)
  induction e using childInduction with
  | step e ih =>
      rw [addresses_eq]
      refine List.pairwise_append.mpr ⟨hbelow _ 0 ?_, List.pairwise_singleton _ _, ?_⟩
      · intro inside hinside
        obtain ⟨child, hchild, rfl⟩ := List.mem_map.mp hinside
        exact ih child hchild
      · intro a ha b hb
        obtain ⟨j, _, a, _, _, rfl⟩ := mem_addressesBelow.mp ha
        rw [List.mem_singleton.mp hb]
        exact .root

theorem nodup_addresses (e : Expr) : e.addresses.Nodup :=
  (pairwise_addresses e).imp Address.Before.ne

end Expr

end ConstraintExpr
