import ConstraintExpr.Proofs.Address
import ConstraintExpr.Proofs.Counts

/-!
# The order in which nodes are reached

A traversal reaches a node before everything below it and is done with the node
after everything below it.

* `Address.ReachedBefore` is the order in which nodes are reached, and
  `Address.LeftOf` says of a node that the traversal is done with it, and with
  all that is below it, when the other node is reached (`Expr.leftOf_iff`);
* `Expr.FirstReached` is the first node that is reached on a level, and
  `Expr.DoneBefore` lists the nodes that the traversal is done with by then; both
  are found below the first child that is high enough (`FirstReached.child`,
  `DoneBefore.child`).
-/

namespace ConstraintExpr

namespace Address

/-- Pre-order: a node precedes everything below it, and what is below one child
precedes what is below the next ones. -/
inductive ReachedBefore : Address → Address → Prop
  | root {i a} : ReachedBefore [] (i :: a)
  | beside {i j a b} : i < j → ReachedBefore (i :: a) (j :: b)
  | within {i a b} : ReachedBefore a b → ReachedBefore (i :: a) (i :: b)

/-- Where the ways down to the two nodes part, the first one goes to an earlier
child. -/
inductive LeftOf : Address → Address → Prop
  | beside {i j a b} : i < j → LeftOf (i :: a) (j :: b)
  | within {i a b} : LeftOf a b → LeftOf (i :: a) (i :: b)

theorem ReachedBefore.irrefl (a : Address) : ¬ ReachedBefore a a := by
  induction a with
  | nil => intro h; cases h
  | cons i a ih =>
      intro h
      cases h with
      | beside hlt => omega
      | within h => exact ih h

/-- A node that is reached before another one lies on the way down to it or to
the left of it. -/
theorem ReachedBefore.cases {a b : Address} (h : ReachedBefore a b) : a <+: b ∨ LeftOf a b := by
  induction h with
  | root => exact .inl List.nil_prefix
  | beside hlt => exact .inr (.beside hlt)
  | within _ ih =>
      rcases ih with habove | hleft
      · exact .inl ((List.prefix_cons_inj _).mpr habove)
      · exact .inr (.within hleft)

/-- What is below a node to the left is to the left as well. -/
theorem LeftOf.append {a b : Address} (h : LeftOf a b) (c : Address) : LeftOf (a ++ c) b := by
  induction h with
  | beside hlt => exact .beside hlt
  | within _ ih => exact .within ih

/-- Nothing lies beneath two nodes of which one is to the left of the other. -/
theorem LeftOf.not_isPrefix {a b c : Address} (h : LeftOf a b) (ha : a <+: c) : ¬ b <+: c := by
  induction h generalizing c with
  | beside hlt =>
      obtain ⟨_, rfl⟩ := ha
      rintro ⟨_, heq⟩
      obtain rfl := (List.cons.inj heq).1
      exact absurd hlt (Nat.lt_irrefl _)
  | within _ ih =>
      obtain ⟨d, rfl⟩ := ha
      intro hb
      exact ih (List.prefix_append _ d) ((List.prefix_cons_inj _).mp hb)

/-- Of two children of a node, the earlier one is to the left. -/
theorem LeftOf.concat (a : Address) {i j : Nat} (h : i < j) : LeftOf (a ++ [i]) (a ++ [j]) := by
  induction a with
  | nil => exact .beside h
  | cons k a ih => exact .within ih

theorem LeftOf.reachedBefore {a b : Address} (h : LeftOf a b) : ReachedBefore a b := by
  induction h with
  | beside hlt => exact .beside hlt
  | within _ ih => exact .within ih

end Address

namespace Expr

/-- A node lies to the left of another one exactly when its whole subtree is
reached before the other one is. -/
theorem leftOf_iff {e : Expr} {a first : Address} (ha : (e.node? a).isSome)
    (hfirst : (e.node? first).isSome) :
    a.LeftOf first ↔ ∀ b : Address, a <+: b → (e.node? b).isSome → b.ReachedBefore first := by
  constructor
  · rintro h b ⟨c, rfl⟩ _
    exact (h.append c).reachedBefore
  · intro h
    rcases (h a (List.prefix_refl a) ha).cases with habove | hleft
    · exact absurd (h first habove hfirst) (Address.ReachedBefore.irrefl first)
    · exact hleft

/-! ### Nodes by level -/

/-- The way down to a node is shorter than the tree is high. -/
theorem length_lt_height {e : Expr} {a : Address} (ha : (e.node? a).isSome) :
    a.length < e.height := by
  induction a generalizing e with
  | nil => exact e.height_pos
  | cons i a ih =>
      rw [node?, Option.isSome_bind, Option.any_eq_true] at ha
      obtain ⟨child, hchild, ha⟩ := ha
      have hheight := height_lt_of_mem_children (List.mem_of_getElem? hchild)
      have := ih ha
      rw [List.length_cons]
      omega

theorem getElem?_children_split {e child : Expr} {before after : List Expr}
    (hchildren : e.children = before ++ child :: after) :
    e.children[before.length]? = some child := by
  rw [hchildren, List.getElem?_append_right (Nat.le_refl _), Nat.sub_self, List.getElem?_cons_zero]

/-- The first node that a traversal reaches on a level; the root is on level
zero. -/
structure FirstReached (e : Expr) (level : Nat) (first : Address) : Prop where
  isSome_node? : (e.node? first).isSome
  length_eq : first.length = level
  reachedBefore : ∀ a, (e.node? a).isSome → a.length = level → a ≠ first →
    first.ReachedBefore a

theorem firstReached_root (e : Expr) : e.FirstReached 0 [] :=
  ⟨rfl, rfl, fun _ _ hlength hne => absurd (List.length_eq_zero_iff.mp hlength) hne⟩

/-- The first child that is high enough has the first node of the level. -/
theorem FirstReached.child {e child : Expr} {before after : List Expr} {level : Nat}
    {first : Address} (hchildren : e.children = before ++ child :: after)
    (hbefore : ∀ low ∈ before, low.height ≤ level) (h : child.FirstReached level first) :
    e.FirstReached (level + 1) (before.length :: first) := by
  have hchild := getElem?_children_split hchildren
  refine ⟨?_, congrArg (· + 1) h.length_eq, fun a ha hlength hne => ?_⟩
  · rw [node?, hchild]
    exact h.isSome_node?
  · cases a with
    | nil => exact absurd hlength (Nat.succ_ne_zero level).symm
    | cons i a =>
        rw [node?, Option.isSome_bind, Option.any_eq_true] at ha
        obtain ⟨node, hnode, ha⟩ := ha
        have hinner : a.length = level := Nat.succ.inj hlength
        rcases Nat.lt_trichotomy i before.length with hlt | rfl | hgt
        · -- the children before are too low to have a node on the level
          rw [hchildren, List.getElem?_append_left hlt] at hnode
          have hlow := hbefore node (List.mem_of_getElem? hnode)
          have := length_lt_height ha
          omega
        · rw [hchild, Option.some.injEq] at hnode
          subst hnode
          refine .within (h.reachedBefore a ha hinner fun heq => hne ?_)
          rw [heq]
        · exact .beside hgt

/-- A tree that is higher than a level has a first child that reaches down to
it. -/
theorem exists_children_split {e : Expr} {level : Nat} (h : level + 1 < e.height) :
    ∃ before child after, e.children = before ++ child :: after ∧
      (∀ low ∈ before, low.height ≤ level) ∧ level < child.height := by
  cases hfind : e.children.find? (fun child => decide (level < child.height)) with
  | none =>
      have hlow : ∀ child ∈ e.children, child.height ≤ level := by simpa using hfind
      have := height_le_succ_iff.mpr hlow
      omega
  | some child =>
      obtain ⟨hchild, before, after, hsplit, hbefore⟩ := List.find?_eq_some_iff_append.mp hfind
      refine ⟨before, child, after, hsplit, fun low hlow => ?_, of_decide_eq_true hchild⟩
      simpa using hbefore low hlow

/-- Each level of a tree has a node. -/
theorem exists_node_of_lt_height {e : Expr} {level : Nat} (h : level < e.height) :
    ∃ a, (e.node? a).isSome ∧ a.length = level := by
  induction level generalizing e with
  | zero => exact ⟨[], rfl, rfl⟩
  | succ level ih =>
      obtain ⟨before, child, after, hsplit, _, hchild⟩ := exists_children_split h
      obtain ⟨a, ha, hlength⟩ := ih hchild
      refine ⟨before.length :: a, ?_, congrArg (· + 1) hlength⟩
      rw [node?_cons (getElem?_children_split hsplit)]
      exact ha

/-! ### What is done with when a node is reached -/

/-- The nodes whose whole subtree is reached before `first` is, in post-order. -/
structure DoneBefore (e : Expr) (first : Address) (done : List Address) : Prop where
  inOrder : done <+: e.addresses
  mem_iff : ∀ a, a ∈ done ↔ (e.node? a).isSome ∧
    ∀ b : Address, a <+: b → (e.node? b).isSome → b.ReachedBefore first

theorem doneBefore_of_leftOf {e : Expr} {first : Address} {done : List Address}
    (hfirst : (e.node? first).isSome) (hdone : done <+: e.addresses)
    (hleft : ∀ a, a ∈ done ↔ (e.node? a).isSome ∧ a.LeftOf first) : e.DoneBefore first done :=
  ⟨hdone, fun a => (hleft a).trans (and_congr_right fun ha => leftOf_iff ha hfirst)⟩

theorem DoneBefore.mem_iff_leftOf {e : Expr} {first : Address} {done : List Address}
    (h : e.DoneBefore first done) (hfirst : (e.node? first).isSome) (a : Address) :
    a ∈ done ↔ (e.node? a).isSome ∧ a.LeftOf first :=
  (h.mem_iff a).trans (and_congr_right fun ha => (leftOf_iff ha hfirst).symm)

/-- The nodes on the way down to a node are not done with. -/
theorem DoneBefore.not_above {e : Expr} {first : Address} {done : List Address}
    (h : e.DoneBefore first done) (hfirst : (e.node? first).isSome) {a : Address}
    (ha : a ∈ done) : ¬ a <+: first :=
  fun habove => Address.ReachedBefore.irrefl first (((h.mem_iff a).mp ha).2 first habove hfirst)

theorem doneBefore_root (e : Expr) : e.DoneBefore [] [] := by
  refine doneBefore_of_leftOf rfl List.nil_prefix fun a => ?_
  constructor
  · intro ha
    exact absurd ha List.not_mem_nil
  · rintro ⟨_, hleft⟩
    cases hleft

theorem addressesBelow_append (i : Nat) (before after : List (List Address)) :
    addressesBelow i (before ++ after) =
      addressesBelow i before ++ addressesBelow (i + before.length) after := by
  induction before generalizing i with
  | nil => rfl
  | cons inside before ih =>
      rw [List.cons_append, addressesBelow, addressesBelow, ih, List.append_assoc,
        List.length_cons, Nat.add_right_comm, Nat.add_assoc i]

/-- The traversal is done with all of the children before, and inside the next
child with what is done with there. -/
theorem DoneBefore.child {e child : Expr} {before after : List Expr} {first : Address}
    {done : List Address} (hchildren : e.children = before ++ child :: after)
    (hfirst : (child.node? first).isSome) (h : child.DoneBefore first done) :
    e.DoneBefore (before.length :: first)
      (addressesBelow 0 (before.map addresses) ++ done.map (before.length :: ·)) := by
  have hchild := getElem?_children_split hchildren
  have hinOrder : addressesBelow 0 (before.map addresses) ++ done.map (before.length :: ·) <+:
      e.addresses := by
    rw [addresses_eq, hchildren, List.map_append, addressesBelow_append, List.append_assoc,
      List.map_cons, addressesBelow, List.length_map, Nat.zero_add, List.append_assoc]
    exact (List.prefix_append_right_inj _).mpr ((h.inOrder.map _).trans (List.prefix_append _ _))
  refine doneBefore_of_leftOf (by rw [node?, hchild]; exact hfirst) hinOrder fun a => ?_
  constructor
  · intro ha
    refine ⟨mem_addresses.mp (hinOrder.subset ha), ?_⟩
    rcases List.mem_append.mp ha with ha | ha
    · obtain ⟨j, _, b, hj, _, rfl⟩ := mem_addressesBelow.mp ha
      have hlt := (List.getElem?_eq_some_iff.mp hj).1
      rw [List.length_map] at hlt
      exact .beside (by omega)
    · obtain ⟨b, hb, rfl⟩ := List.mem_map.mp ha
      exact .within ((h.mem_iff_leftOf hfirst b).mp hb).2
  · rintro ⟨ha, hleft⟩
    rw [List.mem_append]
    cases hleft with
    | @beside j _ b _ hlt =>
        rw [node?, hchildren, List.getElem?_append_left hlt, Option.isSome_bind,
          Option.any_eq_true] at ha
        obtain ⟨node, hnode, hb⟩ := ha
        refine .inl (mem_addressesBelow.mpr ⟨j, node.addresses, b, ?_, mem_addresses.mpr hb, ?_⟩)
        · rw [List.getElem?_map, hnode]
          rfl
        · rw [Nat.zero_add]
    | @within _ b _ hleft =>
        rw [node?, hchild] at ha
        exact .inr (List.mem_map_of_mem ((h.mem_iff_leftOf hfirst b).mpr ⟨ha, hleft⟩))

end Expr

end ConstraintExpr
