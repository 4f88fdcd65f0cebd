import Mathlib.Data.List.Forall2
import ConstraintExpr.Proofs.CutOff
import ConstraintExpr.Proofs.Failure

/-!
# Where a stack machine stops

When the callback for a node fails, the results on the stack that belong to the
walk are those that no parent has taken yet.

* `Address.unclaimed` are the nodes done with whose parent the walk has not come
  to; they are the earlier siblings of the nodes on the way down to the node that
  fails (`Expr.unclaimed_eq_earlierSiblings`);
* `Reduction.exists_stop` finds the node that fails and the results left then.
-/

namespace ConstraintExpr

/-! ### Nodes without their parents -/

namespace Address

theorem Before.asymm {a b : Address} (h : Before a b) : ¬ Before b a := by
  induction h with
  | root =>
      intro h
      cases h
  | beside hlt =>
      intro h
      cases h with
      | beside hgt => omega
      | within h => omega
  | within _ ih =>
      intro h
      cases h with
      | beside hlt => omega
      | within h => exact ih h

/-- Of the nodes `done`, those whose parent is neither one of them nor the node
`failing`. -/
def unclaimed (done : List Address) (failing : Address) : List Address :=
  done.filter fun a => a.dropLast ∉ done ++ [failing]

/-- The earlier siblings of the nodes on the way down to a node, from the top
down. -/
def earlierSiblings : Address → List Address
  | [] => []
  | i :: a => (List.range i).map ([·]) ++ (earlierSiblings a).map (i :: ·)

/-- The earlier siblings are the nodes that come first in post-order although
their parent does not. -/
theorem mem_earlierSiblings {a failing : Address} :
    a ∈ failing.earlierSiblings ↔
      a.Before failing ∧ a.dropLast ≠ failing ∧ ¬ Before a.dropLast failing := by
  induction failing generalizing a with
  | nil =>
      simp only [earlierSiblings, List.not_mem_nil, false_iff]
      rintro ⟨h, hroot, hbelow⟩
      cases h with
      | @root i a =>
          cases a with
          | nil => exact hroot rfl
          | cons j a => exact hbelow .root
  | cons i failing ih =>
      simp only [earlierSiblings, List.mem_append, List.mem_map, List.mem_range]
      constructor
      · rintro (⟨j, hlt, rfl⟩ | ⟨b, hb, rfl⟩)
        · exact ⟨.beside hlt, by simp, fun h => by cases h⟩
        · obtain ⟨hbefore, hroot, hbelow⟩ := ih.mp hb
          cases b with
          | nil => cases hbefore
          | cons j b =>
              refine ⟨.within hbefore, fun h => hroot (List.cons.inj h).2, fun h => ?_⟩
              cases h with
              | beside hlt => omega
              | within h => exact hbelow h
      · rintro ⟨h, hroot, hbelow⟩
        cases h with
        | @beside j _ b _ hlt =>
            cases b with
            | nil => exact .inl ⟨j, hlt, rfl⟩
            | cons k b => exact absurd (.beside hlt) hbelow
        | @within _ b _ h =>
            cases b with
            | nil => cases h
            | cons k b =>
                exact .inr ⟨k :: b, ih.mpr ⟨h, fun heq => hroot (congrArg (i :: ·) heq),
                  fun h => hbelow (.within h)⟩, rfl⟩

theorem pairwise_earlierSiblings (a : Address) : a.earlierSiblings.Pairwise Before := by
  induction a with
  | nil => exact List.Pairwise.nil
  | cons i a ih =>
      refine List.pairwise_append.mpr ⟨?_, ih.map _ fun _ _ => Before.within, ?_⟩
      · exact List.pairwise_lt_range.map _ fun _ _ => Before.beside
      · intro b hb c hc
        obtain ⟨j, hj, rfl⟩ := List.mem_map.mp hb
        obtain ⟨d, _, rfl⟩ := List.mem_map.mp hc
        exact .beside (List.mem_range.mp hj)

end Address

namespace Expr

/-- What has a node below has a node there. -/
theorem isSome_node?_dropLast {e : Expr} {a : Address} (h : (e.node? a).isSome) :
    (e.node? a.dropLast).isSome := by
  induction a generalizing e with
  | nil => exact h
  | cons i a ih =>
      cases a with
      | nil => rfl
      | cons j a =>
          rw [node?, Option.isSome_bind, Option.any_eq_true] at h
          obtain ⟨child, hchild, h⟩ := h
          rw [List.dropLast_cons_of_ne_nil (List.cons_ne_nil j a), node?_cons hchild]
          exact ih h

theorem isSome_node?_of_mem_earlierSiblings {e : Expr} {a failing : Address}
    (hfailing : (e.node? failing).isSome) (ha : a ∈ failing.earlierSiblings) :
    (e.node? a).isSome := by
  induction failing generalizing e a with
  | nil => exact absurd ha List.not_mem_nil
  | cons i failing ih =>
      rw [node?, Option.isSome_bind, Option.any_eq_true] at hfailing
      obtain ⟨child, hchild, hfailing⟩ := hfailing
      rcases List.mem_append.mp ha with ha | ha
      · obtain ⟨j, hj, rfl⟩ := List.mem_map.mp ha
        have hlt : j < e.children.length :=
          (List.mem_range.mp hj).trans (List.getElem?_eq_some_iff.mp hchild).1
        rw [node?_cons (List.getElem?_eq_getElem hlt)]
        rfl
      · obtain ⟨b, hb, rfl⟩ := List.mem_map.mp ha
        rw [node?_cons hchild]
        exact ih hfailing hb

/-- What comes first in the listing comes first in post-order. -/
theorem mem_done_iff {e : Expr} {done rest : List Address} {failing a : Address}
    (h : e.addresses = done ++ failing :: rest) :
    a ∈ done ↔ (e.node? a).isSome ∧ a.Before failing := by
  have hpairwise := e.pairwise_addresses
  rw [h] at hpairwise
  obtain ⟨_, hrest, hdone⟩ := List.pairwise_append.mp hpairwise
  rw [← mem_addresses, h]
  constructor
  · intro ha
    exact ⟨List.mem_append_left _ ha, hdone a ha failing List.mem_cons_self⟩
  · rintro ⟨ha, hbefore⟩
    rcases List.mem_append.mp ha with ha | ha
    · exact ha
    · rcases List.mem_cons.mp ha with rfl | ha
      · exact absurd hbefore (Address.Before.irrefl a)
      · exact absurd hbefore (Address.Before.asymm (List.rel_of_pairwise_cons hrest ha))

theorem unclaimed_eq_earlierSiblings {e : Expr} {done rest : List Address} {failing : Address}
    (h : e.addresses = done ++ failing :: rest) :
    Address.unclaimed done failing = failing.earlierSiblings := by
  have hfailing : (e.node? failing).isSome := mem_addresses.mp (by simp [h])
  have hmem : ∀ a, a ∈ Address.unclaimed done failing ↔ a ∈ failing.earlierSiblings := by
    intro a
    simp only [Address.unclaimed, List.mem_filter, List.mem_append, List.mem_singleton,
      decide_eq_true_eq, not_or, mem_done_iff h, Address.mem_earlierSiblings]
    constructor
    · rintro ⟨⟨ha, hbefore⟩, hparent, hroot⟩
      exact ⟨hbefore, hroot, fun hlt => hparent ⟨isSome_node?_dropLast ha, hlt⟩⟩
    · rintro ⟨hbefore, hroot, hparent⟩
      have ha := isSome_node?_of_mem_earlierSiblings hfailing
        (Address.mem_earlierSiblings.mpr ⟨hbefore, hroot, hparent⟩)
      exact ⟨⟨ha, hbefore⟩, fun hlt => hparent hlt.2, hroot⟩
  have hdone : done.Pairwise Address.Before := by
    have hpairwise := e.pairwise_addresses
    rw [h] at hpairwise
    exact (List.pairwise_append.mp hpairwise).1
  -- both listings are in post-order
  have hleft : (Address.unclaimed done failing).Pairwise Address.Before := hdone.filter _
  have hright := failing.pairwise_earlierSiblings
  have hperm := (List.perm_ext_iff_of_nodup (hleft.imp Address.Before.ne)
    (hright.imp Address.Before.ne)).mpr hmem
  exact hperm.eq_of_pairwise (fun _ _ _ _ hab hba => absurd hba hab.asymm) hleft hright

end Expr

/-! ### The results left -/

namespace Reduction

variable {α ε : Type} {r : Reduction α ε}

/-- The subtree at the address has the result. -/
def ResultAt (r : Reduction α ε) (e : Expr) (a : Address) (result : α) : Prop :=
  ∃ below, e.node? a = some below ∧ r.value below = .ok result

/-- The results of the first children, by the addresses of these children. -/
theorem resultAt_children {e : Expr} {before after : List Expr} {results : List α}
    (hchildren : e.children = before ++ after) (h : before.mapM r.value = .ok results) :
    List.Forall₂ (r.ResultAt e) ((List.range before.length).map ([·])) results := by
  obtain ⟨hlength, hresult⟩ := List.forall₂_iff_get.mp (mapM_eq_ok_iff.mp h)
  refine List.forall₂_iff_get.mpr ⟨by simpa using hlength, fun i hi hi' => ?_⟩
  have hbefore : i < before.length := by simpa using hi
  have hchild : e.children[i]? = some before[i] := by
    rw [hchildren, List.getElem?_append_left hbefore, List.getElem?_eq_getElem hbefore]
  refine ⟨before[i], ?_, hresult i hbefore hi'⟩
  simp [Expr.node?_cons hchild, Expr.node?]

/-- Calling back for all that is below the first children puts their results on
the stack. -/
theorem callEach_children {e : Expr} {before after : List Expr} {results : List α}
    (hchildren : e.children = before ++ after) (h : before.mapM r.value = .ok results)
    (depth : Nat) (stack : List α) :
    r.visitor.callback.callEach e depth (Expr.addressesBelow 0 (before.map Expr.addresses)) stack =
      (.ok (), results.reverse ++ stack) := by
  obtain ⟨_, hsequence⟩ := r.exists_sequence fun child (_ : child ∈ before) =>
    r.exists_traverse child (depth + 1)
  rw [← r.visitor.callback.sequence_traverse_none (i := 0) hchildren]
  refine (hsequence stack).trans ?_
  rw [h]

/-- The callback for the node at `failing` is the first one to fail, after the
callbacks for the nodes `done`. It takes the results of the children of the node
and leaves those that are waiting for their parents. -/
structure Stop (r : Reduction α ε) (e : Expr) (done : List Address) (failing : Address)
    (waiting : List α) (error : ε) : Prop where
  inOrder : ∃ rest, e.addresses = done ++ failing :: rest
  resultAt : List.Forall₂ (r.ResultAt e) failing.earlierSiblings waiting
  call : ∃ node taken, e.node? failing = some node ∧ node.children.mapM r.value = .ok taken ∧
    r.combine node.label taken = .error error ∧
    ∀ depth stack, r.visitor.callback.callEach e depth done stack =
      (.ok (), taken.reverse ++ (waiting.reverse ++ stack))

/-- The node fails by itself, with the results of all its children. -/
theorem stop_root {e : Expr} {taken : List α} {error : ε}
    (htaken : e.children.mapM r.value = .ok taken) (h : r.combine e.label taken = .error error) :
    r.Stop e (Expr.addressesBelow 0 (e.children.map Expr.addresses)) [] [] error where
  inOrder := ⟨[], e.addresses_eq⟩
  resultAt := .nil
  call := ⟨e, taken, rfl, htaken, h, fun depth stack =>
    callEach_children (List.append_nil _).symm htaken depth stack⟩

/-- The results of the children before are waiting for the node as well. -/
theorem Stop.child {e child : Expr} {before after : List Expr} {results waiting : List α}
    {done : List Address} {failing : Address} {error : ε}
    (hchildren : e.children = before ++ child :: after)
    (hresults : before.mapM r.value = .ok results) (h : r.Stop child done failing waiting error) :
    r.Stop e (Expr.addressesBelow 0 (before.map Expr.addresses) ++ done.map (before.length :: ·))
      (before.length :: failing) (results ++ waiting) error := by
  have hchild := Expr.getElem?_children_split hchildren
  obtain ⟨rest, hrest⟩ := h.inOrder
  obtain ⟨node, taken, hnode, htaken, herror, hcalls⟩ := h.call
  refine ⟨⟨rest.map (before.length :: ·) ++
      (Expr.addressesBelow (before.length + 1) (after.map Expr.addresses) ++ [[]]), ?_⟩, ?_,
    node, taken, ?_, htaken, herror, fun depth stack => ?_⟩
  · rw [Expr.addresses_eq, hchildren, List.map_append, Expr.addressesBelow_append, List.map_cons,
      Expr.addressesBelow, List.length_map, Nat.zero_add, hrest]
    simp only [List.map_append, List.map_cons, List.append_assoc, List.cons_append]
  · refine List.rel_append (resultAt_children hchildren hresults)
      (List.forall₂_map_left_iff.mpr (h.resultAt.imp fun a result hresult => ?_))
    obtain ⟨below, hbelow, hvalue⟩ := hresult
    exact ⟨below, (Expr.node?_cons hchild a).trans hbelow, hvalue⟩
  · rw [Expr.node?_cons hchild, hnode]
  · rw [Callback.callEach_append, Action.andThen_of_ok (callEach_children hchildren hresults _ _),
      Callback.callEach_child _ hchild, hcalls]
    simp only [List.reverse_append, List.append_assoc]

/-- A tree without a result has a node that is the first one to fail. -/
theorem exists_stop {e : Expr} {error : ε} (h : r.value e = .error error) :
    ∃ done failing waiting, r.Stop e done failing waiting error := by
  induction e using Expr.childInduction with
  | step e ih =>
      rcases value_eq_error_iff.mp h with
        ⟨before, child, after, hchildren, hbefore, hchild⟩ | ⟨taken, htaken, hnode⟩
      · obtain ⟨results, hresults⟩ := exists_mapM_eq_ok hbefore
        obtain ⟨done, failing, waiting, hstop⟩ := ih child (by simp [hchildren]) hchild
        exact ⟨_, _, _, hstop.child hchildren hresults⟩
      · exact ⟨_, _, _, stop_root htaken hnode⟩

end Reduction

end ConstraintExpr
