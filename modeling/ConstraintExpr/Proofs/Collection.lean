import Mathlib.Data.List.Basic
import ConstraintExpr.Scope
import ConstraintExpr.Proofs.Calls
import ConstraintExpr.Proofs.FirstOccurrence

/-!
# Collecting identifiers

One collector may be used for walks, with or without a limit, and for single
callbacks, in any order. Whether a use fails or not, what it has visited is
collected.

* `Scope.gathers_use`: each use adds the identifiers that it visits to those
  gathered before;
* `Scope.identifiers_walk_none`, `Scope.identifiers_walk_prefix`: a walk visits the
  identifiers of the tree from left to right, and a limit leaves the first ones;
* `Scope.collect_history`: so at any time the collector has the first occurrences
  of all identifiers visited, and what it has stays in its place.
-/

namespace ConstraintExpr

/-! ### Identifiers among labels -/

/-- The identifier of a variable. -/
def Label.identifier? : Label → Option String
  | .var id => some id
  | .constant _ | .unary _ | .binary _ | .nary _ _ | .ifThenElse | .range _ _ | .set _ => none

/-- The variables are called back for from left to right. -/
theorem Expr.filterMap_labels (e : Expr) :
    e.labels.filterMap Label.identifier? = e.identifiers := by
  induction e using childInduction with
  | step e ih =>
      have hchildren : (e.children.flatMap labels).filterMap Label.identifier? =
          e.children.flatMap identifiers := by
        rw [List.filterMap_flatMap]
        exact List.flatMap_congr ih
      rw [labels_eq, List.filterMap_append, hchildren]
      cases e with
      | var id => rfl
      | _ =>
          rw [identifiers_eq_flatMap (by intro id h; cases h)]
          exact List.append_nil _

namespace Scope

/-! ### Uses of a collector -/

/-- What a collector is used for: a walk of a tree, or the callback for a root. -/
inductive Use where
  | walk (limit : Option Nat) (e : Expr)
  | visit (e : Expr)

namespace Use

def action : Use → Action (Distinct String) TraversalError
  | walk limit e => visitor.walk limit e
  | visit e => visitor.visit e

/-- The identifiers of the variables that are called back for. -/
def identifiers : Use → List String
  | walk limit e => (e.calls limit).filterMap Label.identifier?
  | visit e => [e.label].filterMap Label.identifier?

end Use

/-- What a new collector has after the uses, one after another. The next use goes on
where the last one has stopped, also when that one has failed. -/
def collect (uses : List Use) : Distinct String :=
  uses.foldl (fun collected use => (use.action collected).2) {}

/-- One callback adds the identifier of its node, if that is a variable. -/
theorem gathers_visit {collected : Distinct String} {visited : List String} (e : Expr)
    (h : collected.Gathers visited) :
    (visitor.visit e collected).1 = .ok () ∧
      (visitor.visit e collected).2.Gathers
        (visited ++ [e.label].filterMap Label.identifier?) := by
  refine ⟨by cases e <;> rfl, ?_⟩
  cases e with
  | var id => exact h.insert id
  | _ =>
      rw [← List.append_nil visited] at h
      exact h

/-- A walk collects the identifiers that a recorder of the same walk notes. -/
theorem lockstep_recorder (visited : List String) :
    visitor.callback.Lockstep
      (fun collected noted =>
        collected.Gathers (visited ++ noted.filterMap Label.identifier?))
      Visitor.recorder.callback := by
  refine ⟨rfl, fun depth e collected noted h => ?_⟩
  obtain ⟨hresult, hgathers⟩ := gathers_visit e h
  have hnote : Visitor.recorder.callback.call depth e noted = (.ok (), noted ++ [e.label]) :=
    congrFun (Visitor.visit_recorder e) noted
  rw [hnote, List.filterMap_append, ← List.append_assoc]
  exact ⟨hresult, hgathers⟩

theorem gathers_use {collected : Distinct String} {visited : List String} (use : Use)
    (h : collected.Gathers visited) :
    (use.action collected).2.Gathers (visited ++ use.identifiers) := by
  cases use with
  | visit e => exact (gathers_visit e h).2
  | walk limit e =>
      refine ((lockstep_recorder visited).walk limit e collected [] ?_).2
      rw [List.filterMap_nil, List.append_nil]
      exact h

/-- Whatever a collector has been used for, it has gathered all identifiers visited. -/
theorem gathers_collect (uses : List Use) :
    (collect uses).Gathers (uses.flatMap Use.identifiers) := by
  induction uses using List.reverseRecOn with
  | nil => exact Distinct.gathers_empty
  | append_singleton uses use ih =>
      rw [collect, List.foldl_append, List.flatMap_append, List.flatMap_singleton]
      exact gathers_use use ih

/-- Without a limit, nothing makes the walk of a collector fail. -/
theorem walk_unlimited (e : Expr) (collected : Distinct String) :
    (visitor.walk none e collected).1 = .ok () := by
  have hlockstep : visitor.callback.Lockstep (fun _ _ => True) Visitor.recorder.callback :=
    ⟨rfl, fun _ e _ _ _ => ⟨by cases e <;> rfl, trivial⟩⟩
  have hsame : (visitor.walk none e collected).1 = (Visitor.recorder.walk none e []).1 :=
    (hlockstep.walk none e collected [] trivial).1
  rw [hsame, Visitor.walk_recorder_none]

theorem identifiers_walk_prefix (limit : Option Nat) (e : Expr) :
    (Use.walk limit e).identifiers <+: e.identifiers := by
  rw [← e.filterMap_labels]
  exact (e.calls_prefix limit).filterMap Label.identifier?

theorem identifiers_walk_none (e : Expr) : (Use.walk none e).identifiers = e.identifiers := by
  rw [Use.identifiers, e.calls_none, e.filterMap_labels]

end Scope

theorem Expr.scope_eq_firstOccurrences (e : Expr) : e.scope = firstOccurrences e.identifiers := by
  rw [firstOccurrences_eq_eraseDups, ← Scope.identifiers_walk_none]
  exact (Scope.gathers_use (.walk none e) Distinct.gathers_empty).toList_eq

/-- After any uses, failed ones included, a collector has the first occurrences of all
identifiers visited and knows exactly these; what it has stays in its place in all later
uses. A walk without a limit visits all identifiers of a tree from left to right and never
fails, so that the scope has their first occurrences. -/
theorem Scope.collect_history :
    (∀ uses : List Use,
        (collect uses).toList.Nodup ∧
          (collect uses).toList = (uses.flatMap Use.identifiers).eraseDups ∧
          (∀ id, id ∈ (collect uses).seen ↔ id ∈ (collect uses).toList) ∧
          ∀ later, (collect uses).toList <+: (collect (uses ++ later)).toList) ∧
      ∀ e : Expr,
        (∀ limit, (Use.walk limit e).identifiers <+: e.identifiers) ∧
          (Use.walk none e).identifiers = e.identifiers ∧
          (∀ collected, (visitor.walk none e collected).1 = .ok ()) ∧
          e.scope = e.identifiers.eraseDups := by
  refine ⟨fun uses => ?_, fun e => ⟨fun limit => identifiers_walk_prefix limit e,
    identifiers_walk_none e, walk_unlimited e, ?_⟩⟩
  · have hnow := gathers_collect uses
    refine ⟨?_, hnow.toList_eq, fun id => ?_, fun later => ?_⟩
    · rw [hnow.toList_eq]
      exact nodup_eraseDups _
    · rw [hnow.mem_seen, hnow.toList_eq, List.mem_eraseDups]
    · rw [hnow.toList_eq, (gathers_collect (uses ++ later)).toList_eq, List.flatMap_append]
      exact eraseDups_prefix_append _ _
  · rw [e.scope_eq_firstOccurrences, firstOccurrences_eq_eraseDups]

end ConstraintExpr
