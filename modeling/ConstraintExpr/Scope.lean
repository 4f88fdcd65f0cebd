import ConstraintExpr.Distinct
import ConstraintExpr.Walk.Basic

/-!
# Scopes

The scope of a tree is the list of the variables it depends on, without
repetitions and in the order of their first occurrence from left to right. One
collection can gather the scopes of any number of trees.
-/

namespace ConstraintExpr

namespace Scope

/-- Collects the identifiers of variables and passes over everything else. -/
def visitor : Visitor (Distinct String) TraversalError where
  onTraversal := id
  constant _ := .skip
  var id := .update fun collected => collected.insert id
  unary _ _ := .skip
  binary _ _ _ := .skip
  nary _ _ := .skip
  ifThenElse _ _ _ := .skip
  range _ _ := .skip
  set _ := .skip

end Scope

/-- The variables of a tree, in the order of their first occurrence. -/
def Expr.scope (e : Expr) : List String :=
  (Scope.visitor.walk none e {}).2.toList

/-- The variables of a tree, with a record of each visit. -/
def Expr.scopeJournaled (e : Expr) (journal : Journal) : List String × Journal :=
  let (walked, journal) := Scope.visitor.walkJournaled none e {} journal
  (walked.2.toList, journal)

end ConstraintExpr
