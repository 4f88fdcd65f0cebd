import ConstraintExpr.Expr.Basic

/-!
# Visitors

A visitor keeps a state and has one callback for each kind of node. A callback
changes the state and may fail; the state it leaves is kept either way. A
callback that a visitor does not provide fails for its kind of node.

* `Visitor.visit` is the callback for the root of a tree, and what it does at each
  tree determines the visitor (`Visitor.ext_visit`);
* `Visitor.ofVisit` is the visitor with given callbacks;
* `Visitor.restrict` takes callbacks away from a visitor.
-/

namespace ConstraintExpr

/-- Why a walk fails by itself, whatever the visitor. -/
inductive TraversalError where
  /-- The visitor has no callback for nodes of the kind. -/
  | unsupported (kind : NodeKind)
  /-- A node lies deeper than the limit. -/
  | depthExceeded (limit : Nat)
  deriving DecidableEq, Repr

/-- The text of a failure. -/
def TraversalError.message : TraversalError → String
  | .unsupported kind => "visitor does not support " ++ kind.name ++ " nodes"
  | .depthExceeded limit => "expression depth exceeds the limit of " ++ limit.repr

/-- A change of a state that may fail. -/
abbrev Action (σ ε : Type) := σ → Except ε Unit × σ

namespace Action

variable {σ ε : Type}

/-- Replaces the state by `f` of it. -/
def update (f : σ → σ) : Action σ ε := fun state => (.ok (), f state)

/-- Leaves the state alone and succeeds. -/
def skip : Action σ ε := update id

/-- Leaves the state alone and fails. -/
def fail (error : ε) : Action σ ε := fun state => (.error error, state)

/-- Performs `a`, then `b` unless `a` has failed. -/
def andThen (a b : Action σ ε) : Action σ ε := fun state =>
  match a state with
  | (.ok _, state) => b state
  | (.error error, state) => (.error error, state)

end Action

/-- What is done at each kind of node. A callback gets what the node carries and
its children, which have been visited by then. Without a callback of its own, a
kind of node is unsupported. -/
structure Visitor (σ ε : Type) where
  /-- How the failures of the walk itself are reported. -/
  onTraversal : TraversalError → ε
  constant : Int → Action σ ε :=
    fun _ => .fail (onTraversal (.unsupported .constant))
  var : String → Action σ ε :=
    fun _ => .fail (onTraversal (.unsupported .variable))
  unary : Operator → Expr → Action σ ε :=
    fun _ _ => .fail (onTraversal (.unsupported .unary))
  binary : Operator → Expr → Expr → Action σ ε :=
    fun _ _ _ => .fail (onTraversal (.unsupported .binary))
  nary : Operator → List Expr → Action σ ε :=
    fun _ _ => .fail (onTraversal (.unsupported .nary))
  ifThenElse : Expr → Expr → Expr → Action σ ε :=
    fun _ _ _ => .fail (onTraversal (.unsupported .ifThenElse))
  range : Int → Int → Action σ ε :=
    fun _ _ => .fail (onTraversal (.unsupported .range))
  set : List Expr → Action σ ε :=
    fun _ => .fail (onTraversal (.unsupported .set))

namespace Visitor

variable {σ ε : Type}

/-- The callback for the root of a tree. -/
def visit (v : Visitor σ ε) : Expr → Action σ ε
  | .constant value => v.constant value
  | .var id => v.var id
  | .unary op operand => v.unary op operand
  | .binary op left right => v.binary op left right
  | .nary op operands => v.nary op operands
  | .ifThenElse condition ifTrue ifFalse => v.ifThenElse condition ifTrue ifFalse
  | .range lo hi => v.range lo hi
  | .set elements => v.set elements

/-- Visitors that do the same at every tree are the same. -/
theorem ext_visit {v w : Visitor σ ε} (htraversal : v.onTraversal = w.onTraversal)
    (hvisit : ∀ e, v.visit e = w.visit e) : v = w := by
  rcases v with ⟨_, constant, var, unary, binary, nary, ifThenElse, range, set⟩
  rcases w with ⟨_, constant', var', unary', binary', nary', ifThenElse', range', set'⟩
  obtain rfl : _ = _ := htraversal
  obtain rfl : constant = constant' := funext fun value => hvisit (.constant value)
  obtain rfl : var = var' := funext fun id => hvisit (.var id)
  obtain rfl : unary = unary' := funext fun op => funext fun e => hvisit (.unary op e)
  obtain rfl : binary = binary' :=
    funext fun op => funext fun left => funext fun right => hvisit (.binary op left right)
  obtain rfl : nary = nary' := funext fun op => funext fun operands => hvisit (.nary op operands)
  obtain rfl : ifThenElse = ifThenElse' :=
    funext fun condition => funext fun ifTrue => funext fun ifFalse =>
      hvisit (.ifThenElse condition ifTrue ifFalse)
  obtain rfl : range = range' := funext fun lo => funext fun hi => hvisit (.range lo hi)
  obtain rfl : set = set' := funext fun elements => hvisit (.set elements)
  rfl

/-- The visitor that does at every tree what it is told. -/
def ofVisit (onTraversal : TraversalError → ε) (visit : Expr → Action σ ε) : Visitor σ ε where
  onTraversal := onTraversal
  constant value := visit (.constant value)
  var id := visit (.var id)
  unary op operand := visit (.unary op operand)
  binary op left right := visit (.binary op left right)
  nary op operands := visit (.nary op operands)
  ifThenElse condition ifTrue ifFalse := visit (.ifThenElse condition ifTrue ifFalse)
  range lo hi := visit (.range lo hi)
  set elements := visit (.set elements)

theorem visit_ofVisit (onTraversal : TraversalError → ε) (visit : Expr → Action σ ε) (e : Expr) :
    (ofVisit onTraversal visit).visit e = visit e := by
  cases e <;> rfl

/-- The visitor without any callback. -/
def unsupporting : Visitor σ TraversalError where
  onTraversal := id

/-- Keeps the callbacks of the supported kinds of node only. -/
def restrict (v : Visitor σ ε) (supports : NodeKind → Bool) : Visitor σ ε :=
  -- every callback left out takes the failing default of the structure
  let without : Visitor σ ε := { onTraversal := v.onTraversal }
  { onTraversal := v.onTraversal
    constant := if supports .constant then v.constant else without.constant
    var := if supports .variable then v.var else without.var
    unary := if supports .unary then v.unary else without.unary
    binary := if supports .binary then v.binary else without.binary
    nary := if supports .nary then v.nary else without.nary
    ifThenElse := if supports .ifThenElse then v.ifThenElse else without.ifThenElse
    range := if supports .range then v.range else without.range
    set := if supports .set then v.set else without.set }

/-- A restricted visitor calls back for supported kinds and fails for the
others. -/
theorem visit_restrict (v : Visitor σ ε) (supports : NodeKind → Bool) (e : Expr) :
    (v.restrict supports).visit e =
      if supports e.kind then v.visit e
      else .fail (v.onTraversal (.unsupported e.kind)) := by
  cases hsupports : supports e.kind <;>
    cases e <;>
      simp_all [visit, restrict, Expr.kind, Expr.label, Label.kind]

end Visitor

end ConstraintExpr
