import ConstraintExpr.Expr.Basic

/-!
# Journals

Builders and walks keep a journal of what they do. An `Event` is something
that happened at one point; a `Record` is an event or the boundary of a span,
which groups the records made inside it. Records are kept in order and none is
filtered out.
-/

namespace ConstraintExpr

/-- How much attention a record asks for: `trace` follows every step, `debug`
looks for faults. -/
inductive Level where
  | trace
  | debug
  deriving DecidableEq, Repr, Inhabited

def Level.name : Level → String
  | .trace => "TRACE"
  | .debug => "DEBUG"

/-- Something that happened while building or walking a tree. The first three
say why a node was refused: its operator does not fit the number of operands
`found`, a collection stands where a value belongs, or a set-belonging operator
lacks its collection. -/
inductive Event where
  | mismatchedArity (op : Operator) (expected : Arity) (found : Nat)
  | misplacedCollection (kind : NodeKind)
  | missingCollection (op : Operator) (found : NodeKind)
  /-- A walk is about to call back for a node at the given depth. -/
  | visit (kind : NodeKind) (depth : Nat)
  deriving DecidableEq, Repr

namespace Event

def level : Event → Level
  | .visit _ _ => .trace
  | .mismatchedArity _ _ _ | .misplacedCollection _ | .missingCollection _ _ => .debug

def message : Event → String
  | .mismatchedArity _ _ _ => "rejecting node with mismatched arity"
  | .misplacedCollection _ => "rejecting collection used as a value"
  | .missingCollection _ _ => "rejecting set-belonging node without a collection"
  | .visit _ _ => "visit"

/-- The named details of an event, each as text. -/
def fields : Event → List (String × String)
  | .mismatchedArity op expected found =>
      [("operator", op.name), ("expected", expected.name), ("found", found.repr)]
  | .misplacedCollection kind => [("kind", kind.name)]
  | .missingCollection op found => [("operator", op.name), ("found", found.name)]
  | .visit kind depth => [("kind", kind.name), ("depth", depth.repr)]

end Event

/-- Something larger that groups the records made while it is done. -/
inductive Span where
  | evaluate
  deriving DecidableEq, Repr, Inhabited

namespace Span

def name : Span → String
  | .evaluate => "evaluate"

def level : Span → Level
  | .evaluate => .debug

end Span

/-- An entry of a journal. -/
inductive Record where
  /-- Something happened. -/
  | event (event : Event)
  /-- A span was made. -/
  | span (span : Span)
  /-- The body of the last span made begins. -/
  | enter
  /-- The body of that span ends. -/
  | exit
  deriving DecidableEq, Repr

/-- The records made so far, the oldest first. -/
abbrev Journal := Array Record

end ConstraintExpr
