import ConstraintExpr.Integer.Numeral
import ConstraintExpr.Walk.Basic

/-!
# Transcripts

A transcript is the list of the nodes that a walk has visited, one token for
each. A transcriber may support some kinds of node only, and may stop after a
number of tokens.
-/

namespace ConstraintExpr

/-- The token of a node in a transcript. -/
def Label.token : Label → String
  | .constant value => Numeral.render value
  | .var id => id
  | .unary op | .binary op => op.name
  | .nary op count => op.name ++ "/" ++ count.repr
  | .ifThenElse => "ite"
  | .range lo hi => Numeral.render lo ++ ":" ++ Numeral.render hi
  | .set count => "set/" ++ count.repr

namespace Transcript

/-- Why a transcriber fails. -/
inductive Failure where
  /-- The walk failed by itself. -/
  | traversal (error : TraversalError)
  /-- The transcript has the number of tokens it was to stop after. -/
  | stopped (count : Nat)
  deriving DecidableEq, Repr

/-- The text of a failure. -/
def Failure.message : Failure → String
  | .traversal error => error.message
  | .stopped count => "stopped after " ++ count.repr

/-- Adds a token, and fails if that makes as many as the transcriber was to
stop after. -/
def note (stopAfter : Option Nat) (label : Label) : Action (Array String) Failure := fun tokens =>
  let tokens := tokens.push label.token
  match stopAfter with
  | some count => if count ≤ tokens.size then (.error (.stopped count), tokens) else (.ok (), tokens)
  | none => (.ok (), tokens)

/-- Notes every node. -/
def noteAll (stopAfter : Option Nat) : Visitor (Array String) Failure where
  onTraversal := .traversal
  constant value := note stopAfter (.constant value)
  var id := note stopAfter (.var id)
  unary op _ := note stopAfter (.unary op)
  binary op _ _ := note stopAfter (.binary op)
  nary op operands := note stopAfter (.nary op operands.length)
  ifThenElse _ _ _ := note stopAfter .ifThenElse
  range lo hi := note stopAfter (.range lo hi)
  set elements := note stopAfter (.set elements.length)

/-- Notes the nodes of the supported kinds and fails for the others. -/
def transcriber (supports : NodeKind → Bool) (stopAfter : Option Nat) :
    Visitor (Array String) Failure :=
  (noteAll stopAfter).restrict supports

end Transcript

end ConstraintExpr
