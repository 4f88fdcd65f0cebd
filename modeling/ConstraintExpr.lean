import ConstraintExpr.Automaton
import ConstraintExpr.Build.Keyword
import ConstraintExpr.Eval.Machine
import ConstraintExpr.Expr.Counts
import ConstraintExpr.Expr.Dismantle
import ConstraintExpr.Expr.Equality
import ConstraintExpr.Printer
import ConstraintExpr.Scope
import ConstraintExpr.Transcript
import ConstraintExpr.Proofs.Address
import ConstraintExpr.Proofs.Traversal
import ConstraintExpr.Proofs.Consumption
import ConstraintExpr.Proofs.StackMachine
import ConstraintExpr.Proofs.WellFormed
import ConstraintExpr.Proofs.Construction
import ConstraintExpr.Proofs.Power
import ConstraintExpr.Proofs.Evaluation
import ConstraintExpr.Proofs.Numerals
import ConstraintExpr.Proofs.Library
import ConstraintExpr.Proofs.Rendering
import ConstraintExpr.Proofs.Unambiguity
import ConstraintExpr.Proofs.Acceptance
import ConstraintExpr.Proofs.Counts
import ConstraintExpr.Proofs.Preorder
import ConstraintExpr.Proofs.CutOff
import ConstraintExpr.Proofs.FirstOccurrence
import ConstraintExpr.Proofs.Reachability
import ConstraintExpr.Proofs.Failure
import ConstraintExpr.Proofs.Safety
import ConstraintExpr.Proofs.Scope
import ConstraintExpr.Proofs.Interruption
import ConstraintExpr.Proofs.Spelling
import ConstraintExpr.Proofs.OperandStack
import ConstraintExpr.Proofs.Calls
import ConstraintExpr.Proofs.Collection
import ConstraintExpr.Proofs.Rebuilding
import ConstraintExpr.Proofs.Nodes
import ConstraintExpr.Proofs.Width
import ConstraintExpr.Proofs.OperandOrder
import ConstraintExpr.Proofs.Flattening
import ConstraintExpr.Proofs.Equivalence
import ConstraintExpr.Proofs.Truth
import ConstraintExpr.Proofs.Logic
import ConstraintExpr.Proofs.Membership
import ConstraintExpr.Proofs.Comparison
import ConstraintExpr.Proofs.DerivedArithmetic
import ConstraintExpr.Proofs.Division
import ConstraintExpr.Proofs.Refusal
import ConstraintExpr.Proofs.Keywords
import ConstraintExpr.Proofs.Unsupported
import ConstraintExpr.Proofs.Callbacks
import ConstraintExpr.Proofs.Records
import ConstraintExpr.Proofs.Carrier
import ConstraintExpr.Proofs.Determinism
import ConstraintExpr.Proofs.Shortage
import ConstraintExpr.Proofs.Reading
import ConstraintExpr.Proofs.RoundTrip
import ConstraintExpr.Proofs.Frames
import ConstraintExpr.Proofs.Dismantling
