import ConstraintExpr.Distinct
import ConstraintExpr.Integer.Numeral

/-!
# Finite automata

A finite automaton over integer labels, as regular constraints use it. Several
transitions may leave one state with one label, and a word is accepted when
some run from the start state spells it and ends in a final state. Acceptance
follows all runs at once: the frontier is the set of the states reached by the
part of the word read so far.
-/

namespace ConstraintExpr

/-- An edge from one state to another. -/
structure Transition where
  /-- The state that the edge leaves. -/
  source : String
  /-- The label of the edge. -/
  label : Int
  /-- The state that the edge enters. -/
  target : String
  deriving DecidableEq, Repr, Inhabited

/-- A transition as a triple in parentheses. -/
def Transition.text (t : Transition) : String :=
  "(" ++ t.source ++ "," ++ Numeral.render t.label ++ "," ++ t.target ++ ")"

/-- A finite automaton. -/
structure Automaton where
  /-- The state in which every run starts. -/
  start : String
  /-- The edges. -/
  transitions : List Transition
  /-- The states in which a run accepts. -/
  finals : List String
  deriving DecidableEq, Repr, Inhabited

namespace Automaton

/-- Every state that the automaton mentions, in the order of first appearance:
the start state, the ends of the transitions, the final states. -/
def states (a : Automaton) : List String :=
  firstOccurrences
    (a.start :: (a.transitions.flatMap fun t => [t.source, t.target]) ++ a.finals)

/-- The labels of the transitions, in the order of first appearance. -/
def alphabet (a : Automaton) : List Int :=
  firstOccurrences (a.transitions.map Transition.label)

/-- Whether no two transitions leave one state with one label. -/
def isDeterministic (a : Automaton) : Bool :=
  allNew ∅ (a.transitions.map fun t => (t.source, t.label))

/-- The states that the symbol leads to from those of the frontier. -/
def advance (a : Automaton) (frontier : Std.HashSet String) (symbol : Int) : Std.HashSet String :=
  .ofList ((a.transitions.filter fun t => t.label == symbol && frontier.contains t.source).map
    Transition.target)

/-- Whether some run from the frontier spells the word and accepts. -/
def acceptsFrom (a : Automaton) (frontier : Std.HashSet String) : List Int → Bool
  | [] => a.finals.any frontier.contains
  | symbol :: word =>
      let next := a.advance frontier symbol
      -- once no run is left, none can come back
      if next.isEmpty then false else a.acceptsFrom next word

/-- Whether the automaton accepts the word. -/
def accepts (a : Automaton) (word : List Int) : Bool :=
  a.acceptsFrom (.ofList [a.start]) word

end Automaton

end ConstraintExpr
