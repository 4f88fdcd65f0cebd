import ConstraintExpr.Integer.Numeral
import ConstraintExpr.Text.Quoted
import ConstraintExpr.Walk.Basic

/-!
# Printing

Trees are written in functional notation: an operator node is its keyword
followed by its operands in parentheses, a conditional is written with the
keyword `if` and a set with the keyword `set`, a range is its two bounds with
two points between them.

The printer keeps texts on a stack (`Printer.visitor`): each node takes those of
its children off and puts its own there. It can be used for one tree after
another; what earlier calls left on its stack never shows in the text of a tree,
because `Printer.render` clears the stack first.
-/

namespace ConstraintExpr

/-- How a tree is laid out. -/
structure Style where
  /-- Whether a blank follows the comma between arguments. -/
  spaced : Bool := false
  deriving DecidableEq, Repr, Inhabited

/-- What stands between two arguments. -/
def Style.separator (style : Style) : String :=
  if style.spaced then ", " else ","

/-- A printer, with the texts that no node has used yet, the newest on top. -/
structure Printer where
  /-- How trees are laid out. -/
  style : Style := {}
  /-- The texts not used yet. -/
  stack : List String := []
  deriving DecidableEq, Repr, Inhabited

namespace Printer

/-- A keyword applied to arguments. -/
def application (style : Style) (keyword : String) (arguments : List String) : String :=
  keyword ++ "(" ++ style.separator.intercalate arguments ++ ")"

/-- Puts a text on the stack. -/
def push (text : String) : Action (List String) TraversalError :=
  .update (text :: ·)

/-- Takes as many texts as asked for off the stack, or all there are, and puts the
keyword applied to them there. -/
def apply (style : Style) (keyword : String) (count : Nat) : Action (List String) TraversalError :=
  .update fun stack => application style keyword (stack.take count).reverse :: stack.drop count

/-- The printer as a visitor of its stack. -/
def visitor (p : Printer) : Visitor (List String) TraversalError where
  onTraversal := id
  constant value := push (Numeral.render value)
  var id := push id
  unary op _ := apply p.style op.name 1
  binary op _ _ := apply p.style op.name 2
  nary op operands := apply p.style op.name operands.length
  ifThenElse _ _ _ := apply p.style "if" 3
  range lo hi := push (Numeral.render lo ++ ".." ++ Numeral.render hi)
  set elements := apply p.style "set" elements.length

/-- Takes the text of the tree off the stack that its walk has left. -/
def finish (p : Printer) : Except TraversalError Unit × List String →
    Except TraversalError String × Printer
  | (.ok _, text :: stack) => (.ok text, { p with stack })
  | (.ok _, []) => (.ok "", { p with stack := [] })
  | (.error error, stack) => (.error error, { p with stack })

/-- Writes a tree, after clearing the stack. -/
def render (p : Printer) (limit : Option Nat) (e : Expr) : Except TraversalError String × Printer :=
  p.finish (p.visitor.walk limit e [])

/-- Writes a tree and records each visit. -/
def renderJournaled (p : Printer) (limit : Option Nat) (e : Expr) (journal : Journal) :
    (Except TraversalError String × Printer) × Journal :=
  let (walked, journal) := p.visitor.walkJournaled limit e [] journal
  (p.finish walked, journal)

/-- The settings of a printer and the texts on its stack, the oldest first, on
one line. -/
def describe (p : Printer) : String :=
  let spaced := if p.style.spaced then "true" else "false"
  let stack := ", ".intercalate (p.stack.reverse.map Text.quote)
  "Printer \x7b config: PrinterConfig \x7b spaced: " ++ spaced ++ " \x7d, stack: [" ++ stack ++
    "] \x7d"

end Printer

/-- The compact text of a tree. -/
def Expr.text (e : Expr) : Except TraversalError String :=
  (Printer.render {} none e).1

end ConstraintExpr
