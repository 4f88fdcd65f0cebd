import ConstraintExpr.Operator

/-!
# Expression trees

A constraint expression is a finite tree with eight kinds of node. Ranges and
sets are collections: they belong on the right of a set-belonging operator and
nowhere else. The type of trees does not enforce that; the checked builders of
`ConstraintExpr.Build` do, and every tree they return obeys it.

* `Expr.label` is what a node carries apart from its children, and
  `Expr.children` lists the children in order. Together they determine the
  tree (`Expr.eq_of_label_eq`).
* `Expr.fold` computes bottom-up over all children (`Expr.fold_eq`). It is the
  recursive side against which the explicit stacks and worklists of the
  library are measured.
* `Expr.size` and `Expr.height` are the node count and the depth so computed.
-/

namespace ConstraintExpr

/-! ### Kinds of node -/

/-- The eight kinds of node, without what they carry. -/
inductive NodeKind where
  | constant
  | variable
  | unary
  | binary
  | nary
  | ifThenElse
  | range
  | set
  deriving DecidableEq, Repr, Inhabited

namespace NodeKind

def all : List NodeKind :=
  [.constant, .variable, .unary, .binary, .nary, .ifThenElse, .range, .set]

/-- The word for a kind in messages. -/
def name : NodeKind → String
  | .constant => "constant"
  | .variable => "variable"
  | .unary => "unary"
  | .binary => "binary"
  | .nary => "n-ary"
  | .ifThenElse => "if-then-else"
  | .range => "range"
  | .set => "set"

/-- Ranges and sets are collections; every other kind of node is a value. -/
def isCollection : NodeKind → Bool
  | .range | .set => true
  | .constant | .variable | .unary | .binary | .nary | .ifThenElse => false

/-- The kind with the given word, if there is one. -/
def ofName? (word : String) : Option NodeKind :=
  all.find? fun kind => kind.name == word

end NodeKind

/-! ### Trees and labels -/

/-- An expression tree. Variables are known by their identifiers, the operands
of an operator are ordered, and a conditional has the value of `ifTrue` or of
`ifFalse`. -/
inductive Expr where
  | constant (value : Int)
  | var (id : String)
  | unary (op : Operator) (operand : Expr)
  | binary (op : Operator) (left right : Expr)
  | nary (op : Operator) (operands : List Expr)
  | ifThenElse (condition ifTrue ifFalse : Expr)
  /-- The integers from `lo` to `hi`, both included; none when `hi < lo`. -/
  | range (lo hi : Int)
  | set (elements : List Expr)
  deriving Inhabited

/-- What a node carries apart from its children. Where the number of children is
not fixed by the kind of node, the label has it. -/
inductive Label where
  | constant (value : Int)
  | var (id : String)
  | unary (op : Operator)
  | binary (op : Operator)
  | nary (op : Operator) (count : Nat)
  | ifThenElse
  | range (lo hi : Int)
  | set (count : Nat)
  deriving DecidableEq, Repr, Inhabited

namespace Label

/-- How many children a node with the label has. -/
def childCount : Label → Nat
  | .constant _ | .var _ | .range _ _ => 0
  | .unary _ => 1
  | .binary _ => 2
  | .nary _ count | .set count => count
  | .ifThenElse => 3

/-- The kind of a node with the label. -/
def kind : Label → NodeKind
  | .constant _ => .constant
  | .var _ => .variable
  | .unary _ => .unary
  | .binary _ => .binary
  | .nary _ _ => .nary
  | .ifThenElse => .ifThenElse
  | .range _ _ => .range
  | .set _ => .set

/-- The operator of a unary, binary or n-ary node. -/
def operator? : Label → Option Operator
  | .unary op | .binary op | .nary op _ => some op
  | .constant _ | .var _ | .ifThenElse | .range _ _ | .set _ => none

end Label

namespace Expr

/-- What the root carries apart from its children. -/
def label : Expr → Label
  | .constant value => .constant value
  | .var id => .var id
  | .unary op _ => .unary op
  | .binary op _ _ => .binary op
  | .nary op operands => .nary op operands.length
  | .ifThenElse _ _ _ => .ifThenElse
  | .range lo hi => .range lo hi
  | .set elements => .set elements.length

/-- The children of the root, in order. -/
def children : Expr → List Expr
  | .constant _ | .var _ | .range _ _ => []
  | .unary _ operand => [operand]
  | .binary _ left right => [left, right]
  | .nary _ operands => operands
  | .ifThenElse condition ifTrue ifFalse => [condition, ifTrue, ifFalse]
  | .set elements => elements

/-- The kind of the root. -/
def kind (e : Expr) : NodeKind :=
  e.label.kind

/-- The operator of the root, if it is a unary, binary or n-ary node. -/
def operator? (e : Expr) : Option Operator :=
  e.label.operator?

/-- Whether the root is a range or a set. -/
def isCollection (e : Expr) : Bool :=
  e.kind.isCollection

/-- Whether the root has children, read off its shape. -/
def hasChildren : Expr → Bool
  | .constant _ | .var _ | .range _ _ => false
  | .unary _ _ | .binary _ _ _ | .ifThenElse _ _ _ => true
  | .nary _ operands => !operands.isEmpty
  | .set elements => !elements.isEmpty

/-- Whether the root has no children. -/
def isLeaf (e : Expr) : Bool :=
  !e.hasChildren

/-- A label counts the children of its node. -/
theorem length_children (e : Expr) : e.children.length = e.label.childCount := by
  cases e <;> rfl

/-- The label and the children of the root determine the tree. -/
theorem eq_of_label_eq {a b : Expr} (hlabel : a.label = b.label)
    (hchildren : a.children = b.children) : a = b := by
  cases a <;> cases b <;> simp_all [label, children]

/-! ### Bottom-up computation -/

section Fold

variable {β : Type}

mutual

/-- Computes bottom-up: `f` gets a node and the results of its children, in
order. -/
def fold (f : Expr → List β → β) : Expr → β
  | .constant value => f (.constant value) []
  | .var id => f (.var id) []
  | .unary op operand => f (.unary op operand) [operand.fold f]
  | .binary op left right => f (.binary op left right) [left.fold f, right.fold f]
  | .nary op operands => f (.nary op operands) (foldAll f operands)
  | .ifThenElse condition ifTrue ifFalse =>
      f (.ifThenElse condition ifTrue ifFalse)
        [condition.fold f, ifTrue.fold f, ifFalse.fold f]
  | .range lo hi => f (.range lo hi) []
  | .set elements => f (.set elements) (foldAll f elements)

/-- The results of `fold` for each tree of a list. -/
def foldAll (f : Expr → List β → β) : List Expr → List β
  | [] => []
  | e :: es => e.fold f :: foldAll f es

end

theorem foldAll_eq_map (f : Expr → List β → β) (es : List Expr) :
    foldAll f es = es.map (fold f) := by
  induction es with
  | nil => rfl
  | cons e es ih => simp only [foldAll, List.map_cons, ih]

/-- A fold gives each node the results of all its children. -/
theorem fold_eq (f : Expr → List β → β) (e : Expr) :
    e.fold f = f e (e.children.map (fold f)) := by
  cases e <;> simp only [fold, children, foldAll_eq_map, List.map_cons, List.map_nil]

end Fold

/-- The number of nodes of the tree. -/
def size (e : Expr) : Nat :=
  e.fold fun _ sizes => sizes.foldr (· + ·) 0 + 1

/-- The number of levels of the tree; a lone leaf has one. -/
def height (e : Expr) : Nat :=
  e.fold fun _ heights => heights.foldr max 0 + 1

/-- The number of nodes of a list of trees. -/
def totalSize : List Expr → Nat
  | [] => 0
  | e :: es => e.size + totalSize es

theorem totalSize_append (es fs : List Expr) :
    totalSize (es ++ fs) = totalSize es + totalSize fs := by
  induction es with
  | nil => simp [totalSize]
  | cons e es ih => simp only [List.cons_append, totalSize, ih]; omega

theorem totalSize_reverse (es : List Expr) : totalSize es.reverse = totalSize es := by
  induction es with
  | nil => rfl
  | cons e es ih =>
      simp only [List.reverse_cons, totalSize_append, totalSize, ih]
      omega

/-- A tree has one node more than its children together. -/
theorem size_eq (e : Expr) : e.size = totalSize e.children + 1 := by
  have total : ∀ es : List Expr, (es.map size).foldr (· + ·) 0 = totalSize es := by
    intro es
    induction es with
    | nil => rfl
    | cons e es ih => simp only [List.map_cons, List.foldr_cons, totalSize, ih]
  rw [← total]
  exact fold_eq _ e

/-- A tree is one level higher than the highest of its children. -/
theorem height_eq (e : Expr) : e.height = (e.children.map height).foldr max 0 + 1 :=
  fold_eq _ e

end Expr

end ConstraintExpr
