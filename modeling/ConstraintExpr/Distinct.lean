import Std.Data.HashSet

/-!
# First occurrences

A list without repetitions, in the order in which its members first appeared,
together with the set of its members, which makes membership a quick test.
-/

namespace ConstraintExpr

/-- Members in the order of their first appearance. -/
structure Distinct (α : Type) [BEq α] [Hashable α] where
  /-- The members, as a set. -/
  seen : Std.HashSet α := ∅
  /-- The members, the first one first. -/
  order : Array α := #[]

namespace Distinct

variable {α : Type} [BEq α] [Hashable α]

/-- Adds a member at the end, unless it is one already. -/
def insert (d : Distinct α) (a : α) : Distinct α :=
  if d.seen.contains a then d else { seen := d.seen.insert a, order := d.order.push a }

/-- Adds the members of a list, one after another. -/
def insertAll (d : Distinct α) (as : List α) : Distinct α :=
  as.foldl insert d

/-- The members in order. -/
def toList (d : Distinct α) : List α :=
  d.order.toList

end Distinct

/-- The members of a list without repetitions, in the order of their first
appearance. -/
def firstOccurrences {α : Type} [BEq α] [Hashable α] (as : List α) : List α :=
  (({} : Distinct α).insertAll as).toList

/-- Whether no member of the list is in `seen` or repeated. -/
def allNew {α : Type} [BEq α] [Hashable α] (seen : Std.HashSet α) : List α → Bool
  | [] => true
  | a :: as => !seen.contains a && allNew (seen.insert a) as

end ConstraintExpr
