import Keyspace.Schema.Path

/-!
# Clauses

A clause asks for the rows of one entity that satisfy a conjunction of equalities, in a requested
order.  An order term with direction `any` accepts either direction, and in a key it stands for a
column whose direction is left open; `OrderTerm.satisfies` says when the order of a key column
delivers a requested term.
-/

namespace Keyspace

open Std (TransCmp TransOrd OrientedCmp)

/-- A sort direction. -/
inductive Direction where
  | asc
  | desc
  | any
deriving DecidableEq, Repr, Inhabited

namespace Direction

/-- Position in the order of directions. -/
def index : Direction → Nat
  | asc => 0
  | desc => 1
  | any => 2

/-- Ascending, then descending, then either. -/
instance : Ord Direction := ⟨fun a b => compare a.index b.index⟩

instance : TransOrd Direction := inferInstanceAs (TransCmp (compareOn Direction.index))

/-- The keyword of a direction. -/
def text : Direction → String
  | asc => "ASC"
  | desc => "DESC"
  | any => "ANY"

end Direction

/-- One term of an order: a path and a direction. -/
structure OrderTerm where
  path : Path
  direction : Direction
deriving Inhabited, Repr

namespace OrderTerm

/-- Terms are ordered by path, then by direction. -/
instance : Ord OrderTerm :=
  ⟨fun a b => (compare a.path b.path).then (compare a.direction b.direction)⟩

theorem compare_def (a b : OrderTerm) :
    compare a b = (compare a.path b.path).then (compare a.direction b.direction) := rfl

instance : TransOrd OrderTerm :=
  inferInstanceAs
    (TransCmp (compareLex (compareOn OrderTerm.path) (compareOn OrderTerm.direction)))

/-- Does the order of a key column deliver the requested term?  Path and direction have to agree;
an open direction on either side agrees with any. -/
def satisfies (physical requested : OrderTerm) : Bool :=
  physical.path.same requested.path &&
    (requested.direction == .any || physical.direction == .any ||
      physical.direction == requested.direction)

/-- The path followed by the direction. -/
def text (t : OrderTerm) : String := t.path.text ++ " " ++ t.direction.text

end OrderTerm

/-- The terms of an order in brackets. -/
def orderText (terms : List OrderTerm) : String :=
  "[" ++ String.intercalate ", " (terms.map OrderTerm.text) ++ "]"

/-- An equality of a path with a bound value. -/
structure Predicate where
  path : Path
  /-- The bound value, most often the name of a parameter. -/
  value : String
deriving Inhabited, Repr

/-- Rows of one entity that satisfy all predicates, in an order. -/
structure Clause where
  root : EntityId
  predicates : List Predicate
  order : List OrderTerm
deriving Inhabited, Repr

namespace Clause

/-- The paths of the predicates. -/
def predicatePaths (c : Clause) : PathSet := .ofList (c.predicates.map Predicate.path)

/-- The paths of the predicates that may be part of a key. -/
def sargablePaths (c : Clause) : PathSet :=
  .ofList ((c.predicates.map Predicate.path).filter Path.sargable)

/-- The predicates joined by `AND`, then the order if one is requested. -/
def text (c : Clause) : String :=
  let conditions := c.predicates.map fun p => p.path.text ++ " = " ++ p.value
  let order :=
    if c.order.isEmpty then ""
    else " order by " ++ String.intercalate ", " (c.order.map OrderTerm.text)
  "where " ++ String.intercalate " AND " conditions ++ order

end Clause

end Keyspace
