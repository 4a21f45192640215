import Keyspace.Schema.Path

/-!
# Partition keys

Every subset of the sargable predicates of a clause may serve as a partition key.
`partitionKeys` lists the subsets, small ones first and those of one size in the order of their
members.
-/

namespace Keyspace

/-- The sublists of a given length, those with early elements first. -/
def sublistsOfLength {α : Type} : Nat → List α → List (List α)
  | 0, _ => [[]]
  | _ + 1, [] => []
  | k + 1, a :: rest =>
    (sublistsOfLength k rest).map (a :: ·) ++ sublistsOfLength (k + 1) rest

/-- All subsets of a set of paths, the empty set first. -/
def partitionKeys (paths : PathSet) : List PathSet :=
  (List.range (paths.size + 1)).flatMap fun k =>
    (sublistsOfLength k paths.toList).map SortedSet.ofList

end Keyspace
