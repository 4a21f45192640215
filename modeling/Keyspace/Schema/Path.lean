import Keyspace.Sorted.Set

/-!
# Field paths

A path walks from the rows of a root entity through relationship fields to a field.  It is
identified by its root and the names of the fields it walks through.  Whether a path is
*sargable*, that is, may be part of a key, was found out when it was resolved and travels with it,
but takes no part in its identity: `Path.same`, the order of paths and the sets of paths look at
the walk alone.
-/

namespace Keyspace

open Std (TransCmp TransOrd OrientedCmp)

/-- Position of an entity in its catalog. -/
abbrev EntityId := Nat

/-- A walk over fields. -/
structure Path where
  /-- The entity whose rows the walk starts from. -/
  root : EntityId
  /-- The names of the fields, first to last. -/
  segments : List String
  /-- Are all fields before the last one fixed for the life of a row?  Only then can a key that
  holds the path never go stale. -/
  sargable : Bool
deriving Inhabited, Repr

namespace Path

/-- The walk of a path, which identifies it. -/
def walk (p : Path) : EntityId × List String := (p.root, p.segments)

/-- Do two paths walk the same way? -/
def same (p q : Path) : Bool := p.root == q.root && p.segments == q.segments

/-- Paths are ordered by root, then by the names along the walk. -/
instance : Ord Path :=
  ⟨fun p q => (compare p.root q.root).then (compare p.segments q.segments)⟩

theorem compare_def (p q : Path) :
    compare p q = (compare p.root q.root).then (compare p.segments q.segments) := rfl

instance : TransOrd Path :=
  inferInstanceAs
    (TransCmp (compareLex (compareOn Path.root) (compareOn Path.segments)))

/-- Paths that compare equal are those with the same walk. -/
theorem compare_eq_iff {p q : Path} : compare p q = .eq ↔ p.walk = q.walk := by
  simp [compare_def, walk, Ordering.then_eq_eq]

/-- `same` agrees with the order. -/
theorem same_eq_true_iff {p q : Path} : p.same q = true ↔ p.walk = q.walk := by
  simp [same, walk]

/-- The names along the walk, joined by dots. -/
def text (p : Path) : String := String.intercalate "." p.segments

end Path

/-- A set of paths. -/
abbrev PathSet := SortedSet Path

namespace PathSet

/-- The texts of the members, in order. -/
def texts (s : PathSet) : List String := s.toList.map Path.text

/-- The members in braces. -/
def text (s : PathSet) : String := "\x7b" ++ String.intercalate ", " s.texts ++ "\x7d"

end PathSet

end Keyspace
