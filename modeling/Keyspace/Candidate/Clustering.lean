import Keyspace.Schema.Model

/-!
# Clustering keys

The clustering keys offered to the tables of an entity come from the orders that the workload
requests on it.  Each key is a leading part of such an order, as far as its terms may be part of a
key, and ends with the identifier, so that rows are totally ordered.

`promote` is the other use of a clustering key: predicates that lead it narrow a read just as a
partition key does, and need no filter.
-/

namespace Keyspace

/-- The leading parts of a list that are not empty, shortest first. -/
def leadingParts {α : Type} : List α → List (List α)
  | [] => []
  | a :: rest => [a] :: (leadingParts rest).map (a :: ·)

/-- Appends the identifier to an order that does not mention it. -/
def closeWith (identifier : OrderTerm) (terms : List OrderTerm) : List OrderTerm :=
  if terms.any fun t => t.path.same identifier.path then terms else terms ++ [identifier]

/-- The clustering keys that the order of one clause gives rise to. -/
def Clause.clusteringKeys (c : Clause) (identifier : OrderTerm) : List (List OrderTerm) :=
  (leadingParts (c.order.takeWhile fun t => t.path.sargable)).map (closeWith identifier)

namespace Model

variable {α : Type} (m : Model α)

/-- The term by which rows are told apart: the identifier, latest first. -/
def identifierTerm (id : EntityId) : OrderTerm := ⟨m.catalog.idPath id, .desc⟩

/-- The clustering keys of an entity in ascending order; without a usable order only the
identifier sorts the rows. -/
def clusteringKeys (id : EntityId) : List (List OrderTerm) :=
  let identifier := m.identifierTerm id
  let keys : SortedSet (List OrderTerm) :=
    .ofList ((m.clausesRootedAt id).flatMap fun c => c.clusteringKeys identifier)
  if keys.isEmpty then [[identifier]] else keys.toList

end Model

/-- Takes the paths that lead a clustering key out of the predicates left to filter.  Only a
contiguous lead can narrow a read, so the first other term ends the walk. -/
def promote (remaining : PathSet) : List OrderTerm → PathSet
  | [] => remaining
  | term :: rest =>
    if remaining.contains term.path then promote (remaining.erase term.path) rest else remaining

end Keyspace
