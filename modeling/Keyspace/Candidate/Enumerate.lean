import Keyspace.Candidate.Basic
import Keyspace.Candidate.Clustering
import Keyspace.Candidate.Partition

/-!
# The candidates of a level

A level whose clause binds the identifier of its root entity is a direct lookup and needs no table
of its own.  For every other level each partition key is combined with each clustering key.
-/

namespace Keyspace

/-- The table with the given keys as a candidate of a level. -/
def Level.candidate (l : Level) (partitionKey : PathSet) (clusteringKey : List OrderTerm) :
    Candidate where
  key := ⟨partitionKey, clusteringKey, l.clause.root⟩
  query := l.query
  remaining := promote (l.clause.predicatePaths.difference partitionKey) clusteringKey
  clause := l.clause
  pageSize := l.pageSize

namespace Model

variable {α : Type} (m : Model α)

/-- Does a predicate bind the identifier of the root entity?  Only the first field of its path
counts: an identifier behind a relationship does not single out a row of the root. -/
def bindsIdentifier (c : Clause) : Bool :=
  c.predicates.any fun p =>
    match m.catalog.firstField? p.path with
    | some field => field.typeName == idType
    | none => false

/-- All candidates of a level, by partition key and then by clustering key. -/
def candidates (l : Level) : List Candidate :=
  let clusteringKeys := m.clusteringKeys l.clause.root
  (partitionKeys l.clause.sargablePaths).flatMap fun partitionKey =>
    clusteringKeys.map fun clusteringKey => l.candidate partitionKey clusteringKey

end Model

end Keyspace
