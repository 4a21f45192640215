import Keyspace.Schema.Model

/-!
# Candidate tables

A table stores the rows of one entity, distributed by a partition key and sorted within each
partition by a clustering key; these three make up its identity, `TableKey`.  A candidate is a
table from which one level of a query could be read, together with what is left for that level to
filter.  Candidates of different levels with the same key share one table.
-/

namespace Keyspace

open Std (TransCmp TransOrd OrientedCmp)

/-- The identity of a table. -/
structure TableKey where
  /-- A read names a value for each of these paths. -/
  partitionKey : PathSet
  /-- The rows of a partition are sorted by these terms. -/
  clusteringKey : List OrderTerm
  root : EntityId
deriving Inhabited

namespace TableKey

/-- Keys are ordered by partition key, clustering key and root. -/
instance : Ord TableKey :=
  ⟨fun a b => (compare a.partitionKey b.partitionKey).then
    ((compare a.clusteringKey b.clusteringKey).then (compare a.root b.root))⟩

theorem compare_def (a b : TableKey) :
    compare a b = (compare a.partitionKey b.partitionKey).then
      ((compare a.clusteringKey b.clusteringKey).then (compare a.root b.root)) := rfl

instance : TransOrd TableKey :=
  inferInstanceAs
    (TransCmp (compareLex (compareOn partitionKey)
      (compareLex (compareOn clusteringKey) (compareOn root))))

/-- The name of the entity, the partition key in braces and the clustering key in brackets. -/
def describe (catalog : Catalog) (key : TableKey) : String :=
  (catalog.entity key.root).name ++ key.partitionKey.text ++ orderText key.clusteringKey

end TableKey

/-- A table that one level of a query could be read from. -/
structure Candidate where
  key : TableKey
  query : QueryId
  /-- The predicates that the key does not cover; a read has to filter them. -/
  remaining : PathSet
  clause : Clause
  pageSize : Nat
deriving Inhabited

namespace Candidate

/-- The predicates that a read of the table need not filter: those of the partition key, and those
that lead the clustering key. -/
def effectiveKey (c : Candidate) : PathSet := c.clause.predicatePaths.difference c.remaining

end Candidate

end Keyspace
