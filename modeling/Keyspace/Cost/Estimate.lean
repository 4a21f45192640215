import Keyspace.Candidate.Basic

/-!
# Cost estimates

The cost of a candidate is the number of rows scanned to answer its level once.  Two estimates
enter it: the rows read to filter the predicates that the key does not cover (`filterRows`), and
the rows read to produce a requested order that the clustering key does not deliver (`sortRows`).
Both consult the statistics of the model and fail where one is missing.
-/

namespace Keyspace

open Except (ok)

/-- The estimates behind a cost. -/
structure Estimate (α : Type) where
  filterRows : α
  sortRows : α
  total : α

namespace Model

variable {α : Type} [Scalar α] (m : Model α)

/-- The row limit of an entity. -/
def maxRows (id : EntityId) : α := Scalar.ofNat (m.entity id).maxRows

/-- Rows read to collect one page of matches.  A key that covers all predicates leads to the page
directly.  Without any key the whole entity is scanned, otherwise the expected scan for the
predicates left, never more than the entity and never less than a direct read. -/
def filterRows (c : Candidate) : Except SchemaError α :=
  if c.remaining.isEmpty then ok Scalar.one
  else if c.effectiveKey.isEmpty then ok (Scalar.max (m.maxRows c.key.root) Scalar.one)
  else do
    let statistic ← m.statistic c.key.root c.remaining
    ok (Scalar.max (Scalar.min (statistic.expected c.pageSize) (m.maxRows c.key.root)) Scalar.one)

/-- The terms of a clustering key that deliver the leading terms of a requested order. -/
def matchedTerms : (physical requested : List OrderTerm) → List OrderTerm
  | [], _ => []
  | _, [] => []
  | p :: ps, r :: rs => if p.satisfies r then p :: matchedTerms ps rs else []

/-- Rows that share one value of the given paths on average. -/
def rowsPerPartition (id : EntityId) (paths : PathSet) : Except SchemaError α :=
  if paths.isEmpty then ok (m.maxRows id)
  else do
    let statistic ← m.statistic id paths
    ok (Scalar.max (m.maxRows id / Scalar.ofNat (Nat.max statistic.distinct 1)) Scalar.one)

/-- Rows read to produce the requested order: none if the clustering key delivers all of it, else
the rows that agree on the key and on the terms it does deliver. -/
def sortRows (c : Candidate) : Except SchemaError α :=
  let requested := c.clause.order
  let matched := matchedTerms c.key.clusteringKey requested
  if requested.length = matched.length then ok Scalar.zero
  else
    m.rowsPerPartition c.key.root
      ((matched.map OrderTerm.path).foldl SortedSet.insert c.effectiveKey)

/-- Both estimates and the cost.  A read without filter and sort costs one row; any other scans
the greater of the two numbers of rows, at `rowScanCost` each. -/
def estimate (rowScanCost : α) (c : Candidate) : Except SchemaError (Estimate α) := do
  let filterRows ← m.filterRows c
  let sortRows ← m.sortRows c
  let total :=
    if c.remaining.isEmpty && Scalar.same sortRows Scalar.zero then Scalar.one
    else Scalar.max filterRows sortRows * rowScanCost
  ok { filterRows, sortRows, total }

end Model

end Keyspace
