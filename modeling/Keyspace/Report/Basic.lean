import Keyspace.Json.Printer
import Keyspace.Selection.Phases
import Keyspace.Workload.Basic

/-!
# Reports

A report says which tables are built and why: every table a candidate could have read from, the
tables that answer each query, and how many tables each mutation touches.  The identities of the
built tables are hashed, so that reports of the same physical schema can be recognized.
-/

namespace Keyspace

/-- The identity of a table by names, and whether it is built. -/
structure TableReport where
  entity : String
  partitionKey : List String
  clusteringKey : List String
  selected : Bool
deriving DecidableEq, Repr, Inhabited

/-- The table that answers one level of a query. -/
structure IndexAssignment (α : Type) where
  table : String
  cost : α
deriving Inhabited

/-- How a query is answered. -/
structure QueryAssignment (α : Type) where
  query : String
  indexes : List (IndexAssignment α)
  /-- The labels of the levels that are answered by identifier. -/
  directLookups : List String
deriving Inhabited

/-- What a mutation touches. -/
structure MutationReport where
  mutation : String
  entity : String
  kind : String
  maxTables : Nat
  /-- Built tables that store rows of the entity. -/
  tablesTouched : Nat
deriving DecidableEq, Repr, Inhabited

/-- The result of planning. -/
structure Report (α : Type) where
  phase1Cost : α
  phase2Cost : α
  tableCount : Nat
  tables : List TableReport
  queries : List (QueryAssignment α)
  mutations : List MutationReport
  stats : List (PhaseStats α)
  /-- The hash of the identities of the built tables. -/
  fingerprint : String
deriving Inhabited

namespace TableReport

/-- The name of the entity, the partition key in braces and the clustering key in brackets. -/
def describe (t : TableReport) : String :=
  t.entity ++ "\x7b" ++ String.intercalate ", " t.partitionKey ++ "\x7d[" ++
    String.intercalate ", " t.clusteringKey ++ "]"

/-- The identity of a table as JSON. -/
def toJson (t : TableReport) : Json :=
  .object
    [("entity", .text t.entity), ("partition_key", .texts t.partitionKey),
      ("clustering_key", .texts t.clusteringKey), ("selected", .bool t.selected)]

end TableReport

/-- The text that is hashed for a list of tables. -/
def identityText (tables : List TableReport) : String :=
  (Json.array (tables.map TableReport.toJson)).compact

namespace Report

/-- The report on one table. -/
def ofTable (catalog : Catalog) (key : TableKey) (selected : Bool) : TableReport where
  entity := (catalog.entity key.root).name
  partitionKey := key.partitionKey.texts
  clusteringKey := key.clusteringKey.map OrderTerm.text
  selected := selected

/-- The reports on all tables of an outcome. -/
def tablesOf {α : Type} (catalog : Catalog) (o : Outcome α) : List TableReport :=
  o.tables.tables.mapIdx fun id t => ofTable catalog t.key (o.selectedTables.contains id)

/-- The report on one query. -/
def ofQuery {α : Type} [Scalar α] (m : Model α) (w : Workload) (costs : List α) (o : Outcome α)
    (id : QueryId) (q : Query) : QueryAssignment α where
  query := q.name
  indexes :=
    ((w.candidatesFor id).filter o.selectedCandidates.contains).map fun c =>
      ⟨(w.candidate c).key.describe m.catalog, costs.getD c Scalar.zero⟩
  directLookups := (w.lookups.filter fun l => l.query == id).map DirectLookup.label

/-- The report on one mutation. -/
def ofMutation {α : Type} (catalog : Catalog) (o : Outcome α) (change : Mutation) :
    MutationReport where
  mutation := change.name
  entity := (catalog.entity change.entity).name
  kind := change.kind.text
  maxTables := change.maxTables
  tablesTouched := ((o.tables.rootedAt change.entity).filter o.selectedTables.contains).length

/-- The report on what was chosen for a workload. -/
def build {α : Type} [Scalar α] (m : Model α) (w : Workload) (costs : List α) (o : Outcome α) :
    Report α :=
  let tables := tablesOf m.catalog o
  { phase1Cost := o.phase1Cost
    phase2Cost := o.phase2Cost
    tableCount := o.tableCount
    tables
    queries := m.queries.mapIdx (ofQuery m w costs o)
    mutations := m.mutations.map (ofMutation m.catalog o)
    stats := o.stats
    fingerprint := Digest.sha256Hex (identityText (tables.filter TableReport.selected)) }

/-- The tables that are built. -/
def selectedTables {α : Type} (r : Report α) : List TableReport :=
  r.tables.filter TableReport.selected

end Report

end Keyspace
