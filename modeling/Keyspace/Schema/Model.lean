import Keyspace.Schema.Query
import Keyspace.Schema.Statistic

/-!
# Models

A model holds what the planner works on: the catalog, statistics for each entity, and the workload
of queries and mutations.  Parts refer to each other by position.  `Model.levels` lists every page
that the workload reads, in the order of the declarations and depth first below each selection.
-/

namespace Keyspace

/-- The statistics of one entity, by the exact set of paths they describe. -/
abbrev Statistics (α : Type) := SortedMap PathSet (Statistic α)

/-- Entities, statistics and workload. -/
structure Model (α : Type) where
  catalog : Catalog
  /-- One collection of statistics for each entity. -/
  statistics : List (Statistics α)
  definitions : List Definition
  queries : List Query
  mutations : List Mutation
deriving Inhabited

namespace Model

variable {α : Type} (m : Model α)

/-- The entity at a position. -/
def entity (id : EntityId) : Entity := m.catalog.entity id

/-- The query definition at a position. -/
def definition (id : DefinitionId) : Definition := m.definitions.getD id default

/-- The query at a position. -/
def query (id : QueryId) : Query := m.queries.getD id default

/-- The statistic on exactly the given paths. -/
def statistic (id : EntityId) (paths : PathSet) : Except SchemaError (Statistic α) :=
  match (m.statistics.getD id ∅).find? paths with
  | some statistic => .ok statistic
  | none => .error (.missingStatistic (m.entity id).name paths)

/-- The levels of each selection of a query. -/
def queryLevels (id : QueryId) (q : Query) : List (List Level) :=
  q.selections.map fun s => s.levels id q.name (m.definition s.definition)

/-- The levels of each selection of the workload. -/
def selectionLevels : List (List Level) :=
  (m.queries.mapIdx m.queryLevels).flatten

/-- All levels of the workload. -/
def levels : List Level := m.selectionLevels.flatten

/-- The clauses that read rows of an entity, at any depth of any query. -/
def clausesRootedAt (id : EntityId) : List Clause :=
  (m.levels.map Level.clause).filter fun c => c.root == id

end Model

end Keyspace
