import Keyspace.Schema.Catalog
import Keyspace.Schema.Clause

/-!
# Queries and mutations

A query selects pages of rows of a definition and, nested below them, pages of related rows.  Each
selected page, at whatever depth, has a clause of its own and is read on its own; it is called a
level of the query.  A mutation writes rows and bounds the number of tables a write may touch.
-/

namespace Keyspace

/-- Position of a query definition. -/
abbrev DefinitionId := Nat

/-- Position of a query. -/
abbrev QueryId := Nat

/-- Rows of an entity that queries may select by name. -/
structure Definition where
  name : String
  /-- The name of the entity whose rows are returned. -/
  returns : String
  multiplicity : Multiplicity
  clause : Clause
deriving Inhabited

/-- Related rows, selected through a relationship field.  The clause is rooted at the target of
the field. -/
structure Relation where
  field : String
  clause : Clause
  pageSize : Nat
  relations : List Relation
deriving Inhabited

/-- A page of a definition's rows with the related rows below them. -/
structure Selection where
  definition : DefinitionId
  pageSize : Nat
  relations : List Relation
deriving Inhabited

/-- How often a query runs in a second, and how long it may take in milliseconds. -/
structure ServiceLevel where
  throughput : Nat := 1
  latency : Nat := 10000
deriving Inhabited

/-- A query of the workload. -/
structure Query where
  name : String
  serviceLevel : ServiceLevel
  selections : List Selection
deriving Inhabited

/-- What a mutation does to rows. -/
inductive MutationKind where
  | insert
  | update
  | delete
deriving DecidableEq, Repr, Inhabited

/-- The name of a kind of mutation. -/
def MutationKind.text : MutationKind → String
  | insert => "insert"
  | update => "update"
  | delete => "delete"

/-- A mutation of the workload. -/
structure Mutation where
  name : String
  entity : EntityId
  kind : MutationKind
  /-- An insertion must not write to more tables than this. -/
  maxTables : Nat
  /-- The rows that an update or a deletion touches. -/
  filter : Option Clause
deriving Inhabited

/-! ### Levels -/

/-- One page of rows that a query reads. -/
structure Level where
  query : QueryId
  /-- The names of the query and the definition, and of the relations on the way down. -/
  label : String
  clause : Clause
  pageSize : Nat
deriving Inhabited

mutual

/-- The level of a relation, and after it those nested below. -/
def Relation.levels (query : QueryId) (parent : String) : Relation → List Level
  | ⟨field, clause, pageSize, relations⟩ =>
    let label := parent ++ "." ++ field
    ⟨query, label, clause, pageSize⟩ :: Relation.levelsOf query label relations

/-- The levels of several relations, one relation after the other. -/
def Relation.levelsOf (query : QueryId) (parent : String) : List Relation → List Level
  | [] => []
  | relation :: rest => relation.levels query parent ++ Relation.levelsOf query parent rest

end

/-- The levels of a selection of a definition, the definition's own first. -/
def Selection.levels (query : QueryId) (queryName : String) (definition : Definition)
    (selection : Selection) : List Level :=
  let label := queryName ++ "/" ++ definition.name
  ⟨query, label, definition.clause, selection.pageSize⟩ ::
    Relation.levelsOf query label selection.relations

end Keyspace
