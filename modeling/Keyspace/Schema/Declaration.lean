import Keyspace.Schema.Catalog
import Keyspace.Schema.Clause
import Keyspace.Schema.Query
import Keyspace.Schema.Statistic

/-!
# Declarations

Entities, definitions, queries and mutations are declared by name and without checks, in any order
between the kinds.  `Keyspace.Schema.Build` resolves the names.
-/

namespace Keyspace

/-- The declaration of a field; a field is immutable, non-null and single-valued unless declared
otherwise. -/
structure FieldDecl where
  name : String
  typeName : String
  isNullable : Bool := false
  isMutable : Bool := false
  isList : Bool := false
deriving Inhabited

/-- The declaration of a statistic on a set of dotted paths. -/
structure StatisticDecl (α : Type) where
  paths : List String
  statistic : Statistic α

/-- The declaration of an entity. -/
structure EntityDecl (α : Type) where
  name : String
  maxRows : Nat := 999999999
  fields : List FieldDecl
  statistics : List (StatisticDecl α)

/-- A clause by dotted paths. -/
structure ClauseDecl where
  /-- Paths with the values bound to them. -/
  predicates : List (String × String) := []
  order : List (String × Direction) := []
deriving Inhabited

/-- The declaration of rows that queries may select by name. -/
structure DefinitionDecl where
  name : String
  entity : String
  multiplicity : Multiplicity := .list
  clause : ClauseDecl
deriving Inhabited

/-- The declaration of related rows below a selection. -/
structure RelationDecl where
  field : String
  clause : ClauseDecl
  pageSize : Nat := 10
  relations : List RelationDecl
deriving Inhabited

/-- The declaration of a page of a definition's rows. -/
structure SelectionDecl where
  definition : String
  pageSize : Nat
  relations : List RelationDecl
deriving Inhabited

/-- The declaration of a query. -/
structure QueryDecl where
  name : String
  serviceLevel : ServiceLevel := {}
  selections : List SelectionDecl
deriving Inhabited

/-- The declaration of a mutation. -/
structure MutationDecl where
  name : String
  entity : String
  kind : MutationKind
  maxTables : Nat
  filter : Option ClauseDecl := none
deriving Inhabited

/-- Everything a model is built from. -/
structure Declarations (α : Type) where
  entities : List (EntityDecl α) := []
  definitions : List DefinitionDecl := []
  queries : List QueryDecl := []
  mutations : List MutationDecl := []

end Keyspace
