import Keyspace.Schema.Path

/-!
# Faults of a schema

`SchemaError` lists the ways in which declarations contradict each other or a lookup fails, and
`SchemaError.message` says each of them in one sentence.
-/

namespace Keyspace

/-- Why a model cannot be built or consulted. -/
inductive SchemaError where
  /-- No entity has this name. -/
  | unknownEntity (name : String)
  /-- The entity has no field of this name. -/
  | unknownField (entity field : String)
  /-- No query definition has this name. -/
  | unknownDefinition (name : String)
  /-- Two entities share a name. -/
  | duplicateEntity (name : String)
  /-- Two fields of an entity share a name. -/
  | duplicateField (entity field : String)
  /-- Two query definitions share a name. -/
  | duplicateDefinition (name : String)
  /-- The entity holds no rows at all. -/
  | noRows (entity : String)
  /-- A selection asks for pages of no rows. -/
  | emptyPage (query selection : String)
  /-- The entity has no identifier, or several. -/
  | identifierCount (entity : String) (count : Nat)
  /-- The type is neither a scalar nor an entity. -/
  | unresolvedType (entity field typeName : String)
  /-- A scalar field cannot be walked through. -/
  | notRelationship (entity field : String)
  /-- The path names no field. -/
  | emptyPath (entity : String)
  /-- The entity has no statistic on exactly these paths. -/
  | missingStatistic (entity : String) (paths : PathSet)
deriving Inhabited

/-- The fault in one sentence. -/
def SchemaError.message : SchemaError → String
  | unknownEntity name => "Unknown entity: " ++ name
  | unknownField entity field => "Unknown field '" ++ field ++ "' on entity " ++ entity
  | unknownDefinition name => "Unknown query definition: " ++ name
  | duplicateEntity name => "Entity " ++ name ++ " has already been declared"
  | duplicateField entity field =>
    "Field " ++ field ++ " is declared twice on entity " ++ entity
  | duplicateDefinition name => "Query definition " ++ name ++ " has already been declared"
  | noRows entity => "Entity " ++ entity ++ " must hold at least one row"
  | emptyPage query selection =>
    "Selection " ++ selection ++ " of query " ++ query ++ " has a page size of 0"
  | identifierCount entity count =>
    "Entity " ++ entity ++ " must have exactly one ID field (found " ++ Nat.repr count ++ ")"
  | unresolvedType entity field typeName =>
    "Field " ++ entity ++ "." ++ field ++ " has unresolved type '" ++ typeName ++ "'"
  | notRelationship entity field =>
    "Field " ++ entity ++ "." ++ field ++ " is not a relationship and cannot be traversed"
  | emptyPath entity => "Empty field path on entity " ++ entity
  | missingStatistic entity paths =>
    "No selectivity statistic on " ++ entity ++ " for " ++ paths.text

end Keyspace
