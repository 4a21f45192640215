import Keyspace.Schema.Declaration
import Keyspace.Schema.Model

/-!
# Building a model

`Declarations.build` resolves every name and every path of the declarations, or returns the first
fault.  Faults are looked for in stages: the names of the entities, then each entity with its
fields, the statistics, the definitions, the queries and the mutations, in the order of their
declarations within a stage.
-/

namespace Keyspace

open Except (ok error)

/-- The types that are no entities. -/
def scalarTypes : List String :=
  [idType, "String", "Int", "Long", "Float", "Boolean", "Date", "DateTime"]

/-- The first element of a list that equals an earlier one. -/
def firstRepeated? (earlier : List String) : List String → Option String
  | [] => none
  | name :: rest =>
    if earlier.contains name then some name else firstRepeated? (name :: earlier) rest

/-! ### Entities -/

/-- Where a type leads: nowhere from a scalar, else to the entity of that name.  A scalar hides an
entity of the same name. -/
def resolveType (names : List String) (owner : String) (field : FieldDecl) :
    Except SchemaError (Option EntityId) :=
  if scalarTypes.contains field.typeName then ok none
  else
    match names.findIdx? (· == field.typeName) with
    | some id => ok (some id)
    | none => error (.unresolvedType owner field.name field.typeName)

/-- Adds a declared field to the fields before it. -/
def addField (names : List String) (owner : String) (fields : SortedMap String Field)
    (decl : FieldDecl) : Except SchemaError (SortedMap String Field) := do
  let target ← resolveType names owner decl
  if (fields.find? decl.name).isSome then error (.duplicateField owner decl.name)
  else
    ok <| fields.insert decl.name
      { name := decl.name
        typeName := decl.typeName
        target
        multiplicity := if decl.isList then .list else .single
        nonNull := !decl.isNullable
        immutable := !decl.isMutable }

/-- Checks an entity on its own: its rows, its fields and its identifier. -/
def buildEntity {α : Type} (names : List String) (decl : EntityDecl α) :
    Except SchemaError Entity := do
  if decl.maxRows = 0 then error (.noRows decl.name)
  else
    let fields ← decl.fields.foldlM (addField names decl.name) ∅
    match fields.values.filter fun f => f.typeName == idType with
    | [identifier] => ok ⟨decl.name, decl.maxRows, fields, identifier.name⟩
    | identifiers => error (.identifierCount decl.name identifiers.length)

/-- Checks all entities, after their names. -/
def buildCatalog {α : Type} (decls : List (EntityDecl α)) : Except SchemaError Catalog :=
  let names := decls.map EntityDecl.name
  match firstRepeated? [] names with
  | some name => error (.duplicateEntity name)
  | none => (decls.mapM (buildEntity names)).map Catalog.mk

/-! ### Statistics -/

/-- Resolves the paths of one statistic. -/
def resolveStatistic {α : Type} (c : Catalog) (root : EntityId) (decl : StatisticDecl α) :
    Except SchemaError (PathSet × Statistic α) :=
  (decl.paths.mapM (c.resolve root)).map fun paths => (.ofList paths, decl.statistic)

/-- Resolves the statistics of one entity; of two on the same paths the later one counts. -/
def resolveStatistics {α : Type} (c : Catalog) (root : EntityId) (decl : EntityDecl α) :
    Except SchemaError (Statistics α) :=
  (decl.statistics.mapM (resolveStatistic c root)).map SortedMap.ofList

/-! ### Clauses -/

/-- Resolves the paths of the predicates, then those of the order. -/
def resolveClause (c : Catalog) (root : EntityId) (decl : ClauseDecl) :
    Except SchemaError Clause := do
  let predicates ← decl.predicates.mapM fun (path, value) =>
    (c.resolve root path).map fun path => Predicate.mk path value
  let order ← decl.order.mapM fun (path, direction) =>
    (c.resolve root path).map fun path => OrderTerm.mk path direction
  ok ⟨root, predicates, order⟩

/-- The position of a named entity. -/
def resolveEntity (c : Catalog) (name : String) : Except SchemaError EntityId :=
  match c.find? name with
  | some id => ok id
  | none => error (.unknownEntity name)

/-- Adds a declared definition to those before it. -/
def addDefinition (c : Catalog) (definitions : List Definition) (decl : DefinitionDecl) :
    Except SchemaError (List Definition) := do
  let root ← resolveEntity c decl.entity
  let clause ← resolveClause c root decl.clause
  if definitions.any fun d => d.name == decl.name then error (.duplicateDefinition decl.name)
  else ok (definitions ++ [⟨decl.name, decl.entity, decl.multiplicity, clause⟩])

/-! ### Queries -/

/-- A page holds at least one row. -/
def checkPage (query selection : String) (pageSize : Nat) : Except SchemaError Unit :=
  if pageSize = 0 then error (.emptyPage query selection) else ok ()

/-- The entity that a relationship field of `owner` leads to. -/
def relationTarget (owner : Entity) (field : String) : Except SchemaError EntityId :=
  match owner.field? field with
  | none => error (.unknownField owner.name field)
  | some f =>
    match f.target with
    | none => error (.notRelationship owner.name field)
    | some target => ok target

mutual

/-- Resolves a relation on the rows of `parent`; `selection` names the way to it. -/
def resolveRelation (c : Catalog) (query selection : String) (parent : EntityId) :
    RelationDecl → Except SchemaError Relation
  | ⟨field, clause, pageSize, relations⟩ => do
    let nested := selection ++ "." ++ field
    checkPage query nested pageSize
    let target ← relationTarget (c.entity parent) field
    let clause ← resolveClause c target clause
    let relations ← resolveRelations c query nested target relations
    ok ⟨field, clause, pageSize, relations⟩

/-- Resolves relations one after the other. -/
def resolveRelations (c : Catalog) (query selection : String) (parent : EntityId) :
    List RelationDecl → Except SchemaError (List Relation)
  | [] => ok []
  | decl :: rest => do
    let relation ← resolveRelation c query selection parent decl
    let relations ← resolveRelations c query selection parent rest
    ok (relation :: relations)

end

/-- Resolves a selection of a named definition. -/
def resolveSelection (c : Catalog) (definitions : List Definition) (query : String)
    (decl : SelectionDecl) : Except SchemaError Selection :=
  match definitions.findIdx? fun d => d.name == decl.definition with
  | none => error (.unknownDefinition decl.definition)
  | some id => do
    checkPage query decl.definition decl.pageSize
    let root := (definitions.getD id default).clause.root
    let relations ← resolveRelations c query decl.definition root decl.relations
    ok ⟨id, decl.pageSize, relations⟩

/-- Resolves a query. -/
def resolveQuery (c : Catalog) (definitions : List Definition) (decl : QueryDecl) :
    Except SchemaError Query :=
  (decl.selections.mapM (resolveSelection c definitions decl.name)).map fun selections =>
    ⟨decl.name, decl.serviceLevel, selections⟩

/-- Resolves a mutation. -/
def resolveMutation (c : Catalog) (decl : MutationDecl) : Except SchemaError Mutation := do
  let entity ← resolveEntity c decl.entity
  let filter ←
    match decl.filter with
    | none => ok none
    | some clause => (resolveClause c entity clause).map some
  ok ⟨decl.name, entity, decl.kind, decl.maxTables, filter⟩

/-- Resolves all declarations into a model, or returns the first fault. -/
def Declarations.build {α : Type} (decls : Declarations α) : Except SchemaError (Model α) := do
  let catalog ← buildCatalog decls.entities
  let statistics ← decls.entities.zipIdx.mapM fun (decl, id) => resolveStatistics catalog id decl
  let definitions ← decls.definitions.foldlM (addDefinition catalog) []
  let queries ← decls.queries.mapM (resolveQuery catalog definitions)
  let mutations ← decls.mutations.mapM (resolveMutation catalog)
  ok ⟨catalog, statistics, definitions, queries, mutations⟩

end Keyspace
