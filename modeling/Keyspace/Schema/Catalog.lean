import Keyspace.Schema.Error
import Keyspace.Sorted.Map
import Keyspace.Text.Segments

/-!
# The catalog of entities

A catalog lists the entities of a model; an entity is referred to by its position.
`Catalog.resolve` turns a dotted text into a path: it walks from field to field and finds out
whether the path may be part of a key.
-/

namespace Keyspace

/-- The type of the fields that identify rows. -/
def idType : String := "ID"

/-- Does a field hold one value or many? -/
inductive Multiplicity where
  | single
  | list
deriving DecidableEq, Repr, Inhabited

/-- A field of an entity. -/
structure Field where
  name : String
  typeName : String
  /-- The entity a relationship leads to; scalars have none. -/
  target : Option EntityId
  multiplicity : Multiplicity
  nonNull : Bool
  immutable : Bool
deriving Inhabited, Repr, DecidableEq

/-- A field whose value a row has from its first day and keeps. -/
def Field.settled (f : Field) : Bool := f.immutable && f.nonNull

/-- A kind of rows. -/
structure Entity where
  name : String
  /-- No more rows than this are stored. -/
  maxRows : Nat
  /-- The fields by name. -/
  fields : SortedMap String Field
  /-- The name of the field that identifies a row. -/
  idField : String
deriving Inhabited

/-- The field of a given name. -/
def Entity.field? (e : Entity) (name : String) : Option Field := e.fields.find? name

/-- The entities of a model, in the order of their declarations. -/
structure Catalog where
  entities : List Entity
deriving Inhabited

namespace Catalog

/-- The entity at a position; a position outside the catalog holds an entity without fields. -/
def entity (c : Catalog) (id : EntityId) : Entity := c.entities.getD id default

/-- The position of the entity of a given name. -/
def find? (c : Catalog) (name : String) : Option EntityId :=
  c.entities.findIdx? fun e => e.name == name

/-- Walks the named fields one after the other, starting at an entity, and says whether all of
them but the last are settled. -/
def walk (c : Catalog) (e : Entity) : List String → Except SchemaError Bool
  | [] => .ok true
  | [name] =>
    match e.field? name with
    | none => .error (.unknownField e.name name)
    | some _ => .ok true
  | name :: rest =>
    match e.field? name with
    | none => .error (.unknownField e.name name)
    | some field =>
      match field.target with
      | none => .error (.notRelationship e.name field.name)
      | some next => (c.walk (c.entity next) rest).map (field.settled && ·)

/-- The path that a dotted text names on the rows of `root`. -/
def resolve (c : Catalog) (root : EntityId) (dotted : String) : Except SchemaError Path :=
  match Text.segments dotted with
  | [] => .error (.emptyPath (c.entity root).name)
  | segments => (c.walk (c.entity root) segments).map fun sargable => ⟨root, segments, sargable⟩

/-- The path to the identifier of an entity. -/
def idPath (c : Catalog) (id : EntityId) : Path := ⟨id, [(c.entity id).idField], true⟩

/-- The field that a path walks through first. -/
def firstField? (c : Catalog) (p : Path) : Option Field :=
  p.segments.head?.bind (c.entity p.root).field?

end Catalog

end Keyspace
