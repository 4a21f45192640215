import Keyspace.Candidate.Enumerate
import Keyspace.Proofs.Schema.WellFormed

/-!
# Checked lookups in a model

The functions of the planner are total: a lookup by a position that is out of range finds a default
value.  In `Keyspace.Checked` the same functions are written with lookups that may fail, so that
`none` means that some lookup on the way was out of range.  Each of them has a lemma, named after
it, which says when it does not fail and that it then returns what the total function returns.

This module is about the lookups in a model and what the search asks of it before it prices
anything.  On a well-formed model they are all in range (`selectionLevels_eq`,
`clusteringKeys_eq`, `bindsIdentifier_eq`, `candidates_eq`).
-/

namespace Keyspace

/-- The queries of a model by their numbers. -/
theorem Model.mapIdx_queries {α β : Type} (m : Model α) (f : QueryId → Query → β) :
    m.queries.mapIdx f = (List.range m.queries.length).map fun id => f id (m.query id) := by
  refine List.ext_getElem (by simp) fun id hid _ => ?_
  have hlt : id < m.queries.length := by simpa using hid
  rw [List.getElem_mapIdx, List.getElem_map, List.getElem_range, query,
    List.getD_eq_getElem _ _ hlt]

namespace Checked

variable {α : Type}

/-! ### Positions -/

/-- The entity at a position. -/
def entity (c : Catalog) (id : EntityId) : Option Entity := c.entities[id]?

/-- The query definition at a position. -/
def definition (m : Model α) (id : DefinitionId) : Option Definition := m.definitions[id]?

/-- The query at a position. -/
def query (m : Model α) (id : QueryId) : Option Query := m.queries[id]?

/-- The statistic on exactly the given paths. -/
def statistic (m : Model α) (id : EntityId) (paths : PathSet) :
    Option (Except SchemaError (Statistic α)) := do
  let owner ← entity m.catalog id
  let statistics ← m.statistics[id]?
  match statistics.find? paths with
  | some statistic => return .ok statistic
  | none => return .error (.missingStatistic owner.name paths)

theorem entity_eq {c : Catalog} {id : EntityId} (h : id < c.entities.length) :
    entity c id = some (c.entity id) :=
  getElem?_eq_some_getD h default

theorem query_eq {m : Model α} {id : QueryId} (h : id < m.queries.length) :
    query m id = some (m.query id) :=
  getElem?_eq_some_getD h default

theorem statistic_eq {m : Model α} (hm : m.WellFormed) {id : EntityId}
    (h : id < m.catalog.entities.length) (paths : PathSet) :
    statistic m id paths = some (m.statistic id paths) := by
  have hstatistics := getElem?_eq_some_getD (hm.length_statistics.symm ▸ h) (∅ : Statistics α)
  simp only [statistic, entity_eq h, hstatistics, Option.bind_eq_bind, Option.bind_some,
    Model.statistic]
  cases (m.statistics.getD id ∅).find? paths <;> rfl

/-! ### Levels and clauses -/

/-- The levels of each selection of a query. -/
def queryLevels (m : Model α) (id : QueryId) (q : Query) : Option (List (List Level)) :=
  q.selections.mapM fun s => (definition m s.definition).map fun d => s.levels id q.name d

/-- The levels of each selection of the workload. -/
def selectionLevels (m : Model α) : Option (List (List Level)) := do
  let levels ← (List.range m.queries.length).mapM fun id => do
    let q ← query m id
    queryLevels m id q
  return levels.flatten

/-- The clauses that read rows of an entity, at any depth of any query. -/
def clausesRootedAt (m : Model α) (id : EntityId) : Option (List Clause) :=
  (selectionLevels m).map fun levels =>
    (levels.flatten.map Level.clause).filter fun c => c.root == id

section Levels

variable {m : Model α} (hm : m.WellFormed)
include hm

theorem queryLevels_eq {q : Query} (hq : q ∈ m.queries) (id : QueryId) :
    queryLevels m id q = some (m.queryLevels id q) := by
  refine mapM_eq_some fun s hs => ?_
  obtain ⟨d, hd, -⟩ := hm.selections q hq s hs
  have hlt := (List.getElem?_eq_some_iff.mp hd).1
  have hdefinition : definition m s.definition = some (m.definition s.definition) :=
    getElem?_eq_some_getD hlt default
  rw [hdefinition]
  rfl

theorem selectionLevels_eq : selectionLevels m = some m.selectionLevels := by
  have hsteps : ∀ id ∈ List.range m.queries.length,
      (do let q ← query m id; queryLevels m id q) = some (m.queryLevels id (m.query id)) := by
    intro id hid
    have hlt := List.mem_range.mp hid
    have hmem : m.query id ∈ m.queries := by
      rw [Model.query, List.getD_eq_getElem _ _ hlt]
      exact List.getElem_mem hlt
    rw [query_eq hlt]
    exact queryLevels_eq hm hmem id
  rw [selectionLevels, mapM_eq_some hsteps, Model.selectionLevels, m.mapIdx_queries]
  rfl

theorem clausesRootedAt_eq (id : EntityId) :
    clausesRootedAt m id = some (m.clausesRootedAt id) := by
  rw [clausesRootedAt, selectionLevels_eq hm]
  rfl

end Levels

/-! ### Candidates -/

/-- The term by which rows are told apart. -/
def identifierTerm (m : Model α) (id : EntityId) : Option OrderTerm :=
  (entity m.catalog id).map fun e => ⟨⟨id, [e.idField], true⟩, .desc⟩

/-- The clustering keys of an entity in ascending order. -/
def clusteringKeys (m : Model α) (id : EntityId) : Option (List (List OrderTerm)) := do
  let identifier ← identifierTerm m id
  let clauses ← clausesRootedAt m id
  let keys : SortedSet (List OrderTerm) :=
    .ofList (clauses.flatMap fun c => c.clusteringKeys identifier)
  return if keys.isEmpty then [[identifier]] else keys.toList

/-- The field that a path walks through first. -/
def firstField (c : Catalog) (p : Path) : Option (Option Field) :=
  match p.segments with
  | [] => some none
  | name :: _ => (entity c p.root).map fun e => e.field? name

/-- Does a predicate bind the identifier of the root entity? -/
def bindsIdentifier (m : Model α) (c : Clause) : Option Bool :=
  c.predicates.anyM fun p => do
    match ← firstField m.catalog p.path with
    | some field => return field.typeName == idType
    | none => return false

/-- All candidates of a level. -/
def candidates (m : Model α) (l : Level) : Option (List Candidate) := do
  let clusteringKeys ← clusteringKeys m l.clause.root
  return (partitionKeys l.clause.sargablePaths).flatMap fun partitionKey =>
    clusteringKeys.map fun clusteringKey => l.candidate partitionKey clusteringKey

section Candidates

variable {m : Model α} (hm : m.WellFormed)

include hm in
theorem clusteringKeys_eq {id : EntityId} (h : id < m.catalog.entities.length) :
    clusteringKeys m id = some (m.clusteringKeys id) := by
  have hidentifier : identifierTerm m id = some (m.identifierTerm id) := by
    rw [identifierTerm, entity_eq h]
    rfl
  rw [clusteringKeys, hidentifier, clausesRootedAt_eq hm]
  rfl

theorem firstField_eq {c : Catalog} {p : Path} (h : p.root < c.entities.length) :
    firstField c p = some (c.firstField? p) := by
  rw [firstField, Catalog.firstField?]
  split
  next hnil => rw [hnil]; rfl
  next hcons => rw [hcons, entity_eq h]; rfl

theorem bindsIdentifier_eq {c : Clause} {owner : EntityId} (h : m.catalog.IsClauseOf owner c) :
    bindsIdentifier m c = some (m.bindsIdentifier c) := by
  refine anyM_eq_some fun p hp => ?_
  have hroot : p.path.root < m.catalog.entities.length := by
    rw [(h.predicates p hp).root_eq]
    exact h.owner_lt
  rw [firstField_eq hroot]
  show (match m.catalog.firstField? p.path with
    | some field => some (field.typeName == idType)
    | none => some false) = some _
  cases m.catalog.firstField? p.path <;> rfl

include hm in
theorem candidates_eq {l : Level} (h : l.clause.root < m.catalog.entities.length) :
    candidates m l = some (m.candidates l) := by
  rw [candidates, clusteringKeys_eq hm h]
  rfl

end Candidates

end Checked

end Keyspace
