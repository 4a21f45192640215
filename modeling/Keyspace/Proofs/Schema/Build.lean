import Keyspace.Proofs.Lists
import Keyspace.Proofs.Sorted.Map
import Keyspace.Schema.Build

/-!
# What a built model refers to

Positions that `Declarations.build` writes into a model are positions of the model.  The lemmas
follow the stages of the building, each of which succeeds only if all its steps do
(`forall₂_of_mapM`, `foldlM_induction`).

* `Declarations.resolved_of_build`: the clause of every level of the workload was resolved against
  the catalog, and so reads an entity of it.
* `Declarations.maxRows_pos_of_build`: and the entity may hold rows.
-/

namespace Keyspace

/-! ### Steps that may fail -/

section Steps

variable {α β γ ε : Type}

theorem bind_eq_ok_iff {x : Except ε α} {f : α → Except ε β} {b : β} :
    (x >>= f) = .ok b ↔ ∃ a, x = .ok a ∧ f a = .ok b := by
  cases x with
  | error e => simp [bind, Except.bind]
  | ok a => simp [bind, Except.bind]

theorem map_eq_ok_iff {x : Except ε α} {f : α → β} {b : β} :
    x.map f = .ok b ↔ ∃ a, x = .ok a ∧ f a = b := by
  cases x with
  | error e => simp [Except.map]
  | ok a => simp [Except.map]

/-- A traversal succeeds only if every step does. -/
theorem forall₂_of_mapM {f : α → Except ε β} :
    ∀ {as : List α} {bs : List β}, as.mapM f = .ok bs →
      List.Forall₂ (fun a b => f a = .ok b) as bs := by
  intro as
  induction as with
  | nil =>
    intro bs h
    obtain rfl := Except.ok.inj h
    exact .nil
  | cons a as ih =>
    intro bs h
    rw [List.mapM_cons] at h
    obtain ⟨b, hb, h⟩ := bind_eq_ok_iff.mp h
    obtain ⟨bs', hbs, h⟩ := bind_eq_ok_iff.mp h
    obtain rfl := Except.ok.inj h
    exact .cons hb (ih hbs)

/-- What a traversal returns comes from its steps. -/
theorem exists_of_mem_mapM {f : α → Except ε β} {as : List α} {bs : List β}
    (h : as.mapM f = .ok bs) {b : β} (hb : b ∈ bs) : ∃ a ∈ as, f a = .ok b :=
  exists_left_of_forall₂ (forall₂_of_mapM h) hb

/-- A traversal of steps that all succeed returns their results. -/
theorem mapM_eq_ok_iff {f : α → Except ε β} {as : List α} {bs : List β} :
    as.mapM f = .ok bs ↔ List.Forall₂ (fun a b => f a = .ok b) as bs := by
  refine ⟨forall₂_of_mapM, fun h => ?_⟩
  induction h with
  | nil => rfl
  | cons ha _ ih =>
    rw [List.mapM_cons, ha, ih]
    rfl

/-- The error of a step that fails. -/
def failure? : Except ε α → Option ε
  | .ok _ => none
  | .error e => some e

theorem failure?_eq_some_iff {x : Except ε α} {e : ε} : failure? x = some e ↔ x = .error e := by
  cases x <;> simp [failure?]

theorem failure?_eq_none_iff {x : Except ε α} : failure? x = none ↔ ∃ a, x = .ok a := by
  cases x <;> simp [failure?]

@[simp]
theorem failure?_map (x : Except ε α) (f : α → β) : failure? (x.map f) = failure? x := by
  cases x <;> rfl

/-- Steps in turn fail as the first one that does. -/
theorem failure?_bind_of_eq_ok {x : Except ε α} {f : α → Except ε β} {error? : Option ε}
    (h : ∀ a, x = .ok a → failure? (f a) = error?) :
    failure? (x >>= f) = (failure? x).or error? := by
  cases x with
  | error e => rfl
  | ok a => exact h a rfl

theorem failure?_bind {x : Except ε α} {f : α → Except ε β} {error? : Option ε}
    (h : ∀ a, failure? (f a) = error?) : failure? (x >>= f) = (failure? x).or error? :=
  failure?_bind_of_eq_ok fun a _ => h a

theorem failure?_bind_ok (x : Except ε α) (f : α → β) :
    failure? (x >>= fun a => .ok (f a)) = failure? x := by
  cases x <;> rfl

/-- A traversal fails with the error of the first step that does. -/
theorem failure?_mapM (f : α → Except ε β) (as : List α) :
    failure? (as.mapM f) = as.findSome? fun a => failure? (f a) := by
  induction as with
  | nil => rfl
  | cons a as ih =>
    rw [List.mapM_cons, List.findSome?_cons, ← ih]
    cases f a with
    | error e => rfl
    | ok b => cases as.mapM f <;> rfl

/-- A run keeps what each of its steps keeps. -/
theorem foldlM_induction {P : β → Prop} {f : β → α → Except ε β} {as : List α}
    (step : ∀ b, ∀ a ∈ as, ∀ b', P b → f b a = .ok b' → P b') :
    ∀ {b b' : β}, P b → as.foldlM f b = .ok b' → P b' := by
  induction as with
  | nil =>
    intro b b' hb h
    obtain rfl := Except.ok.inj h
    exact hb
  | cons a as ih =>
    intro b b' hb h
    rw [List.foldlM_cons] at h
    obtain ⟨b₁, hb₁, h⟩ := bind_eq_ok_iff.mp h
    exact ih (fun b a' ha' => step b a' (List.mem_cons_of_mem a ha'))
      (step b a List.mem_cons_self b₁ hb hb₁) h

end Steps

/-! ### The catalog -/

/-- A catalog whose entities may hold rows and whose relationships lead to its own entities. -/
structure Catalog.IsClosed (c : Catalog) : Prop where
  maxRows_pos : ∀ e ∈ c.entities, 0 < e.maxRows
  target_lt : ∀ e ∈ c.entities, ∀ f ∈ e.fields.values, ∀ id, f.target = some id →
    id < c.entities.length

theorem target_lt_of_resolveType {names : List String} {owner : String} {field : FieldDecl}
    {target : Option EntityId} (h : resolveType names owner field = .ok target) :
    ∀ id, target = some id → id < names.length := by
  rintro id rfl
  unfold resolveType at h
  split_ifs at h
  · exact absurd (Except.ok.inj h) (by simp)
  · split at h
    next id' hid' =>
      obtain rfl := Option.some.inj (Except.ok.inj h)
      exact (List.findIdx?_eq_some_iff_getElem.mp hid').1
    · exact absurd h (by simp)

theorem target_lt_of_addField {names : List String} {owner : String}
    {fields fields' : SortedMap String Field} {decl : FieldDecl}
    (hfields : ∀ f ∈ fields.values, ∀ id, f.target = some id → id < names.length)
    (h : addField names owner fields decl = .ok fields') :
    ∀ f ∈ fields'.values, ∀ id, f.target = some id → id < names.length := by
  obtain ⟨target, htarget, h⟩ := bind_eq_ok_iff.mp h
  by_cases hdup : (fields.find? decl.name).isSome = true
  · rw [if_pos hdup] at h
    exact absurd h (by simp)
  · rw [if_neg hdup] at h
    obtain rfl := Except.ok.inj h
    intro f hf
    rcases SortedMap.mem_values_insert hf with rfl | hf
    · exact target_lt_of_resolveType htarget
    · exact hfields f hf

theorem buildEntity_eq_ok {α : Type} {names : List String} {decl : EntityDecl α} {e : Entity}
    (h : buildEntity names decl = .ok e) :
    0 < e.maxRows ∧ ∀ f ∈ e.fields.values, ∀ id, f.target = some id → id < names.length := by
  unfold buildEntity at h
  split_ifs at h with hrows
  obtain ⟨fields, hfields, h⟩ := bind_eq_ok_iff.mp h
  have htargets := foldlM_induction
    (fun _ _ _ _ => target_lt_of_addField) (by simp [SortedMap.values])
    hfields
  split at h
  · obtain rfl := Except.ok.inj h
    exact ⟨Nat.pos_of_ne_zero hrows, htargets⟩
  · exact absurd h (by simp)

/-- The identifier of an entity is its only field of that type. -/
theorem exists_identifier_of_buildEntity {α : Type} {names : List String} {decl : EntityDecl α}
    {e : Entity} (h : buildEntity names decl = .ok e) :
    ∃ f, (e.fields.values.filter fun f => f.typeName == idType) = [f] ∧ f.name = e.idField := by
  unfold buildEntity at h
  split_ifs at h
  obtain ⟨fields, -, h⟩ := bind_eq_ok_iff.mp h
  split at h
  next identifier hidentifier =>
    obtain rfl := Except.ok.inj h
    exact ⟨identifier, hidentifier, rfl⟩
  · exact absurd h (by simp)

/-- A built catalog lists the built entities, no two of which are declared by one name. -/
theorem buildCatalog_eq_ok {α : Type} {decls : List (EntityDecl α)} {c : Catalog}
    (h : buildCatalog decls = .ok c) :
    firstRepeated? [] (decls.map EntityDecl.name) = none ∧
      List.Forall₂ (fun decl e => buildEntity (decls.map EntityDecl.name) decl = .ok e)
        decls c.entities := by
  unfold buildCatalog at h
  dsimp only at h
  split at h
  · exact absurd h (by simp)
  next hnames =>
    obtain ⟨entities, hentities, rfl⟩ := map_eq_ok_iff.mp h
    exact ⟨hnames, forall₂_of_mapM hentities⟩

theorem length_entities_of_buildCatalog {α : Type} {decls : List (EntityDecl α)} {c : Catalog}
    (h : buildCatalog decls = .ok c) : c.entities.length = decls.length :=
  (buildCatalog_eq_ok h).2.length_eq.symm

/-- Every entity of a built catalog was built from a declaration. -/
theorem exists_buildEntity_of_buildCatalog {α : Type} {decls : List (EntityDecl α)} {c : Catalog}
    (h : buildCatalog decls = .ok c) {e : Entity} (he : e ∈ c.entities) :
    ∃ decl : EntityDecl α, buildEntity (decls.map EntityDecl.name) decl = .ok e := by
  obtain ⟨decl, -, hdecl⟩ := exists_left_of_forall₂ (buildCatalog_eq_ok h).2 he
  exact ⟨decl, hdecl⟩

theorem exists_identifier_of_buildCatalog {α : Type} {decls : List (EntityDecl α)} {c : Catalog}
    (h : buildCatalog decls = .ok c) {e : Entity} (he : e ∈ c.entities) :
    ∃ f, (e.fields.values.filter fun f => f.typeName == idType) = [f] ∧ f.name = e.idField := by
  obtain ⟨decl, hdecl⟩ := exists_buildEntity_of_buildCatalog h he
  exact exists_identifier_of_buildEntity hdecl

theorem isClosed_of_buildCatalog {α : Type} {decls : List (EntityDecl α)} {c : Catalog}
    (h : buildCatalog decls = .ok c) : c.IsClosed := by
  have hlen : (decls.map EntityDecl.name).length = c.entities.length := by
    rw [List.length_map, length_entities_of_buildCatalog h]
  constructor
  · intro e he
    obtain ⟨decl, hdecl⟩ := exists_buildEntity_of_buildCatalog h he
    exact (buildEntity_eq_ok hdecl).1
  · intro e he f hf id hid
    obtain ⟨decl, hdecl⟩ := exists_buildEntity_of_buildCatalog h he
    exact hlen ▸ (buildEntity_eq_ok hdecl).2 f hf id hid

theorem Catalog.IsClosed.lt_of_relationTarget {c : Catalog} (hc : c.IsClosed)
    {parent target : EntityId} {field : String}
    (h : relationTarget (c.entity parent) field = .ok target) :
    target < c.entities.length := by
  unfold relationTarget at h
  split at h
  · exact absurd h (by simp)
  next f hf =>
    split at h
    · exact absurd h (by simp)
    next id hid =>
      obtain rfl := Except.ok.inj h
      have hmem := SortedMap.mem_values_of_find? hf
      by_cases hparent : parent < c.entities.length
      · rw [Catalog.entity, List.getD_eq_getElem _ _ hparent] at hmem
        exact hc.target_lt _ (List.getElem_mem hparent) f hmem _ hid
      · -- a position outside the catalog has no fields
        rw [Catalog.entity, List.getD_eq_default _ _ (Nat.le_of_not_lt hparent)] at hmem
        exact absurd hmem (List.not_mem_nil (a := f))

/-! ### Clauses and relations -/

theorem root_of_resolveClause {c : Catalog} {root : EntityId} {decl : ClauseDecl} {clause : Clause}
    (h : resolveClause c root decl = .ok clause) : clause.root = root := by
  obtain ⟨predicates, -, h⟩ := bind_eq_ok_iff.mp h
  obtain ⟨order, -, h⟩ := bind_eq_ok_iff.mp h
  obtain rfl := Except.ok.inj h
  rfl

/-- A clause as resolution leaves it: it reads an entity of the catalog, by paths that some
declaration names. -/
structure Catalog.Resolved (c : Catalog) (clause : Clause) : Prop where
  root_lt : clause.root < c.entities.length
  exists_decl : ∃ decl, resolveClause c clause.root decl = .ok clause

theorem resolved_of_resolveClause {c : Catalog} {root : EntityId} {decl : ClauseDecl}
    {clause : Clause} (hroot : root < c.entities.length)
    (h : resolveClause c root decl = .ok clause) : c.Resolved clause := by
  obtain rfl := root_of_resolveClause h
  exact ⟨hroot, decl, h⟩

mutual

/-- The clauses of a relation and of the relations below it are resolved. -/
theorem resolved_of_resolveRelation {c : Catalog} (hc : c.IsClosed) {query selection : String}
    {parent : EntityId} (decl : RelationDecl) {relation : Relation}
    (h : resolveRelation c query selection parent decl = .ok relation) (id : QueryId)
    (label : String) :
    ∀ l ∈ relation.levels id label, c.Resolved l.clause := by
  match decl with
  | ⟨field, clauseDecl, pageSize, decls⟩ =>
    rw [resolveRelation] at h
    obtain ⟨-, -, h⟩ := bind_eq_ok_iff.mp h
    obtain ⟨target, htarget, h⟩ := bind_eq_ok_iff.mp h
    obtain ⟨clause, hclause, h⟩ := bind_eq_ok_iff.mp h
    obtain ⟨relations, hrelations, h⟩ := bind_eq_ok_iff.mp h
    obtain rfl := Except.ok.inj h
    intro l hl
    rw [Relation.levels] at hl
    rcases List.mem_cons.mp hl with rfl | hl
    · exact resolved_of_resolveClause (hc.lt_of_relationTarget htarget) hclause
    · exact resolved_of_resolveRelations hc decls hrelations id _ l hl

theorem resolved_of_resolveRelations {c : Catalog} (hc : c.IsClosed) {query selection : String}
    {parent : EntityId} (decls : List RelationDecl) {relations : List Relation}
    (h : resolveRelations c query selection parent decls = .ok relations) (id : QueryId)
    (label : String) :
    ∀ l ∈ Relation.levelsOf id label relations, c.Resolved l.clause := by
  match decls with
  | [] =>
    rw [resolveRelations] at h
    obtain rfl := Except.ok.inj h
    intro l hl
    rw [Relation.levelsOf] at hl
    exact absurd hl List.not_mem_nil
  | decl :: rest =>
    rw [resolveRelations] at h
    obtain ⟨relation, hrelation, h⟩ := bind_eq_ok_iff.mp h
    obtain ⟨relations, hrelations, h⟩ := bind_eq_ok_iff.mp h
    obtain rfl := Except.ok.inj h
    intro l hl
    rw [Relation.levelsOf] at hl
    rcases List.mem_append.mp hl with hl | hl
    · exact resolved_of_resolveRelation hc decl hrelation id label l hl
    · exact resolved_of_resolveRelations hc rest hrelations id label l hl

end

/-! ### Definitions and queries -/

/-- A named entity has a position in the catalog. -/
theorem lt_of_resolveEntity {c : Catalog} {name : String} {id : EntityId}
    (h : resolveEntity c name = .ok id) : id < c.entities.length := by
  unfold resolveEntity at h
  split at h
  next id' hid =>
    obtain rfl := Except.ok.inj h
    exact (List.findIdx?_eq_some_iff_getElem.mp hid).1
  · exact absurd h (by simp)

theorem resolved_of_addDefinition {c : Catalog} {definitions definitions' : List Definition}
    {decl : DefinitionDecl} (hdefinitions : ∀ d ∈ definitions, c.Resolved d.clause)
    (h : addDefinition c definitions decl = .ok definitions') :
    ∀ d ∈ definitions', c.Resolved d.clause := by
  obtain ⟨root, hroot, h⟩ := bind_eq_ok_iff.mp h
  obtain ⟨clause, hclause, h⟩ := bind_eq_ok_iff.mp h
  split_ifs at h
  obtain rfl := Except.ok.inj h
  intro d hd
  rcases List.mem_append.mp hd with hd | hd
  · exact hdefinitions d hd
  · obtain rfl := List.mem_singleton.mp hd
    exact resolved_of_resolveClause (lt_of_resolveEntity hroot) hclause

/-- The clauses of a resolved selection are resolved. -/
theorem resolved_of_resolveSelection {c : Catalog} (hc : c.IsClosed) {definitions : List Definition}
    (hdefinitions : ∀ d ∈ definitions, c.Resolved d.clause) {query : String}
    {decl : SelectionDecl} {s : Selection}
    (h : resolveSelection c definitions query decl = .ok s) (id : QueryId) (name : String) :
    ∀ l ∈ s.levels id name (definitions.getD s.definition default), c.Resolved l.clause := by
  unfold resolveSelection at h
  split at h
  · exact absurd h (by simp)
  next definition hdefinition =>
    obtain ⟨-, -, h⟩ := bind_eq_ok_iff.mp h
    obtain ⟨relations, hrelations, h⟩ := bind_eq_ok_iff.mp h
    obtain rfl := Except.ok.inj h
    intro l hl
    -- the level of the definition comes first, those of the relations are below its root
    rcases List.mem_cons.mp hl with rfl | hl
    · have hlt := (List.findIdx?_eq_some_iff_getElem.mp hdefinition).1
      show c.Resolved (definitions.getD definition default).clause
      rw [List.getD_eq_getElem _ _ hlt]
      exact hdefinitions _ (List.getElem_mem hlt)
    · exact resolved_of_resolveRelations hc _ hrelations id _ l hl

/-- A resolved mutation writes rows of an entity of the catalog, and its filter was resolved on
them. -/
theorem resolveMutation_eq_ok {c : Catalog} {decl : MutationDecl} {mu : Mutation}
    (h : resolveMutation c decl = .ok mu) :
    mu.entity < c.entities.length ∧
      ∀ clause, mu.filter = some clause → clause.root = mu.entity ∧ c.Resolved clause := by
  obtain ⟨entity, hentity, h⟩ := bind_eq_ok_iff.mp h
  have hlt := lt_of_resolveEntity hentity
  dsimp only at h
  cases hfilter : decl.filter with
  | none =>
    rw [hfilter] at h
    obtain rfl := Except.ok.inj h
    exact ⟨hlt, by simp⟩
  | some clauseDecl =>
    rw [hfilter] at h
    obtain ⟨filter, hresolve, h⟩ := bind_eq_ok_iff.mp h
    obtain ⟨clause, hclause, rfl⟩ := map_eq_ok_iff.mp hresolve
    obtain rfl := Except.ok.inj h
    refine ⟨hlt, fun clause' heq => ?_⟩
    obtain rfl := Option.some.inj heq
    exact ⟨root_of_resolveClause hclause, resolved_of_resolveClause hlt hclause⟩

theorem Model.mem_levels_iff {α : Type} {m : Model α} {l : Level} :
    l ∈ m.levels ↔ ∃ (k : QueryId) (q : Query), m.queries[k]? = some q ∧
      ∃ s ∈ q.selections, l ∈ s.levels k q.name (m.definition s.definition) := by
  rw [Model.levels, Model.selectionLevels, List.mem_flatten]
  constructor
  · rintro ⟨ls, hls, hl⟩
    obtain ⟨lss, hlss, hls⟩ := List.mem_flatten.mp hls
    obtain ⟨k, hk, rfl⟩ := List.mem_mapIdx.mp hlss
    obtain ⟨s, hs, rfl⟩ := List.mem_map.mp hls
    exact ⟨k, _, List.getElem?_eq_getElem hk, s, hs, hl⟩
  · rintro ⟨k, q, hq, s, hs, hl⟩
    obtain ⟨hk, rfl⟩ := List.getElem?_eq_some_iff.mp hq
    exact ⟨_, List.mem_flatten.mpr ⟨_, List.mem_mapIdx.mpr ⟨k, hk, rfl⟩,
      List.mem_map.mpr ⟨s, hs, rfl⟩⟩, hl⟩

/-! ### Models -/

section Models

variable {α : Type} {decls : Declarations α} {m : Model α}

/-- A built model is what the stages of the building return. -/
theorem Declarations.build_eq_ok_iff :
    decls.build = .ok m ↔
      buildCatalog decls.entities = .ok m.catalog ∧
      (decls.entities.zipIdx.mapM fun e => resolveStatistics m.catalog e.2 e.1)
        = .ok m.statistics ∧
      decls.definitions.foldlM (addDefinition m.catalog) [] = .ok m.definitions ∧
      decls.queries.mapM (resolveQuery m.catalog m.definitions) = .ok m.queries ∧
      decls.mutations.mapM (resolveMutation m.catalog) = .ok m.mutations := by
  constructor
  · intro h
    obtain ⟨catalog, hcatalog, h⟩ := bind_eq_ok_iff.mp h
    obtain ⟨statistics, hstatistics, h⟩ := bind_eq_ok_iff.mp h
    obtain ⟨definitions, hdefinitions, h⟩ := bind_eq_ok_iff.mp h
    obtain ⟨queries, hqueries, h⟩ := bind_eq_ok_iff.mp h
    obtain ⟨mutations, hmutations, h⟩ := bind_eq_ok_iff.mp h
    obtain rfl := Except.ok.inj h
    exact ⟨hcatalog, hstatistics, hdefinitions, hqueries, hmutations⟩
  · rintro ⟨hcatalog, hstatistics, hdefinitions, hqueries, hmutations⟩
    exact bind_eq_ok_iff.mpr ⟨_, hcatalog, bind_eq_ok_iff.mpr ⟨_, hstatistics,
      bind_eq_ok_iff.mpr ⟨_, hdefinitions, bind_eq_ok_iff.mpr ⟨_, hqueries,
        bind_eq_ok_iff.mpr ⟨_, hmutations, rfl⟩⟩⟩⟩⟩

variable (h : decls.build = .ok m)
include h

theorem Declarations.isClosed_of_build : m.catalog.IsClosed :=
  isClosed_of_buildCatalog (Declarations.build_eq_ok_iff.mp h).1

/-- The clause of every definition of a built model is resolved. -/
theorem Declarations.resolved_of_mem_definitions :
    ∀ d ∈ m.definitions, m.catalog.Resolved d.clause := by
  obtain ⟨-, -, hdefinitions, -⟩ := Declarations.build_eq_ok_iff.mp h
  exact foldlM_induction (fun _ _ _ _ => resolved_of_addDefinition) (by simp) hdefinitions

/-- Every mutation of a built model writes rows of one of its entities. -/
theorem Declarations.entity_lt_of_mem_mutations {mu : Mutation} (hmu : mu ∈ m.mutations) :
    mu.entity < m.catalog.entities.length := by
  obtain ⟨-, -, -, -, hmutations⟩ := Declarations.build_eq_ok_iff.mp h
  obtain ⟨decl, -, hdecl⟩ := exists_of_mem_mapM hmutations hmu
  exact (resolveMutation_eq_ok hdecl).1

/-- The clause of every level of a built model is resolved. -/
theorem Declarations.resolved_of_build : ∀ l ∈ m.levels, m.catalog.Resolved l.clause := by
  obtain ⟨-, -, -, hqueries, -⟩ := Declarations.build_eq_ok_iff.mp h
  intro l hl
  obtain ⟨k, q, hq, s, hs, hl⟩ := Model.mem_levels_iff.mp hl
  obtain ⟨decl, -, hdecl⟩ := exists_of_mem_mapM hqueries (List.mem_of_getElem? hq)
  obtain ⟨selections, hselections, rfl⟩ := map_eq_ok_iff.mp hdecl
  obtain ⟨selection, -, hselection⟩ := exists_of_mem_mapM hselections hs
  exact resolved_of_resolveSelection (Declarations.isClosed_of_build h)
    (Declarations.resolved_of_mem_definitions h) hselection k _ l hl

/-- Every level of a built model reads an entity that may hold rows. -/
theorem Declarations.maxRows_pos_of_build {l : Level} (hl : l ∈ m.levels) :
    0 < (m.entity l.clause.root).maxRows := by
  have hlt := (Declarations.resolved_of_build h l hl).root_lt
  rw [Model.entity, Catalog.entity, List.getD_eq_getElem _ _ hlt]
  exact (Declarations.isClosed_of_build h).maxRows_pos _ (List.getElem_mem hlt)

/-- Every level of a built model reads an entity with an identifier. -/
theorem Declarations.exists_identifier_of_build {l : Level} (hl : l ∈ m.levels) :
    ∃ f, ((m.entity l.clause.root).fields.values.filter fun f => f.typeName == idType) = [f] ∧
      f.name = (m.entity l.clause.root).idField := by
  have hlt := (Declarations.resolved_of_build h l hl).root_lt
  rw [Model.entity, Catalog.entity, List.getD_eq_getElem _ _ hlt]
  exact exists_identifier_of_buildCatalog (Declarations.build_eq_ok_iff.mp h).1
    (List.getElem_mem hlt)

end Models

end Keyspace
