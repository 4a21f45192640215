import Keyspace.Proofs.Schema.Levels
import Keyspace.Proofs.Schema.Names

/-!
# Well-formed models

The parts of a model refer to each other by position and by path, and nothing in the data types
keeps a position in range or a path on the fields there are.  `Model.WellFormed` says that all of
them do:

* every entity may hold rows and has a single identifier, and a relationship leads to an entity;
* statistics, clauses, filters of mutations and relations are on the rows of a definite entity, and
  every path in them starts from these rows and resolves in the catalog (`Catalog.IsNamed`);
* a relation reads the target of a relationship field of the rows above it, at any depth
  (`Catalog.IsRelationOf`);
* selections name definitions, and levels the queries they belong to.

What is built from declarations is well-formed (`Declarations.wellFormed_of_build`).
-/

namespace Keyspace

/-! ### Catalogs -/

/-- A catalog of entities with distinct names, each with rows and an identifier of its own. -/
structure Catalog.WellFormed (c : Catalog) : Prop extends c.IsClosed where
  nodup_names : (c.entities.map Entity.name).Nodup
  exists_identifier : ∀ e ∈ c.entities,
    ∃ f, (e.fields.values.filter fun f => f.typeName == idType) = [f] ∧ f.name = e.idField

theorem wellFormed_of_buildCatalog {α : Type} {decls : List (EntityDecl α)} {c : Catalog}
    (h : buildCatalog decls = .ok c) : c.WellFormed where
  toIsClosed := isClosed_of_buildCatalog h
  nodup_names := nodup_names_of_buildCatalog h
  exists_identifier := fun _ => exists_identifier_of_buildCatalog h

/-! ### Statistics -/

/-- The paths of the statistics of an entity resolve on its rows. -/
theorem isNamed_of_resolveStatistics {α : Type} {c : Catalog} {root : EntityId}
    {decl : EntityDecl α} {s : Statistics α} (h : resolveStatistics c root decl = .ok s)
    {e : PathSet × Statistic α} (he : e ∈ s.entries) {p : Path} (hp : p ∈ e.1.toList) :
    c.IsNamed root p := by
  obtain ⟨resolved, hresolved, rfl⟩ := map_eq_ok_iff.mp h
  obtain ⟨d, hd, hkey⟩ := SortedMap.exists_key_eq_of_mem_ofList he
  obtain ⟨statisticDecl, -, hstatistic⟩ := exists_of_mem_mapM hresolved hd
  obtain ⟨paths, hpaths, rfl⟩ := map_eq_ok_iff.mp hstatistic
  rw [← hkey] at hp
  obtain ⟨dotted, -, hdotted⟩ := exists_of_mem_mapM hpaths (SortedSet.mem_of_mem_toList_ofList hp)
  exact Catalog.isNamed_of_resolve hdotted

/-! ### Clauses and relations -/

/-- A clause on the rows of an entity, every path of which starts from these rows and resolves. -/
structure Catalog.IsClauseOf (c : Catalog) (owner : EntityId) (clause : Clause) : Prop where
  owner_lt : owner < c.entities.length
  root_eq : clause.root = owner
  predicates : ∀ q ∈ clause.predicates, c.IsNamed owner q.path
  order : ∀ t ∈ clause.order, c.IsNamed owner t.path

theorem Catalog.Resolved.isClauseOf {c : Catalog} {clause : Clause} (h : c.Resolved clause) :
    c.IsClauseOf clause.root clause :=
  ⟨h.root_lt, rfl, fun _ => h.isNamed_of_mem_predicates, fun _ => h.isNamed_of_mem_order⟩

theorem isClauseOf_of_resolveClause {c : Catalog} {root : EntityId} {decl : ClauseDecl}
    {clause : Clause} (hroot : root < c.entities.length)
    (h : resolveClause c root decl = .ok clause) : c.IsClauseOf root clause := by
  obtain rfl := root_of_resolveClause h
  exact (resolved_of_resolveClause hroot h).isClauseOf

/-- A relation on the rows of an entity: a relationship field of the entity leads to the rows that
its clause is on, and the relations below it are on these rows. -/
inductive Catalog.IsRelationOf (c : Catalog) : EntityId → Relation → Prop
  | intro {parent target : EntityId} {field : String} {f : Field} {clause : Clause} {pageSize : ℕ}
      {relations : List Relation} (hfield : (c.entity parent).field? field = some f)
      (htarget : f.target = some target) (hclause : c.IsClauseOf target clause)
      (hrelations : ∀ r ∈ relations, c.IsRelationOf target r) :
      c.IsRelationOf parent ⟨field, clause, pageSize, relations⟩

theorem relationTarget_eq_ok {e : Entity} {field : String} {target : EntityId}
    (h : relationTarget e field = .ok target) :
    ∃ f, e.field? field = some f ∧ f.target = some target := by
  unfold relationTarget at h
  split at h
  · exact absurd h (by simp)
  next f hf =>
    split at h
    · exact absurd h (by simp)
    next id hid =>
      obtain rfl := Except.ok.inj h
      exact ⟨f, hf, hid⟩

mutual

theorem isRelationOf_of_resolveRelation {c : Catalog} (hc : c.IsClosed) {query selection : String}
    {parent : EntityId} (decl : RelationDecl) {r : Relation}
    (h : resolveRelation c query selection parent decl = .ok r) : c.IsRelationOf parent r := by
  match decl with
  | ⟨field, clauseDecl, pageSize, decls⟩ =>
    rw [resolveRelation] at h
    obtain ⟨-, -, h⟩ := bind_eq_ok_iff.mp h
    obtain ⟨target, htarget, h⟩ := bind_eq_ok_iff.mp h
    obtain ⟨clause, hclause, h⟩ := bind_eq_ok_iff.mp h
    obtain ⟨relations, hrelations, h⟩ := bind_eq_ok_iff.mp h
    obtain rfl := Except.ok.inj h
    obtain ⟨f, hfield, hf⟩ := relationTarget_eq_ok htarget
    exact .intro hfield hf (isClauseOf_of_resolveClause (hc.lt_of_relationTarget htarget) hclause)
      (isRelationOf_of_resolveRelations hc decls hrelations)

theorem isRelationOf_of_resolveRelations {c : Catalog} (hc : c.IsClosed)
    {query selection : String} {parent : EntityId} (decls : List RelationDecl)
    {relations : List Relation}
    (h : resolveRelations c query selection parent decls = .ok relations) :
    ∀ r ∈ relations, c.IsRelationOf parent r := by
  match decls with
  | [] =>
    rw [resolveRelations] at h
    obtain rfl := Except.ok.inj h
    exact fun r hr => absurd hr List.not_mem_nil
  | decl :: rest =>
    rw [resolveRelations] at h
    obtain ⟨relation, hrelation, h⟩ := bind_eq_ok_iff.mp h
    obtain ⟨relations, hrelations, h⟩ := bind_eq_ok_iff.mp h
    obtain rfl := Except.ok.inj h
    exact List.forall_mem_cons.mpr ⟨isRelationOf_of_resolveRelation hc decl hrelation,
      isRelationOf_of_resolveRelations hc rest hrelations⟩

end

/-! ### Models -/

/-- A definition returns rows of an entity of the catalog, and its clause is on them. -/
def Catalog.IsDefinition (c : Catalog) (d : Definition) : Prop :=
  ∃ id, c.find? d.returns = some id ∧ c.IsClauseOf id d.clause

theorem isDefinition_of_addDefinition {c : Catalog} {definitions definitions' : List Definition}
    {decl : DefinitionDecl} (hdefinitions : ∀ d ∈ definitions, c.IsDefinition d)
    (h : addDefinition c definitions decl = .ok definitions') :
    ∀ d ∈ definitions', c.IsDefinition d := by
  obtain ⟨root, hroot, h⟩ := bind_eq_ok_iff.mp h
  obtain ⟨clause, hclause, h⟩ := bind_eq_ok_iff.mp h
  split_ifs at h
  obtain rfl := Except.ok.inj h
  intro d hd
  rcases List.mem_append.mp hd with hd | hd
  · exact hdefinitions d hd
  · obtain rfl := List.mem_singleton.mp hd
    have hfind : c.find? decl.entity = some root := by
      unfold resolveEntity at hroot
      split at hroot
      next id hid => rw [hid, Except.ok.inj hroot]
      · exact absurd hroot (by simp)
    exact ⟨root, hfind, isClauseOf_of_resolveClause (lt_of_resolveEntity hroot) hclause⟩

/-- A model whose parts refer to each other in range, by paths that resolve. -/
structure Model.WellFormed {α : Type} (m : Model α) : Prop where
  catalog : m.catalog.WellFormed
  length_statistics : m.statistics.length = m.catalog.entities.length
  statistics : ∀ id s, m.statistics[id]? = some s →
    ∀ e ∈ s.entries, ∀ p ∈ e.1.toList, m.catalog.IsNamed id p
  definitions : ∀ d ∈ m.definitions, m.catalog.IsDefinition d
  selections : ∀ q ∈ m.queries, ∀ s ∈ q.selections, ∃ d, m.definitions[s.definition]? = some d ∧
    ∀ r ∈ s.relations, m.catalog.IsRelationOf d.clause.root r
  mutations : ∀ mu ∈ m.mutations, mu.entity < m.catalog.entities.length ∧
    ∀ clause, mu.filter = some clause → m.catalog.IsClauseOf mu.entity clause
  levels : ∀ l ∈ m.levels,
    l.query < m.queries.length ∧ m.catalog.IsClauseOf l.clause.root l.clause

theorem isRelationOf_of_resolveSelection {c : Catalog} (hc : c.IsClosed)
    {definitions : List Definition} {query : String} {decl : SelectionDecl} {s : Selection}
    (h : resolveSelection c definitions query decl = .ok s) :
    ∃ d, definitions[s.definition]? = some d ∧
      ∀ r ∈ s.relations, c.IsRelationOf d.clause.root r := by
  unfold resolveSelection at h
  split at h
  · exact absurd h (by simp)
  next id hid =>
    obtain ⟨-, -, h⟩ := bind_eq_ok_iff.mp h
    obtain ⟨relations, hrelations, h⟩ := bind_eq_ok_iff.mp h
    obtain rfl := Except.ok.inj h
    have hlt := (List.findIdx?_eq_some_iff_getElem.mp hid).1
    rw [List.getD_eq_getElem _ _ hlt] at hrelations
    exact ⟨definitions[id], List.getElem?_eq_getElem hlt,
      isRelationOf_of_resolveRelations hc _ hrelations⟩

/-- What is built from declarations is well-formed. -/
theorem Declarations.wellFormed_of_build {α : Type} {decls : Declarations α} {m : Model α}
    (h : decls.build = .ok m) : m.WellFormed := by
  obtain ⟨hcatalog, hstatistics, hdefinitions, hqueries, hmutations⟩ :=
    Declarations.build_eq_ok_iff.mp h
  have hclosed := Declarations.isClosed_of_build h
  have hstages := forall₂_of_mapM hstatistics
  refine
    { catalog := wellFormed_of_buildCatalog hcatalog
      length_statistics := ?_
      statistics := fun id s hs => ?_
      definitions :=
        foldlM_induction (fun _ _ _ _ => isDefinition_of_addDefinition) (by simp) hdefinitions
      selections := fun q hq s hs => ?_
      mutations := fun mu hmu => ?_
      levels := fun l hl =>
        ⟨m.query_lt_of_mem_levels hl, (Declarations.resolved_of_build h l hl).isClauseOf⟩ }
  · rw [← hstages.length_eq, List.length_zipIdx, length_entities_of_buildCatalog hcatalog]
  · -- the statistics of an entity stand at its position
    obtain ⟨hid, rfl⟩ := List.getElem?_eq_some_iff.mp hs
    have hid' : id < decls.entities.zipIdx.length := hstages.length_eq ▸ hid
    have hresolve := hstages.get hid' hid
    rw [List.get_eq_getElem, List.get_eq_getElem, List.getElem_zipIdx, Nat.zero_add] at hresolve
    exact fun e he p hp => isNamed_of_resolveStatistics hresolve he hp
  · obtain ⟨decl, -, hdecl⟩ := exists_of_mem_mapM hqueries hq
    obtain ⟨selections, hselections, rfl⟩ := map_eq_ok_iff.mp hdecl
    obtain ⟨selection, -, hselection⟩ := exists_of_mem_mapM hselections hs
    exact isRelationOf_of_resolveSelection hclosed hselection
  · obtain ⟨decl, -, hdecl⟩ := exists_of_mem_mapM hmutations hmu
    obtain ⟨hlt, hfilter⟩ := resolveMutation_eq_ok hdecl
    refine ⟨hlt, fun clause hclause => ?_⟩
    obtain ⟨hroot, hresolved⟩ := hfilter clause hclause
    exact hroot ▸ hresolved.isClauseOf

end Keyspace
