import Keyspace.Schema.Build
import Mathlib.Data.List.Nodup

/-!
# Plannable declarations

Here is what declarations have to be like for a model to be built from them, in terms of the
declarations alone: names of entities and fields, without positions and without a catalog.

* `Declarations.Plannable` states the conditions.
* `Declarations.faults` lists the errors of all conditions that are violated.  The names of the
  entities come first, then each entity, the statistics, the definitions, the queries with their
  relations depth first, and the mutations.

There are no faults exactly if the declarations are plannable (`Declarations.faults_eq_nil_iff`).
-/

namespace Keyspace

variable {α β : Type}

/-! ### Lists of faults -/

/-- The fault of a condition that is violated. -/
def require (p : Prop) [Decidable p] (fault : SchemaError) : List SchemaError :=
  if p then [] else [fault]

/-- The faults of declarations that must not share a name: for each its own ones, then the
repetition of an earlier name. -/
def namedFaults (own : β → List SchemaError) (name : β → String) (repeated : β → SchemaError)
    (earlier : List String) : List β → List SchemaError
  | [] => []
  | b :: rest =>
    own b ++ require (name b ∉ earlier) (repeated b) ++
      namedFaults own name repeated (earlier ++ [name b]) rest

theorem require_eq_nil_iff {p : Prop} [Decidable p] {fault : SchemaError} :
    require p fault = [] ↔ p := by
  rw [require]
  split_ifs with h <;> simp [h]

theorem namedFaults_eq_nil_iff {own : β → List SchemaError} {name : β → String}
    {repeated : β → SchemaError} {earlier : List String} {bs : List β} :
    namedFaults own name repeated earlier bs = [] ↔
      (∀ b ∈ bs, own b = []) ∧ (bs.map name).Nodup ∧ ∀ b ∈ bs, name b ∉ earlier := by
  induction bs generalizing earlier with
  | nil => simp [namedFaults]
  | cons b rest ih =>
    rw [namedFaults, List.append_eq_nil_iff, List.append_eq_nil_iff, require_eq_nil_iff, ih,
      List.forall_mem_cons, List.forall_mem_cons, List.map_cons, List.nodup_cons]
    have hlater : (∀ c ∈ rest, name c ∉ earlier ++ [name b]) ↔
        (∀ c ∈ rest, name c ∉ earlier) ∧ name b ∉ rest.map name := by
      simp only [List.mem_append, List.mem_singleton, not_or, List.mem_map, not_exists, not_and]
      exact ⟨fun h => ⟨fun c hc => (h c hc).1, fun c hc => (h c hc).2⟩,
        fun h c hc => ⟨h.1 c hc, h.2 c hc⟩⟩
    rw [hlater]
    tauto

/-! ### Names -/

namespace EntityDecl

/-- The declared field of a given name. -/
def field? (e : EntityDecl α) (name : String) : Option FieldDecl :=
  e.fields.find? fun f => f.name == name

/-- The number of fields that identify a row. -/
def identifierCount (e : EntityDecl α) : ℕ := e.fields.countP fun f => f.typeName == idType

end EntityDecl

namespace Declarations

variable (decls : Declarations α)

/-- The declared entity of a given name. -/
def entity? (name : String) : Option (EntityDecl α) :=
  decls.entities.find? fun e => e.name == name

/-- The declared definition of a given name. -/
def definition? (name : String) : Option DefinitionDecl :=
  decls.definitions.find? fun d => d.name == name

/-- The declared entity that a field leads to; a field of a scalar type leads nowhere. -/
def target? (f : FieldDecl) : Option (EntityDecl α) :=
  if f.typeName ∈ scalarTypes then none else decls.entity? f.typeName

/-! ### Conditions -/

/-- The field leads to the rows of an entity. -/
structure LeadsTo (f : FieldDecl) (target : EntityDecl α) : Prop where
  not_mem : f.typeName ∉ scalarTypes
  mem : target ∈ decls.entities
  name_eq : target.name = f.typeName

/-- Names along which one gets from the rows of an entity to a field. -/
inductive Walks : EntityDecl α → List String → Prop
  | last {e : EntityDecl α} {f : FieldDecl} (hf : f ∈ e.fields) : Walks e [f.name]
  | step {e next : EntityDecl α} {f : FieldDecl} {names : List String} (hf : f ∈ e.fields)
      (htarget : decls.LeadsTo f next) (hnames : Walks next names) : Walks e (f.name :: names)

/-- A dotted text names a path on the rows of an entity. -/
def Resolves (e : EntityDecl α) (dotted : String) : Prop := decls.Walks e (Text.segments dotted)

/-- All paths of a clause can be resolved. -/
structure ResolvesClause (e : EntityDecl α) (clause : ClauseDecl) : Prop where
  predicates : ∀ p ∈ clause.predicates, decls.Resolves e p.1
  order : ∀ t ∈ clause.order, decls.Resolves e t.1

/-- An entity has room for rows, fields of different names and known types, and one identifier. -/
structure PlannableEntity (e : EntityDecl α) : Prop where
  maxRows_pos : 0 < e.maxRows
  nodup_fields : (e.fields.map FieldDecl.name).Nodup
  types : ∀ f ∈ e.fields, f.typeName ∈ scalarTypes ∨ ∃ t ∈ decls.entities, t.name = f.typeName
  identifierCount_eq : e.identifierCount = 1

/-- A relation reads pages of rows, through a field of the parent that leads to them, and so do all
relations below it. -/
inductive PlannableRelation : EntityDecl α → RelationDecl → Prop
  | intro {parent target : EntityDecl α} {f : FieldDecl} {r : RelationDecl}
      (pageSize_pos : 0 < r.pageSize) (hf : f ∈ parent.fields) (hname : f.name = r.field)
      (htarget : decls.LeadsTo f target) (hclause : decls.ResolvesClause target r.clause)
      (hrelations : ∀ s ∈ r.relations, PlannableRelation target s) : PlannableRelation parent r

/-- A selection reads pages of rows of a definition. -/
structure PlannableSelection (s : SelectionDecl) : Prop where
  pageSize_pos : 0 < s.pageSize
  exists_definition : ∃ d ∈ decls.definitions, d.name = s.definition ∧
    ∃ e ∈ decls.entities, e.name = d.entity ∧ ∀ r ∈ s.relations, decls.PlannableRelation e r

/-- Declarations that a model can be built from. -/
structure Plannable : Prop where
  nodup_entities : (decls.entities.map EntityDecl.name).Nodup
  entities : ∀ e ∈ decls.entities, decls.PlannableEntity e
  statistics : ∀ e ∈ decls.entities, ∀ s ∈ e.statistics, ∀ path ∈ s.paths, decls.Resolves e path
  nodup_definitions : (decls.definitions.map DefinitionDecl.name).Nodup
  definitions : ∀ d ∈ decls.definitions, ∃ e ∈ decls.entities, e.name = d.entity ∧
    decls.ResolvesClause e d.clause
  selections : ∀ q ∈ decls.queries, ∀ s ∈ q.selections, decls.PlannableSelection s
  mutations : ∀ mu ∈ decls.mutations, ∃ e ∈ decls.entities, e.name = mu.entity ∧
    ∀ clause ∈ mu.filter, decls.ResolvesClause e clause

/-! ### Faults -/

/-- The faults of a walk: the first name that cannot be followed. -/
def walkFaults (e : EntityDecl α) : List String → List SchemaError
  | [] => [.emptyPath e.name]
  | [name] =>
    match e.field? name with
    | none => [.unknownField e.name name]
    | some _ => []
  | name :: next :: rest =>
    match e.field? name with
    | none => [.unknownField e.name name]
    | some f =>
      match decls.target? f with
      | none => [.notRelationship e.name name]
      | some target => walkFaults target (next :: rest)

/-- The faults of a path. -/
def pathFaults (e : EntityDecl α) (dotted : String) : List SchemaError :=
  decls.walkFaults e (Text.segments dotted)

/-- The faults of the paths of the predicates, then those of the order. -/
def clauseFaults (e : EntityDecl α) (clause : ClauseDecl) : List SchemaError :=
  clause.predicates.flatMap (fun p => decls.pathFaults e p.1) ++
    clause.order.flatMap fun t => decls.pathFaults e t.1

/-- The faults of clauses on the rows of a named entity. -/
def rootedFaults (entity : String) (clauses : List ClauseDecl) : List SchemaError :=
  match decls.entity? entity with
  | none => [.unknownEntity entity]
  | some e => clauses.flatMap (decls.clauseFaults e)

/-- The faults of an entity: its rows, its fields one after the other, and its identifier. -/
def entityFaults (e : EntityDecl α) : List SchemaError :=
  require (0 < e.maxRows) (.noRows e.name) ++
    namedFaults
      (fun f => require (f.typeName ∈ scalarTypes ∨ f.typeName ∈ decls.entities.map EntityDecl.name)
        (.unresolvedType e.name f.name f.typeName))
      FieldDecl.name (fun f => .duplicateField e.name f.name) [] e.fields ++
    require (e.identifierCount = 1) (.identifierCount e.name e.identifierCount)

/-- The faults of the statistics of an entity. -/
def statisticFaults (e : EntityDecl α) : List SchemaError :=
  e.statistics.flatMap fun s => s.paths.flatMap (decls.pathFaults e)

mutual

/-- The faults of a relation on the rows of `parent`, then those of the relations below it;
`selection` names the way to it. -/
def relationFaults (query selection : String) (parent : EntityDecl α) :
    RelationDecl → List SchemaError
  | ⟨field, clause, pageSize, relations⟩ =>
    let nested := selection ++ "." ++ field
    require (0 < pageSize) (.emptyPage query nested) ++
      match parent.field? field with
      | none => [.unknownField parent.name field]
      | some f =>
        match decls.target? f with
        | none => [.notRelationship parent.name field]
        | some target =>
          decls.clauseFaults target clause ++ relationsFaults query nested target relations

/-- The faults of several relations, one after the other. -/
def relationsFaults (query selection : String) (parent : EntityDecl α) :
    List RelationDecl → List SchemaError
  | [] => []
  | r :: rest =>
    relationFaults query selection parent r ++ relationsFaults query selection parent rest

end

/-- The faults of a selection. -/
def selectionFaults (query : String) (s : SelectionDecl) : List SchemaError :=
  match decls.definition? s.definition with
  | none => [.unknownDefinition s.definition]
  | some d =>
    require (0 < s.pageSize) (.emptyPage query s.definition) ++
      match decls.entity? d.entity with
      | none => []
      | some e => decls.relationsFaults query s.definition e s.relations

/-- The faults of declarations, in the order in which they are reported. -/
def faults : List SchemaError :=
  namedFaults (fun _ => []) EntityDecl.name (fun e => .duplicateEntity e.name) [] decls.entities ++
    decls.entities.flatMap decls.entityFaults ++
    decls.entities.flatMap decls.statisticFaults ++
    namedFaults (fun d => decls.rootedFaults d.entity [d.clause]) DefinitionDecl.name
      (fun d => .duplicateDefinition d.name) [] decls.definitions ++
    decls.queries.flatMap (fun q => q.selections.flatMap (decls.selectionFaults q.name)) ++
    decls.mutations.flatMap fun mu => decls.rootedFaults mu.entity mu.filter.toList

/-- Entities have different names, and so have the fields of each. -/
structure DistinctNames : Prop where
  entities : (decls.entities.map EntityDecl.name).Nodup
  fields : ∀ e ∈ decls.entities, (e.fields.map FieldDecl.name).Nodup

end Declarations

/-! ### Look-ups by name -/

/-- Without duplicates a name is found exactly where it is declared. -/
theorem find?_eq_some_iff_of_nodup {name : β → String} {bs : List β} (h : (bs.map name).Nodup)
    {n : String} {b : β} : bs.find? (fun b => name b == n) = some b ↔ b ∈ bs ∧ name b = n := by
  constructor
  · intro hfind
    have hname := List.find?_some (p := fun b => name b == n) hfind
    exact ⟨List.mem_of_find?_eq_some hfind, by simpa using hname⟩
  · rintro ⟨hb, rfl⟩
    cases hfind : bs.find? fun c => name c == name b with
    | none => exact absurd (List.find?_eq_none.mp hfind b hb) (by simp)
    | some c =>
      have hname := List.find?_some (p := fun c => name c == name b) hfind
      rw [List.inj_on_of_nodup_map h (List.mem_of_find?_eq_some hfind) hb (by simpa using hname)]

theorem EntityDecl.field?_eq_some_iff {e : EntityDecl α} (h : (e.fields.map FieldDecl.name).Nodup)
    {name : String} {f : FieldDecl} : e.field? name = some f ↔ f ∈ e.fields ∧ f.name = name :=
  find?_eq_some_iff_of_nodup h

namespace Declarations

variable {decls : Declarations α}

theorem entity?_eq_some_iff (h : (decls.entities.map EntityDecl.name).Nodup) {name : String}
    {e : EntityDecl α} : decls.entity? name = some e ↔ e ∈ decls.entities ∧ e.name = name :=
  find?_eq_some_iff_of_nodup h

theorem definition?_eq_some_iff (h : (decls.definitions.map DefinitionDecl.name).Nodup)
    {name : String} {d : DefinitionDecl} :
    decls.definition? name = some d ↔ d ∈ decls.definitions ∧ d.name = name :=
  find?_eq_some_iff_of_nodup h

theorem target?_eq_some_iff (h : (decls.entities.map EntityDecl.name).Nodup) {f : FieldDecl}
    {target : EntityDecl α} : decls.target? f = some target ↔ decls.LeadsTo f target := by
  rw [target?]
  split_ifs with hscalar
  · exact iff_of_false (by simp) fun h => h.not_mem hscalar
  · rw [entity?_eq_some_iff h]
    exact ⟨fun ⟨hmem, hname⟩ => ⟨hscalar, hmem, hname⟩, fun h => ⟨h.mem, h.name_eq⟩⟩

/-! ### No faults -/

theorem not_walks_nil {e : EntityDecl α} : ¬ decls.Walks e [] := fun h => by cases h

theorem walks_cons_iff {e : EntityDecl α} {name : String} {names : List String} :
    decls.Walks e (name :: names) ↔ ∃ f ∈ e.fields, f.name = name ∧
      (names = [] ∨ ∃ next, decls.LeadsTo f next ∧ decls.Walks next names) := by
  constructor
  · rintro (⟨hf⟩ | ⟨hf, htarget, hnames⟩)
    · exact ⟨_, hf, rfl, .inl rfl⟩
    · exact ⟨_, hf, rfl, .inr ⟨_, htarget, hnames⟩⟩
  · rintro ⟨f, hf, rfl, rfl | ⟨next, htarget, hnames⟩⟩
    · exact .last hf
    · exact .step hf htarget hnames

theorem plannableRelation_iff {parent : EntityDecl α} {r : RelationDecl} :
    decls.PlannableRelation parent r ↔ 0 < r.pageSize ∧
      ∃ f ∈ parent.fields, f.name = r.field ∧ ∃ target, decls.LeadsTo f target ∧
        decls.ResolvesClause target r.clause ∧
        ∀ s ∈ r.relations, decls.PlannableRelation target s := by
  constructor
  · rintro ⟨pageSize_pos, hf, hname, htarget, hclause, hrelations⟩
    exact ⟨pageSize_pos, _, hf, hname, _, htarget, hclause, hrelations⟩
  · rintro ⟨pageSize_pos, f, hf, hname, target, htarget, hclause, hrelations⟩
    exact .intro pageSize_pos hf hname htarget hclause hrelations

section DistinctNames

variable (h : decls.DistinctNames)
include h

/-- What holds of the field of a name holds of the field that is found by it. -/
theorem exists_field_iff {e : EntityDecl α} (he : e ∈ decls.entities) {name : String}
    {P : FieldDecl → Prop} :
    (∃ f ∈ e.fields, f.name = name ∧ P f) ↔ ∃ f, e.field? name = some f ∧ P f := by
  simp only [EntityDecl.field?_eq_some_iff (h.fields e he), and_assoc]

theorem exists_entity_iff {name : String} {P : EntityDecl α → Prop} :
    (∃ e ∈ decls.entities, e.name = name ∧ P e) ↔ ∃ e, decls.entity? name = some e ∧ P e := by
  simp only [entity?_eq_some_iff h.entities, and_assoc]

theorem exists_target_iff {f : FieldDecl} {P : EntityDecl α → Prop} :
    (∃ t, decls.LeadsTo f t ∧ P t) ↔ ∃ t, decls.target? f = some t ∧ P t := by
  simp only [target?_eq_some_iff h.entities]

theorem walkFaults_eq_nil_iff {names : List String} {e : EntityDecl α} (he : e ∈ decls.entities) :
    decls.walkFaults e names = [] ↔ decls.Walks e names := by
  induction names generalizing e with
  | nil => exact iff_of_false (by simp [walkFaults]) not_walks_nil
  | cons name rest ih =>
    rw [walks_cons_iff, exists_field_iff h he]
    cases rest with
    | nil =>
      rw [walkFaults]
      cases e.field? name with
      | none => simp
      | some f => simp
    | cons next rest =>
      rw [walkFaults]
      cases e.field? name with
      | none => simp
      | some f =>
        simp only [Option.some.injEq, exists_eq_left', List.cons_ne_nil, false_or]
        rw [exists_target_iff h]
        cases htarget : decls.target? f with
        | none => simp
        | some target =>
          have hmem := ((target?_eq_some_iff h.entities).mp htarget).mem
          simpa using ih hmem

theorem clauseFaults_eq_nil_iff {clause : ClauseDecl} {e : EntityDecl α}
    (he : e ∈ decls.entities) :
    decls.clauseFaults e clause = [] ↔ decls.ResolvesClause e clause := by
  rw [clauseFaults, List.append_eq_nil_iff, List.flatMap_eq_nil_iff, List.flatMap_eq_nil_iff]
  simp only [pathFaults, walkFaults_eq_nil_iff h he]
  exact ⟨fun ⟨hpredicates, horder⟩ => ⟨hpredicates, horder⟩, fun h => ⟨h.predicates, h.order⟩⟩

theorem rootedFaults_eq_nil_iff {entity : String} {clauses : List ClauseDecl} :
    decls.rootedFaults entity clauses = [] ↔
      ∃ e ∈ decls.entities, e.name = entity ∧
        ∀ clause ∈ clauses, decls.ResolvesClause e clause := by
  rw [exists_entity_iff h, rootedFaults]
  cases hentity : decls.entity? entity with
  | none => simp
  | some e =>
    have he := ((entity?_eq_some_iff h.entities).mp hentity).1
    simp [clauseFaults_eq_nil_iff h he]

end DistinctNames

mutual

theorem relationFaults_eq_nil_iff (h : decls.DistinctNames) {query selection : String}
    {parent : EntityDecl α} (hparent : parent ∈ decls.entities) (r : RelationDecl) :
    decls.relationFaults query selection parent r = [] ↔ decls.PlannableRelation parent r := by
  match r with
  | ⟨field, clause, pageSize, relations⟩ =>
    rw [relationFaults, List.append_eq_nil_iff, require_eq_nil_iff, plannableRelation_iff,
      exists_field_iff h hparent]
    refine and_congr_right fun _ => ?_
    cases parent.field? field with
    | none => simp
    | some f =>
      simp only [Option.some.injEq, exists_eq_left']
      rw [exists_target_iff h]
      cases htarget : decls.target? f with
      | none => simp
      | some target =>
        have hmem := ((target?_eq_some_iff h.entities).mp htarget).mem
        simp only [Option.some.injEq, exists_eq_left', List.append_eq_nil_iff,
          clauseFaults_eq_nil_iff h hmem, relationsFaults_eq_nil_iff h hmem relations]

theorem relationsFaults_eq_nil_iff (h : decls.DistinctNames) {query selection : String}
    {parent : EntityDecl α} (hparent : parent ∈ decls.entities) (rs : List RelationDecl) :
    decls.relationsFaults query selection parent rs = [] ↔
      ∀ r ∈ rs, decls.PlannableRelation parent r := by
  match rs with
  | [] => simp [relationsFaults]
  | r :: rest =>
    rw [relationsFaults, List.append_eq_nil_iff, List.forall_mem_cons,
      relationFaults_eq_nil_iff h hparent r, relationsFaults_eq_nil_iff h hparent rest]

end

theorem selectionFaults_eq_nil_iff (h : decls.DistinctNames)
    (hdefinitions : (decls.definitions.map DefinitionDecl.name).Nodup)
    (hrooted : ∀ d ∈ decls.definitions, ∃ e, decls.entity? d.entity = some e) {query : String}
    {s : SelectionDecl} :
    decls.selectionFaults query s = [] ↔ decls.PlannableSelection s := by
  have hiff : decls.PlannableSelection s ↔ ∃ d, decls.definition? s.definition = some d ∧
      0 < s.pageSize ∧ ∃ e, decls.entity? d.entity = some e ∧
        ∀ r ∈ s.relations, decls.PlannableRelation e r := by
    simp only [definition?_eq_some_iff hdefinitions, and_assoc]
    constructor
    · rintro ⟨hpage, d, hd, hname, hrelations⟩
      exact ⟨d, hd, hname, hpage, (exists_entity_iff h).mp hrelations⟩
    · rintro ⟨d, hd, hname, hpage, hrelations⟩
      exact ⟨hpage, d, hd, hname, (exists_entity_iff h).mpr hrelations⟩
  rw [hiff, selectionFaults]
  cases hdefinition : decls.definition? s.definition with
  | none => simp
  | some d =>
    obtain ⟨e, he⟩ := hrooted d ((definition?_eq_some_iff hdefinitions).mp hdefinition).1
    have hmem := ((entity?_eq_some_iff h.entities).mp he).1
    simp only [Option.some.injEq, exists_eq_left', he, List.append_eq_nil_iff, require_eq_nil_iff,
      relationsFaults_eq_nil_iff h hmem]

theorem entityFaults_eq_nil_iff {e : EntityDecl α} :
    decls.entityFaults e = [] ↔ decls.PlannableEntity e := by
  rw [entityFaults, List.append_eq_nil_iff, List.append_eq_nil_iff, require_eq_nil_iff,
    require_eq_nil_iff, namedFaults_eq_nil_iff]
  simp only [require_eq_nil_iff, List.mem_map]
  constructor
  · rintro ⟨⟨hrows, htypes, hnames, -⟩, hcount⟩
    exact ⟨hrows, hnames, htypes, hcount⟩
  · rintro ⟨hrows, hnames, htypes, hcount⟩
    exact ⟨⟨hrows, htypes, hnames, by simp⟩, hcount⟩

/-- **Declarations without faults are those that a model can be built from.** -/
theorem faults_eq_nil_iff : decls.faults = [] ↔ decls.Plannable := by
  rw [faults]
  simp only [List.append_eq_nil_iff, List.flatMap_eq_nil_iff, namedFaults_eq_nil_iff,
    entityFaults_eq_nil_iff, statisticFaults]
  constructor
  · rintro ⟨⟨⟨⟨⟨⟨-, hnames, -⟩, hentities⟩, hstatistics⟩, hdefinitions, hdistinct, -⟩, hqueries⟩,
      hmutations⟩
    have h : decls.DistinctNames := ⟨hnames, fun e he => (hentities e he).nodup_fields⟩
    have hrooted := fun d hd => (rootedFaults_eq_nil_iff h).mp (hdefinitions d hd)
    refine ⟨hnames, hentities, fun e he s hs path hpath => ?_, hdistinct, fun d hd => ?_,
      fun q hq s hs => ?_, fun mu hmu => ?_⟩
    · exact (walkFaults_eq_nil_iff h he).mp (hstatistics e he s hs path hpath)
    · simpa using hrooted d hd
    · refine (selectionFaults_eq_nil_iff h hdistinct (fun d hd => ?_)).mp (hqueries q hq s hs)
      obtain ⟨e, he, -⟩ := (exists_entity_iff h).mp (hrooted d hd)
      exact ⟨e, he⟩
    · simpa using (rootedFaults_eq_nil_iff h).mp (hmutations mu hmu)
  · rintro ⟨hnames, hentities, hstatistics, hdistinct, hdefinitions, hselections, hmutations⟩
    have h : decls.DistinctNames := ⟨hnames, fun e he => (hentities e he).nodup_fields⟩
    refine ⟨⟨⟨⟨⟨⟨by simp, hnames, by simp⟩, hentities⟩, fun e he s hs path hpath => ?_⟩,
      fun d hd => ?_, hdistinct, by simp⟩, fun q hq s hs => ?_⟩, fun mu hmu => ?_⟩
    · exact (walkFaults_eq_nil_iff h he).mpr (hstatistics e he s hs path hpath)
    · exact (rootedFaults_eq_nil_iff h).mpr (by simpa using hdefinitions d hd)
    · refine (selectionFaults_eq_nil_iff h hdistinct (fun d hd => ?_)).mpr (hselections q hq s hs)
      obtain ⟨e, he, -⟩ := (exists_entity_iff h).mp (hdefinitions d hd)
      exact ⟨e, he⟩
    · exact (rootedFaults_eq_nil_iff h).mpr (by simpa using hmutations mu hmu)

end Declarations

end Keyspace
