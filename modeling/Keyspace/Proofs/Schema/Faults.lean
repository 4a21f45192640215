import Keyspace.Proofs.Schema.Represents

/-!
# Which declarations are rejected, and how

Against a catalog that represents the declarations, everything else is resolved as far as there are
no faults, and fails with the first one: a path (`failure?_resolve`), a clause
(`failure?_resolveClause`), a relation with those below it (`failure?_resolveRelation`).  Stage by
stage this gives `Declarations.failure?_build`, and with it `Declarations.build_checked`: a model is
built exactly from plannable declarations, and otherwise the first fault is reported.
-/

namespace Keyspace

variable {α : Type} {decls : Declarations α} {c : Catalog}

section Catalog

variable (hc : c.Represents decls) {id : EntityId} {e : EntityDecl α}
include hc

/-! ### Paths and clauses -/

theorem failure?_walk {names : List String} (hne : names ≠ []) (he : decls.StandsAt id e) :
    failure? (c.walk (c.entity id) names) = (decls.walkFaults e names).head? := by
  induction names generalizing id e with
  | nil => exact absurd rfl hne
  | cons name rest ih =>
    have hname := hc.name_eq he
    have hfield := hc.field? he name
    revert hfield
    cases rest with
    | nil =>
      -- the last name may be that of any field, the others have to lead on
      rw [Catalog.walk, Declarations.walkFaults, hname]
      generalize (c.entity id).field? name = f?, e.field? name = d?
      rintro (_ | _) <;> rfl
    | cons next rest =>
      rw [Catalog.walk, Declarations.walkFaults, hname]
      · generalize (c.entity id).field? name = f?, e.field? name = d?
        rintro (@⟨f, d, rfl, htarget⟩ | _)
        · dsimp only
          revert htarget
          generalize f.target = i?, decls.target? d = t?
          rintro (ht | _)
          · rw [failure?_map]
            exact ih (by simp) ht
          · rfl
        · rfl
      · simp

theorem failure?_resolve (he : decls.StandsAt id e) (dotted : String) :
    failure? (c.resolve id dotted) = (decls.pathFaults e dotted).head? := by
  rw [Catalog.resolve, Declarations.pathFaults]
  cases hsegments : Text.segments dotted with
  | nil =>
    rw [Declarations.walkFaults, hc.name_eq he]
    rfl
  | cons name rest =>
    dsimp only
    rw [failure?_map, failure?_walk hc (by simp) he]

theorem failure?_resolveClause (he : decls.StandsAt id e) (clause : ClauseDecl) :
    failure? (resolveClause c id clause) = (decls.clauseFaults e clause).head? := by
  rw [Declarations.clauseFaults, List.head?_append]
  refine (failure?_bind fun _ => failure?_bind_ok _ _).trans (congrArg₂ Option.or ?_ ?_)
  · exact failure?_mapM_eq fun p _ => (failure?_map _ _).trans (failure?_resolve hc he p.1)
  · exact failure?_mapM_eq fun t _ => (failure?_map _ _).trans (failure?_resolve hc he t.1)

theorem failure?_resolveStatistics (he : decls.StandsAt id e) :
    failure? (resolveStatistics c id e) = (decls.statisticFaults e).head? := by
  rw [resolveStatistics, failure?_map]
  refine failure?_mapM_eq fun s _ => ?_
  rw [resolveStatistic, failure?_map]
  exact failure?_mapM_eq fun path _ => failure?_resolve hc he path

/-! ### Definitions and mutations -/

theorem standsAt_of_resolveEntity {name : String} (h : resolveEntity c name = .ok id) :
    ∃ e, decls.entity? name = some e ∧ decls.StandsAt id e := by
  have hfind := hc.find? name
  rw [resolveEntity] at h
  revert hfind h
  generalize c.find? name = i?, decls.entity? name = e?
  rintro h (he | _)
  · obtain rfl := Except.ok.inj h
    exact ⟨_, rfl, he⟩
  · exact absurd h (by simp)

/-- Whatever starts with the look-up of an entity and goes on with clauses on its rows fails with
the first fault of these. -/
theorem failure?_rooted {β : Type} {name : String} {clauses : List ClauseDecl}
    {f : EntityId → Except SchemaError β} {error? : Option SchemaError}
    (h : ∀ id e, decls.StandsAt id e →
      failure? (f id) = (clauses.flatMap (decls.clauseFaults e)).head?.or error?) :
    failure? (resolveEntity c name >>= f)
      = (decls.rootedFaults name clauses).head?.or error? := by
  have hfind := hc.find? name
  rw [resolveEntity, Declarations.rootedFaults]
  revert hfind
  generalize c.find? name = i?, decls.entity? name = e?
  rintro (he | _)
  · exact h _ _ he
  · rfl

variable (decls) in
/-- The definitions stand for the declarations read so far, rooted where these say. -/
def HoldsDefinitions (earlier : List DefinitionDecl) (definitions : List Definition) : Prop :=
  List.Forall₂ (fun d definition => definition.name = d.name ∧
    ∃ e, decls.entity? d.entity = some e ∧ decls.StandsAt definition.clause.root e)
    earlier definitions

omit hc in
theorem HoldsDefinitions.names_eq {earlier : List DefinitionDecl} {definitions : List Definition}
    (h : HoldsDefinitions decls earlier definitions) :
    definitions.map Definition.name = earlier.map DefinitionDecl.name := by
  rw [eq_comm, ← List.forall₂_eq_eq_eq, List.forall₂_map_left_iff, List.forall₂_map_right_iff]
  exact h.imp fun _ _ h => h.1.symm

theorem failure?_addDefinition {earlier : List DefinitionDecl} {definitions : List Definition}
    (h : HoldsDefinitions decls earlier definitions) (d : DefinitionDecl) :
    failure? (addDefinition c definitions d)
      = (decls.rootedFaults d.entity [d.clause] ++
          require (d.name ∉ earlier.map DefinitionDecl.name)
            (.duplicateDefinition d.name)).head? := by
  rw [addDefinition, List.head?_append]
  refine failure?_rooted hc fun id e he => ?_
  rw [List.flatMap_singleton, ← failure?_resolveClause hc he]
  refine failure?_bind fun clause => failure?_ite ?_
  simp [← h.names_eq]

theorem HoldsDefinitions.concat {earlier : List DefinitionDecl} {d : DefinitionDecl}
    {definitions definitions' : List Definition} (h : HoldsDefinitions decls earlier definitions)
    (hadd : addDefinition c definitions d = .ok definitions') :
    HoldsDefinitions decls (earlier ++ [d]) definitions' := by
  obtain ⟨root, hroot, hadd⟩ := bind_eq_ok_iff.mp hadd
  obtain ⟨clause, hclause, hadd⟩ := bind_eq_ok_iff.mp hadd
  split_ifs at hadd
  obtain rfl := Except.ok.inj hadd
  obtain ⟨e, hfind, he⟩ := standsAt_of_resolveEntity hc hroot
  exact List.rel_append h (.cons ⟨rfl, e, hfind, root_of_resolveClause hclause ▸ he⟩ .nil)

theorem failure?_resolveMutation (mu : MutationDecl) :
    failure? (resolveMutation c mu) = (decls.rootedFaults mu.entity mu.filter.toList).head? := by
  rw [resolveMutation, ← Option.or_none (o := (decls.rootedFaults _ _).head?)]
  refine failure?_rooted hc fun id e he => ?_
  rw [Option.or_none]
  cases mu.filter with
  | none => rfl
  | some clause =>
    rw [Option.toList_some, List.flatMap_singleton, ← failure?_resolveClause hc he]
    exact (failure?_bind_ok _ _).trans (failure?_map _ _)

/-! ### Relations and selections -/

omit hc in
theorem failure?_checkPage (query selection : String) (pageSize : ℕ) :
    failure? (checkPage query selection pageSize)
      = (require (0 < pageSize) (.emptyPage query selection)).head? :=
  failure?_ite (by omega)

end Catalog

mutual

theorem failure?_resolveRelation (hc : c.Represents decls) {query selection : String}
    {parent : EntityId} {e : EntityDecl α} (he : decls.StandsAt parent e) (r : RelationDecl) :
    failure? (resolveRelation c query selection parent r)
      = (decls.relationFaults query selection e r).head? := by
  match r with
  | ⟨field, clause, pageSize, relations⟩ =>
    rw [resolveRelation, Declarations.relationFaults, List.head?_append, ← failure?_checkPage]
    refine failure?_bind fun _ => ?_
    have hname := hc.name_eq he
    have hfield := hc.field? he field
    revert hfield
    rw [relationTarget, hname]
    generalize (c.entity parent).field? field = f?, e.field? field = d?
    rintro (@⟨f, d, hfd⟩ | _)
    · have htarget := hfd.2
      revert htarget
      dsimp only
      generalize f.target = i?, decls.target? d = t?
      rintro (ht | _)
      · rw [List.head?_append, ← failure?_resolveClause hc ht clause,
          ← failure?_resolveRelations hc ht relations]
        show failure? (resolveClause c _ clause >>= fun _ => _) = _
        exact failure?_bind fun _ => failure?_bind_ok _ _
      · rfl
    · rfl

theorem failure?_resolveRelations (hc : c.Represents decls) {query selection : String}
    {parent : EntityId} {e : EntityDecl α} (he : decls.StandsAt parent e)
    (rs : List RelationDecl) :
    failure? (resolveRelations c query selection parent rs)
      = (decls.relationsFaults query selection e rs).head? := by
  match rs with
  | [] => rw [resolveRelations, Declarations.relationsFaults]; rfl
  | r :: rest =>
    rw [resolveRelations, Declarations.relationsFaults, List.head?_append,
      ← failure?_resolveRelation hc he r, ← failure?_resolveRelations hc he rest]
    exact failure?_bind fun _ => failure?_bind_ok _ _

end

/-- A definition is found in the list where it is declared. -/
theorem HoldsDefinitions.rel {definitions : List Definition}
    (h : HoldsDefinitions decls decls.definitions definitions) (name : String) :
    Option.Rel (fun i d => ∃ e, decls.entity? d.entity = some e ∧
        decls.StandsAt (definitions.getD i default).clause.root e)
      (definitions.findIdx? fun d => d.name == name) (decls.definition? name) := by
  have hfind := rel_findIdx?_find? (fun d => d.name == name) decls.definitions
  have hsame : (definitions.findIdx? fun d => d.name == name)
      = decls.definitions.findIdx? fun d => d.name == name := by
    have hnames := congrArg (List.findIdx? (· == name)) h.names_eq
    rwa [List.findIdx?_map, List.findIdx?_map] at hnames
  rw [hsame, Declarations.definition?]
  revert hfind
  generalize (decls.definitions.findIdx? fun d => d.name == name) = i?,
    (decls.definitions.find? fun d => d.name == name) = d?
  rintro (hd | _)
  · obtain ⟨definition, hget, -, hroot⟩ := exists_getElem?_of_forall₂ h hd
    rw [← Option.getD_some (a := definition) (b := default), ← hget,
      ← List.getD_eq_getElem?_getD] at hroot
    exact .some hroot
  · exact .none

theorem failure?_resolveSelection (hc : c.Represents decls) {definitions : List Definition}
    (h : HoldsDefinitions decls decls.definitions definitions) (query : String)
    (s : SelectionDecl) :
    failure? (resolveSelection c definitions query s)
      = (decls.selectionFaults query s).head? := by
  have hfind := h.rel s.definition
  rw [resolveSelection, Declarations.selectionFaults]
  revert hfind
  generalize (definitions.findIdx? fun d => d.name == s.definition) = i?,
    decls.definition? s.definition = d?
  rintro (⟨e, hentity, he⟩ | _)
  · dsimp only
    rw [hentity, List.head?_append, ← failure?_checkPage,
      ← failure?_resolveRelations hc he s.relations]
    exact failure?_bind fun _ => failure?_bind_ok _ _
  · rfl

theorem failure?_resolveQuery (hc : c.Represents decls) {definitions : List Definition}
    (h : HoldsDefinitions decls decls.definitions definitions) (q : QueryDecl) :
    failure? (resolveQuery c definitions q)
      = (q.selections.flatMap (decls.selectionFaults q.name)).head? := by
  rw [resolveQuery, failure?_map]
  exact failure?_mapM_eq fun s _ => failure?_resolveSelection hc h q.name s

/-! ### All declarations -/

theorem failure?_statistics (hc : c.Represents decls) :
    failure? (decls.entities.zipIdx.mapM fun (decl, id) => resolveStatistics c id decl)
      = (decls.entities.flatMap decls.statisticFaults).head? := by
  have hentities : decls.entities.flatMap decls.statisticFaults
      = decls.entities.zipIdx.flatMap fun p => decls.statisticFaults p.1 := by
    rw [← List.flatMap_map Prod.fst, List.zipIdx_map_fst]
  rw [hentities]
  exact failure?_mapM_eq fun p hp =>
    failure?_resolveStatistics hc (List.mem_zipIdx_iff_getElem?.mp hp)

theorem failure?_definitions (hc : c.Represents decls) :
    failure? (decls.definitions.foldlM (addDefinition c) [])
      = (namedFaults (fun d => decls.rootedFaults d.entity [d.clause]) DefinitionDecl.name
          (fun d => .duplicateDefinition d.name) [] decls.definitions).head? :=
  failure?_foldlM (R := HoldsDefinitions decls)
    (fun _ _ d h => failure?_addDefinition hc h d) (fun _ _ _ _ => HoldsDefinitions.concat hc) .nil

theorem holdsDefinitions_of_foldlM (hc : c.Represents decls) {definitions : List Definition}
    (h : decls.definitions.foldlM (addDefinition c) [] = .ok definitions) :
    HoldsDefinitions decls decls.definitions definitions :=
  rel_of_foldlM (R := HoldsDefinitions decls) (fun _ _ _ _ => HoldsDefinitions.concat hc) .nil h

/-- **Declarations are rejected with the first of their faults.** -/
theorem Declarations.failure?_build (decls : Declarations α) :
    failure? decls.build = decls.faults.head? := by
  rw [faults, List.append_assoc, List.head?_append, List.head?_append, List.head?_append,
    ← failure?_buildCatalog, Option.or_assoc, Option.or_assoc]
  refine failure?_bind_of_eq_ok fun c hbuild => ?_
  have hc := represents_of_buildCatalog hbuild
  rw [← failure?_statistics hc, ← failure?_definitions hc]
  refine failure?_bind fun statistics => failure?_bind_of_eq_ok fun definitions hdefinitions => ?_
  have h := holdsDefinitions_of_foldlM hc hdefinitions
  rw [List.head?_append, ← failure?_mapM_eq fun q _ => failure?_resolveQuery hc h q,
    ← failure?_mapM_eq fun mu _ => failure?_resolveMutation hc mu]
  exact failure?_bind fun _ => failure?_bind_ok _ _

/-- **A model is built exactly from plannable declarations**, and others are rejected with the first
of their faults. -/
theorem Declarations.build_checked (decls : Declarations α) :
    ((∃ m, decls.build = .ok m) ↔ decls.Plannable) ∧
      ∀ e, decls.build = .error e ↔ decls.faults.head? = some e := by
  constructor
  · rw [← failure?_eq_none_iff, decls.failure?_build, List.head?_eq_none_iff,
      Declarations.faults_eq_nil_iff]
  · intro e
    rw [← failure?_eq_some_iff, decls.failure?_build]

/-- Of several faults, here of an entity and of a query, the first one is reported. -/
example :
    let decls : Declarations Unit :=
      { entities := [⟨"Todo", 0, [{ name := "id", typeName := "Id" }], []⟩]
        queries := [{ name := "all", selections := [⟨"todos", 10, []⟩] }] }
    decls.faults = [.noRows "Todo", .unresolvedType "Todo" "id" "Id", .identifierCount "Todo" 0,
        .unknownDefinition "todos"] ∧
      decls.build = .error (.noRows "Todo") :=
  ⟨rfl, rfl⟩

end Keyspace
