import Keyspace.Proofs.Candidate.Clustering
import Keyspace.Proofs.Schema.Build
import Keyspace.Scalar.Exact

/-!
# Which clustering keys an entity has

The order of a clause requests its prefixes, the empty one apart, as long as all terms of a prefix
may be part of a key (`Model.RequestsPart`).  The clauses that count are those in use, at whatever
depth of a query (`Model.UsesClause`).  A clustering key is a requested part with the identifier
after it, or a requested part as it is if the identifier occurs in it anywhere, in whatever
direction (`ClosesTo`).

`Model.clusteringKeys_spec` says that these are the clustering keys of an entity, each of them once
and in their order.  As nothing is said about where a clause is used, the clustering keys stay the
same if queries, selections and relations at any depth change places (`Model.Rearranges`).
-/

namespace Keyspace

/-! ### Clauses in use -/

/-- A relation uses its own clause and those of the relations below it. -/
inductive Relation.Uses : Relation → Clause → Prop
  | own {r : Relation} : r.Uses r.clause
  | nested {r r' : Relation} {c : Clause} (hr' : r' ∈ r.relations) (h : r'.Uses c) : r.Uses c

theorem Relation.uses_iff {r : Relation} {c : Clause} :
    r.Uses c ↔ c = r.clause ∨ ∃ r' ∈ r.relations, r'.Uses c := by
  constructor
  · rintro (_ | ⟨hr', h⟩)
    · exact .inl rfl
    · exact .inr ⟨_, hr', h⟩
  · rintro (rfl | ⟨r', hr', h⟩)
    · exact .own
    · exact .nested hr' h

mutual

theorem Relation.exists_level_iff (query : QueryId) (parent : String) {c : Clause}
    (relation : Relation) :
    (∃ l ∈ relation.levels query parent, l.clause = c) ↔ relation.Uses c := by
  match relation with
  | ⟨field, clause, pageSize, relations⟩ =>
    rw [Relation.levels, List.exists_mem_cons_iff, Relation.exists_levelOf_iff query _ relations,
      Relation.uses_iff]
    exact or_congr_left eq_comm

theorem Relation.exists_levelOf_iff (query : QueryId) (parent : String) {c : Clause}
    (relations : List Relation) :
    (∃ l ∈ Relation.levelsOf query parent relations, l.clause = c) ↔
      ∃ r ∈ relations, r.Uses c := by
  match relations with
  | [] =>
    rw [Relation.levelsOf]
    simp
  | relation :: rest =>
    rw [Relation.levelsOf, List.exists_mem_cons_iff,
      ← Relation.exists_level_iff query parent relation,
      ← Relation.exists_levelOf_iff query parent rest]
    simp only [List.mem_append, or_and_right, exists_or]

end

/-! ### Requested parts -/

/-- Some term of an order walks along a path, in whatever direction the rows are sorted. -/
def Mentions (path : Path) (terms : List OrderTerm) : Prop :=
  ∃ t ∈ terms, t.path.walk = path.walk

/-- What an order becomes as a clustering key: it stays as it is if it mentions the identifier, and
else the identifier comes last. -/
inductive ClosesTo (identifier : OrderTerm) (part : List OrderTerm) : List OrderTerm → Prop
  | mentioned (h : Mentions identifier.path part) : ClosesTo identifier part part
  | added (h : ¬ Mentions identifier.path part) : ClosesTo identifier part (part ++ [identifier])

variable {identifier : OrderTerm} {part key : List OrderTerm}

theorem any_same_eq_true_iff :
    (part.any fun t => t.path.same identifier.path) = true ↔ Mentions identifier.path part := by
  simp only [List.any_eq_true, Path.same_eq_true_iff, Mentions]

theorem closesTo_iff : ClosesTo identifier part key ↔ key = closeWith identifier part := by
  rw [closeWith]
  split_ifs with hany
  · have hmentions := any_same_eq_true_iff.mp hany
    constructor
    · rintro (_ | hnot)
      · rfl
      · exact absurd hmentions hnot
    · rintro rfl
      exact .mentioned hmentions
  · have hnot := mt any_same_eq_true_iff.mpr hany
    constructor
    · rintro (hmentions | _)
      · exact absurd hmentions hnot
      · rfl
    · rintro rfl
      exact .added hnot

theorem ClosesTo.mentions (h : ClosesTo identifier part key) : Mentions identifier.path key := by
  cases h with
  | mentioned h => exact h
  | added => exact ⟨identifier, List.mem_append_right _ List.mem_cons_self, rfl⟩

theorem prefix_takeWhile_iff {β : Type} {p : β → Bool} {l bs : List β} :
    bs <+: l.takeWhile p ↔ bs <+: l ∧ ∀ b ∈ bs, p b = true := by
  constructor
  · intro h
    exact ⟨h.trans (List.takeWhile_prefix p), fun b hb => List.mem_takeWhile_imp (h.subset hb)⟩
  · rintro ⟨⟨rest, rfl⟩, hp⟩
    rw [List.takeWhile_append_of_pos hp]
    exact List.prefix_append _ _

theorem Clause.mem_clusteringKeys_iff {c : Clause} :
    key ∈ c.clusteringKeys identifier ↔ ∃ part, (part ≠ [] ∧ part <+: c.order ∧
      ∀ t ∈ part, t.path.sargable = true) ∧ ClosesTo identifier part key := by
  rw [Clause.clusteringKeys, List.mem_map]
  simp only [mem_leadingParts_iff, prefix_takeWhile_iff, closesTo_iff, eq_comm (a := key)]

namespace Model

variable {α : Type} (m : Model α) (id : EntityId)

/-- Some selection of a query uses a clause: that of the definition it selects, or that of a
relation at any depth below it. -/
def UsesClause (c : Clause) : Prop :=
  ∃ q ∈ m.queries, ∃ s ∈ q.selections,
    c = (m.definition s.definition).clause ∨ ∃ r ∈ s.relations, r.Uses c

/-- A part of an order that a clause in use requests for the rows of an entity.  It is not empty, it
starts where the order starts, and all its terms may be part of a key. -/
structure RequestsPart (part : List OrderTerm) : Prop where
  ne_nil : part ≠ []
  sargable : ∀ t ∈ part, t.path.sargable = true
  exists_clause : ∃ c, m.UsesClause c ∧ c.root = id ∧ part <+: c.order

/-- A list of clustering keys of an entity: those that requested parts become, or the identifier
alone if no part is requested. -/
structure ListsClusteringKeys (identifier : OrderTerm) (keys : List (List OrderTerm)) : Prop where
  pairwise : keys.Pairwise fun a b => compare a b = .lt
  nodup : keys.Nodup
  mem_iff : ∀ key, key ∈ keys ↔
    (∃ part, m.RequestsPart id part ∧ ClosesTo identifier part key) ∨
      (¬ ∃ part, m.RequestsPart id part) ∧ key = [identifier]
  mentions : ∀ key ∈ keys, Mentions identifier.path key

variable {m id}

/-- The clauses in use are those of the levels. -/
theorem exists_level_iff {c : Clause} : (∃ l ∈ m.levels, l.clause = c) ↔ m.UsesClause c := by
  have hselection : ∀ (k : QueryId) (name : String) (s : Selection),
      (∃ l ∈ s.levels k name (m.definition s.definition), l.clause = c) ↔
        c = (m.definition s.definition).clause ∨ ∃ r ∈ s.relations, r.Uses c := by
    intro k name s
    rw [Selection.levels, List.exists_mem_cons_iff, Relation.exists_levelOf_iff]
    exact or_congr_left eq_comm
  constructor
  · rintro ⟨l, hl, hclause⟩
    obtain ⟨k, q, hq, s, hs, hl⟩ := mem_levels_iff.mp hl
    exact ⟨q, List.mem_of_getElem? hq, s, hs, (hselection _ _ _).mp ⟨l, hl, hclause⟩⟩
  · rintro ⟨q, hq, s, hs, huses⟩
    obtain ⟨k, hk⟩ := List.mem_iff_getElem?.mp hq
    obtain ⟨l, hl, hclause⟩ := (hselection k q.name s).mpr huses
    exact ⟨l, mem_levels_iff.mpr ⟨k, q, hk, s, hs, hl⟩, hclause⟩

theorem mem_clausesRootedAt_iff {c : Clause} :
    c ∈ m.clausesRootedAt id ↔ m.UsesClause c ∧ c.root = id := by
  rw [clausesRootedAt, List.mem_filter, List.mem_map, exists_level_iff, beq_iff_eq]

/-- The keys drawn from the clauses of an entity are what requested parts become. -/
theorem mem_requestedKeys_iff : key ∈ m.requestedKeys id ↔
    ∃ part, m.RequestsPart id part ∧ ClosesTo (m.identifierTerm id) part key := by
  simp only [requestedKeys, List.mem_flatMap, mem_clausesRootedAt_iff,
    Clause.mem_clusteringKeys_iff]
  constructor
  · rintro ⟨c, ⟨huses, hroot⟩, part, ⟨hne, hprefix, hsargable⟩, hcloses⟩
    exact ⟨part, ⟨hne, hsargable, c, huses, hroot, hprefix⟩, hcloses⟩
  · rintro ⟨part, ⟨hne, hsargable, c, huses, hroot, hprefix⟩, hcloses⟩
    exact ⟨c, ⟨huses, hroot⟩, part, ⟨hne, hprefix, hsargable⟩, hcloses⟩

theorem requestsOrder_of_requestsPart {part : List OrderTerm} (h : m.RequestsPart id part) :
    m.RequestsOrder id := by
  obtain ⟨t, rest, rfl⟩ := List.exists_cons_of_ne_nil h.ne_nil
  obtain ⟨c, huses, hroot, horder⟩ := h.exists_clause
  refine ⟨c, mem_clausesRootedAt_iff.mpr ⟨huses, hroot⟩, t, ?_, h.sargable t List.mem_cons_self⟩
  obtain ⟨tail, htail⟩ := horder
  rw [← htail]
  rfl

/-- Without a requested part the identifier stands alone. -/
theorem clusteringKeys_of_requestedKeys_eq_nil (h : m.requestedKeys id = []) :
    m.clusteringKeys id = [[m.identifierTerm id]] := by
  show (if (SortedSet.ofList (m.requestedKeys id)).isEmpty then _ else _) = _
  rw [h]
  rfl

variable (m id) in
/-- The keys of an entity are listed as they should be, whatever the model is. -/
theorem listsClusteringKeys :
    m.ListsClusteringKeys id (m.identifierTerm id) (m.clusteringKeys id) := by
  have hmem : ∀ key, key ∈ m.clusteringKeys id ↔
      (∃ part, m.RequestsPart id part ∧ ClosesTo (m.identifierTerm id) part key) ∨
        (¬ ∃ part, m.RequestsPart id part) ∧ key = [m.identifierTerm id] := by
    intro key
    -- the identifier stands alone only where nothing is requested
    by_cases hpart : ∃ part, m.RequestsPart id part
    · obtain ⟨part, hrequests⟩ := hpart
      rw [mem_clusteringKeys_iff (requestsOrder_of_requestsPart hrequests), mem_requestedKeys_iff]
      exact (or_iff_left fun h => h.1 ⟨part, hrequests⟩).symm
    · have hnil : m.requestedKeys id = [] := by
        apply List.eq_nil_iff_forall_not_mem.mpr
        intro key' hkey'
        obtain ⟨part, hrequests, -⟩ := mem_requestedKeys_iff.mp hkey'
        exact hpart ⟨part, hrequests⟩
      rw [clusteringKeys_of_requestedKeys_eq_nil hnil, List.mem_singleton]
      constructor
      · exact fun hkey => .inr ⟨hpart, hkey⟩
      · rintro (⟨part, hrequests, -⟩ | ⟨-, hkey⟩)
        · exact absurd ⟨part, hrequests⟩ hpart
        · exact hkey
  have hpairwise : (m.clusteringKeys id).Pairwise fun a b => compare a b = .lt :=
    pairwise_clusteringKeys
  refine ⟨hpairwise, SortedSet.nodup_of_ascending hpairwise, hmem, fun key hkey => ?_⟩
  rcases (hmem key).mp hkey with ⟨part, -, hcloses⟩ | ⟨-, rfl⟩
  · exact hcloses.mentions
  · exact ⟨_, List.mem_cons_self, rfl⟩

/-- The order of the keys leaves no choice between two lists of them. -/
theorem ListsClusteringKeys.eq {m' : Model α} {keys keys' : List (List OrderTerm)}
    (h : m.ListsClusteringKeys id identifier keys)
    (h' : m'.ListsClusteringKeys id identifier keys')
    (hparts : ∀ part, m.RequestsPart id part ↔ m'.RequestsPart id part) : keys' = keys := by
  apply SortedSet.eq_of_ascending_of_mem_iff h'.pairwise h.pairwise
  intro key
  simp only [h.mem_iff, h'.mem_iff, hparts]

end Model

/-! ### Other places -/

/-- The same relation with those below it in another order, at any depth. -/
inductive Relation.Rearranges : Relation → Relation → Prop
  | intro {field : String} {clause : Clause} {pageSize : ℕ} {relations relations' : List Relation}
      (h : Multiset.Rel Relation.Rearranges relations relations') :
      Relation.Rearranges ⟨field, clause, pageSize, relations⟩ ⟨field, clause, pageSize, relations'⟩

/-- The same selection with its relations in another order, at any depth. -/
structure Selection.Rearranges (s s' : Selection) : Prop where
  definition_eq : s'.definition = s.definition
  pageSize_eq : s'.pageSize = s.pageSize
  relations : Multiset.Rel Relation.Rearranges s.relations s'.relations

/-- The same query with its selections, and the relations in these, in another order. -/
structure Query.Rearranges (q q' : Query) : Prop where
  name_eq : q'.name = q.name
  serviceLevel_eq : q'.serviceLevel = q.serviceLevel
  selections : Multiset.Rel Selection.Rearranges q.selections q'.selections

/-- A model on the same catalog with the same definitions, and the same queries except for the order
of the queries, of their selections, and of the relations at any depth. -/
structure Model.Rearranges {α : Type} (m m' : Model α) : Prop where
  catalog_eq : m'.catalog = m.catalog
  definitions_eq : m'.definitions = m.definitions
  queries : Multiset.Rel Query.Rearranges m.queries m'.queries

mutual

/-- The same relation with those below it in reverse, at every depth. -/
def Relation.mirror : Relation → Relation
  | ⟨field, clause, pageSize, relations⟩ =>
    ⟨field, clause, pageSize, Relation.mirrors relations⟩

/-- The same relations in reverse, at every depth. -/
def Relation.mirrors : List Relation → List Relation
  | [] => []
  | relation :: rest => Relation.mirrors rest ++ [relation.mirror]

end

/-- The same model with queries, selections and relations in reverse. -/
def Model.mirror {α : Type} (m : Model α) : Model α :=
  { m with
    queries := (m.queries.map fun q =>
      { q with
        selections := (q.selections.map fun s =>
          { s with relations := Relation.mirrors s.relations }).reverse }).reverse }

mutual

theorem Relation.rearranges_mirror (relation : Relation) :
    relation.Rearranges relation.mirror := by
  match relation with
  | ⟨field, clause, pageSize, relations⟩ =>
    rw [Relation.mirror]
    exact .intro (Relation.rel_mirrors relations)

theorem Relation.rel_mirrors (relations : List Relation) :
    Multiset.Rel Relation.Rearranges relations (Relation.mirrors relations) := by
  match relations with
  | [] =>
    rw [Relation.mirrors]
    exact .zero
  | relation :: rest =>
    rw [Relation.mirrors, Multiset.coe_eq_coe.mpr (List.perm_append_singleton _ _)]
    exact .cons (Relation.rearranges_mirror relation) (Relation.rel_mirrors rest)

end

theorem Model.rearranges_mirror {α : Type} (m : Model α) : m.Rearranges m.mirror where
  catalog_eq := rfl
  definitions_eq := rfl
  queries := by
    rw [mirror, Multiset.coe_reverse, ← Multiset.map_coe, Multiset.rel_map_right]
    refine Multiset.rel_refl_of_refl_on fun q _ => ⟨rfl, rfl, ?_⟩
    rw [Multiset.coe_reverse, ← Multiset.map_coe, Multiset.rel_map_right]
    exact Multiset.rel_refl_of_refl_on fun s _ => ⟨rfl, rfl, Relation.rel_mirrors s.relations⟩

theorem Relation.Rearranges.uses_iff {c : Clause} :
    ∀ {r r' : Relation}, r.Rearranges r' → (r.Uses c ↔ r'.Uses c)
  | ⟨_, _, _, relations⟩, _, .intro hrelations => by
    rw [Relation.uses_iff, Relation.uses_iff]
    apply or_congr_right
    -- the relations below are smaller than the one they are below of
    exact exists_mem_iff_of_rel hrelations fun r hr r' _ h => Rearranges.uses_iff h
termination_by r => r

namespace Model

variable {α : Type} {m m' : Model α} {id : EntityId}

/-- Models whose clauses are used in other places use the same clauses. -/
theorem Rearranges.usesClause_iff (h : m.Rearranges m') {c : Clause} :
    m.UsesClause c ↔ m'.UsesClause c := by
  refine exists_mem_iff_of_rel h.queries fun q _ q' _ hq => ?_
  refine exists_mem_iff_of_rel hq.selections fun s _ s' _ hs => ?_
  have hdefinition : m'.definition s'.definition = m.definition s.definition := by
    rw [definition, definition, h.definitions_eq, hs.definition_eq]
  rw [hdefinition]
  apply or_congr_right
  exact exists_mem_iff_of_rel hs.relations fun r _ r' _ hr => hr.uses_iff

theorem Rearranges.requestsPart_iff (h : m.Rearranges m') (part : List OrderTerm) :
    m.RequestsPart id part ↔ m'.RequestsPart id part := by
  constructor
  · rintro ⟨hne, hsargable, c, huses, hc⟩
    exact ⟨hne, hsargable, c, h.usesClause_iff.mp huses, hc⟩
  · rintro ⟨hne, hsargable, c, huses, hc⟩
    exact ⟨hne, hsargable, c, h.usesClause_iff.mpr huses, hc⟩

theorem Rearranges.clusteringKeys_eq (h : m.Rearranges m') :
    m'.clusteringKeys id = m.clusteringKeys id :=
  (m.listsClusteringKeys id).eq (identifierTerm_eq h.catalog_eq ▸ m'.listsClusteringKeys id)
    h.requestsPart_iff

/-- **Clustering keys are the requested parts, closed by the identifier.**  Every entity of a built
model has one field that identifies its rows, and its clustering keys, each once and in ascending
order, are the parts of orders that clauses in use request, with this field after them unless they
mention it; without such a part, the field alone.  It does not matter in which order queries,
selections and relations were declared. -/
theorem clusteringKeys_spec {decls : Declarations α} (hbuild : decls.build = .ok m)
    (hid : id < m.catalog.entities.length) :
    ∃ f : Field,
      ((m.entity id).fields.values.filter fun f => f.typeName == idType) = [f] ∧
      m.ListsClusteringKeys id ⟨⟨id, [f.name], true⟩, .desc⟩ (m.clusteringKeys id) ∧
      ∀ m', m.Rearranges m' → m'.clusteringKeys id = m.clusteringKeys id := by
  have hentity : m.catalog.entity id = m.catalog.entities[id] := List.getD_eq_getElem _ _ hid
  obtain ⟨f, hf, hname⟩ := exists_identifier_of_buildCatalog
    (Declarations.build_eq_ok_iff.mp hbuild).1 (List.getElem_mem hid)
  rw [← hentity] at hf hname
  refine ⟨f, hf, ?_, fun m' => Rearranges.clusteringKeys_eq⟩
  rw [hname]
  exact m.listsClusteringKeys id

end Model

namespace Desk

/-- The tickets of the members of a staff.  A ticket may lose its owner, but not its reporter. -/
def declarations : Declarations Exact where
  entities := [{
    name := "Person"
    fields := [{ name := "id", typeName := idType }, { name := "name", typeName := "String" },
      { name := "tickets", typeName := "Ticket", isList := true }]
    statistics := [] }, {
    name := "Ticket"
    fields := [{ name := "id", typeName := idType }, { name := "opened", typeName := "DateTime" },
      { name := "owner", typeName := "Person", isNullable := true },
      { name := "reporter", typeName := "Person" }]
    statistics := [] }]
  definitions := [{
    name := "person"
    entity := "Person"
    clause := { predicates := [("id", "$id")] } }]
  queries := [{
    name := "desk"
    selections := [{
      definition := "person"
      pageSize := 1
      relations := [{
        field := "tickets"
        clause := { order := [("opened", .asc), ("owner.name", .asc), ("id", .asc)] }
        relations := [{
          field := "owner"
          clause := { order := [("name", .asc)] }
          relations := [] }, {
          field := "reporter"
          clause := {}
          relations := [{
            field := "tickets"
            clause := { order := [("id", .asc), ("reporter.name", .any), ("id", .desc)] }
            relations := [] }] }] }] }] }]

/-- The model of a desk. -/
def model : Model Exact := declarations.build.toOption.getD default

end Desk

/-- At a desk the order by opening and owner is cut at the owner, who may change, so that its only
part is closed by the identifier.  All parts of the other order, three relations below a query,
mention the identifier, the longest one twice.  The keys are the same if a ticket is asked for its
reporter before its owner. -/
theorem Model.clusteringKeys_spec_desk :
    Desk.model.ListsClusteringKeys 1 ⟨⟨1, ["id"], true⟩, .desc⟩ (Desk.model.clusteringKeys 1) ∧
    (Desk.model.clusteringKeys 1).map orderText
      = ["[id ASC]", "[id ASC, reporter.name ANY]", "[id ASC, reporter.name ANY, id DESC]",
        "[opened ASC, id DESC]"] ∧
    Desk.model.mirror.clusteringKeys 1 = Desk.model.clusteringKeys 1 := by
  have hbuild : Desk.declarations.build = .ok Desk.model := rfl
  have hid : 1 < Desk.model.catalog.entities.length := by decide +kernel
  obtain ⟨f, hf, hkeys, hmirror⟩ := Model.clusteringKeys_spec hbuild hid
  have hname : f.name = "id" := by
    have hnames : ((Desk.model.entity 1).fields.values.filter fun f =>
        f.typeName == idType).map Field.name = ["id"] := by decide +kernel
    rw [hf] at hnames
    exact List.singleton_injective hnames
  rw [hname] at hkeys
  exact ⟨hkeys, by decide +kernel, hmirror _ Desk.model.rearranges_mirror⟩

end Keyspace
