import Keyspace.Proofs.Candidate.Promotion
import Keyspace.Proofs.Candidate.Requested
import Keyspace.Proofs.Schema.Resolution
import Keyspace.Proofs.Schema.WellFormed
import Keyspace.Proofs.Sorted.Faithful

/-!
# The paths of a model

The flag of a path that says whether it may be part of a key takes no part in its identity, so that
a set may keep either of two paths that differ in it.  `Model.HasPath` collects all paths that have
to do with a built model, wherever they stand in it and however they were made.  Each of them walks
the catalog and has the flag that the walk finds (`HasPath.isPath`), so that there are no two such
paths, and sets of them act exactly (`SortedSet.ActsExactly`).

* `isPath_idPath`: the path to the identifier is made without a walk; its flag is right all the
  same, whatever the name of the identifier.
* `HasClause.exists_isClauseOf`: clauses, wherever they are used.
* `isPath_of_mem_candidates`: candidates, whose keys are cut and put together anew.
-/

namespace Keyspace

/-! ### Occurrences -/

/-- The paths of the predicates and of the order. -/
def Clause.paths (c : Clause) : List Path :=
  c.predicates.map Predicate.path ++ c.order.map OrderTerm.path

/-- The paths of a candidate: those of its keys, those left to filter and those of its clause. -/
def Candidate.paths (c : Candidate) : List Path :=
  c.keyPaths ++ c.remaining.toList ++ c.clause.paths

namespace Model

variable {α : Type} [Scalar α] (m : Model α)

omit [Scalar α] in
/-- The clauses of a model. -/
inductive HasClause : Clause → Prop
  | definition {d : Definition} (hd : d ∈ m.definitions) : HasClause d.clause
  /-- At any depth below a selection. -/
  | relation {q : Query} {s : Selection} {r : Relation} {c : Clause} (hq : q ∈ m.queries)
      (hs : s ∈ q.selections) (hr : r ∈ s.relations) (hc : r.Uses c) : HasClause c
  /-- The rows that a mutation touches. -/
  | filter {mu : Mutation} {c : Clause} (hmu : mu ∈ m.mutations) (hc : mu.filter = some c) :
      HasClause c

/-- The paths that occur in a model, are made from it or occur in a workload found for it. -/
inductive HasPath : Path → Prop
  | clause {c : Clause} {p : Path} (hc : m.HasClause c) (hp : p ∈ c.paths) : HasPath p
  | statistic {id : EntityId} {s : Statistics α} {e : PathSet × Statistic α} {p : Path}
      (hs : m.statistics[id]? = some s) (he : e ∈ s.entries) (hp : p ∈ e.1.toList) : HasPath p
  | identifier {id : EntityId} (hid : id < m.catalog.entities.length) :
      HasPath (m.catalog.idPath id)
  | resolved {root : EntityId} {dotted : String} {p : Path}
      (hp : m.catalog.resolve root dotted = .ok p) : HasPath p
  | candidate {rowScanCost : α} {prune : Bool} {memo : Memo α} {w : Workload} {c : Candidate}
      {p : Path} (hw : (m.search rowScanCost prune memo).1 = .ok w) (hc : c ∈ w.candidates)
      (hp : p ∈ c.paths) : HasPath p

end Model

/-! ### Paths of clauses -/

theorem Catalog.IsClauseOf.isPath_of_mem_paths {c : Catalog} {owner : EntityId} {clause : Clause}
    (h : c.IsClauseOf owner clause) {p : Path} (hp : p ∈ clause.paths) : c.IsPath p := by
  rcases List.mem_append.mp hp with hp | hp
  · obtain ⟨q, hq, rfl⟩ := List.mem_map.mp hp
    exact (h.predicates q hq).isPath
  · obtain ⟨t, ht, rfl⟩ := List.mem_map.mp hp
    exact (h.order t ht).isPath

/-- Each clause that a relation uses is on the rows of some entity. -/
theorem Catalog.IsRelationOf.exists_isClauseOf {c : Catalog} {r : Relation} {clause : Clause}
    (huses : r.Uses clause) :
    ∀ {parent : EntityId}, c.IsRelationOf parent r → ∃ owner, c.IsClauseOf owner clause := by
  induction huses with
  | own =>
    intro parent h
    cases h with
    | intro _ _ hclause _ => exact ⟨_, hclause⟩
  | nested hr' _ ih =>
    intro parent h
    cases h with
    | intro _ _ _ hrelations => exact ih (hrelations _ hr')

/-- Each clause of a well-formed model is on the rows of some entity. -/
theorem Model.HasClause.exists_isClauseOf {α : Type} {m : Model α} (h : m.WellFormed)
    {clause : Clause} (hclause : m.HasClause clause) :
    ∃ owner, m.catalog.IsClauseOf owner clause := by
  cases hclause with
  | definition hd =>
    obtain ⟨id, -, hid⟩ := h.definitions _ hd
    exact ⟨id, hid⟩
  | relation hq hs hr hc =>
    obtain ⟨d, -, hrelations⟩ := h.selections _ hq _ hs
    exact Catalog.IsRelationOf.exists_isClauseOf hc (hrelations _ hr)
  | filter hmu hc => exact ⟨_, (h.mutations _ hmu).2 _ hc⟩

/-! ### The path to the identifier -/

/-- An entity has its identifier among its fields, under the name that the entity gives. -/
theorem exists_field?_idField {α : Type} {decls : List (EntityDecl α)} {c : Catalog}
    (h : buildCatalog decls = .ok c) {e : Entity} (he : e ∈ c.entities) :
    ∃ f, e.field? e.idField = some f := by
  obtain ⟨f, hf, hname⟩ := exists_identifier_of_buildCatalog h he
  have hmem : f ∈ e.fields.values := List.mem_of_mem_filter (hf ▸ List.mem_singleton_self f)
  obtain ⟨entry, hentry, rfl⟩ := List.mem_map.mp hmem
  have hkey : entry.1 = e.idField := (name_of_mem_fields h he entry hentry).symm.trans hname
  have hfound : (e.fields.entries.find? fun d => compare e.idField d.1 == .eq).isSome := by
    refine List.find?_isSome.mpr ⟨entry, hentry, ?_⟩
    rw [hkey, beq_iff_eq]
    exact Std.ReflCmp.compare_self
  obtain ⟨found, hfound⟩ := Option.isSome_iff_exists.mp hfound
  exact ⟨found.2, by rw [Entity.field?, SortedMap.find?, hfound]; rfl⟩

/-- A walk to the identifier finds what its path says. -/
theorem Catalog.isPath_idPath {α : Type} {decls : List (EntityDecl α)} {c : Catalog}
    (h : buildCatalog decls = .ok c) {id : EntityId} (hid : id < c.entities.length) :
    c.IsPath (c.idPath id) := by
  obtain ⟨f, hf⟩ := exists_field?_idField h (Catalog.entity_mem hid)
  exact Catalog.walk_singleton hf

/-! ### Paths of candidates -/

namespace Model

variable {α : Type} {decls : Declarations α} {m : Model α} (hbuild : decls.build = .ok m)
include hbuild

/-- A candidate has no other paths than its level, those of its entity's clustering keys, and the
identifier. -/
theorem isPath_of_mem_candidates {l : Level} (hl : l ∈ m.levels) {c : Candidate}
    (hc : c ∈ m.candidates l) {p : Path} (hp : p ∈ c.paths) : m.catalog.IsPath p := by
  have hresolved := Declarations.resolved_of_build hbuild l hl
  obtain ⟨partitionKey, hs, clusteringKey, hk, rfl⟩ := mem_candidates_iff.mp hc
  have hpredicate : ∀ p ∈ l.clause.predicatePaths.toList, m.catalog.IsPath p :=
    fun p hp => (hresolved.isPath_of_mem_predicatePaths hp).2
  simp only [Candidate.paths, Candidate.keyPaths, List.mem_append] at hp
  rcases hp with (((hp | hp) | hp) | hp) | hp
  · have hmem := (mem_partitionKeys_iff _).mp hs p hp
    exact hpredicate p (hresolved.mem_sargablePaths_iff.mp hmem).1
  · obtain ⟨t, ht, rfl⟩ := List.mem_map.mp hp
    rcases eq_identifier_or_exists_of_mem hk ht with rfl | ⟨-, l', hl', -, hmem⟩
    · exact Catalog.isPath_idPath (Declarations.build_eq_ok_iff.mp hbuild).1 hresolved.root_lt
    · exact ((Declarations.resolved_of_build hbuild l' hl').isPath_of_mem_order hmem).2
  · exact hpredicate p (Level.mem_effectiveKey_iff.mp hp).1
  · exact hpredicate p (Level.mem_predicatePaths_of_mem_remaining hp)
  · exact hresolved.isClauseOf.isPath_of_mem_paths hp

variable [Scalar α]

/-- Every path that has to do with a built model walks its catalog, and has the flag that the walk
finds. -/
theorem HasPath.isPath {p : Path} (hp : m.HasPath p) : m.catalog.IsPath p := by
  have hwell := Declarations.wellFormed_of_build hbuild
  cases hp with
  | clause hc hp =>
    obtain ⟨owner, hclause⟩ := hc.exists_isClauseOf hwell
    exact hclause.isPath_of_mem_paths hp
  | statistic hs he hp => exact (hwell.statistics _ _ hs _ he p hp).isPath
  | identifier hid => exact Catalog.isPath_idPath (Declarations.build_eq_ok_iff.mp hbuild).1 hid
  | resolved hp => exact (Catalog.isPath_of_resolve hp).2
  | candidate hw hc hp =>
    obtain ⟨i, hi, rfl⟩ := List.getElem_of_mem hc
    obtain ⟨l, hl, hmem⟩ := exists_level_of_lt hw hi
    rw [Workload.candidate_eq_getElem hi] at hmem
    exact isPath_of_mem_candidates hbuild hl hmem hp

/-- Paths of one model that compare equal are the same path. -/
theorem faithful_hasPath : Faithful m.HasPath := fun p q hp hq =>
  m.catalog.faithful_isPath p q (hp.isPath hbuild) (hq.isPath hbuild)

end Model

/-! ### Sets of paths -/

/-- Promotion takes the very paths of the leading terms, and no others, out of a set. -/
theorem exists_prefix_mem_promote_iff {P : Path → Prop} (h : Faithful P) {s : PathSet}
    (hs : s.HoldsOnly P) {key : List OrderTerm} (hkey : ∀ t ∈ key, P t.path) :
    ∃ lead, lead <+: key ∧
      ∀ p, p ∈ (promote s key).toList ↔ p ∈ s.toList ∧ ∀ t ∈ lead, t.path ≠ p := by
  obtain ⟨lead, rest, rfl, -, -, hpromote, -⟩ := exists_lead s key
  refine ⟨lead, List.prefix_append _ _, fun p => ⟨fun hp => ?_, ?_⟩⟩
  · have hwalk : p.walk ∈ walksOf (promote s (lead ++ rest)).toList := ⟨p, hp, rfl⟩
    rw [hpromote] at hwalk
    refine ⟨promote_sublist.subset hp, ?_⟩
    rintro t ht rfl
    exact hwalk.2 ⟨t.path, List.mem_map_of_mem ht, rfl⟩
  · rintro ⟨hp, hnot⟩
    -- a path that walks like a promoted one would be that path
    have hwalk : p.walk ∈ walksOf (promote s (lead ++ rest)).toList := by
      rw [hpromote]
      refine ⟨⟨p, hp, rfl⟩, ?_⟩
      rintro ⟨_, hmem, heq⟩
      obtain ⟨t, ht, rfl⟩ := List.mem_map.mp hmem
      exact hnot t ht (h _ _ (hkey t (List.mem_append_left _ ht)) (hs p hp)
        (Path.compare_eq_iff.mpr heq))
    obtain ⟨q, hq, heq⟩ := hwalk
    have hqp := SortedSet.eq_of_compare_eq (promote_sublist.subset hq) hp
      (Path.compare_eq_iff.mpr heq)
    exact hqp ▸ hq

/-- The flag of a path may be left out of its identity: in a model it is known from the walk. -/
structure Model.KnowsSargable {α : Type} [Scalar α] (m : Model α) : Prop where
  sargable_eq : ∀ p q, m.HasPath p → m.HasPath q → p.same q = true → p.sargable = q.sargable
  /-- The sargable paths of a clause are those of its predicate paths. -/
  mem_sargablePaths_iff : ∀ clause, m.HasClause clause → ∀ p,
    p ∈ clause.sargablePaths.toList ↔ p ∈ clause.predicatePaths.toList ∧ p.sargable = true
  /-- They can be read off any set of paths of the model that compares equal. -/
  filter_sargable : ∀ clause, m.HasClause clause → ∀ s : PathSet, s.HoldsOnly m.HasPath →
    compare s clause.predicatePaths = .eq → s.filter Path.sargable = clause.sargablePaths
  actsExactly : SortedSet.ActsExactly m.HasPath
  /-- So do sets of clustering keys. -/
  actsExactly_list : SortedSet.ActsExactly fun key : List OrderTerm => ∀ t ∈ key, m.HasPath t.path
  /-- Partition keys have members of the set that they are subsets of. -/
  partitionKeys_subset : ∀ s t : PathSet, t ∈ partitionKeys s → t.toList ⊆ s.toList
  /-- Promotion removes the paths of the leading terms of the clustering key. -/
  exists_prefix_promote : ∀ (s : PathSet) (key : List OrderTerm), s.HoldsOnly m.HasPath →
    (∀ t ∈ key, m.HasPath t.path) → ∃ lead, lead <+: key ∧
      ∀ p, p ∈ (promote s key).toList ↔ p ∈ s.toList ∧ ∀ t ∈ lead, t.path ≠ p

/-- **Paths of a built model that walk the same way may be part of a key alike**, wherever they
occur and however they were made.  Hence it makes no difference which of several equal paths a set
keeps: the sargable paths of a clause are its predicate paths that are sargable, and operations on
sets have the very paths that went into them. -/
theorem Model.knowsSargable_of_build {α : Type} [Scalar α] {decls : Declarations α} {m : Model α}
    (hbuild : decls.build = .ok m) : m.KnowsSargable := by
  have hfaithful := faithful_hasPath hbuild
  have hacts := SortedSet.actsExactly_of_faithful hfaithful
  have hpredicates : ∀ clause, m.HasClause clause → ∀ q ∈ clause.predicates, m.HasPath q.path :=
    fun clause hclause q hq => .clause hclause (List.mem_append_left _ (List.mem_map_of_mem hq))
  have hsargable : ∀ clause, m.HasClause clause → ∀ p,
      p ∈ clause.sargablePaths.toList ↔ p ∈ clause.predicatePaths.toList ∧ p.sargable = true :=
    fun clause hclause _ =>
      Clause.mem_sargablePaths_iff_of_faithful hfaithful (hpredicates clause hclause)
  refine ⟨?_, hsargable, ?_, hacts, SortedSet.actsExactly_of_faithful hfaithful.orderTerm.list,
    fun s t ht => (mem_partitionKeys_iff s).mp ht,
    fun s key hs hkey => exists_prefix_mem_promote_iff hfaithful hs hkey⟩
  · intro p q hp hq hsame
    have hwalk := Path.same_eq_true_iff.mp hsame
    rw [hfaithful p q hp hq (Path.compare_eq_iff.mpr hwalk)]
  · intro clause hclause s hs heq
    have hholds : clause.predicatePaths.HoldsOnly m.HasPath := by
      intro p hp
      obtain ⟨q, hq, rfl⟩ := List.mem_map.mp (SortedSet.mem_of_mem_toList_ofList hp)
      exact hpredicates clause hclause q hq
    obtain rfl := hacts.eq_of_compare_eq s _ hs hholds heq
    apply SortedSet.eq_of_toList_eq
    apply SortedSet.eq_of_ascending_of_mem_iff (SortedSet.ascending _) (SortedSet.ascending _)
    intro p
    rw [hsargable clause hclause, SortedSet.toList_filter, List.mem_filter]

/-- The name of a sender is no key in any part of an inbox, not even if it is resolved once more.
Of any set of paths that compares equal to the predicates only the folder may be one. -/
theorem Model.knowsSargable_of_build_inbox :
    (∀ p, Inbox.model.HasPath p → p.walk = (1, ["sender", "name"]) → p.sargable = false) ∧
    ∀ s : PathSet, s.HoldsOnly Inbox.model.HasPath →
      compare s (Inbox.model.definition 0).clause.predicatePaths = .eq →
        PathSet.texts (s.filter Path.sargable) = ["folder"] := by
  have hbuild : Inbox.declarations.build = .ok Inbox.model := rfl
  have hknows := Model.knowsSargable_of_build hbuild
  constructor
  · intro p hp hwalk
    have hresolve : Inbox.model.catalog.resolve 1 "sender.name"
        = .ok ⟨1, ["sender", "name"], false⟩ := rfl
    exact hknows.sargable_eq p _ hp (.resolved hresolve) (Path.same_eq_true_iff.mpr hwalk)
  · intro s hs heq
    have hclause : Inbox.model.HasClause (Inbox.model.definition 0).clause :=
      .definition List.mem_cons_self
    rw [hknows.filter_sargable _ hclause s hs heq]
    decide +kernel

end Keyspace
