import Keyspace.Proofs.Schema.Levels
import Keyspace.Proofs.Workload.Answer

/-!
# Declarations in another order

`m.Reorders m'` says that two models differ only in the order of their queries, of the selections
inside a query, and of their mutations.  Everything that a level is answered from is then the same:
its clause, the service level of its query, the catalog and the statistics, and the clustering keys,
which are drawn from the clauses of all levels but in an order of their own.  So the levels of the
two models are the same up to their order and the numbers of their queries (`Model.rel_levels`), and
so are their answers (`Model.Reorders.answer_eq`).

A search that succeeds on one model therefore succeeds on the other
(`Model.exists_search_reorders_iff`), and finds the same candidates under other numbers
(`Model.exists_renumbers`).
-/

namespace Keyspace

/-! ### Models in another order -/

/-- The same query with its selections in another order. -/
structure Query.Reorders (q q' : Query) : Prop where
  name_eq : q'.name = q.name
  serviceLevel_eq : q'.serviceLevel = q.serviceLevel
  selections : q.selections.Perm q'.selections

/-- The same model with its queries, their selections, and its mutations in another order. -/
structure Model.Reorders {α : Type} (m m' : Model α) : Prop where
  catalog_eq : m'.catalog = m.catalog
  statistics_eq : m'.statistics = m.statistics
  definitions_eq : m'.definitions = m.definitions
  queries : Multiset.Rel Query.Reorders m.queries m'.queries
  mutations : m.mutations.Perm m'.mutations

theorem Query.Reorders.symm {q q' : Query} (h : q.Reorders q') : q'.Reorders q :=
  ⟨h.name_eq.symm, h.serviceLevel_eq.symm, h.selections.symm⟩

theorem Model.Reorders.symm {α : Type} {m m' : Model α} (h : m.Reorders m') : m'.Reorders m where
  catalog_eq := h.catalog_eq.symm
  statistics_eq := h.statistics_eq.symm
  definitions_eq := h.definitions_eq.symm
  queries := (Multiset.rel_flip.mpr h.queries).mono fun _ _ _ _ hq => Query.Reorders.symm hq
  mutations := h.mutations.symm

/-- The same model, declared in reverse. -/
def Model.reverse {α : Type} (m : Model α) : Model α :=
  { m with
    queries := (m.queries.map fun q => { q with selections := q.selections.reverse }).reverse
    mutations := m.mutations.reverse }

theorem Model.reorders_reverse {α : Type} (m : Model α) : m.Reorders m.reverse where
  catalog_eq := rfl
  statistics_eq := rfl
  definitions_eq := rfl
  queries := by
    rw [reverse, Multiset.coe_reverse, ← Multiset.map_coe, Multiset.rel_map_right]
    exact Multiset.rel_refl_of_refl_on fun q _ => ⟨rfl, rfl, (List.reverse_perm _).symm⟩
  mutations := (List.reverse_perm _).symm

/-! ### Levels of another query -/

/-- The same level of another query. -/
def Level.moveTo (query : QueryId) (l : Level) : Level := { l with query }

/-- The same candidate for another query. -/
def Candidate.moveTo (query : QueryId) (c : Candidate) : Candidate := { c with query }

/-- The same answer for another query. -/
def LevelPlan.moveTo (query : QueryId) : LevelPlan → LevelPlan
  | lookup l => lookup (l.moveTo query)
  | tables l cs => tables (l.moveTo query) (cs.map (Candidate.moveTo query))

mutual

theorem Relation.levels_moveTo (query query' : QueryId) (relation : Relation) {parent : String} :
    relation.levels query' parent = (relation.levels query parent).map (Level.moveTo query') := by
  match relation with
  | ⟨field, clause, pageSize, relations⟩ =>
    rw [Relation.levels, Relation.levels, List.map_cons,
      Relation.levelsOf_moveTo query query' relations]
    rfl

theorem Relation.levelsOf_moveTo (query query' : QueryId) (relations : List Relation)
    {parent : String} :
    Relation.levelsOf query' parent relations
      = (Relation.levelsOf query parent relations).map (Level.moveTo query') := by
  match relations with
  | [] => rw [Relation.levelsOf, Relation.levelsOf, List.map_nil]
  | relation :: rest =>
    rw [Relation.levelsOf, Relation.levelsOf, List.map_append,
      Relation.levels_moveTo query query' relation, Relation.levelsOf_moveTo query query' rest]

end

theorem Selection.levels_moveTo (query query' : QueryId) {name : String} {definition : Definition}
    {selection : Selection} :
    selection.levels query' name definition
      = (selection.levels query name definition).map (Level.moveTo query') := by
  rw [Selection.levels, Selection.levels, List.map_cons,
    Relation.levelsOf_moveTo query query' selection.relations]
  rfl

namespace Model

variable {α : Type} {m m' : Model α}

variable (m m') in
/-- The same level, of a query of the same name and service level. -/
structure SameLevel (l l' : Level) : Prop where
  eq_moveTo : l' = l.moveTo l'.query
  name_eq : (m'.query l'.query).name = (m.query l.query).name
  serviceLevel_eq : (m'.query l'.query).serviceLevel = (m.query l.query).serviceLevel

variable (m) in
/-- The levels of a model, query by query. -/
theorem levels_eq_flatMap :
    m.levels = m.queries.zipIdx.flatMap fun q => q.1.selections.flatMap fun s =>
      s.levels q.2 q.1.name (m.definition s.definition) := by
  rw [levels, selectionLevels, List.flatten_flatten, List.mapIdx_eq_zipIdx_map, List.map_map]
  rfl

/-- Every query is found by its number. -/
theorem query_of_mem_zipIdx {q : Query × ℕ} (hq : q ∈ m.queries.zipIdx) : m.query q.2 = q.1 := by
  rw [query, List.getD_eq_getElem?_getD, List.mem_zipIdx_iff_getElem?.mp hq, Option.getD_some]

/-- A selection has the same levels in two queries of the same name and service level. -/
theorem forall₂_levels {q q' : Query} {k k' : QueryId} (hq : m.query k = q) (hq' : m'.query k' = q')
    (hname : q'.name = q.name) (hserviceLevel : q'.serviceLevel = q.serviceLevel)
    (hdefinitions : m'.definitions = m.definitions) (s : Selection) :
    List.Forall₂ (m.SameLevel m') (s.levels k q.name (m.definition s.definition))
      (s.levels k' q'.name (m'.definition s.definition)) := by
  have hdefinition : m'.definition s.definition = m.definition s.definition := by
    rw [definition, definition, hdefinitions]
  rw [hname, hdefinition, Selection.levels_moveTo k k', List.forall₂_map_right_iff,
    List.forall₂_same]
  intro l hl
  obtain rfl := Selection.query_of_mem_levels l hl
  have hquery' : m'.query (l.moveTo k').query = q' := hq'
  exact ⟨rfl, by rw [hquery', hq, hname], by rw [hquery', hq, hserviceLevel]⟩

/-- **Models in another order have the same levels** in another order. -/
theorem rel_levels (h : m.Reorders m') : Multiset.Rel (m.SameLevel m') m.levels m'.levels := by
  -- numbered queries are related as the queries are, and each is found by its number
  have hqueries : Multiset.Rel (fun q q' : Query × ℕ => q.1.Reorders q'.1 ∧ m.query q.2 = q.1 ∧
      m'.query q'.2 = q'.1) m.queries.zipIdx m'.queries.zipIdx := by
    have hrel := h.queries
    rw [← List.zipIdx_map_fst 0 m.queries, ← List.zipIdx_map_fst 0 m'.queries,
      ← Multiset.map_coe, ← Multiset.map_coe, Multiset.rel_map] at hrel
    exact hrel.mono fun q hq q' hq' hr => ⟨hr, query_of_mem_zipIdx hq, query_of_mem_zipIdx hq'⟩
  rw [levels_eq_flatMap, levels_eq_flatMap, ← Multiset.coe_bind, ← Multiset.coe_bind]
  refine Multiset.rel_bind ?_ hqueries
  rintro ⟨q, k⟩ ⟨q', k'⟩ ⟨hr, hq, hq'⟩
  dsimp only at hr hq hq' ⊢
  rw [← Multiset.coe_bind, ← Multiset.coe_bind, ← Multiset.coe_eq_coe.mpr hr.selections]
  refine Multiset.rel_bind ?_ Multiset.rel_eq_refl
  rintro s _ rfl
  exact rel_coe_iff.mpr ⟨_, .refl _,
    forall₂_levels hq hq' hr.name_eq hr.serviceLevel_eq h.definitions_eq s⟩

/-! ### What an answer looks at -/

section Schema

variable (hcatalog : m'.catalog = m.catalog)
include hcatalog

theorem bindsIdentifier_eq_of_catalog_eq (c : Clause) :
    m'.bindsIdentifier c = m.bindsIdentifier c := by
  rw [bindsIdentifier, bindsIdentifier, hcatalog]

/-- An estimate looks at neither the query nor the workload. -/
theorem estimate_moveTo [Scalar α] (hstatistics : m'.statistics = m.statistics) (rowScanCost : α)
    (c : Candidate) (query : QueryId) :
    m'.estimate rowScanCost (c.moveTo query) = m.estimate rowScanCost c := by
  cases m
  cases m'
  obtain rfl := hcatalog
  obtain rfl := hstatistics
  rfl

end Schema

/-! ### Answers -/

namespace Reorders

variable (h : m.Reorders m')
include h

/-- The clauses of all levels are the same, and so are the clustering keys drawn from them. -/
theorem clusteringKeys_eq (id : EntityId) : m'.clusteringKeys id = m.clusteringKeys id := by
  refine clusteringKeys_eq_of_perm h.catalog_eq (List.Perm.filter _ ?_)
  have hclauses : Multiset.Rel (fun l l' : Level => l.clause = l'.clause) m.levels m'.levels :=
    (rel_levels h).mono fun l _ l' _ hl => by rw [hl.eq_moveTo]; rfl
  rwa [← Multiset.rel_map, Multiset.rel_eq, Multiset.map_coe, Multiset.map_coe,
    Multiset.coe_eq_coe] at hclauses

theorem candidates_moveTo (l : Level) (query : QueryId) :
    m'.candidates (l.moveTo query) = (m.candidates l).map (Candidate.moveTo query) := by
  rw [candidates, candidates, List.map_flatMap]
  refine List.flatMap_congr fun partitionKey _ => ?_
  rw [List.map_map, Level.moveTo, h.clusteringKeys_eq]
  rfl

theorem rel_plannedLevels : Multiset.Rel (m.SameLevel m') m.plannedLevels m'.plannedLevels := by
  refine rel_filter (rel_levels h) fun l l' hl => ?_
  rw [bindsIdentifier_eq_of_catalog_eq h.catalog_eq, hl.eq_moveTo]
  rfl

variable [Scalar α] (rowScanCost : α) (prune : Bool)

/-- **The same levels have the same answers.** -/
theorem answer_eq {l l' : Level} (hl : m.SameLevel m' l l') :
    m'.answer rowScanCost prune l'
      = (m.answer rowScanCost prune l).map (LevelPlan.moveTo l'.query) := by
  obtain ⟨hlevel, hname, hserviceLevel⟩ := hl
  generalize l'.query = query at hlevel hname hserviceLevel ⊢
  subst hlevel
  have hcosts : m'.levelCosts rowScanCost (l.moveTo query) = m.levelCosts rowScanCost l := by
    rw [levelCosts, levelCosts, h.candidates_moveTo, List.mapM_map]
    congr 1
    funext c
    exact congrArg (Except.map Estimate.total)
      (estimate_moveTo h.catalog_eq h.statistics_eq rowScanCost c query)
  have hfits : ∀ cost : α, m'.fitsLatency query cost = m.fitsLatency l.query cost := fun cost => by
    rw [fitsLatency, fitsLatency, hserviceLevel]
  have hkeep : ∀ costs, m'.keep prune query (m'.candidates (l.moveTo query)) costs
      = (m.keep prune l.query (m.candidates l) costs).map (Candidate.moveTo query) := by
    intro costs
    rw [keep, keep, h.candidates_moveTo]
    split_ifs
    · rw [List.zip_map_left, List.filter_map, List.map_map, List.map_map]
      simp only [hfits, Function.comp_def, Prod.map]
      rfl
    · rfl
  rw [answer, answer, hcosts, bindsIdentifier_eq_of_catalog_eq h.catalog_eq]
  show (if m.bindsIdentifier l.clause = true then _ else _) = _
  split_ifs
  · rfl
  · cases m.levelCosts rowScanCost l with
    | error e => rfl
    | ok costs =>
      dsimp only
      have hquery : (l.moveTo query).query = query := rfl
      rw [hquery, hkeep, hname, List.isEmpty_map]
      split_ifs <;> rfl

/-! ### Searches -/

variable {rowScanCost prune} {w w' : Workload}

theorem exists_search (hw : ∃ w, (m.search rowScanCost prune {}).1 = .ok w) :
    ∃ w', (m'.search rowScanCost prune {}).1 = .ok w' := by
  rw [exists_search_iff remembersCosts_empty] at hw ⊢
  intro l' hl'
  obtain ⟨l, hl, hsame⟩ :=
    Multiset.exists_mem_of_rel_of_mem (Multiset.rel_flip.mpr h.rel_plannedLevels) hl'
  obtain ⟨p, hp⟩ := hw l hl
  exact ⟨p.moveTo l'.query, by rw [h.answer_eq rowScanCost prune hsame, hp]; rfl⟩

end Reorders

/-- A search of a model in another order succeeds or fails with that of the model. -/
theorem exists_search_reorders_iff [Scalar α] (h : m.Reorders m') (rowScanCost : α)
    (prune : Bool) :
    (∃ w, (m.search rowScanCost prune {}).1 = .ok w) ↔
      ∃ w', (m'.search rowScanCost prune {}).1 = .ok w' :=
  ⟨h.exists_search, h.symm.exists_search⟩

/-! ### Candidates under other numbers -/

variable (m m') in
/-- The same candidate, for a query of the same service level. -/
structure SameCandidate (c c' : Candidate) : Prop where
  eq_moveTo : c' = c.moveTo c'.query
  serviceLevel_eq : (m'.query c'.query).serviceLevel = (m.query c.query).serviceLevel

variable (m m') in
/-- The candidates of `w'` are those of `w` under other numbers: number `c` of `w'` is number
`number c` of `w`. -/
structure Renumbers (w w' : Workload) (number : ℕ → ℕ) : Prop where
  perm : ((List.range w'.candidates.length).map number).Perm (List.range w.candidates.length)
  same : ∀ c < w'.candidates.length,
    m.SameCandidate m' (w.candidate (number c)) (w'.candidate c)
  siblingSets : (w'.siblingSets.map (List.map number)).Perm w.siblingSets

section Renumber

variable [Scalar α] {rowScanCost : α} {prune : Bool} {w w' : Workload} (h : m.Reorders m')
  (hw : (m.search rowScanCost prune {}).1 = .ok w)
  (hw' : (m'.search rowScanCost prune {}).1 = .ok w')
include h hw hw'

/-- The sibling sets of two searches hold the same candidates, in another order of the sets. -/
theorem rel_siblingSets :
    Multiset.Rel (List.Forall₂ fun c c' => m.SameCandidate m' (w.candidate c) (w'.candidate c'))
      w.siblingSets w'.siblingSets := by
  refine rel_of_forall₂ h.rel_plannedLevels (forall₂_siblingSets remembersCosts_empty hw)
    (forall₂_siblingSets remembersCosts_empty hw') fun l l' ids ids' hl hids hids' => ?_
  rw [h.answer_eq rowScanCost prune hl, hids] at hids'
  have hmap : (ids.map w.candidate).map (Candidate.moveTo l'.query) = ids'.map w'.candidate :=
    (LevelPlan.tables.inj (Except.ok.inj hids')).2
  rw [List.map_map, ← List.forall₂_eq_eq_eq, List.forall₂_map_left_iff,
    List.forall₂_map_right_iff] at hmap
  have hquery : ∀ c ∈ ids, (w.candidate c).query = l.query := fun c hc =>
    query_of_mem_candidates ((answers_of_answer hids).mem_candidates (List.mem_map_of_mem hc))
  refine ((List.forall₂_and_left _ _).mpr ⟨hquery, hmap⟩).imp fun c c' hc => ?_
  obtain ⟨hquery, heq⟩ := hc
  refine ⟨?_, ?_⟩
  · rw [← heq]
    rfl
  · rw [← heq, hquery]
    exact hl.serviceLevel_eq

/-- **A search of a model in another order finds the same candidates** under other numbers. -/
theorem exists_renumbers : ∃ number, m.Renumbers m' w w' number := by
  have hlevels := isLeveled_siblingSets hw
  have hlevels' := isLeveled_siblingSets hw'
  obtain ⟨sets, hperm, hsame⟩ := rel_coe_iff.mp (rel_siblingSets h hw hw')
  have hflat := List.rel_flatten hsame
  rw [hlevels'.flatten_eq] at hflat
  have hlength : sets.flatten.length = w'.candidates.length := by
    rw [hflat.length_eq, List.length_range]
  have hmap : (List.range w'.candidates.length).map (fun c => sets.flatten.getD c 0)
      = sets.flatten := by
    rw [← hlength, map_range_getD]
  -- `sets` are the sets of `w` in the order of `w'`, where number `c` stands at place `c`
  refine ⟨fun c => sets.flatten.getD c 0, ?_, fun c hc => ?_, ?_⟩
  · rw [hmap, ← hlevels.flatten_eq]
    exact hperm.symm.flatten
  · have hc' : c < sets.flatten.length := by rwa [hlength]
    have hat := hflat.get hc' (by simpa using hc)
    rw [List.get_eq_getElem, List.get_eq_getElem, List.getElem_range] at hat
    rwa [List.getD_eq_getElem _ _ hc']
  · have hsets : w'.siblingSets.map (List.map fun c => sets.flatten.getD c 0) = sets := by
      refine List.eq_iff_flatten_eq.mpr ⟨?_, ?_⟩
      · rw [← List.map_flatten, hlevels'.flatten_eq, hmap]
      · rw [map_eq_map_of_forall₂ (f := List.length) (fun _ _ h => h.length_eq) hsame,
          List.map_map]
        exact List.map_congr_left fun ids _ => List.length_map _
    rw [hsets]
    exact hperm.symm

end Renumber

namespace Renumbers

variable {w w' : Workload} {number : ℕ → ℕ} (h : m.Renumbers m' w w' number)
include h

theorem number_lt {c : ℕ} (hc : c < w'.candidates.length) : number c < w.candidates.length :=
  List.mem_range.mp (h.perm.subset (List.mem_map_of_mem (List.mem_range.mpr hc)))

theorem exists_number_eq {c : ℕ} (hc : c < w.candidates.length) :
    ∃ c' < w'.candidates.length, number c' = c := by
  obtain ⟨c', hc', heq⟩ := List.mem_map.mp (h.perm.symm.subset (List.mem_range.mpr hc))
  exact ⟨c', List.mem_range.mp hc', heq⟩

theorem eq_of_number_eq {c d : ℕ} (hc : c < w'.candidates.length) (hd : d < w'.candidates.length)
    (heq : number c = number d) : c = d :=
  List.inj_on_of_nodup_map (h.perm.nodup_iff.mpr List.nodup_range) (List.mem_range.mpr hc)
    (List.mem_range.mpr hd) heq

theorem key_number {c : ℕ} (hc : c < w'.candidates.length) :
    (w.candidate (number c)).key = (w'.candidate c).key := by
  rw [(h.same c hc).eq_moveTo]
  rfl

/-- Under other numbers, candidates have the same keys in another order. -/
theorem keys_perm : (w.candidates.map Candidate.key).Perm (w'.candidates.map Candidate.key) := by
  have hkeys : ∀ w : Workload, w.candidates.map Candidate.key
      = (List.range w.candidates.length).map fun c => (w.candidate c).key := by
    intro w
    have hcandidates := congrArg (List.map Candidate.key) (map_range_getD w.candidates default)
    rw [List.map_map] at hcandidates
    exact hcandidates.symm
  have hnumber : (List.range w'.candidates.length).map (fun c => (w'.candidate c).key)
      = ((List.range w'.candidates.length).map number).map fun c => (w.candidate c).key := by
    rw [List.map_map]
    exact List.map_congr_left fun c hc => (h.key_number (List.mem_range.mp hc)).symm
  rw [hkeys w, hkeys w', hnumber]
  exact (h.perm.map _).symm

theorem length_eq : w.candidates.length = w'.candidates.length := by
  simpa using h.keys_perm.length_eq

theorem isEmpty_eq : w.isEmpty = w'.isEmpty := by
  rw [Bool.eq_iff_iff, Workload.isEmpty, Workload.isEmpty, List.isEmpty_iff_length_eq_zero,
    List.isEmpty_iff_length_eq_zero, h.length_eq]

end Renumbers

end Model

end Keyspace
