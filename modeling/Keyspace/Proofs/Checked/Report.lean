import Keyspace.Proofs.Checked.Phases
import Keyspace.Report.Basic
import Keyspace.Workload.Explain

/-!
# Checked lookups in a report

A report names the entities of its tables, of the tables it assigns to queries, and of the
mutations, and it looks up the costs of the assigned candidates.  The text of a workload does so for
every candidate that a plan tree mentions.  All of this is in range for what was searched, priced
and selected on a well-formed model (`build_eq`, `explain_eq`).
-/

namespace Keyspace

open Scalar Tables

/-- A table stores rows of an entity that some candidate reads. -/
theorem Tables.exists_root_eq {candidates : List Candidate} {t : Table}
    (ht : t ∈ (collapse candidates).tables) : ∃ c ∈ candidates, c.key.root = t.key.root := by
  obtain ⟨i, hi, rfl⟩ := List.getElem_of_mem ht
  obtain ⟨c, hc, hhome⟩ := exists_home_eq hi
  refine ⟨candidates[c], List.getElem_mem hc, ?_⟩
  rw [← root_home hc, hhome, table, List.getD_eq_getElem _ _ hi]

namespace Checked

/-! ### Reports -/

section Names

variable {α : Type}

/-- The report on one table. -/
def ofTable (c : Catalog) (key : TableKey) (selected : Bool) : Option TableReport := do
  let e ← entity c key.root
  return {
    entity := e.name
    partitionKey := key.partitionKey.texts
    clusteringKey := key.clusteringKey.map OrderTerm.text
    selected }

/-- The reports on all tables of an outcome. -/
def tablesOf (c : Catalog) (o : Outcome α) : Option (List TableReport) :=
  o.tables.tables.zipIdx.mapM fun t => ofTable c t.1.key (o.selectedTables.contains t.2)

/-- The report on one mutation. -/
def ofMutation (c : Catalog) (o : Outcome α) (change : Mutation) : Option MutationReport := do
  let e ← entity c change.entity
  let touched ← rootedAt o.tables change.entity
  return {
    mutation := change.name
    entity := e.name
    kind := change.kind.text
    maxTables := change.maxTables
    tablesTouched := (touched.filter o.selectedTables.contains).length }

end Names

variable {α : Type} [Scalar α]

/-- The report on one query. -/
def ofQuery (m : Model α) (w : Workload) (costs : List α) (o : Outcome α) (id : QueryId) :
    Option (QueryAssignment α) := do
  let assigned := (w.candidatesFor id).filter o.selectedCandidates.contains
  let indexes ← assigned.mapM fun c => do
    let candidate ← w.candidates[c]?
    let table ← describe m.catalog candidate.key
    let cost ← costs[c]?
    return { table, cost }
  let q ← query m id
  return {
    query := q.name
    indexes
    directLookups := (w.lookups.filter fun l => l.query == id).map DirectLookup.label }

/-- The report on what was chosen for a workload. -/
def build (m : Model α) (w : Workload) (costs : List α) (o : Outcome α) : Option (Report α) := do
  let tables ← tablesOf m.catalog o
  let queries ← (List.range m.queries.length).mapM (ofQuery m w costs o)
  let mutations ← m.mutations.mapM (ofMutation m.catalog o)
  return {
    phase1Cost := o.phase1Cost
    phase2Cost := o.phase2Cost
    tableCount := o.tableCount
    tables
    queries
    mutations
    stats := o.stats
    fingerprint := Digest.sha256Hex (identityText (tables.filter TableReport.selected)) }

section Reports

variable {m : Model α} (hm : m.WellFormed) {w : Workload} (hw : w.RefersTo m) {costs : List α}
  (hcosts : costs.length = w.candidates.length)

include hw hcosts in
theorem ofQuery_eq {o : Outcome α} {id : QueryId} (hid : id < m.queries.length) :
    ofQuery m w costs o id = some (Report.ofQuery m w costs o id (m.query id)) := by
  have hindex : ∀ c ∈ (w.candidatesFor id).filter o.selectedCandidates.contains, (do
      let candidate ← w.candidates[c]?
      let table ← describe m.catalog candidate.key
      let cost ← costs[c]?
      return { table, cost }) = some (⟨(w.candidate c).key.describe m.catalog,
        costs.getD c zero⟩ : IndexAssignment α) := by
    intro c hc
    have hlt := hw.candidatesFor_lt id c (List.mem_of_mem_filter hc)
    have hroot : (w.candidate c).key.root < m.catalog.entities.length := by
      rw [Workload.candidate_eq_getElem hlt]
      exact hw.root_lt _ (List.getElem_mem hlt)
    rw [Workload.getElem?_candidates hlt, getElem?_eq_some_getD (hcosts.symm ▸ hlt) zero]
    simp only [Option.bind_eq_bind, Option.bind_some, describe_eq hroot]
    rfl
  rw [ofQuery]
  rw [mapM_eq_some hindex, query_eq hid]
  rfl

include hm hw hcosts in
theorem build_eq {o : Outcome α} (ho : o.tables = Tables.collapse w.candidates) :
    build m w costs o = some (.build m w costs o) := by
  have htables : tablesOf m.catalog o = some (Report.tablesOf m.catalog o) := by
    rw [Report.tablesOf, List.mapIdx_eq_zipIdx_map]
    refine mapM_eq_some fun t ht => ?_
    have hmem : t.1 ∈ o.tables.tables := List.fst_mem_of_mem_zipIdx ht
    obtain ⟨c, hc, hroot⟩ := exists_root_eq (ho ▸ hmem)
    rw [ofTable, entity_eq (hroot ▸ hw.root_lt c hc)]
    rfl
  have hqueries : (List.range m.queries.length).mapM (ofQuery m w costs o)
      = some (m.queries.mapIdx (Report.ofQuery m w costs o)) := by
    rw [m.mapIdx_queries]
    exact mapM_eq_some fun id hid => ofQuery_eq hw hcosts (List.mem_range.mp hid)
  have hmutations : m.mutations.mapM (ofMutation m.catalog o)
      = some (m.mutations.map (Report.ofMutation m.catalog o)) := by
    refine mapM_eq_some fun mu hmu => ?_
    rw [ofMutation, entity_eq (hm.mutations mu hmu).1, rootedAt_eq]
    rfl
  rw [build, htables, hqueries, hmutations]
  rfl

end Reports

/-! ### Explanations -/

variable [ScalarText α]

mutual

/-- The lines of a node and of the nodes below it. -/
def explainPlan (line : ℕ → Option String) (depth : ℕ) : Plan → Option String
  | ⟨candidate, children⟩ => do
    let own ← line candidate
    let below ← explainPlans line (depth + 1) children
    return indentation depth ++ own ++ "\n" ++ below

/-- The lines of several nodes. -/
def explainPlans (line : ℕ → Option String) (depth : ℕ) : List Plan → Option String
  | [] => some ""
  | plan :: rest => do
    let first ← explainPlan line depth plan
    let later ← explainPlans line depth rest
    return first ++ later

end

/-- The text of a workload whose candidates have the given costs. -/
def explain (c : Catalog) (w : Workload) (costs : List α) : Option String := do
  let line := fun id => do
    let candidate ← w.candidates[id]?
    let table ← describe c candidate.key
    let cost ← costs[id]?
    return table ++ " cost=" ++ costText cost
  let plans ← w.plans.mapM fun p =>
    (explainPlans line 1 p.plans).map fun lines => p.label ++ "\n" ++ lines
  return String.join plans ++ String.join (w.lookups.map fun l => l.label ++ " by id\n")

mutual

theorem explainPlan_eq {checked : ℕ → Option String} {line : ℕ → String} (plan : Plan)
    (h : ∀ c ∈ plan.ids, checked c = some (line c)) (depth : ℕ) :
    explainPlan checked depth plan = some (plan.explain line depth) := by
  match plan with
  | ⟨candidate, children⟩ =>
    rw [Plan.ids] at h
    obtain ⟨hown, hbelow⟩ := List.forall_mem_cons.mp h
    rw [explainPlan, Plan.explain, hown, explainPlans_eq children hbelow]
    rfl

theorem explainPlans_eq {checked : ℕ → Option String} {line : ℕ → String} (plans : List Plan)
    (h : ∀ c ∈ Plan.idsOf plans, checked c = some (line c)) (depth : ℕ) :
    explainPlans checked depth plans = some (Plan.explainAll line depth plans) := by
  match plans with
  | [] => rw [explainPlans, Plan.explainAll]
  | plan :: rest =>
    rw [Plan.idsOf, List.forall_mem_append] at h
    rw [explainPlans, Plan.explainAll, explainPlan_eq plan h.1, explainPlans_eq rest h.2]
    rfl

end

theorem explain_eq {m : Model α} {w : Workload} (hw : w.RefersTo m) {costs : List α}
    (hcosts : costs.length = w.candidates.length) :
    explain m.catalog w costs = some (w.explain m.catalog costs) := by
  have hline : ∀ c < w.candidates.length, (do
      let candidate ← w.candidates[c]?
      let table ← describe m.catalog candidate.key
      let cost ← costs[c]?
      return table ++ " cost=" ++ costText cost) = some ((w.candidate c).key.describe m.catalog ++
        " cost=" ++ costText (costs.getD c zero)) := by
    intro c hc
    have hroot : (w.candidate c).key.root < m.catalog.entities.length := by
      rw [Workload.candidate_eq_getElem hc]
      exact hw.root_lt _ (List.getElem_mem hc)
    rw [Workload.getElem?_candidates hc, getElem?_eq_some_getD (hcosts.symm ▸ hc) zero]
    simp only [Option.bind_eq_bind, Option.bind_some, describe_eq hroot]
    rfl
  rw [explain]
  rw [mapM_eq_some fun p hp => by
    rw [explainPlans_eq p.plans fun c hc => hline c (hw.plans_lt p hp c hc)]
    rfl]
  rfl

end Checked
end Keyspace
