import Keyspace.Proofs.Planner
import Keyspace.Proofs.Scalar.Laws
import Keyspace.Proofs.Selection.Cheapest
import Keyspace.Proofs.Selection.Plan
import Keyspace.Proofs.Selection.Verified
import Keyspace.Proofs.Workload.Partition

/-!
# Reports account for every level

A report is read off a set of selected candidates, which have lost the order of the levels they were
selected for.  `Report.Accounts` says that nothing is lost: the report is the one that belongs to a
list with one candidate for each planned level (`accounts_build`).

* Each query has an entry, with one table for each of its planned levels and one label for each of
  the others.
* The cost of the second phase is the sum of the costs in the entries, each weighted with the
  throughput of its query.

`Model.plan_accounts` adds where the list comes from: each of its candidates is the cheapest that
the second answer of the solver uses for the level.
-/

namespace Keyspace

open Scalar Formulation Workload
open Exact (finite)

/-! ### What a report has to say -/

section Accounts

variable {α : Type}

/-- The planned levels of a query, each with the candidate it reads from. -/
def Model.readsOf (m : Model α) (choice : List ℕ) (k : QueryId) : List (Level × ℕ) :=
  (m.plannedLevels.zip choice).filter fun e => e.1.query == k

variable [Scalar α]

/-- What the entry of a query has to say if each planned level reads from the chosen candidate. -/
structure QueryAssignment.Accounts (a : QueryAssignment α) (m : Model α) (w : Workload)
    (costs : List α) (choice : List ℕ) (k : QueryId) (q : Query) : Prop where
  query_eq : a.query = q.name
  indexes_eq : a.indexes = (m.readsOf choice k).map fun e =>
    ⟨(w.candidate e.2).key.describe m.catalog, costs.getD e.2 zero⟩
  /-- No planned level of the query is missing. -/
  length_indexes : a.indexes.length
    = (m.queryLevels k q).flatten.countP fun l => !m.bindsIdentifier l.clause
  directLookups_eq : a.directLookups
    = ((m.queryLevels k q).flatten.filter fun l => m.bindsIdentifier l.clause).map Level.label
  length_add : a.indexes.length + a.directLookups.length = (m.queryLevels k q).flatten.length

/-- What a report has to say if each planned level reads from the chosen candidate. -/
structure Report.Accounts (r : Report α) (m : Model α) (w : Workload) (costs : List α)
    (choice : List ℕ) : Prop where
  /-- Each planned level has one of its candidates. -/
  chosen : List.Forall₂ (fun l c => w.candidate c ∈ m.candidates l) m.plannedLevels choice
  length_queries : r.queries.length = m.queries.length
  queries : ∀ k q, m.queries[k]? = some q →
    ∃ a : QueryAssignment α, r.queries[k]? = some a ∧ a.Accounts m w costs choice k q
  phase2Cost_eq : r.phase2Cost = Scalar.sum (List.zipWith
    (fun q a => ofNat q.serviceLevel.throughput * Scalar.sum (a.indexes.map IndexAssignment.cost))
    m.queries r.queries)

end Accounts

/-! ### The reads of a query -/

section Reads

variable {α : Type} {m : Model α} {w : Workload} {choice : List ℕ}
  (hchosen : List.Forall₂ (fun l c => w.candidate c ∈ m.candidates l) m.plannedLevels choice)
include hchosen

theorem map_fst_readsOf (k : QueryId) :
    (m.readsOf choice k).map Prod.fst = m.plannedLevels.filter fun l => l.query == k := by
  have hfst : (m.plannedLevels.zip choice).map Prod.fst = m.plannedLevels :=
    List.map_fst_zip hchosen.length_eq.le
  conv_rhs => rw [← hfst, List.filter_map]
  rfl

theorem query_of_mem_zip {e : Level × ℕ} (he : e ∈ m.plannedLevels.zip choice) :
    (w.candidate e.2).query = e.1.query :=
  Model.query_of_mem_candidates ((List.forall₂_iff_zip.mp hchosen).2 he)

/-- The candidates that a query reads from are the chosen ones that were found for it. -/
theorem map_snd_readsOf (k : QueryId) :
    (m.readsOf choice k).map Prod.snd = choice.filter fun c => (w.candidate c).query == k := by
  have hsnd : (m.plannedLevels.zip choice).map Prod.snd = choice :=
    List.map_snd_zip hchosen.length_eq.ge
  conv_rhs => rw [← hsnd, List.filter_map]
  rw [Model.readsOf]
  refine congrArg (List.map Prod.snd) (List.filter_congr fun e he => ?_)
  rw [Function.comp, query_of_mem_zip hchosen he]

theorem length_readsOf {k : QueryId} {q : Query} (hq : m.queries[k]? = some q) :
    (m.readsOf choice k).length
      = (m.queryLevels k q).flatten.countP fun l => !m.bindsIdentifier l.clause := by
  rw [← List.length_map Prod.fst, map_fst_readsOf hchosen, Model.plannedLevels,
    List.filter_comm, Model.filter_levels_query hq, List.countP_eq_length_filter]

end Reads

/-! ### The entry of a query -/

section Entry

variable {α : Type} [Scalar α] {m : Model α} {rowScanCost : α} {prune : Bool} {memo : Memo α}
  {w : Workload} (hw : (m.search rowScanCost prune memo).1 = .ok w) {costs : List α}
  {choice : List ℕ} (hchoice : List.Forall₂ (· ∈ ·) choice w.siblingSets)
include hw hchoice

/-- One alternative for each planned level is one of the candidates of each planned level. -/
theorem forall₂_candidates_of_chosen :
    List.Forall₂ (fun l c => w.candidate c ∈ m.candidates l) m.plannedLevels choice := by
  rw [Model.siblingSets_eq_levelSets hw] at hchoice
  have hsets := Model.forall₂_levelSets hw
  refine List.forall₂_iff_get.mpr ⟨hsets.length_eq.trans hchoice.length_eq.symm, ?_⟩
  intro i hi hi'
  have hi'' : i < (m.levelSets rowScanCost prune memo).length := hsets.length_eq ▸ hi
  obtain ⟨-, hsub⟩ := hsets.get hi hi''
  exact hsub.subset (List.mem_map_of_mem (hchoice.get hi' hi''))

variable {o : Outcome α} (ho : o.selectedCandidates = .ofList choice)
include ho

/-- The selected candidates of a query are those it reads from, in the order of its levels. -/
theorem filter_candidatesFor_eq (k : QueryId) :
    (w.candidatesFor k).filter o.selectedCandidates.contains
      = (m.readsOf choice k).map Prod.snd := by
  have hlevels := Model.isLeveled_siblingSets hw
  have hselected : ∀ c, o.selectedCandidates.contains c = true ↔ c ∈ choice := by
    intro c
    rw [ho, SortedSet.contains_eq_true_iff, toList_ofList_of_forall₂ hlevels hchoice]
    simp
  rw [map_snd_readsOf (forall₂_candidates_of_chosen hw hchoice), Model.candidatesFor_eq_filter hw]
  refine SortedSet.eq_of_ascending_of_mem_iff
    (((SortedSet.ascending_of_lt List.pairwise_lt_range).filter _).filter _)
    ((SortedSet.ascending_of_lt (pairwise_lt_of_forall₂ hlevels hchoice)).filter _) fun c => ?_
  rw [List.mem_filter, List.mem_filter, List.mem_filter, List.mem_range, hselected]
  constructor
  · rintro ⟨⟨-, hquery⟩, hmem⟩
    exact ⟨hmem, hquery⟩
  · rintro ⟨hmem, hquery⟩
    exact ⟨⟨lt_of_forall₂ hlevels hchoice hmem, hquery⟩, hmem⟩

/-- The entry of a query has one table for each planned level and one label for each of the
others. -/
theorem accounts_ofQuery {k : QueryId} {q : Query} (hq : m.queries[k]? = some q) :
    (Report.ofQuery m w costs o k q).Accounts m w costs choice k q := by
  have hindexes : (Report.ofQuery m w costs o k q).indexes = (m.readsOf choice k).map fun e =>
      ⟨(w.candidate e.2).key.describe m.catalog, costs.getD e.2 zero⟩ := by
    rw [Report.ofQuery, filter_candidatesFor_eq hw hchoice ho, List.map_map]
    rfl
  have hlength : (Report.ofQuery m w costs o k q).indexes.length
      = (m.queryLevels k q).flatten.countP fun l => !m.bindsIdentifier l.clause := by
    rw [hindexes, List.length_map, length_readsOf (forall₂_candidates_of_chosen hw hchoice) hq]
  have hlookups : (Report.ofQuery m w costs o k q).directLookups
      = ((m.queryLevels k q).flatten.filter fun l => m.bindsIdentifier l.clause).map
          Level.label := by
    rw [Report.ofQuery, Model.lookups_eq hw, List.filter_map, List.map_map,
      ← Model.filter_levels_query hq, List.filter_comm]
    rfl
  refine ⟨rfl, hindexes, hlength, hlookups, ?_⟩
  have hsplit := List.length_eq_countP_add_countP (l := (m.queryLevels k q).flatten)
    fun l => m.bindsIdentifier l.clause
  rw [hlength, hlookups, List.length_map, ← List.countP_eq_length_filter, hsplit, Nat.add_comm]
  simp

end Entry

/-! ### The cost of the second phase -/

section Costs

variable {m : Model Exact} {rowScanCost : Exact} {prune : Bool} {memo : Memo Exact}
  {w : Workload} (hw : (m.search rowScanCost prune memo).1 = .ok w) {costs : List Exact}
  {choice : List ℕ} (hchoice : List.Forall₂ (· ∈ ·) choice w.siblingSets)
include hw hchoice

/-- The weighted cost of the chosen candidates, query by query. -/
theorem weightedCost_eq_sum_queries :
    (m.formulate w costs).weightedCost choice
      = Scalar.sum ((List.range m.queries.length).map fun k =>
          ofNat (m.query k).serviceLevel.throughput *
            Scalar.sum ((m.readsOf choice k).map fun e => costs.getD e.2 zero)) := by
  have hlevels := Model.isLeveled_siblingSets hw
  have hchosen := forall₂_candidates_of_chosen hw hchoice
  have hsnd : (m.plannedLevels.zip choice).map Prod.snd = choice :=
    List.map_snd_zip hchosen.length_eq.ge
  have hterms : (m.formulate w costs).weightedCost choice
      = Scalar.sum ((m.plannedLevels.zip choice).map fun e =>
          costs.getD e.2 zero * ofNat (m.query e.1.query).serviceLevel.throughput) := by
    conv_lhs => rw [weightedCost, ← hsnd, List.map_map]
    refine congrArg Scalar.sum (List.map_congr_left fun e he => ?_)
    have hlt := lt_of_forall₂ hlevels hchoice (List.of_mem_zip he).2
    rw [Function.comp, getD_costTerms m w costs hlt, query_of_mem_zip hchosen he]
  have hquery : ∀ e ∈ m.plannedLevels.zip choice, e.1.query < m.queries.length := fun e he =>
    m.query_lt_of_mem_levels (List.mem_of_mem_filter (List.of_mem_zip he).1)
  rw [hterms, Exact.sum_map_eq_sum_filter _ hquery]
  refine congrArg Scalar.sum (List.map_congr_left fun k _ => ?_)
  -- within one query the throughput is the same throughout
  have hfactor : ((m.plannedLevels.zip choice).filter fun e => e.1.query == k).map
        (fun e => costs.getD e.2 zero * ofNat (m.query e.1.query).serviceLevel.throughput)
      = ((m.readsOf choice k).map fun e => costs.getD e.2 zero).map
          (· * finite ((m.query k).serviceLevel.throughput : ℚ)) := by
    rw [List.map_map]
    refine List.map_congr_left fun e he => ?_
    have hk : e.1.query = k := beq_iff_eq.mp (List.mem_filter.mp he).2
    rw [Function.comp, hk, Exact.ofNat_eq]
  rw [hfactor, ← Exact.sum_mul_finite, Exact.mul_comm, Exact.ofNat_eq]

/-- **The report on selected candidates accounts for every level.** -/
theorem accounts_build {o : Outcome Exact} (ho : o.selectedCandidates = .ofList choice)
    (hcost : o.phase2Cost = (m.formulate w costs).weightedCost choice) :
    (Report.build m w costs o).Accounts m w costs choice := by
  have hqueries : ∀ k q, m.queries[k]? = some q →
      (Report.build m w costs o).queries[k]? = some (Report.ofQuery m w costs o k q) := by
    intro k q hq
    rw [Report.build, List.getElem?_mapIdx, hq]
    rfl
  have hlength : (Report.build m w costs o).queries.length = m.queries.length :=
    List.length_mapIdx
  refine ⟨forall₂_candidates_of_chosen hw hchoice, hlength, fun k q hq => ?_, ?_⟩
  · exact ⟨_, hqueries k q hq, accounts_ofQuery hw hchoice ho hq⟩
  · have hsum : (Report.build m w costs o).phase2Cost = o.phase2Cost := rfl
    rw [hsum, hcost, weightedCost_eq_sum_queries hw hchoice]
    refine congrArg Scalar.sum (List.ext_getElem (by simp [hlength]) fun k hk hk' => ?_)
    have hlt : k < m.queries.length := by simpa using hk
    have hq : m.queries[k]? = some (m.query k) := by
      rw [Model.query, List.getD_eq_getElem _ _ hlt, List.getElem?_eq_getElem hlt]
    obtain ⟨_, hquery⟩ := List.getElem?_eq_some_iff.mp hq
    obtain ⟨_, hentry⟩ := List.getElem?_eq_some_iff.mp (hqueries k _ hq)
    have hindexes : (Report.ofQuery m w costs o k (m.query k)).indexes
        = (m.readsOf choice k).map fun e =>
            ⟨(w.candidate e.2).key.describe m.catalog, costs.getD e.2 zero⟩ :=
      (accounts_ofQuery hw hchoice ho hq).indexes_eq
    rw [List.getElem_map, List.getElem_range, List.getElem_zipWith, hquery, hentry, hindexes,
      List.map_map]
    rfl

end Costs

/-! ### The cheapest used candidate of each level -/

section Select

variable {σ : Type} {m : Model Exact} {rowScanCost : Exact} {prune : Bool} {memo : Memo Exact}
  {w : Workload} (hw : (m.search rowScanCost prune memo).1 = .ok w) {costs : List Exact}
include hw

/-- Nothing is selected for a workload without candidates, and there is nothing to report. -/
theorem accounts_of_isEmpty (hempty : w.isEmpty = true) {costMargin tolerance : Exact}
    {solver : Solver σ Exact} {state : σ} {o : Outcome Exact}
    (ho : (m.select w costs costMargin tolerance solver state).1 = .ok o) :
    (Report.build m w costs o).Accounts m w costs [] := by
  have hnil := (Model.isLeveled_siblingSets hw).eq_nil hempty
  rw [Model.select, if_pos hempty] at ho
  obtain rfl := Except.ok.inj ho
  refine accounts_build hw ?_ rfl rfl
  rw [hnil]
  exact .nil

/-- If the second answer serves the workload, the report accounts for the cheapest candidates that
it uses. -/
theorem exists_accounts_of_serves {phase1 phase2 : Solution Exact × PhaseStats Exact} {qs : List ℚ}
    (hqs : phase2.1.values = qs.map finite)
    (hserves : w.Serves w.siblingSets (setTables w qs) (setCandidates w qs)) :
    ∃ choice,
      (Report.build m w costs ((m.formulate w costs).outcome w costs phase1 phase2)).Accounts
        m w costs choice ∧
      List.Forall₂ ((m.formulate w costs).IsCheapest costs phase2.1) w.siblingSets choice := by
  have hlevels := Model.isLeveled_siblingSets hw
  obtain ⟨choice, htaken, heq⟩ := exists_taken_of_serves m costs hqs hlevels hserves
  have hchoice : List.Forall₂ (· ∈ ·) choice w.siblingSets :=
    htaken.imp fun c ids h => (cheapestUsed?_eq_some _ costs phase2.1 h).1
  have hcost : ((m.formulate w costs).outcome w costs phase1 phase2).phase2Cost
      = (m.formulate w costs).weightedCost choice := by
    rw [outcome, heq, toList_ofList_of_forall₂ hlevels hchoice]
  refine ⟨choice, accounts_build hw hchoice heq hcost, ?_⟩
  refine List.forall₂_iff_get.mpr ⟨htaken.length_eq.symm, fun i hi hi' => ?_⟩
  have hasc := hlevels.pairwise_lt (List.getElem_mem hi)
  exact isCheapest_of_cheapestUsed? hasc (htaken.get hi' hi)

end Select

/-- **A report loses and invents nothing.**  If the tolerance is small against the number of
variables, each planned level of a query has one assignment, which is the cheapest of its candidates
that the second answer of the solver uses; the other levels are the direct lookups; and the costs of
the assignments add up to that of the second phase. -/
theorem Model.plan_accounts {σ : Type} {m : Model Exact} {s : Settings Exact} {w : Workload}
    {costs : List Exact}
    (hpriced : m.pricedWorkload s.rowScanCost s.pruneOverLatency = .ok (w, costs))
    (hN : lt (ofNat ((m.formulate w costs).program.names.length + 1) * s.verifyTolerance) one
      = true)
    {solver : Solver σ Exact} {state : σ} {r : Report Exact}
    (h : (m.plan s solver state).1 = .ok r) :
    List.Forall₂ (fun l ids => ids ≠ [] ∧ (ids.map w.candidate).Sublist (m.candidates l))
      m.plannedLevels w.siblingSets ∧
    ∃ choice, r.Accounts m w costs choice ∧
      (w.isEmpty = false → ∃ s₁ s₂,
        (solver (m.formulate w costs).program state).1 = .ok s₁ ∧
        (solver ((m.formulate w costs).countTables (s₁.objective * s.costMargin))
          (solver (m.formulate w costs).program state).2).1 = .ok s₂ ∧
        List.Forall₂ ((m.formulate w costs).IsCheapest costs s₂) w.siblingSets choice) := by
  have hw := search_of_pricedWorkload hpriced
  have hlevels := isLeveled_siblingSets hw
  refine ⟨siblingSets_eq_levelSets hw ▸ forall₂_levelSets hw, ?_⟩
  obtain ⟨hvalid, w', costs', o, hpriced', hselect, rfl⟩ := plan_eq_ok_iff.mp h
  obtain ⟨rfl, rfl⟩ := Prod.mk.inj (Except.ok.inj (hpriced.symm.trans hpriced'))
  cases hne : w.isEmpty with
  | true => exact ⟨[], accounts_of_isEmpty hw hne hselect, fun hfalse => absurd hfalse (by simp)⟩
  | false =>
    obtain ⟨t, ht, htolerance⟩ :=
      (Settings.tolerance_of_validate hvalid).resolve_right fun hinf => by
        rw [hinf, Exact.ofNat_mul_posInf (Nat.succ_pos _)] at hN
        exact absurd hN Bool.false_ne_true
    rw [htolerance, Exact.ofNat_eq, Exact.finite_mul_finite, Exact.one_eq, Exact.lt_finite,
      decide_eq_true_eq] at hN
    push_cast at hN
    rw [htolerance] at hselect
    obtain ⟨phase1, phase2, hs₁, hs₂, -, hv₂, rfl⟩ := exists_answers_of_select_eq_ok hne hselect
    obtain ⟨qs, hqs, hsel⟩ :=
      exists_isSelection_of_verify hlevels hne ht.le hN (verify_of_countTables hv₂)
    obtain ⟨choice, haccounts, hcheapest⟩ := exists_accounts_of_serves hw hqs hsel.toServes
    exact ⟨choice, haccounts, fun _ => ⟨phase1.1, phase2.1, hs₁, hs₂, hcheapest⟩⟩

/-! ### Example -/

namespace Forum

/-- The costs of the candidates.  Without the name the whole table of users has to be scanned. -/
def costs : List Exact := [1, 1, 999999999, 1].map finite

/-- Settings without pruning. -/
def settings : Settings Exact where
  rowScanCost := finite 1
  costMargin := finite (11 / 10)
  verifyTolerance := finite (1 / 100)
  pruneOverLatency := false

/-- A solver that sets all variables of every program. -/
def allSet : Solver Unit Exact := fun p s =>
  (.ok ⟨p.names.map fun _ => finite 1, p.evaluate (p.names.map fun _ => finite 1)⟩, s)

theorem pricedWorkload_eq :
    model.pricedWorkload settings.rowScanCost settings.pruneOverLatency
      = .ok (workload, costs) :=
  Model.pricedWorkload_eq_ok rfl (by decide +kernel)

theorem exists_plan_eq_ok : ∃ r, (model.plan settings allSet ()).1 = .ok r := by
  have hvalid : settings.validate = .ok () :=
    Settings.validate_eq_ok_iff.mpr (by decide +kernel)
  have hok : (model.plan settings allSet ()).1.isOk = true := by
    rw [Model.plan, hvalid]
    dsimp only
    rw [pricedWorkload_eq]
    dsimp only
    rw [Model.select, Model.formulate, siblingSets_eq]
    decide +kernel
  exact exists_eq_ok_of_isOk hok

end Forum

/-- The report on a forum of which every table is built accounts for its levels. -/
theorem Model.plan_accounts_forum :
    ∃ r choice, (Forum.model.plan Forum.settings Forum.allSet ()).1 = .ok r ∧
      r.Accounts Forum.model Forum.workload Forum.costs choice := by
  have hN : lt (ofNat ((Forum.model.formulate Forum.workload Forum.costs).program.names.length + 1)
      * Forum.settings.verifyTolerance) one = true := by decide +kernel
  obtain ⟨r, hr⟩ := Forum.exists_plan_eq_ok
  obtain ⟨-, choice, haccounts, -⟩ := Model.plan_accounts Forum.pricedWorkload_eq hN hr
  exact ⟨r, choice, hr, haccounts⟩

end Keyspace
