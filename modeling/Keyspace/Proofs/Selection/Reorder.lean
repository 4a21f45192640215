import Keyspace.Proofs.Selection.Collapse
import Keyspace.Proofs.Selection.Determined
import Keyspace.Proofs.Workload.Priced
import Keyspace.Proofs.Workload.Reorder

/-!
# The order of declarations does not matter

Searches of a model and of one that declares the same in another order find the same candidates
under other numbers (`Model.exists_renumbers`).  The tables are then the same, in the same places,
so that a selection of the one workload is one of the other once its candidates are renumbered, and
it costs as much (`Model.Renumbers.isSelection`).  Since what an exact solver determines depends on
these costs alone, both selections come to the same (`Model.select_reorders`).
-/

namespace Keyspace

open Scalar Tables Formulation
open Exact (finite)

/-! ### The same tables -/

namespace Model

variable {α : Type} [Scalar α] {m m' : Model α} {rowScanCost : α} {prune : Bool} {w w' : Workload}

/-- Candidates of a searched workload whose keys compare equal have the same key. -/
theorem key_eq_of_compare_eq (hw : (m.search rowScanCost prune {}).1 = .ok w) :
    ∀ c ∈ w.candidates, ∀ d ∈ w.candidates, compare c.key d.key = .eq → c.key = d.key := by
  have hsargable : ∀ c ∈ w.candidates, c.key.IsSargable := by
    intro c hc
    obtain ⟨i, hi, rfl⟩ := List.getElem_of_mem hc
    obtain ⟨l, -, hl⟩ := exists_level_of_lt hw hi
    rw [← Workload.candidate_eq_getElem hi]
    exact isSargable_key_of_mem hl
  exact fun c hc d hd heq =>
    TableKey.IsSargable.eq_of_compare_eq heq (hsargable c hc) (hsargable d hd)

/-- Searches of models in another order lead to the same tables, with as many members. -/
theorem map_tables_reorders (h : m.Reorders m')
    (hw : (m.search rowScanCost prune {}).1 = .ok w)
    (hw' : (m'.search rowScanCost prune {}).1 = .ok w') :
    ((collapse w.candidates).tables.map fun t => (t.key, t.members.length))
      = (collapse w'.candidates).tables.map fun t => (t.key, t.members.length) := by
  obtain ⟨number, hnumber⟩ := exists_renumbers h hw hw'
  exact map_tables_eq hnumber.keys_perm (key_eq_of_compare_eq hw)

end Model

/-! ### The same selections -/

namespace Model.Renumbers

variable {m m' : Model Exact} {w w' : Workload} {number : ℕ → ℕ}
  (hn : m.Renumbers m' w w' number)
  (hkeys : ∀ c ∈ w.candidates, ∀ d ∈ w.candidates, compare c.key d.key = .eq → c.key = d.key)
include hn hkeys

/-- The table of a candidate keeps its place. -/
theorem home_number {c : ℕ} (hc : c < w'.candidates.length) :
    (collapse w.candidates).home (number c) = (collapse w'.candidates).home c := by
  refine home_eq_home hn.keys_perm hkeys (hn.number_lt hc) hc ?_
  rw [← Workload.candidate_eq_getElem hc, ← Workload.candidate_eq_getElem (hn.number_lt hc),
    hn.key_number hc]

/-- A selection is one of the other workload once its candidates are renumbered. -/
theorem isSelection (hmutations : m.mutations.Perm m'.mutations)
    (hw' : w'.IsLeveled w'.siblingSets) {T U : Finset ℕ}
    (h : m.IsSelection w w.siblingSets T U) :
    m'.IsSelection w' w'.siblingSets T
      ((Finset.range w'.candidates.length).filter fun c => number c ∈ U) := by
  refine ⟨⟨fun t ht => ?_, fun c hc => ?_, fun c hc => ?_, fun ids hids => ?_⟩,
    fun mu hmu hins hex => ?_⟩
  · rw [← size_eq_size hn.keys_perm hkeys]
    exact h.table_lt t ht
  · exact Finset.mem_range.mp (Finset.mem_filter.mp hc).1
  · obtain ⟨hc, hused⟩ := Finset.mem_filter.mp hc
    rw [← hn.home_number hkeys (Finset.mem_range.mp hc)]
    exact h.linked _ hused
  · obtain ⟨_, hmem, hused⟩ := h.covered _ (hn.siblingSets.subset (List.mem_map_of_mem hids))
    obtain ⟨c, hc, rfl⟩ := List.mem_map.mp hmem
    have hlt := Finset.mem_range.mpr (hw'.lt_of_mem hids hc)
    exact ⟨c, hc, Finset.mem_filter.mpr ⟨hlt, hused⟩⟩
  · -- the tables of an entity are the same ones
    have hchosen : w'.chosenAt T mu.entity = w.chosenAt T mu.entity := by
      simp only [Workload.chosenAt, key_table_eq hn.keys_perm hkeys]
    rw [hchosen]
    refine h.fanout mu (hmutations.mem_iff.mpr hmu) hins ?_
    obtain ⟨c, hc, hroot⟩ := hex
    obtain ⟨d, hd, hkey⟩ := List.mem_map.mp (hn.keys_perm.symm.subset (List.mem_map_of_mem hc))
    exact ⟨d, hd, by rw [hkey, hroot]⟩

omit hkeys in
/-- Renumbered candidates cost as much. -/
theorem sum_weight {costs costs' : List ℚ}
    (hcosts : ∀ c < w'.candidates.length, costs.getD (number c) 0 = costs'.getD c 0)
    {U : Finset ℕ} (hU : ∀ c ∈ U, c < w.candidates.length) :
    ∑ c ∈ (Finset.range w'.candidates.length).filter (fun c => number c ∈ U),
        m'.weight w' costs' c
      = ∑ c ∈ U, m.weight w costs c := by
  refine Finset.sum_nbij number (fun c hc => (Finset.mem_filter.mp hc).2) ?_ ?_ fun c hc => ?_
  · intro c hc d hd heq
    exact hn.eq_of_number_eq (Finset.mem_range.mp (Finset.mem_filter.mp hc).1)
      (Finset.mem_range.mp (Finset.mem_filter.mp hd).1) heq
  · intro c hc
    obtain ⟨c', hc', rfl⟩ := hn.exists_number_eq (hU c hc)
    exact ⟨c', Finset.mem_filter.mpr ⟨Finset.mem_range.mpr hc', hc⟩, rfl⟩
  · have hlt := Finset.mem_range.mp (Finset.mem_filter.mp hc).1
    rw [weight, weight, hcosts c hlt, (hn.same c hlt).serviceLevel_eq]

end Model.Renumbers

/-! ### The same programs and costs -/

namespace Model

/-- The prices of candidates that are the same are the same. -/
theorem getD_costs_eq {m m' : Model Exact} (h : m.Reorders m') {rowScanCost : Exact}
    {w w' : Workload} {number : ℕ → ℕ} (hn : m.Renumbers m' w w' number) {costs costs' : List ℚ}
    (hcosts : List.Forall₂
      (fun c cost => (m.estimate rowScanCost c).map Estimate.total = .ok (finite cost))
      w.candidates costs)
    (hcosts' : List.Forall₂
      (fun c cost => (m'.estimate rowScanCost c).map Estimate.total = .ok (finite cost))
      w'.candidates costs') :
    ∀ c < w'.candidates.length, costs.getD (number c) 0 = costs'.getD c 0 := by
  intro c hc
  have hat := Workload.rel_getD_of_forall₂ hcosts (hn.number_lt hc) 0
  have hat' := Workload.rel_getD_of_forall₂ hcosts' hc 0
  rw [(hn.same c hc).eq_moveTo, estimate_moveTo h.catalog_eq h.statistics_eq, hat] at hat'
  exact Exact.finite.inj (Except.ok.inj hat')

section Programs

variable {m m' : Model Exact} (h : m.Reorders m') {rowScanCost : ℚ} {prune : Bool}
  {w w' : Workload}
  (hw : (m.search (finite rowScanCost) prune {}).1 = .ok w)
  (hw' : (m'.search (finite rowScanCost) prune {}).1 = .ok w')
  {costs costs' : List ℚ}
  (hcosts : List.Forall₂
    (fun c cost => (m.estimate (finite rowScanCost) c).map Estimate.total = .ok (finite cost))
    w.candidates costs)
  (hcosts' : List.Forall₂
    (fun c cost => (m'.estimate (finite rowScanCost) c).map Estimate.total = .ok (finite cost))
    w'.candidates costs')
include h hw hw'

/-- The programs are of the same size. -/
theorem length_formulate_eq (costs costs' : List Exact) :
    (m.formulate w costs).program.names.length = (m'.formulate w' costs').program.names.length ∧
    (m.formulate w costs).program.constraints.length
      = (m'.formulate w' costs').program.constraints.length := by
  obtain ⟨number, hn⟩ := exists_renumbers h hw hw'
  have hroots : ∀ id : EntityId, w.candidates.any (fun c => c.key.root == id)
      = w'.candidates.any fun c => c.key.root == id := by
    intro id
    have hany := hn.keys_perm.any_eq (f := fun key : TableKey => key.root == id)
    rwa [List.any_map, List.any_map] at hany
  have hsets : w.siblingSets.length = w'.siblingSets.length := by
    rw [← hn.siblingSets.length_eq, List.length_map]
  rw [length_names, length_names, length_constraints, length_constraints, hn.length_eq, hsets,
    h.mutations.countP_eq, size_eq_size hn.keys_perm (key_eq_of_compare_eq hw)]
  simp only [hroots, and_self]

include hcosts hcosts'

theorem HasSelection.reorder {T : Finset ℕ} {cost : ℚ} (hsel : m.HasSelection w costs T cost) :
    m'.HasSelection w' costs' T cost := by
  obtain ⟨number, hn⟩ := exists_renumbers h hw hw'
  obtain ⟨U, hsel, rfl⟩ := hsel
  exact ⟨_, hn.isSelection (key_eq_of_compare_eq hw) h.mutations (isLeveled_siblingSets hw') hsel,
    hn.sum_weight (getD_costs_eq h hn hcosts hcosts') hsel.candidate_lt⟩

end Programs

/-! ### The same selections by an exact solver -/

/-- **The order of declarations does not matter.**  For models that declare the same queries,
selections and mutations in some other order, both searches succeed or both fail; if they succeed,
they lead to the same tables with as many members; and with rational costs and an exact solver, both
selections have the same least cost and as many tables, or both are infeasible.  With a tolerance
that accepts no answer at all, both are refused. -/
theorem select_reorders :
    (∀ {α : Type} [Scalar α] {m m' : Model α}, m.Reorders m' → ∀ (rowScanCost : α) (prune : Bool),
      ((∃ w, (m.search rowScanCost prune {}).1 = .ok w) ↔
        ∃ w', (m'.search rowScanCost prune {}).1 = .ok w') ∧
      ∀ w w', (m.search rowScanCost prune {}).1 = .ok w →
        (m'.search rowScanCost prune {}).1 = .ok w' →
        ((collapse w.candidates).tables.map fun t => (t.key, t.members.length))
          = (collapse w'.candidates).tables.map fun t => (t.key, t.members.length)) ∧
    ∀ {m m' : Model Exact}, m.Reorders m' → ∀ (rowScanCost : ℚ) (prune : Bool) (w w' : Workload),
      (m.search (finite rowScanCost) prune {}).1 = .ok w →
      (m'.search (finite rowScanCost) prune {}).1 = .ok w' →
      ∃ costs costs',
        m.pricedWorkload (finite rowScanCost) prune = .ok (w, costs) ∧
        m'.pricedWorkload (finite rowScanCost) prune = .ok (w', costs') ∧
        ∀ (costMargin : ℚ) (tolerance : Exact) {σ σ' : Type} {solver : Solver σ Exact}
          {solver' : Solver σ' Exact}, solver.IsExact → solver'.IsExact → ∀ state state',
          (∃ o o',
            (m.select w costs (finite costMargin) tolerance solver state).1 = .ok o ∧
            (m'.select w' costs' (finite costMargin) tolerance solver' state').1 = .ok o' ∧
            o.phase1Cost = o'.phase1Cost ∧ o.tableCount = o'.tableCount) ∨
          (∃ phase constraintCount variableCount,
            (m.select w costs (finite costMargin) tolerance solver state).1
              = .error (.infeasible phase constraintCount variableCount) ∧
            (m'.select w' costs' (finite costMargin) tolerance solver' state').1
              = .error (.infeasible phase constraintCount variableCount)) ∨
          le zero tolerance = false ∧ ∃ v v',
            (m.select w costs (finite costMargin) tolerance solver state).1
              = .error (.integrity .cost v) ∧
            (m'.select w' costs' (finite costMargin) tolerance solver' state').1
              = .error (.integrity .cost v') := by
  refine ⟨fun h rowScanCost prune => ⟨exists_search_reorders_iff h rowScanCost prune,
    fun w w' => map_tables_reorders h⟩, fun {m m'} h rowScanCost prune w w' hw hw' => ?_⟩
  obtain ⟨costs, hpriced, hcosts⟩ := exists_rational_pricedWorkload hw
  obtain ⟨costs', hpriced', hcosts'⟩ := exists_rational_pricedWorkload hw'
  refine ⟨_, _, hpriced, hpriced', ?_⟩
  intro costMargin tolerance σ σ' solver solver' hexact hexact' state state'
  obtain ⟨hnames, hconstraints⟩ := length_formulate_eq h hw hw' (costs.map finite)
    (costs'.map finite)
  obtain ⟨number, hn⟩ := exists_renumbers h hw hw'
  cases hempty : w.isEmpty with
  | true =>
    exact .inl ⟨_, _, select_of_isEmpty hempty, select_of_isEmpty (hn.isEmpty_eq ▸ hempty), rfl,
      rfl⟩
  | false =>
    -- both selections start from the same costs
    have hhas : m'.HasSelection w' costs' = m.HasSelection w costs := by
      funext T q
      exact propext ⟨HasSelection.reorder h.symm hw' hw hcosts' hcosts,
        HasSelection.reorder h hw hw' hcosts hcosts'⟩
    have hfrom := selectsFrom m costs (isLeveled_siblingSets hw) hempty costMargin tolerance
      hexact state
    have hfrom' := selectsFrom m' costs' (isLeveled_siblingSets hw') (hn.isEmpty_eq ▸ hempty)
      costMargin tolerance hexact' state'
    rw [hhas, ← hnames, ← hconstraints] at hfrom'
    exact hfrom.agree hfrom'

end Model

/-- A forum that declares its queries in reverse has the same tables, and as cheap a selection of as
many of them. -/
theorem Model.select_reorders_forum :
    ∃ w' costs' o o',
      (Forum.model.reverse.search (finite 1) false {}).1 = .ok w' ∧
      ((collapse Forum.workload.candidates).tables.map fun t => (t.key, t.members.length))
        = ((collapse w'.candidates).tables.map fun t => (t.key, t.members.length)) ∧
      Forum.model.reverse.pricedWorkload (finite 1) false = .ok (w', costs') ∧
      (Forum.model.select Forum.workload ([1, 1, 999999999, 1].map finite) (finite (3 / 2))
        (finite (1 / 1000)) ExactSolver.enumerate {}).1 = .ok o ∧
      (Forum.model.reverse.select w' costs' (finite (3 / 2)) (finite (1 / 1000))
        ExactSolver.enumerate {}).1 = .ok o' ∧
      o.phase1Cost = o'.phase1Cost ∧ o.tableCount = o'.tableCount := by
  have hw : (Forum.model.search (finite 1) false {}).1 = .ok Forum.workload := rfl
  have hpriced : Forum.model.pricedWorkload (finite 1) false
      = .ok (Forum.workload, [1, 1, 999999999, 1].map finite) :=
    Model.pricedWorkload_eq_ok hw (by decide +kernel)
  have hok : (Forum.model.select Forum.workload ([1, 1, 999999999, 1].map finite) (finite (3 / 2))
      (finite (1 / 1000)) ExactSolver.enumerate {}).1.isOk = true := by
    rw [Model.select, Model.formulate, Forum.siblingSets_eq]
    decide +kernel
  obtain ⟨_, hok⟩ := exists_eq_ok_of_isOk hok
  obtain ⟨hsearch, htables⟩ :=
    Model.select_reorders.1 Forum.model.reorders_reverse (finite 1) false
  obtain ⟨w', hw'⟩ := hsearch.mp ⟨_, hw⟩
  obtain ⟨costs, costs', hpriced', hpriced'', hselect⟩ :=
    Model.select_reorders.2 Forum.model.reorders_reverse 1 false _ _ hw hw'
  obtain rfl := (Prod.mk.inj (Except.ok.inj (hpriced.symm.trans hpriced'))).2
  rcases hselect (3 / 2) (finite (1 / 1000)) isExact_enumerate isExact_enumerate {} {} with
    ⟨o, o', ho, ho', hcost, hcount⟩ | ⟨_, _, _, herror, -⟩ | ⟨-, _, _, herror, -⟩
  · exact ⟨w', costs', o, o', hw', htables _ _ hw hw', hpriced'', ho, ho', hcost, hcount⟩
  · exact absurd (hok.symm.trans herror) (by simp)
  · exact absurd (hok.symm.trans herror) (by simp)

end Keyspace
