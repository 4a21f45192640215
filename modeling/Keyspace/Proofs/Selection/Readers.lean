import Keyspace.Proofs.Selection.Optimal

/-!
# Every selected table is read

The answer of the second phase may use candidates that the selection drops, since each level keeps
only its cheapest one.  No table is selected for their sake alone: without a table that no selected
candidate is read from, what is left is still a plan (`Model.IsPlan.erase`) of the same cost, on
fewer tables.  So the selected tables of an exact solver are the homes of the selected candidates
(`Model.mem_selectedTables_iff`).
-/

namespace Keyspace

open Tables
open Exact (finite)

/-- An exact solver answers only with optimal answers. -/
theorem Solver.IsExact.isOptimal {σ : Type} {solver : Solver σ Exact} (hexact : solver.IsExact)
    {p : Program Exact} (hp : p.IsRational) (hnames : p.names ≠ []) {state : σ} {s : Solution Exact}
    (h : (solver p state).1 = .ok s) : p.IsOptimal s := by
  rcases hexact p hp hnames state with ⟨s', hs', hoptimal⟩ | ⟨herror, -⟩
  · obtain rfl := Except.ok.inj (h.symm.trans hs')
    exact hoptimal
  · exact absurd (h.symm.trans herror) (by simp)

/-! ### Plans without unread tables -/

section Plans

variable {α : Type} {m : Model α} {w : Workload} {sets : List (List ℕ)} {T : Finset ℕ}
  {choice : List ℕ} {t : ℕ}

/-- A table that no candidate of a plan is read from can be left out. -/
theorem Model.IsPlan.erase (h : m.IsPlan w sets T choice)
    (hunread : ∀ c ∈ choice, (collapse w.candidates).home c ≠ t) :
    m.IsPlan w sets (T.erase t) choice := by
  refine ⟨fun t' ht' => h.table_lt t' (Finset.mem_of_mem_erase ht'), h.chosen, fun c hc => ?_,
    fun mu hmu hins => ?_⟩
  · exact Finset.mem_erase.mpr ⟨hunread c hc, h.built c hc⟩
  · -- an insertion touches no more tables than before
    have hsub : w.chosenAt (T.erase t) mu.entity ⊆ w.chosenAt T mu.entity :=
      Finset.filter_subset_filter _ (Finset.erase_subset t T)
    exact (Finset.card_le_card hsub).trans (h.fanout mu hmu hins)

end Plans

/-- If no plan within a cost has fewer tables, every table of the plan is read. -/
theorem Model.IsPlan.exists_home_eq {m : Model Exact} {w : Workload} {sets : List (List ℕ)}
    {costs : List ℚ} {limit : ℚ} {T : Finset ℕ} {choice : List ℕ} (h : m.IsPlan w sets T choice)
    (hcost : m.planCost w costs choice ≤ limit)
    (hfewest : ∀ T' choice', m.IsPlan w sets T' choice' → m.planCost w costs choice' ≤ limit →
      T.card ≤ T'.card)
    {t : ℕ} (ht : t ∈ T) : ∃ c ∈ choice, (collapse w.candidates).home c = t := by
  by_contra hnone
  have herased := h.erase fun c hc heq => hnone ⟨c, hc, heq⟩
  exact absurd (hfewest _ _ herased hcost) (Finset.card_erase_lt_of_mem ht).not_ge

/-! ### Selections -/

section Select

variable {σ : Type} {m : Model Exact} {rowScanCost : Exact} {prune : Bool} {memo : Memo Exact}
  {w : Workload}

/-- **The tables that an exact solver selects are the homes of the selected candidates**: each is
read by one of them, whatever else the answer used. -/
theorem Model.mem_selectedTables_iff (hw : (m.search rowScanCost prune memo).1 = .ok w)
    (hne : w.isEmpty = false) {costs : List ℚ} (hcosts : ∀ q ∈ costs, 0 ≤ q) {costMargin : ℚ}
    {tolerance : Exact} {solver : Solver σ Exact} (hexact : solver.IsExact) {state : σ}
    {o : Outcome Exact}
    (h : (m.select w (costs.map finite) (finite costMargin) tolerance solver state).1 = .ok o)
    (table : ℕ) :
    table ∈ o.selectedTables ↔ ∃ c ∈ o.selectedCandidates.toList, o.tables.home c = table := by
  have hlevels := isLeveled_levelSets hw
  rw [← siblingSets_eq_levelSets hw] at hlevels
  have hnames := names_ne_nil (m := m) hne (costs.map finite)
  obtain ⟨phase1, phase2, hs₁, hs₂, -, -, rfl⟩ := exists_answers_of_select_eq_ok hne h
  -- the first answer has a rational objective, so both programs are rational
  have hoptimal₁ := hexact.isOptimal (isRational_formulate m w costs hlevels) hnames hs₁
  obtain ⟨_, U₁, -, -, hobjective, -⟩ := exists_least_of_isOptimal hlevels hcosts hoptimal₁
  rw [hobjective, Exact.finite_mul_finite] at hs₂
  have hoptimal₂ := hexact.isOptimal (isRational_countTables hlevels _) hnames hs₂
  obtain ⟨T, U, hsel, hvalues, hcost, hleast⟩ :=
    exists_fewest_of_isOptimal hlevels hcosts hoptimal₂
  obtain ⟨hplan, hplanCost⟩ := isPlan_of_values m costs hlevels hcosts hsel hvalues
  rw [← toFinset_builtTables m costs hsel.table_lt hvalues] at hleast
  constructor
  · intro htable
    refine hplan.exists_home_eq (hplanCost.trans hcost) (fun T' choice' hplan' hcost' => ?_)
      (List.mem_toFinset.mpr htable)
    exact hleast.2 ⟨T', choice', hplan', hcost', rfl⟩
  · rintro ⟨c, hc, rfl⟩
    exact List.mem_toFinset.mp (hplan.built c hc)

end Select

/-- A log of which an append may touch one table: the candidates of both directions read it. -/
theorem Model.mem_selectedTables_iff_log :
    ∃ o, ((Log.model [.asc, .desc]).select (Log.workload [.asc, .desc])
        ([1, 5, 5, 1].map finite) (finite (3 / 2)) (finite (1 / 1000)) ExactSolver.enumerate {}).1
          = .ok o ∧
      o.selectedTables = [0] ∧
      ∀ table, table ∈ o.selectedTables ↔
        ∃ c ∈ o.selectedCandidates.toList, o.tables.home c = table := by
  have hw : ((Log.model [.asc, .desc]).search (finite 1) false {}).1
      = .ok (Log.workload [.asc, .desc]) := rfl
  have hsets : (Log.workload [.asc, .desc]).siblingSets = [[0, 1], [2, 3]] :=
    (Model.siblingSets_eq_levelSets hw).trans rfl
  have hselected : (((Log.model [.asc, .desc]).select (Log.workload [.asc, .desc])
        ([1, 5, 5, 1].map finite) (finite (3 / 2)) (finite (1 / 1000)) ExactSolver.enumerate
        {}).1.toOption.map Outcome.selectedTables) = some [0] := by
    rw [Model.select, Model.formulate, hsets]
    decide +kernel
  obtain ⟨o, hselect, htables⟩ := exists_eq_ok_of_map hselected
  exact ⟨o, hselect, htables,
    Model.mem_selectedTables_iff hw rfl (by decide) isExact_enumerate hselect⟩

end Keyspace
