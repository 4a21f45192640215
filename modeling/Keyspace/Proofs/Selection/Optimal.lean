import Keyspace.Proofs.Selection.Plan
import Keyspace.Proofs.Selection.Verified
import Mathlib.Algebra.BigOperators.Group.Finset.Piecewise
import Mathlib.Order.Bounds.Basic

/-!
# Optimal selections

With an exact solver and costs that are not negative, a selection makes the cost of the reads least
and, within the margin of that, the number of tables (`Model.select_optimal`).  The second phase
always has an answer, since that of the first is within the margin.
-/

namespace Keyspace

open Scalar Tables Formulation
open Exact (finite)

/-! ### The programs are rational -/

section Rational

variable (m : Model Exact) (w : Workload) (costs : List ℚ)

theorem rational_costTerms :
    ∀ term ∈ (m.formulate w (costs.map finite)).costTerms,
      term.1 < (m.formulate w (costs.map finite)).program.names.length ∧ term.2.IsFinite := by
  intro term hterm
  rw [costTerms_eq, List.map_map] at hterm
  obtain ⟨c, hc, rfl⟩ := List.mem_map.mp hterm
  rw [List.mem_range] at hc
  rw [length_names]
  exact ⟨Nat.add_lt_add_left hc _, ⟨_, rfl⟩⟩

theorem isRational_formulate (hw : w.IsLeveled w.siblingSets) :
    (m.formulate w (costs.map finite)).program.IsRational := by
  have hone : (one : Exact).IsFinite := ⟨1, rfl⟩
  have hfanout : ∀ k mu, ∀ c ∈ fanout (α := Exact) (collapse w.candidates) k mu,
      c.terms = ((collapse w.candidates).rootedAt mu.entity).map (fun t => (tableVar t, one)) ∧
        c.bound.IsFinite := by
    intro k mu c hc
    unfold fanout at hc
    dsimp only at hc
    split_ifs at hc
    · rcases List.mem_pair.mp hc with rfl | rfl
      · exact ⟨rfl, 1, rfl⟩
      · exact ⟨rfl, mu.maxTables, rfl⟩
    · simp at hc
  refine ⟨rational_costTerms m w costs, fun c hc term hterm => ?_, fun c hc => ?_⟩
  · rw [length_names]
    rcases (mem_constraints_iff m w _).mp hc with ⟨i, hi, rfl⟩ | ⟨k, s, hs, rfl⟩ | ⟨k, mu, -, hc⟩
    · rcases List.mem_pair.mp hterm with rfl | rfl
      · exact ⟨Nat.lt_add_right _ (home_lt_size hi), hone⟩
      · exact ⟨Nat.add_lt_add_left hi _, -1, rfl⟩
    · obtain ⟨c, hc, rfl⟩ := List.mem_map.mp hterm
      exact ⟨Nat.add_lt_add_left (hw.lt_of_mem (List.mem_of_getElem? hs) hc) _, hone⟩
    · rw [(hfanout k mu c hc).1] at hterm
      obtain ⟨t, ht, rfl⟩ := List.mem_map.mp hterm
      exact ⟨Nat.lt_add_right _ (mem_rootedAt.mp ht).1, hone⟩
  · rcases (mem_constraints_iff m w _).mp hc with ⟨i, -, rfl⟩ | ⟨k, s, -, rfl⟩ | ⟨k, mu, -, hc⟩
    · exact ⟨0, rfl⟩
    · exact hone
    · exact (hfanout k mu c hc).2

variable {m w costs}

theorem isRational_countTables (hw : w.IsLeveled w.siblingSets) (limit : ℚ) :
    ((m.formulate w (costs.map finite)).countTables (finite limit)).IsRational := by
  have h := isRational_formulate m w costs hw
  refine ⟨fun term hterm => ?_, fun c hc term hterm => ?_, fun c hc => ?_⟩
  · obtain ⟨t, ht, rfl⟩ := List.mem_map.mp hterm
    show t < (m.formulate w (costs.map finite)).program.names.length ∧ _
    rw [length_names]
    exact ⟨Nat.lt_add_right _ (List.mem_range.mp ht), 1, rfl⟩
  · rcases List.mem_append.mp hc with hc | hc
    · exact h.terms c hc term hterm
    · obtain rfl := List.mem_singleton.mp hc
      exact rational_costTerms m w costs term hterm
  · rcases List.mem_append.mp hc with hc | hc
    · exact h.bound c hc
    · obtain rfl := List.mem_singleton.mp hc
      exact ⟨limit, rfl⟩

end Rational

/-! ### The second program -/

section CountTables

variable {m : Model Exact} {w : Workload} {costs : List ℚ} {limit : ℚ} {T U : Finset ℕ}

/-- The second program takes the selections within the cost limit. -/
theorem feasible_countTables_iff {values : List Exact} :
    ((m.formulate w (costs.map finite)).countTables (finite limit)).Feasible values ↔
      (m.formulate w (costs.map finite)).program.Feasible values ∧
      le ((m.formulate w (costs.map finite)).costTerms.eval values) (finite limit) = true := by
  have henvelope : (⟨"cost_envelope", (m.formulate w (costs.map finite)).costTerms, .atMost,
      finite limit⟩ : Constraint Exact).holds
        ((m.formulate w (costs.map finite)).costTerms.eval values) zero
      = le ((m.formulate w (costs.map finite)).costTerms.eval values) (finite limit) := by
    show le _ (finite limit + zero) = _
    rw [Exact.zero_eq, Exact.finite_add_finite, add_zero]
  constructor
  · intro h
    refine ⟨⟨h.length_eq, h.binary, fun c hc => h.holds c (List.mem_append_left _ hc)⟩, ?_⟩
    rw [← henvelope]
    exact h.holds _ (List.mem_append_right _ (List.mem_singleton_self _))
  · rintro ⟨h, hlimit⟩
    refine ⟨h.length_eq, h.binary, fun c hc => ?_⟩
    rcases List.mem_append.mp hc with hc | hc
    · exact h.holds c hc
    · obtain rfl := List.mem_singleton.mp hc
      exact henvelope.trans hlimit

/-- The objective of the second program is the number of tables. -/
theorem evaluate_countTables_assignment (hT : ∀ t ∈ T, t < (collapse w.candidates).size) :
    ((m.formulate w (costs.map finite)).countTables (finite limit)).evaluate
      ((w.assignment T U).map finite) = finite T.card := by
  have hterms := LinearForm.eval_map_one (List.range (collapse w.candidates).size) tableVar
    (w.assignment T U)
  have hsum : ((List.range (collapse w.candidates).size).map
      fun t => (w.assignment T U).getD (tableVar t) 0).sum = (T.card : ℚ) := by
    have hmap : ∀ t ∈ List.range (collapse w.candidates).size,
        (w.assignment T U).getD (tableVar t) 0 = if t ∈ T then 1 else 0 := fun t ht =>
      getD_tableVar (List.mem_range.mp ht)
    have hfilter : (List.range (collapse w.candidates).size).toFinset ∩ T = T := by
      ext t
      rw [Finset.mem_inter, List.mem_toFinset, List.mem_range]
      exact ⟨fun h => h.2, fun h => ⟨hT t h, h⟩⟩
    rw [List.map_congr_left hmap, ← List.sum_toFinset _ List.nodup_range, Finset.sum_ite_mem,
      hfilter, Finset.sum_const, nsmul_eq_mul, mul_one]
  rw [hsum] at hterms
  exact hterms

end CountTables

/-! ### Optimal answers -/

section Optimal

variable {m : Model Exact} {w : Workload} {costs : List ℚ} (hw : w.IsLeveled w.siblingSets)
  (hcosts : ∀ q ∈ costs, 0 ≤ q)
include hw hcosts

/-- An optimal answer to the first program has the cost of a cheapest plan. -/
theorem exists_least_of_isOptimal {s : Solution Exact}
    (h : (m.formulate w (costs.map finite)).program.IsOptimal s) :
    ∃ T U, m.IsSelection w w.siblingSets T U ∧ s.values = (w.assignment T U).map finite ∧
      s.objective = finite (∑ c ∈ U, m.weight w costs c) ∧
      IsLeast {q | ∃ T choice, m.IsPlan w w.siblingSets T choice ∧ m.planCost w costs choice = q}
        (∑ c ∈ U, m.weight w costs c) := by
  obtain ⟨T, U, hsel, hvalues⟩ := exists_of_feasible hw h.feasible
  have heval : (m.formulate w (costs.map finite)).program.evaluate s.values
      = finite (∑ c ∈ U, m.weight w costs c) := by
    rw [hvalues]
    exact eval_costTerms_assignment m costs hsel.candidate_lt
  have hlower : ∀ T' choice, m.IsPlan w w.siblingSets T' choice →
      ∑ c ∈ U, m.weight w costs c ≤ m.planCost w costs choice := by
    intro T' choice hplan
    have hsel' := hplan.isSelection hw
    have hleast := h.least _ (feasible_assignment hw (costs.map finite) hsel')
    have heval' : (m.formulate w (costs.map finite)).program.evaluate
        ((w.assignment T' choice.toFinset).map finite)
        = finite (∑ c ∈ choice.toFinset, m.weight w costs c) :=
      eval_costTerms_assignment m costs hsel'.candidate_lt
    rw [heval, heval', Exact.le_finite, decide_eq_true_eq] at hleast
    rwa [planCost_eq_sum hw hplan.chosen]
  -- one used candidate for each level cannot cost less than the whole selection
  obtain ⟨choice, hchoice, hused⟩ := exists_choice_of_covered hsel.covered
  have hplan := Model.isPlan_of_isSelection hsel hchoice hused
  refine ⟨T, U, hsel, hvalues, h.objective_eq.trans heval, ⟨T, choice, hplan, ?_⟩, ?_⟩
  · exact le_antisymm (planCost_le hw hchoice hcosts hused) (hlower T choice hplan)
  · rintro q ⟨T', choice', hplan', rfl⟩
    exact hlower T' choice' hplan'

/-- An optimal answer to the second program has the tables of a smallest plan within the limit. -/
theorem exists_fewest_of_isOptimal {limit : ℚ} {s : Solution Exact}
    (h : ((m.formulate w (costs.map finite)).countTables (finite limit)).IsOptimal s) :
    ∃ T U, m.IsSelection w w.siblingSets T U ∧ s.values = (w.assignment T U).map finite ∧
      ∑ c ∈ U, m.weight w costs c ≤ limit ∧
      IsLeast {n | ∃ T choice, m.IsPlan w w.siblingSets T choice ∧
        m.planCost w costs choice ≤ limit ∧ T.card = n} T.card := by
  obtain ⟨hfeasible, hlimit⟩ := feasible_countTables_iff.mp h.feasible
  obtain ⟨T, U, hsel, hvalues⟩ := exists_of_feasible hw hfeasible
  have hcost : ∑ c ∈ U, m.weight w costs c ≤ limit := by
    rw [hvalues, eval_costTerms_assignment m costs hsel.candidate_lt, Exact.le_finite,
      decide_eq_true_eq] at hlimit
    exact hlimit
  obtain ⟨choice, hchoice, hused⟩ := exists_choice_of_covered hsel.covered
  refine ⟨T, U, hsel, hvalues, hcost, ⟨T, choice,
    Model.isPlan_of_isSelection hsel hchoice hused,
    (planCost_le hw hchoice hcosts hused).trans hcost, rfl⟩, ?_⟩
  -- any plan within the limit is a feasible assignment, whose tables are counted
  rintro n ⟨T', choice', hplan', hcost', rfl⟩
  have hsel' := hplan'.isSelection hw
  have hfeasible' : ((m.formulate w (costs.map finite)).countTables (finite limit)).Feasible
      ((w.assignment T' choice'.toFinset).map finite) := by
    refine feasible_countTables_iff.mpr ⟨feasible_assignment hw _ hsel', ?_⟩
    rw [eval_costTerms_assignment m costs hsel'.candidate_lt, ← planCost_eq_sum hw hplan'.chosen,
      Exact.le_finite]
    exact decide_eq_true hcost'
  have hleast := h.least _ hfeasible'
  rw [hvalues, evaluate_countTables_assignment hsel.table_lt,
    evaluate_countTables_assignment hsel'.table_lt, Exact.le_finite, decide_eq_true_eq] at hleast
  exact_mod_cast hleast

end Optimal

/-! ### What is read from an optimal answer -/

section Outcome

variable (m : Model Exact) {w : Workload} (costs : List ℚ) {s : Solution Exact} {T U : Finset ℕ}

theorem toFinset_builtTables (hT : ∀ t ∈ T, t < (collapse w.candidates).size)
    (hs : s.values = (w.assignment T U).map finite) :
    ((m.formulate w (costs.map finite)).builtTables s).toFinset = T := by
  ext t
  rw [List.mem_toFinset, mem_builtTables m _ hs, setTables_assignment hT]

theorem length_builtTables (hT : ∀ t ∈ T, t < (collapse w.candidates).size)
    (hs : s.values = (w.assignment T U).map finite) :
    ((m.formulate w (costs.map finite)).builtTables s).length = T.card := by
  have hnodup : ((m.formulate w (costs.map finite)).builtTables s).Nodup :=
    List.nodup_range.filter _
  rw [← List.toFinset_card_of_nodup hnodup, toFinset_builtTables m costs hT hs]

/-- The weighted cost of some candidates is the sum of their weights. -/
theorem weightedCost_eq {choice : List ℕ} (h : ∀ c ∈ choice, c < w.candidates.length) :
    (m.formulate w (costs.map finite)).weightedCost choice
      = finite (m.planCost w costs choice) := by
  have hterm : ∀ c ∈ choice,
      ((m.formulate w (costs.map finite)).costTerms.map (·.2)).getD c zero
        = finite (m.weight w costs c) := by
    intro c hc
    rw [getD_costTerms _ _ _ (h c hc), Exact.zero_eq, Exact.getD_map_finite, Exact.ofNat_eq,
      Exact.finite_mul_finite, Model.weight]
  rw [weightedCost, List.map_congr_left hterm, Model.planCost, ← Exact.sum_map_finite,
    List.map_map]
  rfl

/-- What is read from the assignment of a selection is a plan on its tables that costs no more. -/
theorem isPlan_of_values (hw : w.IsLeveled w.siblingSets) (hcosts : ∀ q ∈ costs, 0 ≤ q)
    (hsel : m.IsSelection w w.siblingSets T U)
    (hs : s.values = (w.assignment T U).map finite) :
    m.IsPlan w w.siblingSets ((m.formulate w (costs.map finite)).builtTables s).toFinset
        ((m.formulate w (costs.map finite)).usedCandidates w (costs.map finite) s).toList ∧
      m.planCost w costs
        ((m.formulate w (costs.map finite)).usedCandidates w (costs.map finite) s).toList
        ≤ ∑ c ∈ U, m.weight w costs c := by
  obtain ⟨choice, hchoice, hused, heq⟩ :=
    exists_choice_of_serves m (costs.map finite) hs hw (by
      rw [setTables_assignment hsel.table_lt, setCandidates_assignment hsel.candidate_lt]
      exact hsel.toServes)
  rw [setCandidates_assignment hsel.candidate_lt] at hused
  rw [toFinset_builtTables m costs hsel.table_lt hs, heq, toList_ofList_of_forall₂ hw hchoice]
  exact ⟨Model.isPlan_of_isSelection hsel hchoice hused, planCost_le hw hchoice hcosts hused⟩

end Outcome

/-! ### Optimal selections -/

section Select

variable {σ : Type} {m : Model Exact} {rowScanCost : Exact} {prune : Bool} {memo : Memo Exact}
  {w : Workload}

theorem names_ne_nil (hne : w.isEmpty = false) (costs : List Exact) :
    (m.formulate w costs).program.names ≠ [] := by
  have hpos := List.length_pos_iff.mpr (List.isEmpty_eq_false_iff.mp hne)
  refine List.length_pos_iff.mp ?_
  rw [length_names]
  omega

/-- **An exact solver finds a cheapest plan, and of the plans within the margin of its cost one with
fewest tables.**  Only a workload without plans is infeasible. -/
theorem Model.select_optimal (hw : (m.search rowScanCost prune memo).1 = .ok w)
    (hne : w.isEmpty = false) {costs : List ℚ} (hcosts : ∀ q ∈ costs, 0 ≤ q) {costMargin t : ℚ}
    (hmargin : 1 ≤ costMargin) (ht : 0 < t) {solver : Solver σ Exact} (hexact : solver.IsExact)
    (state : σ) :
    ((∃ constraintCount variableCount,
        (m.select w (costs.map finite) (finite costMargin) (finite t) solver state).1
          = .error (.infeasible .cost constraintCount variableCount)) ↔
      ¬ ∃ T choice, m.IsPlan w (m.levelSets rowScanCost prune memo) T choice) ∧
    ((∃ T choice, m.IsPlan w (m.levelSets rowScanCost prune memo) T choice) →
      ∃ o cost,
        (m.select w (costs.map finite) (finite costMargin) (finite t) solver state).1 = .ok o ∧
        o.phase1Cost = finite cost ∧
        IsLeast {q | ∃ T choice, m.IsPlan w (m.levelSets rowScanCost prune memo) T choice ∧
          m.planCost w costs choice = q} cost ∧
        IsLeast {n | ∃ T choice, m.IsPlan w (m.levelSets rowScanCost prune memo) T choice ∧
          m.planCost w costs choice ≤ costMargin * cost ∧ T.card = n} o.tableCount ∧
        m.IsPlan w (m.levelSets rowScanCost prune memo) o.selectedTables.toFinset
          o.selectedCandidates.toList ∧
        o.phase2Cost = finite (m.planCost w costs o.selectedCandidates.toList) ∧
        m.planCost w costs o.selectedCandidates.toList ≤ costMargin * cost) := by
  have hlevels := isLeveled_levelSets hw
  rw [← siblingSets_eq_levelSets hw] at hlevels ⊢
  have hnames := names_ne_nil (m := m) hne (costs.map finite)
  rcases hexact _ (isRational_formulate m w costs hlevels) hnames state with
    ⟨s₁, hs₁, hopt₁⟩ | ⟨hs₁, hnone⟩
  · obtain ⟨T₁, U₁, hsel₁, hvalues₁, hobjective, hleast⟩ :=
      exists_least_of_isOptimal hlevels hcosts hopt₁
    set cost := ∑ c ∈ U₁, m.weight w costs c with hcost
    have hlimit : s₁.objective * finite costMargin = finite (costMargin * cost) := by
      rw [hobjective, Exact.finite_mul_finite, mul_comm]
    have hphase₂ : (m.select w (costs.map finite) (finite costMargin) (finite t) solver state).1
        = _ := select_of_phase1 hne hs₁ (Program.verify_of_feasible ht.le hopt₁.feasible)
    rw [hlimit] at hphase₂
    rcases hexact _ (isRational_countTables hlevels (costMargin * cost)) hnames
      (solver (m.formulate w (costs.map finite)).program state).2 with
      ⟨s₂, hs₂, hopt₂⟩ | ⟨-, hnone⟩
    · obtain ⟨T₂, U₂, hsel₂, hvalues₂, hcost₂, hfewest⟩ :=
        exists_fewest_of_isOptimal hlevels hcosts hopt₂
      obtain ⟨hplan, hplanCost⟩ := isPlan_of_values m costs hlevels hcosts hsel₂ hvalues₂
      rw [runPhase_of_ok _ _ hs₂,
        checkAnswer_of_ok (Program.verify_of_feasible ht.le hopt₂.feasible)] at hphase₂
      constructor
      · refine iff_of_false ?_ fun h => h ⟨_, _, hplan⟩
        rintro ⟨_, _, herror⟩
        rw [hphase₂] at herror
        exact absurd herror (by simp [Except.map])
      · refine fun _ => ⟨_, cost, hphase₂, hobjective, hleast, ?_, hplan, ?_,
          hplanCost.trans hcost₂⟩
        · show IsLeast _ ((m.formulate w (costs.map finite)).builtTables s₂).length
          rwa [length_builtTables m costs hsel₂.table_lt hvalues₂]
        · exact weightedCost_eq m costs fun c hc => lt_of_forall₂ hlevels hplan.chosen hc
    · -- the first answer is within the margin
      have hpos : 0 ≤ cost := Finset.sum_nonneg fun c _ => weight_nonneg hcosts c
      refine absurd (feasible_countTables_iff.mpr ⟨hopt₁.feasible, ?_⟩) (hnone s₁.values)
      rw [hvalues₁, eval_costTerms_assignment m costs hsel₁.candidate_lt, Exact.le_finite]
      exact decide_eq_true (le_mul_of_one_le_left hpos hmargin)
  · have hnoPlan : ¬ ∃ T choice, m.IsPlan w w.siblingSets T choice := by
      rintro ⟨T, choice, hplan⟩
      exact hnone _ (feasible_assignment hlevels _ (hplan.isSelection hlevels))
    refine ⟨iff_of_true ⟨(m.formulate w (costs.map finite)).program.constraints.length,
      (m.formulate w (costs.map finite)).program.names.length, ?_⟩ hnoPlan,
      fun h => absurd h hnoPlan⟩
    rw [select_fst hne, runPhase_of_error _ _ hs₁]
    rfl

end Select

/-- A log read in two directions of which an append may touch one table: both directions share a
table. -/
theorem Model.select_optimal_log :
    ∃ o cost, ((Log.model [.asc, .desc]).select (Log.workload [.asc, .desc])
        ([1, 5, 5, 1].map finite) (finite (3 / 2)) (finite (1 / 1000)) ExactSolver.enumerate {}).1
          = .ok o ∧
      o.phase1Cost = finite cost ∧
      IsLeast {q | ∃ T choice, (Log.model [.asc, .desc]).IsPlan (Log.workload [.asc, .desc])
        ((Log.model [.asc, .desc]).levelSets (finite 1) false {}) T choice ∧
          (Log.model [.asc, .desc]).planCost (Log.workload [.asc, .desc]) [1, 5, 5, 1] choice = q}
        cost := by
  have hplan : (Log.model [.asc, .desc]).IsPlan (Log.workload [.asc, .desc])
      ((Log.model [.asc, .desc]).levelSets (finite 1) false {}) {0} [0, 2] := by
    refine ⟨by decide, ?_, by decide, by decide⟩
    show List.Forall₂ (· ∈ ·) [0, 2] [[0, 1], [2, 3]]
    decide
  have hw : ((Log.model [.asc, .desc]).search (finite 1) false {}).1
      = .ok (Log.workload [.asc, .desc]) := rfl
  have hcosts : ∀ q ∈ ([1, 5, 5, 1] : List ℚ), 0 ≤ q := by decide
  have hmargin : (1 : ℚ) ≤ 3 / 2 := by norm_num
  have ht : (0 : ℚ) < 1 / 1000 := by norm_num
  obtain ⟨o, cost, hok, hcost, hleast, -⟩ :=
    (Model.select_optimal hw rfl hcosts hmargin ht isExact_enumerate {}).2 ⟨_, _, hplan⟩
  exact ⟨o, cost, hok, hcost, hleast⟩

end Keyspace
