import Keyspace.Proofs.Selection.Readers

/-!
# What an exact solver determines

An exact solver may still choose among answers that are equally good.  What it cannot choose is
determined by very little: by which sets of tables serve a workload at which cost
(`Model.HasSelection`).  `SelectsFrom` spells out what comes of a selection that starts from such
costs, and `Model.selectsFrom` says that this is what comes of it, whatever the signs of the costs.
Two selections that start from the same costs therefore agree (`SelectsFrom.agree`).
-/

namespace Keyspace

open Scalar Tables Formulation
open Exact (finite)

/-- Some candidates of the given cost serve a workload from the tables `T`. -/
def Model.HasSelection (m : Model Exact) (w : Workload) (costs : List ℚ) (T : Finset ℕ)
    (cost : ℚ) : Prop :=
  ∃ U, m.IsSelection w w.siblingSets T U ∧ ∑ c ∈ U, m.weight w costs c = cost

/-! ### Feasible assignments -/

section Programs

variable {m : Model Exact} {w : Workload} {costs : List ℚ} (hw : w.IsLeveled w.siblingSets)
include hw

/-- A feasible assignment has the tables and the cost of a selection. -/
theorem exists_hasSelection {values : List Exact}
    (h : (m.formulate w (costs.map finite)).program.Feasible values) :
    ∃ T cost, m.HasSelection w costs T cost ∧
      (m.formulate w (costs.map finite)).costTerms.eval values = finite cost ∧
      (∀ limit, ((m.formulate w (costs.map finite)).countTables (finite limit)).evaluate values
        = finite T.card) ∧
      ∀ s : Solution Exact, s.values = values →
        ((m.formulate w (costs.map finite)).builtTables s).length = T.card := by
  obtain ⟨T, U, hsel, rfl⟩ := exists_of_feasible hw h
  exact ⟨T, _, ⟨U, hsel, rfl⟩, eval_costTerms_assignment m costs hsel.candidate_lt,
    fun limit => evaluate_countTables_assignment hsel.table_lt,
    fun s hs => length_builtTables m costs hsel.table_lt hs⟩

/-- And every selection is that of a feasible assignment. -/
theorem exists_feasible {T : Finset ℕ} {cost : ℚ} (h : m.HasSelection w costs T cost) :
    ∃ values, (m.formulate w (costs.map finite)).program.Feasible values ∧
      (m.formulate w (costs.map finite)).costTerms.eval values = finite cost ∧
      ∀ limit, ((m.formulate w (costs.map finite)).countTables (finite limit)).evaluate values
        = finite T.card := by
  obtain ⟨U, hsel, rfl⟩ := h
  exact ⟨_, feasible_assignment hw _ hsel, eval_costTerms_assignment m costs hsel.candidate_lt,
    fun limit => evaluate_countTables_assignment hsel.table_lt⟩

/-- An optimal answer to the first program has the least cost there is. -/
theorem isLeast_of_isOptimal {s : Solution Exact}
    (h : (m.formulate w (costs.map finite)).program.IsOptimal s) :
    ∃ cost, s.objective = finite cost ∧ IsLeast {q | ∃ T, m.HasSelection w costs T q} cost := by
  obtain ⟨T, cost, hsel, heval, -⟩ := exists_hasSelection hw h.feasible
  refine ⟨cost, h.objective_eq.trans heval, ⟨T, hsel⟩, ?_⟩
  rintro q ⟨T', hsel'⟩
  obtain ⟨values, hfeasible, heval', -⟩ := exists_feasible hw hsel'
  have hleast : le ((m.formulate w (costs.map finite)).costTerms.eval s.values)
      ((m.formulate w (costs.map finite)).costTerms.eval values) = true := h.least values hfeasible
  rw [heval, heval', Exact.le_finite] at hleast
  exact of_decide_eq_true hleast

/-- An optimal answer to the second program has as few tables as the limit leaves room for. -/
theorem isLeast_card_of_isOptimal {limit : ℚ} {s : Solution Exact}
    (h : ((m.formulate w (costs.map finite)).countTables (finite limit)).IsOptimal s) :
    IsLeast {n | ∃ T q, m.HasSelection w costs T q ∧ q ≤ limit ∧ T.card = n}
      ((m.formulate w (costs.map finite)).builtTables s).length := by
  obtain ⟨hfeasible, hlimit⟩ := feasible_countTables_iff.mp h.feasible
  obtain ⟨T, cost, hsel, heval, hcount, hbuilt⟩ := exists_hasSelection hw hfeasible
  rw [heval, Exact.le_finite] at hlimit
  rw [hbuilt s rfl]
  refine ⟨⟨T, cost, hsel, of_decide_eq_true hlimit, rfl⟩, ?_⟩
  rintro n ⟨T', q, hsel', hq, rfl⟩
  obtain ⟨values, hfeasible', heval', hcount'⟩ := exists_feasible hw hsel'
  have hleast := h.least values (feasible_countTables_iff.mpr ⟨hfeasible', by
    rw [heval', Exact.le_finite]
    exact decide_eq_true hq⟩)
  rw [hcount, hcount', Exact.le_finite, decide_eq_true_eq] at hleast
  exact_mod_cast hleast

end Programs

/-! ### What comes of a selection -/

/-- What an exact solver makes of a workload that `has` selections of some costs on some tables: the
tables are chosen unless there is no selection at all, none within the margin of the least cost, or
the tolerance accepts no answer. -/
inductive SelectsFrom (has : Finset ℕ → ℚ → Prop) (costMargin : ℚ) (tolerance : Exact)
    (constraintCount variableCount : ℕ) :
    Except (SelectionError Exact) (Outcome Exact) → Prop
  | infeasible (hnone : ∀ T q, ¬ has T q) :
    SelectsFrom has costMargin tolerance constraintCount variableCount
      (.error (.infeasible .cost constraintCount variableCount))
  | refused (hsome : ∃ T q, has T q) (htolerance : le zero tolerance = false)
      (v : Violation Exact) :
    SelectsFrom has costMargin tolerance constraintCount variableCount
      (.error (.integrity .cost v))
  | tooDear (htolerance : le zero tolerance = true) {cost : ℚ}
      (hleast : IsLeast {q | ∃ T, has T q} cost) (hnone : ∀ T q, has T q → costMargin * cost < q) :
    SelectsFrom has costMargin tolerance constraintCount variableCount
      (.error (.infeasible .tableCount (constraintCount + 1) variableCount))
  | chosen (htolerance : le zero tolerance = true) {cost : ℚ}
      (hleast : IsLeast {q | ∃ T, has T q} cost) {o : Outcome Exact}
      (hcost : o.phase1Cost = finite cost)
      (hcount : IsLeast {n | ∃ T q, has T q ∧ q ≤ costMargin * cost ∧ T.card = n} o.tableCount) :
    SelectsFrom has costMargin tolerance constraintCount variableCount (.ok o)

/-- Selections from the same costs agree: on the least cost and on the number of tables, on being
infeasible, or on refusing their first answers. -/
theorem SelectsFrom.agree {has : Finset ℕ → ℚ → Prop} {costMargin : ℚ} {tolerance : Exact}
    {constraintCount variableCount : ℕ} {r r' : Except (SelectionError Exact) (Outcome Exact)}
    (h : SelectsFrom has costMargin tolerance constraintCount variableCount r)
    (h' : SelectsFrom has costMargin tolerance constraintCount variableCount r') :
    (∃ o o', r = .ok o ∧ r' = .ok o' ∧ o.phase1Cost = o'.phase1Cost ∧
      o.tableCount = o'.tableCount) ∨
    (∃ phase constraintCount variableCount,
      r = .error (.infeasible phase constraintCount variableCount) ∧
      r' = .error (.infeasible phase constraintCount variableCount)) ∨
    le zero tolerance = false ∧
      ∃ v v', r = .error (.integrity .cost v) ∧ r' = .error (.integrity .cost v') := by
  cases h with
  | infeasible hnone =>
    cases h' with
    | infeasible => exact .inr (.inl ⟨_, _, _, rfl, rfl⟩)
    | refused hsome => exact absurd hsome fun ⟨T, q, h⟩ => hnone T q h
    | tooDear _ hleast => exact absurd hleast.1 fun ⟨T, h⟩ => hnone T _ h
    | chosen _ hleast => exact absurd hleast.1 fun ⟨T, h⟩ => hnone T _ h
  | refused hsome htolerance =>
    cases h' with
    | infeasible hnone => exact absurd hsome fun ⟨T, q, h⟩ => hnone T q h
    | refused => exact .inr (.inr ⟨htolerance, _, _, rfl, rfl⟩)
    | tooDear htolerance' => exact absurd (htolerance.symm.trans htolerance') (by simp)
    | chosen htolerance' => exact absurd (htolerance.symm.trans htolerance') (by simp)
  | tooDear htolerance hleast hnone =>
    cases h' with
    | infeasible hnone => exact absurd hleast.1 fun ⟨T, h⟩ => hnone T _ h
    | refused _ htolerance' => exact absurd (htolerance'.symm.trans htolerance) (by simp)
    | tooDear => exact .inr (.inl ⟨_, _, _, rfl, rfl⟩)
    | chosen _ hleast' _ hcount =>
      obtain rfl := hleast.unique hleast'
      exact absurd hcount.1 fun ⟨T, q, h, hq, _⟩ => not_lt.mpr hq (hnone T q h)
  | chosen htolerance hleast hcost hcount =>
    cases h' with
    | infeasible hnone => exact absurd hleast.1 fun ⟨T, h⟩ => hnone T _ h
    | refused _ htolerance' => exact absurd (htolerance'.symm.trans htolerance) (by simp)
    | tooDear _ hleast' hnone =>
      obtain rfl := hleast.unique hleast'
      exact absurd hcount.1 fun ⟨T, q, h, hq, _⟩ => not_lt.mpr hq (hnone T q h)
    | chosen _ hleast' hcost' hcount' =>
      obtain rfl := hleast.unique hleast'
      exact .inl ⟨_, _, rfl, rfl, hcost.trans hcost'.symm, hcount.unique hcount'⟩

/-- Without candidates nothing is chosen. -/
theorem Model.select_of_isEmpty {α σ : Type} [Scalar α] {m : Model α} {w : Workload}
    (hempty : w.isEmpty = true) {costs : List α} {costMargin tolerance : α} {solver : Solver σ α}
    {state : σ} :
    (m.select w costs costMargin tolerance solver state).1
      = .ok { phase1Cost := zero, phase2Cost := zero } := by
  rw [select, if_pos hempty]

section Select

variable {σ : Type} {m : Model Exact} {w : Workload} {costs : List ℚ}
  (hw : w.IsLeveled w.siblingSets) (hne : w.isEmpty = false) {costMargin : ℚ} {tolerance : Exact}
  {solver : Solver σ Exact} (hexact : solver.IsExact) {state : σ}
include hw hne hexact

/-- What comes of the second phase. -/
theorem Model.selectsFrom_of_phase1 (htolerance : le zero tolerance = true) {s₁ : Solution Exact}
    (hs₁ : (solver (m.formulate w (costs.map finite)).program state).1 = .ok s₁)
    (hfeasible₁ : (m.formulate w (costs.map finite)).program.Feasible s₁.values) {cost : ℚ}
    (hobjective : s₁.objective = finite cost)
    (hleast : IsLeast {q | ∃ T, m.HasSelection w costs T q} cost) :
    SelectsFrom (m.HasSelection w costs) costMargin tolerance
      (m.formulate w (costs.map finite)).program.constraints.length
      (m.formulate w (costs.map finite)).program.names.length
      (m.select w (costs.map finite) (finite costMargin) tolerance solver state).1 := by
  have hrational : ((m.formulate w (costs.map finite)).countTables
      (finite (costMargin * cost))).IsRational := isRational_countTables hw _
  have hnames := names_ne_nil (m := m) hne (costs.map finite)
  have hlimit : s₁.objective * finite costMargin = finite (costMargin * cost) := by
    rw [hobjective, Exact.finite_mul_finite, mul_comm]
  rw [select_of_phase1 hne hs₁
    (Program.verify_of_le htolerance (isRational_formulate m w costs hw) hfeasible₁), hlimit]
  rcases hexact _ hrational hnames
    (solver (m.formulate w (costs.map finite)).program state).2 with
    ⟨s₂, hs₂, hopt₂⟩ | ⟨hs₂, hnone⟩
  · rw [runPhase_of_ok _ _ hs₂,
      checkAnswer_of_ok (Program.verify_of_le htolerance hrational hopt₂.feasible)]
    exact .chosen htolerance hleast hobjective (isLeast_card_of_isOptimal hw hopt₂)
  · -- the second program has one more constraint
    have hcount : ((m.formulate w (costs.map finite)).countTables
        (finite (costMargin * cost))).constraints.length
      = (m.formulate w (costs.map finite)).program.constraints.length + 1 :=
      List.length_append
    rw [runPhase_of_error _ _ hs₂]
    show SelectsFrom _ _ _ _ _ (.error (.infeasible .tableCount
      ((m.formulate w (costs.map finite)).countTables
        (finite (costMargin * cost))).constraints.length _))
    rw [hcount]
    refine .tooDear htolerance hleast fun T q h => lt_of_not_ge fun hq => ?_
    obtain ⟨values, hvalues, heval, -⟩ := exists_feasible hw h
    refine hnone values (feasible_countTables_iff.mpr ⟨hvalues, ?_⟩)
    rw [heval, Exact.le_finite]
    exact decide_eq_true hq

variable (m costs costMargin tolerance state)

/-- **What comes of a selection with an exact solver** is determined by the costs that there are to
choose from. -/
theorem Model.selectsFrom :
    SelectsFrom (m.HasSelection w costs) costMargin tolerance
      (m.formulate w (costs.map finite)).program.constraints.length
      (m.formulate w (costs.map finite)).program.names.length
      (m.select w (costs.map finite) (finite costMargin) tolerance solver state).1 := by
  have hrational := isRational_formulate m w costs hw
  have hnames := names_ne_nil (m := m) hne (costs.map finite)
  -- of the first answer only its objective enters the second program
  rcases hexact _ hrational hnames state with ⟨s₁, hs₁, hopt₁⟩ | ⟨hs₁, hnone⟩
  · obtain ⟨cost, hobjective, hleast⟩ := isLeast_of_isOptimal hw hopt₁
    cases htolerance : le zero tolerance with
    | false =>
      have hconstraints : (m.formulate w (costs.map finite)).program.constraints ≠ [] := by
        refine List.ne_nil_of_mem ((mem_constraints_iff m w _).mpr (.inl ⟨0, ?_, rfl⟩))
        exact List.length_pos_iff.mpr (List.isEmpty_eq_false_iff.mp hne)
      obtain ⟨v, hv⟩ := Program.verify_of_not_le htolerance hrational hnames hconstraints
        hopt₁.feasible
      rw [select_fst hne, runPhase_of_ok _ _ hs₁, checkAnswer_of_error hv]
      obtain ⟨T, hT⟩ := hleast.1
      exact .refused ⟨T, cost, hT⟩ htolerance v
    | true =>
      exact selectsFrom_of_phase1 hw hne hexact htolerance hs₁ hopt₁.feasible hobjective hleast
  · rw [select_fst hne, runPhase_of_error _ _ hs₁]
    refine .infeasible fun T q h => ?_
    obtain ⟨values, hvalues, -⟩ := exists_feasible hw h
    exact hnone values hvalues

end Select

end Keyspace
