import Keyspace.Proofs.Checked.Formulation
import Keyspace.Proofs.Selection.Verified

/-!
# Checked lookups in a selection

Each phase writes its program to the log and verifies the answer it gets.  After that the answer has
a value for every variable, whatever solver it is from, and reading it finds the variables of tables
and candidates and the costs of the candidates (`select_eq`).
-/

namespace Keyspace

open Scalar Tables Formulation

/-- The program of the second phase is over its own variables, like that of the first. -/
theorem Formulation.isClosed_countTables {α : Type} [Scalar α] {f : Formulation α}
    (hprogram : f.program.IsClosed) (hterms : ∀ t ∈ f.costTerms, t.1 < f.program.names.length)
    (htables : f.tables.size ≤ f.program.names.length) (limit : α) :
    (f.countTables limit).IsClosed := by
  constructor
  · intro t ht
    obtain ⟨i, hi, rfl⟩ := List.mem_map.mp ht
    exact (List.mem_range.mp hi).trans_le htables
  · intro c hc
    rcases List.mem_append.mp hc with hc | hc
    · exact hprogram.terms_lt c hc
    · obtain rfl := List.mem_singleton.mp hc
      exact hterms

namespace Checked

variable {α : Type} [Scalar α]

/-! ### Phases -/

/-- Checks an answer and records its phase. -/
def checkAnswer (tolerance : α) (phase : Phase) (p : Program α) (s : Solution α) :
    Option (Except (SelectionError α) (Solution α × PhaseStats α)) := do
  match ← verify p tolerance s.values with
  | .error violation => return .error (.integrity phase violation)
  | .ok () => return .ok (s, ⟨phase, p.names.length, p.constraints.length, s.objective⟩)

/-- Solves a program, which is logged before, and verifies the answer. -/
def runPhase [ScalarText α] {σ : Type} (solver : Solver σ α) (tolerance : α) (phase : Phase)
    (p : Program α) (state : σ) :
    Option (Except (SelectionError α) (Solution α × PhaseStats α) × σ) := do
  let _ ← lpText p
  match solver p state with
  | (.error e, state) => return (.error (.ofSolve phase p e), state)
  | (.ok s, state) => return (← checkAnswer tolerance phase p s, state)

/-- The program of the second phase. -/
def countTables (f : Formulation α) (vars : Registry) (costLimit : α) : Program α :=
  { f.program.addConstraint ⟨"cost_envelope", f.costTerms, .atMost, costLimit⟩ with
    objective := vars.tableVars.map fun v => (v, one) }

theorem runPhase_eq [ScalarText α] {σ : Type} (solver : Solver σ α) (tolerance : α) (phase : Phase)
    {p : Program α} (hp : p.IsClosed) (state : σ) :
    runPhase solver tolerance phase p state
      = some (Keyspace.runPhase solver tolerance phase p state) := by
  have hcheck : ∀ s : Solution α,
      checkAnswer tolerance phase p s = some (Keyspace.checkAnswer tolerance phase p s) := by
    intro s
    rw [checkAnswer, Keyspace.checkAnswer, verify_eq hp]
    cases p.verify tolerance s.values <;> rfl
  rw [runPhase, Keyspace.runPhase, lpText_eq hp]
  rcases solver p state with ⟨e | s, state'⟩
  · rfl
  · simp only [Option.bind_eq_bind, Option.bind_some, hcheck]
    rfl

/-! ### Reading an answer -/

/-- The tables that an answer builds. -/
def builtTables (f : Formulation α) (vars : Registry) (s : Solution α) : Option (List ℕ) :=
  (List.range f.tables.size).filterM fun t => do
    let v ← vars.tableVars[t]?
    isSet s v

/-- Of two candidates the cheaper one, of equally cheap ones the first. -/
def cheaper (costs : List α) (a b : ℕ) : Option ℕ := do
  let costOfA ← costs[a]?
  let costOfB ← costs[b]?
  return if rank costOfB costOfA == .lt then b else a

/-- The cheapest used candidate of a set of alternatives. -/
def cheapestUsed (vars : Registry) (costs : List α) (s : Solution α) (siblings : List ℕ) :
    Option (Option ℕ) := do
  let used ← siblings.filterM fun c => do
    let v ← vars.candidateVars[c]?
    isSet s v
  match used with
  | [] => return none
  | c :: rest => return some (← rest.foldlM (cheaper costs) c)

/-- The candidates that serve the reads of a workload. -/
def usedCandidates (vars : Registry) (w : Workload) (costs : List α) (s : Solution α) :
    Option (SortedSet ℕ) := do
  let chosen ← w.siblingSets.mapM (cheapestUsed vars costs s)
  return .ofList (chosen.filterMap id)

/-- The weighted cost of some candidates, added up in their order. -/
def weightedCost (f : Formulation α) (candidates : List ℕ) : Option α :=
  (candidates.mapM fun c => f.costTerms[c]?.map (·.2)).map sum

/-- What two answers choose. -/
def outcome (f : Formulation α) (vars : Registry) (w : Workload) (costs : List α)
    (phase1 phase2 : Solution α × PhaseStats α) : Option (Outcome α) := do
  let selectedTables ← builtTables f vars phase2.1
  let selected ← usedCandidates vars w costs phase2.1
  let phase2Cost ← weightedCost f selected.toList
  return {
    tables := f.tables
    selectedTables
    selectedCandidates := selected
    phase1Cost := phase1.1.objective
    phase2Cost
    stats := [phase1.2, phase2.2] }

theorem cheaper_eq {costs : List α} {a b : ℕ} (ha : a < costs.length) (hb : b < costs.length) :
    cheaper costs a b = some (Formulation.cheaper costs a b) := by
  rw [cheaper, getElem?_eq_some_getD ha zero, getElem?_eq_some_getD hb zero]
  rfl

section Answers

variable {f : Formulation α} {count : ℕ} {s : Solution α}

theorem builtTables_eq
    (hset : ∀ t < f.tables.size, isSet s (tableVar t) = some (s.isSet (tableVar t))) :
    builtTables f (Registry.of f.tables count) s = some (f.builtTables s) := by
  refine filterM_eq_some fun t ht => ?_
  have ht := List.mem_range.mp ht
  rw [tableVars_eq ht]
  exact hset t ht

variable {costs : List α} (hcosts : costs.length = count)
  (hset : ∀ c < count, isSet s (candidateVar f.tables c) = some (s.isSet (candidateVar f.tables c)))
include hcosts hset

theorem cheapestUsed_eq {siblings : List ℕ} (h : ∀ c ∈ siblings, c < count) :
    cheapestUsed (Registry.of f.tables count) costs s siblings
      = some (f.cheapestUsed? costs s siblings) := by
  have hused : ∀ c ∈ siblings, (do
      let v ← (Registry.of f.tables count).candidateVars[c]?
      isSet s v) = some (s.isSet (candidateVar f.tables c)) := by
    intro c hc
    rw [candidateVars_eq (h c hc)]
    exact hset c (h c hc)
  rw [cheapestUsed, Formulation.cheapestUsed?, filterM_eq_some hused]
  simp only [Option.bind_eq_bind, Option.bind_some]
  cases hkept : siblings.filter fun c => s.isSet (candidateVar f.tables c) with
  | nil => rfl
  | cons c rest =>
    -- the cheapest one so far is always one of the alternatives
    have hlt : ∀ d ∈ c :: rest, d < costs.length := by
      intro d hd
      rw [← hkept] at hd
      exact hcosts.symm ▸ h d (List.mem_of_mem_filter hd)
    obtain ⟨hc, hrest⟩ := List.forall_mem_cons.mp hlt
    have hstep : ∀ a, a < costs.length → ∀ b ∈ rest,
        cheaper costs a b = some (Formulation.cheaper costs a b) ∧
          Formulation.cheaper costs a b < costs.length := by
      intro a ha b hb
      refine ⟨cheaper_eq ha (hrest b hb), ?_⟩
      unfold Formulation.cheaper
      split_ifs
      · exact hrest b hb
      · exact ha
    have hfold : rest.foldlM (cheaper costs) c
        = some (rest.foldl (Formulation.cheaper costs) c) := foldlM_eq_some hstep hc
    simp only [hfold, Option.bind_some]
    rfl

theorem usedCandidates_eq {w : Workload} (hw : ∀ ids ∈ w.siblingSets, ∀ c ∈ ids, c < count) :
    usedCandidates (Registry.of f.tables count) w costs s
      = some (f.usedCandidates w costs s) := by
  have hchosen := mapM_eq_some fun ids hids => cheapestUsed_eq hcosts hset (hw ids hids)
  rw [usedCandidates, hchosen, Formulation.usedCandidates]
  simp only [Option.bind_eq_bind, Option.bind_some, List.filterMap_map]
  rfl

end Answers

/-! ### Selections -/

/-- Chooses tables for a workload whose candidates have the given costs. -/
def select [ScalarText α] {σ : Type} (m : Model α) (w : Workload) (costs : List α)
    (costMargin tolerance : α) (solver : Solver σ α) (state : σ) :
    Option (Except (SelectionError α) (Outcome α) × σ) :=
  if w.isEmpty then some (.ok { phase1Cost := zero, phase2Cost := zero }, state)
  else do
    let (f, vars) ← formulate m w costs
    match ← runPhase solver tolerance .cost f.program state with
    | (.error e, state) => return (.error e, state)
    | (.ok phase1, state) =>
      let counting := countTables f vars (phase1.1.objective * costMargin)
      match ← runPhase solver tolerance .tableCount counting state with
      | (.error e, state) => return (.error e, state)
      | (.ok phase2, state) => return (.ok (← outcome f vars w costs phase1 phase2), state)

section Selections

variable {m : Model α} {w : Workload} (hw : w.RefersTo m) {costs : List α}
  (hcosts : costs.length = w.candidates.length)
include hw hcosts

/-- What a verified second answer chooses is found. -/
theorem outcome_eq {limit tolerance : α} {phase1 phase2 : Solution α × PhaseStats α}
    (hverified : ((m.formulate w costs).countTables limit).verify tolerance phase2.1.values
      = .ok ()) :
    outcome (m.formulate w costs)
        (Registry.of (Tables.collapse w.candidates) w.candidates.length) w costs phase1 phase2
      = some ((m.formulate w costs).outcome w costs phase1 phase2) := by
  set f := m.formulate w costs with hf
  have hlength : (f.countTables limit).names.length = f.tables.size + w.candidates.length :=
    length_names m w costs
  have hset : ∀ v < f.tables.size + w.candidates.length,
      isSet phase2.1 v = some (phase2.1.isSet v) := fun v hv =>
    isSet_eq_of_verify hverified (hlength ▸ hv)
  have hbuilt : builtTables f (Registry.of f.tables w.candidates.length) phase2.1
      = some (f.builtTables phase2.1) :=
    builtTables_eq fun t ht => hset t (Nat.lt_add_right _ ht)
  have hused : usedCandidates (Registry.of f.tables w.candidates.length) w costs phase2.1
      = some (f.usedCandidates w costs phase2.1) :=
    usedCandidates_eq hcosts (fun c hc => hset _ (Nat.add_lt_add_left hc _)) hw.siblings_lt
  have hcost : weightedCost f (f.usedCandidates w costs phase2.1).toList
      = some (f.weightedCost (f.usedCandidates w costs phase2.1).toList) := by
    have hterm : ∀ c ∈ (f.usedCandidates w costs phase2.1).toList,
        f.costTerms[c]?.map (·.2) = some ((f.costTerms.map (·.2)).getD c zero) := by
      intro c hc
      obtain ⟨ids, hids, hcheapest⟩ :=
        List.mem_filterMap.mp (SortedSet.mem_of_mem_toList_ofList hc)
      have hlt := hw.siblings_lt ids hids c (cheapestUsed?_eq_some f costs phase2.1 hcheapest).1
      rw [← List.getElem?_map]
      exact getElem?_eq_some_getD (by simpa [hf, Model.formulate] using hlt) zero
    rw [weightedCost, mapM_eq_some hterm]
    rfl
  show outcome f (Registry.of f.tables w.candidates.length) w costs phase1 phase2 = _
  rw [outcome, hbuilt, hused]
  simp only [Option.bind_eq_bind, Option.bind_some, hcost]
  rfl

theorem select_eq [ScalarText α] {σ : Type} (costMargin tolerance : α) (solver : Solver σ α)
    (state : σ) :
    select m w costs costMargin tolerance solver state
      = some (m.select w costs costMargin tolerance solver state) := by
  have hclosed := Model.isClosed_formulate hw costs
  have hcounting : ∀ limit, ((m.formulate w costs).countTables limit).IsClosed :=
    Formulation.isClosed_countTables hclosed hclosed.objective_lt
      ((length_names m w costs).symm ▸ Nat.le_add_right _ _)
  have hprogram : ∀ limit, countTables (m.formulate w costs)
      (Registry.of (Tables.collapse w.candidates) w.candidates.length) limit
        = (m.formulate w costs).countTables limit := fun _ => rfl
  rw [select, Model.select]
  split_ifs
  · rfl
  · rw [formulate_eq hw hcosts]
    simp only [Option.bind_eq_bind, Option.bind_some, runPhase_eq solver tolerance _ hclosed]
    rcases Keyspace.runPhase solver tolerance .cost (m.formulate w costs).program state with
      ⟨e | phase1, state'⟩
    · rfl
    · simp only [hprogram, runPhase_eq solver tolerance _ (hcounting _), Option.bind_some]
      cases hphase2 : Keyspace.runPhase solver tolerance .tableCount
          ((m.formulate w costs).countTables (phase1.1.objective * costMargin)) state' with
      | mk answer state'' =>
        cases answer with
        | error e => rfl
        | ok phase2 =>
          have hverified := (exists_of_runPhase_eq_ok (by rw [hphase2])).2
          simp only [outcome_eq hw hcosts hverified, Option.bind_some]
          rfl

end Selections

end Checked

end Keyspace
