import Keyspace.Program.LpText
import Keyspace.Program.Solver
import Keyspace.Selection.Formulation
import Keyspace.Sorted.Set

/-!
# Choosing tables in two phases

The first phase makes the cost of the reads least.  The second phase keeps the cost within a
margin of that and makes the number of tables least.  Both answers of the solver are verified
before they are used.  From the second answer each set of alternatives takes its cheapest used
candidate: the other used ones cost nothing to set but serve no read.
-/

namespace Keyspace

open Scalar

/-- The two solves of a run. -/
inductive Phase where
  | cost
  | tableCount
deriving DecidableEq, Repr, Inhabited

namespace Phase

/-- The phase as readers see it. -/
def text : Phase → String
  | cost => "phase 1 (cost)"
  | tableCount => "phase 2 (table count)"

/-- The phase as a word. -/
def word : Phase → String
  | cost => "cost"
  | tableCount => "table_count"

end Phase

/-- The size of a program that was solved, and the objective of its answer. -/
structure PhaseStats (α : Type) where
  phase : Phase
  variableCount : Nat
  constraintCount : Nat
  objective : α
deriving Inhabited

/-- What was chosen. -/
structure Outcome (α : Type) where
  tables : Tables := {}
  /-- The numbers of the tables to build, ascending. -/
  selectedTables : List Nat := []
  /-- For each set of alternatives its cheapest used candidate. -/
  selectedCandidates : SortedSet Nat := ∅
  /-- The objective of the first phase. -/
  phase1Cost : α
  /-- The weighted cost of the selected candidates. -/
  phase2Cost : α
  stats : List (PhaseStats α) := []

/-- Number of tables to build. -/
def Outcome.tableCount {α : Type} (o : Outcome α) : Nat := o.selectedTables.length

/-- Why tables could not be chosen. -/
inductive SelectionError (α : Type) where
  /-- No choice satisfies the constraints. -/
  | infeasible (phase : Phase) (constraintCount variableCount : Nat)
  /-- The answer of the solver is wrong. -/
  | integrity (phase : Phase) (violation : Violation α)
  /-- The solver gave no answer. -/
  | solver (phase : Phase) (reason : String)
deriving Inhabited

/-- The error in one sentence. -/
def SelectionError.message {α : Type} [Scalar α] [ScalarText α] : SelectionError α → String
  | infeasible phase constraintCount variableCount =>
    phase.text ++ " is infeasible (" ++ Nat.repr constraintCount ++ " constraints over " ++
      Nat.repr variableCount ++ " variables)"
  | integrity phase violation =>
    phase.text ++ " returned a solution that fails verification: " ++ violation.message
  | solver phase reason => phase.text ++ " solver error: " ++ reason

variable {α : Type} [Scalar α]

/-- Reports a solver's error as the error of a phase. -/
def SelectionError.ofSolve (phase : Phase) (p : Program α) : SolveError → SelectionError α
  | .infeasible => .infeasible phase p.constraints.length p.names.length
  | e => .solver phase e.message

/-- Checks an answer and records its phase. -/
def checkAnswer (tolerance : α) (phase : Phase) (p : Program α) (s : Solution α) :
    Except (SelectionError α) (Solution α × PhaseStats α) :=
  match p.verify tolerance s.values with
  | .error violation => .error (.integrity phase violation)
  | .ok () => .ok (s, ⟨phase, p.names.length, p.constraints.length, s.objective⟩)

/-- Solves a program and verifies the answer. -/
def runPhase {σ : Type} (solver : Solver σ α) (tolerance : α) (phase : Phase) (p : Program α)
    (state : σ) : Except (SelectionError α) (Solution α × PhaseStats α) × σ :=
  match solver p state with
  | (.error e, state) => (.error (.ofSolve phase p e), state)
  | (.ok s, state) => (checkAnswer tolerance phase p s, state)

namespace Formulation

/-- The program of the second phase: the first one with a limit on the cost, counting tables. -/
def countTables (f : Formulation α) (costLimit : α) : Program α :=
  { f.program.addConstraint ⟨"cost_envelope", f.costTerms, .atMost, costLimit⟩ with
    objective := (List.range f.tables.size).map fun t => (tableVar t, one) }

/-- The tables that an answer builds. -/
def builtTables (f : Formulation α) (s : Solution α) : List Nat :=
  (List.range f.tables.size).filter fun t => s.isSet (tableVar t)

/-- Of two candidates the cheaper one, of equally cheap ones the first. -/
def cheaper (costs : List α) (a b : Nat) : Nat :=
  if rank (costs.getD b zero) (costs.getD a zero) == .lt then b else a

/-- The cheapest used candidate of a set of alternatives. -/
def cheapestUsed? (f : Formulation α) (costs : List α) (s : Solution α) (siblings : List Nat) :
    Option Nat :=
  match siblings.filter fun c => s.isSet (candidateVar f.tables c) with
  | [] => none
  | c :: rest => some (rest.foldl (cheaper costs) c)

/-- The candidates that serve the reads of a workload. -/
def usedCandidates (f : Formulation α) (w : Workload) (costs : List α) (s : Solution α) :
    SortedSet Nat :=
  .ofList (w.siblingSets.filterMap (f.cheapestUsed? costs s))

/-- The weighted cost of some candidates, added up in their order. -/
def weightedCost (f : Formulation α) (candidates : List Nat) : α :=
  sum (candidates.map fun c => (f.costTerms.map (·.2)).getD c zero)

/-- What two answers choose. -/
def outcome (f : Formulation α) (w : Workload) (costs : List α)
    (phase1 phase2 : Solution α × PhaseStats α) : Outcome α :=
  let selected := f.usedCandidates w costs phase2.1
  { tables := f.tables
    selectedTables := f.builtTables phase2.1
    selectedCandidates := selected
    phase1Cost := phase1.1.objective
    phase2Cost := f.weightedCost selected.toList
    stats := [phase1.2, phase2.2] }

end Formulation

/-- Chooses tables for a workload whose candidates have the given costs.  A workload without
candidates needs none, and no solver. -/
def Model.select {σ : Type} (m : Model α) (w : Workload) (costs : List α)
    (costMargin tolerance : α) (solver : Solver σ α) (state : σ) :
    Except (SelectionError α) (Outcome α) × σ :=
  if w.isEmpty then (.ok { phase1Cost := zero, phase2Cost := zero }, state)
  else
    let f := m.formulate w costs
    match runPhase solver tolerance .cost f.program state with
    | (.error e, state) => (.error e, state)
    | (.ok phase1, state) =>
      let counting := f.countTables (phase1.1.objective * costMargin)
      match runPhase solver tolerance .tableCount counting state with
      | (.error e, state) => (.error e, state)
      | (.ok phase2, state) => (.ok (f.outcome w costs phase1 phase2), state)

end Keyspace
