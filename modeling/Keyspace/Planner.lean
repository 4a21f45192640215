import Keyspace.Report.Basic
import Keyspace.Settings.Basic
import Keyspace.Workload.Search

/-!
# Planning

`Model.plan` is the whole way from a model to a report: it checks the settings, searches and
prices the candidates, chooses tables with a solver, and reports the choice.
-/

namespace Keyspace

/-- Why there is no plan. -/
inductive PlanError (α : Type) where
  | settings (cause : SettingsError α)
  | search (cause : SearchError)
  | selection (cause : SelectionError α)
deriving Inhabited

/-- The error in one sentence. -/
def PlanError.message {α : Type} [Scalar α] [ScalarText α] : PlanError α → String
  | settings cause => "Invalid planner settings: " ++ cause.message
  | search cause => cause.message
  | selection cause => cause.message

variable {α : Type} [Scalar α]

/-- The candidates of a model with their costs, found and priced over one memo. -/
def Model.pricedWorkload (m : Model α) (rowScanCost : α) (prune : Bool) :
    Except SearchError (Workload × List α) :=
  match m.search rowScanCost prune {} with
  | (.error e, _) => .error e
  | (.ok w, memo) =>
    match m.price rowScanCost w memo with
    | (.error e, _) => .error (.schema e)
    | (.ok costs, _) => .ok (w, costs)

/-- Plans the tables of a model. -/
def Model.plan {σ : Type} (m : Model α) (s : Settings α) (solver : Solver σ α) (state : σ) :
    Except (PlanError α) (Report α) × σ :=
  match s.validate with
  | .error e => (.error (.settings e), state)
  | .ok () =>
    match m.pricedWorkload s.rowScanCost s.pruneOverLatency with
    | .error e => (.error (.search e), state)
    | .ok (w, costs) =>
      match m.select w costs s.costMargin s.verifyTolerance solver state with
      | (.error e, state) => (.error (.selection e), state)
      | (.ok outcome, state) => (.ok (.build m w costs outcome), state)

end Keyspace
