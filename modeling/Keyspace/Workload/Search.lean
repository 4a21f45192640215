import Keyspace.Candidate.Enumerate
import Keyspace.Cost.Memo
import Keyspace.Workload.Basic

/-!
# The search for candidates

`Model.search` answers every level of the workload and prices each candidate on the way.  With
pruning, candidates whose cost reaches the latency of their query are dropped; a level that keeps
no candidate ends the search, and so does a statistic that is missing.
-/

namespace Keyspace

/-- Why the search ends without a workload. -/
inductive SearchError where
  /-- The model could not be consulted. -/
  | schema (cause : SchemaError)
  /-- Every candidate of a level is too slow. -/
  | noCandidates (query selection : String)
deriving Inhabited

/-- The error in one sentence. -/
def SearchError.message : SearchError → String
  | schema cause => "Schema resolution failed: " ++ cause.message
  | noCandidates query selection =>
    "No candidate for " ++ selection ++ " of query " ++ query ++ " fits its latency budget"

namespace Model

variable {α : Type} [Scalar α] (m : Model α)

/-- Does a cost stay below the latency of a query? -/
def fitsLatency (query : QueryId) (cost : α) : Bool :=
  !Scalar.le (Scalar.ofNat (m.query query).serviceLevel.latency) cost

/-- The candidates that are kept, given their costs. -/
def keep (prune : Bool) (query : QueryId) (candidates : List Candidate) (costs : List α) :
    List Candidate :=
  if prune then
    ((candidates.zip costs).filter fun p => m.fitsLatency query p.2).map (·.1)
  else candidates

/-- Answers one level. -/
def planLevel (rowScanCost : α) (prune : Bool) (l : Level) (memo : Memo α) :
    Except SearchError LevelPlan × Memo α :=
  if m.bindsIdentifier l.clause then (.ok (.lookup l), memo)
  else
    let candidates := m.candidates l
    match m.costs rowScanCost candidates memo with
    | (.error e, memo) => (.error (.schema e), memo)
    | (.ok costs, memo) =>
      let kept := m.keep prune l.query candidates costs
      if kept.isEmpty then (.error (.noCandidates (m.query l.query).name l.label), memo)
      else (.ok (.tables l kept), memo)

/-- Answers the levels of one selection in turn. -/
def planSelection (rowScanCost : α) (prune : Bool) (levels : List Level) (memo : Memo α) :
    Except SearchError (List LevelPlan) × Memo α :=
  memo.collect (m.planLevel rowScanCost prune) levels

/-- Finds and prices the candidates for all levels of the workload. -/
def search (rowScanCost : α) (prune : Bool) (memo : Memo α) :
    Except SearchError Workload × Memo α :=
  match memo.collect (m.planSelection rowScanCost prune) m.selectionLevels with
  | (.error e, memo) => (.error e, memo)
  | (.ok selections, memo) => (.ok (.ofLevelPlans selections), memo)

/-- The costs of all candidates of a workload, in the order of their numbers. -/
def price (rowScanCost : α) (w : Workload) (memo : Memo α) :
    Except SchemaError (List α) × Memo α :=
  m.costs rowScanCost w.candidates memo

end Model

end Keyspace
