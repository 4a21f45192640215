import Keyspace.Candidate.Basic
import Keyspace.Workload.Plan

/-!
# Workloads of candidates

The search for candidates answers each level either by a direct lookup or by a list of candidates.
A `Workload` is made of these answers: the candidates of all levels, numbered in the order in which
they were found, and one plan tree for each selection that needs tables.
-/

namespace Keyspace

/-- How a level can be answered. -/
inductive LevelPlan where
  /-- By the identifier of the root entity. -/
  | lookup (level : Level)
  /-- From any one of several tables. -/
  | tables (level : Level) (candidates : List Candidate)
deriving Inhabited

namespace LevelPlan

/-- The level that is answered. -/
def level : LevelPlan → Level
  | lookup l | tables l _ => l

/-- The candidates; a direct lookup has none. -/
def candidates : LevelPlan → List Candidate
  | lookup _ => []
  | tables _ cs => cs

/-- Does the level need a table? -/
def isPlanned : LevelPlan → Bool
  | lookup _ => false
  | tables _ _ => true

end LevelPlan

/-- All alternatives for one selection. -/
structure QueryPlan where
  query : QueryId
  /-- The label of the first level that needs a table. -/
  label : String
  plans : List Plan
deriving Inhabited

/-- A level answered by identifier. -/
structure DirectLookup where
  query : QueryId
  label : String
deriving Inhabited

/-- The candidates of a model and the plan trees over them. -/
structure Workload where
  candidates : List Candidate
  plans : List QueryPlan
  lookups : List DirectLookup
deriving Inhabited

namespace Workload

/-! ### Numbering -/

/-- The numbers of the candidates of each planned level, counted on from `next`. -/
def blocks (next : Nat) : List LevelPlan → List (List Nat)
  | [] => []
  | .lookup _ :: rest => blocks next rest
  | .tables _ cs :: rest => List.range' next cs.length :: blocks (next + cs.length) rest

/-- The plan tree of one selection, if some level of it needs a table. -/
def selectionPlan? (next : Nat) (levels : List LevelPlan) : Option QueryPlan :=
  (levels.find? LevelPlan.isPlanned).map fun first =>
    ⟨first.level.query, first.level.label, Plan.nest (blocks next levels)⟩

/-- The plan trees of all selections, whose candidates are counted on from `next`. -/
def selectionPlans (next : Nat) : List (List LevelPlan) → List QueryPlan
  | [] => []
  | levels :: rest =>
    (selectionPlan? next levels).toList ++
      selectionPlans (next + (levels.flatMap LevelPlan.candidates).length) rest

/-- The direct lookup of a level, if that is how it is answered. -/
def lookup? : LevelPlan → Option DirectLookup
  | .lookup l => some ⟨l.query, l.label⟩
  | .tables _ _ => none

/-- The workload of the answered levels of all selections. -/
def ofLevelPlans (selections : List (List LevelPlan)) : Workload where
  candidates := selections.flatten.flatMap LevelPlan.candidates
  plans := selectionPlans 0 selections
  lookups := selections.flatten.filterMap lookup?

/-! ### Lookups -/

variable (w : Workload)

/-- Is there nothing to choose? -/
def isEmpty : Bool := w.candidates.isEmpty

/-- The candidate of a given number. -/
def candidate (id : Nat) : Candidate := w.candidates.getD id default

/-- The candidates that the plans of a query mention, in ascending order. -/
def candidatesFor (query : QueryId) : List Nat :=
  (SortedSet.ofList
    ((w.plans.filter fun p => p.query == query).flatMap fun p => Plan.idsOf p.plans)).toList

/-- The sets of alternatives of all plan trees, each listed once, from the top down.  At least one
member of each set has to be chosen. -/
def siblingSets : List (List Nat) :=
  (w.plans.flatMap fun p => Plan.siblingLists p.plans).eraseDups

end Workload

end Keyspace
