import Keyspace.Program.Basic

/-!
# Solvers

A solver answers programs one after the other and may keep a state between its answers.  Nothing
is assumed about an answer; who asks has to verify it.
-/

namespace Keyspace

/-- Why a solver has no answer. -/
inductive SolveError where
  /-- No assignment satisfies the constraints. -/
  | infeasible
  /-- The objective has no least value. -/
  | unbounded
  /-- The solver gave up. -/
  | failed (reason : String)
deriving DecidableEq, Repr, Inhabited

/-- The error in one phrase. -/
def SolveError.message : SolveError → String
  | infeasible => "model is infeasible"
  | unbounded => "model is unbounded"
  | failed reason => "solver failed: " ++ reason

/-- A solver with a state of type `σ`. -/
abbrev Solver (σ α : Type) := Program α → σ → Except SolveError (Solution α) × σ

end Keyspace
