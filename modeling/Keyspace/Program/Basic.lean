import Keyspace.Scalar.Basic

/-!
# Programs over binary variables

A `Program` asks for values 0 or 1 of its variables that satisfy linear constraints and make a
linear objective least.  Variables are numbered in the order in which they were added.
`Program.verify` checks an answer independently of how it was found.
-/

namespace Keyspace

open Scalar

/-- A linear form: variables with their coefficients. -/
abbrev LinearForm (α : Type) := List (Nat × α)

/-- The value of a form, added up in the order of its terms. -/
def LinearForm.eval {α : Type} [Scalar α] (f : LinearForm α) (values : List α) : α :=
  sum (f.map fun t => t.2 * values.getD t.1 zero)

/-- How the two sides of a constraint compare. -/
inductive Sense where
  | atLeast
  | atMost
  | equal
deriving DecidableEq, Repr, Inhabited

/-- The sign of a comparison. -/
def Sense.text : Sense → String
  | atLeast => ">="
  | atMost => "<="
  | equal => "="

/-- A named linear constraint. -/
structure Constraint (α : Type) where
  name : String
  terms : LinearForm α
  sense : Sense
  bound : α
deriving Inhabited

/-- Does a value of the left side stand to the right side as it should, up to a tolerance? -/
def Constraint.holds {α : Type} [Scalar α] (c : Constraint α) (lhs tolerance : α) : Bool :=
  match c.sense with
  | .atLeast => le (c.bound - tolerance) lhs
  | .atMost => le lhs (c.bound + tolerance)
  | .equal => le (abs (lhs - c.bound)) tolerance

/-- A minimization over binary variables. -/
structure Program (α : Type) where
  /-- The names of the variables. -/
  names : List String := []
  constraints : List (Constraint α) := []
  /-- The form to be made least. -/
  objective : LinearForm α := []
deriving Inhabited

/-- An answer to a program. -/
structure Solution (α : Type) where
  /-- A value for each variable. -/
  values : List α
  /-- The value of the objective. -/
  objective : α
deriving Inhabited

/-- Is a variable set?  The values of an answer may be a little off. -/
def Solution.isSet {α : Type} [Scalar α] (s : Solution α) (v : Nat) : Bool :=
  lt (decimal 5 1) (s.values.getD v zero)

/-- What is wrong with an answer. -/
inductive Violation (α : Type) where
  /-- A variable is neither 0 nor 1. -/
  | notBinary (variableName : String) (value : α)
  /-- A constraint does not hold. -/
  | unsatisfied (constraint : String) (lhs : α) (sense : Sense) (bound : α)
  /-- There is not one value for each variable. -/
  | arity (expected actual : Nat)
deriving Inhabited

namespace Program

variable {α : Type} [Scalar α] (p : Program α)

/-- Adds a variable, whose number is the number of variables before it. -/
def addVariable (p : Program α) (name : String) : Program α :=
  { p with names := p.names ++ [name] }

/-- Adds a constraint. -/
def addConstraint (p : Program α) (c : Constraint α) : Program α :=
  { p with constraints := p.constraints ++ [c] }

/-- The value of the objective. -/
def evaluate (values : List α) : α := p.objective.eval values

/-- Is a value 0 or 1 up to a tolerance? -/
def isBinary (tolerance value : α) : Bool :=
  !(lt tolerance (abs value) && lt tolerance (abs (value - one)))

/-- The first variable whose value is not binary. -/
def nonBinary? (tolerance : α) (values : List α) : Option (Violation α) :=
  ((p.names.zip values).find? fun e => !isBinary tolerance e.2).map fun e =>
    .notBinary e.1 e.2

/-- The first constraint that does not hold. -/
def unsatisfied? (tolerance : α) (values : List α) : Option (Violation α) :=
  (p.constraints.find? fun c => !c.holds (c.terms.eval values) tolerance).map fun c =>
    .unsatisfied c.name (c.terms.eval values) c.sense c.bound

/-- The first fault of an answer: the number of values, then the variables, then the
constraints. -/
def violation? (tolerance : α) (values : List α) : Option (Violation α) :=
  if values.length ≠ p.names.length then
    some (.arity p.names.length values.length)
  else (p.nonBinary? tolerance values).or (p.unsatisfied? tolerance values)

/-- Checks that an answer is binary and satisfies all constraints, up to a tolerance. -/
def verify (tolerance : α) (values : List α) : Except (Violation α) Unit :=
  match p.violation? tolerance values with
  | some violation => .error violation
  | none => .ok ()

end Program

end Keyspace
