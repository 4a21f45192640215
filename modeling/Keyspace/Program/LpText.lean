import Keyspace.Program.Basic
import Keyspace.Scalar.Text

/-!
# Programs as text

A program in the LP format: the objective, one constraint on a line, and the names of the binary
variables.  The sign of a coefficient is written apart from its magnitude, a magnitude of one is
left out, and so is the plus sign at the start of a form.
-/

namespace Keyspace

open Scalar

variable {α : Type} [Scalar α] [ScalarText α]

namespace Program

/-- The name of a variable. -/
def variableName (p : Program α) (v : Nat) : String := p.names.getD v ""

/-- A term after its sign. -/
def magnitudeText (p : Program α) (t : Nat × α) : String :=
  let magnitude := abs t.2
  if same magnitude one then p.variableName t.1
  else ScalarText.plain magnitude ++ " " ++ p.variableName t.1

/-- The sign of a coefficient. -/
def signText (coefficient : α) : String := if lt coefficient zero then "-" else "+"

/-- A term that follows others. -/
def laterTermText (p : Program α) (t : Nat × α) : String :=
  " " ++ signText t.2 ++ " " ++ p.magnitudeText t

/-- The text of a form. -/
def formText (p : Program α) : LinearForm α → String
  | [] => " 0"
  | t :: rest =>
    (if lt t.2 zero then p.laterTermText t else " " ++ p.magnitudeText t) ++
      String.join (rest.map p.laterTermText)

/-- One constraint on a line. -/
def constraintText (p : Program α) (c : Constraint α) : String :=
  " " ++ c.name ++ ":" ++ p.formText c.terms ++ " " ++ c.sense.text ++ " " ++
    ScalarText.plain c.bound ++ "\n"

/-- The text of a program in the LP format. -/
def lpText (p : Program α) : String :=
  "Minimize\n obj:" ++ p.formText p.objective ++ "\nSubject To\n" ++
    String.join (p.constraints.map p.constraintText) ++
    "Binary\n" ++ String.join (p.names.map fun name => " " ++ name ++ "\n") ++ "End\n"

end Program

/-- The fault of an answer in one sentence. -/
def Violation.message : Violation α → String
  | notBinary name value =>
    "variable " ++ name ++ " = " ++ ScalarText.plain value ++ " is not binary"
  | unsatisfied constraint lhs sense bound =>
    "constraint " ++ constraint ++ ": " ++ ScalarText.plain lhs ++ " " ++ sense.text ++ " " ++
      ScalarText.plain bound ++ " does not hold"
  | arity expected actual =>
    "solution has " ++ Nat.repr actual ++ " values for " ++ Nat.repr expected ++ " variables"

end Keyspace
