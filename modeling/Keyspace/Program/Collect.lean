import Keyspace.Program.Basic
import Keyspace.Sorted.Map

/-!
# Like terms

A linear form of a program may name a variable more than once.  `LinearForm.collect` adds up the
coefficients of each variable, and `Program.collect` does so in the objective and in every
constraint.
-/

namespace Keyspace

open Scalar

variable {α : Type} [Scalar α]

/-- The form with one term for each of its variables, in the order of the variables. -/
def LinearForm.collect (f : LinearForm α) : LinearForm α :=
  (f.foldl (fun m t => m.alter t.1 fun c => c.getD zero + t.2) (∅ : SortedMap Nat α)).entries

/-- The program with one term for each variable of a form. -/
def Program.collect (p : Program α) : Program α where
  names := p.names
  constraints := p.constraints.map fun c => { c with terms := c.terms.collect }
  objective := p.objective.collect

end Keyspace
