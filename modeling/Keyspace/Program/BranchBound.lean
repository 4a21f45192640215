import Keyspace.Program.Box
import Keyspace.Program.Collect
import Keyspace.Program.Solver

/-!
# An exact solver

`Program.minimize?` finds a least assignment by splitting boxes.  A box is given up when a
constraint cannot hold in it or when its lower bound is no better than an assignment already
found; of two halves the one with the lower bound is searched first.  An assignment is accepted
only if it satisfies every constraint without any tolerance.

`ExactSolver.solveThrough` is a solver that asks a backend, which gets each program with like terms
collected.
-/

namespace Keyspace

open Scalar

variable {α : Type} [Scalar α]

/-- A program prepared for the search. -/
structure Prepared (α : Type) where
  program : Program α
  size : Nat
  rows : List (Row α)
  /-- The objective with its coefficients by variable. -/
  objective : LinearForm α × Array α
  /-- Upper limits: forms with their coefficients by variable, and what they must not exceed. -/
  limits : List ((LinearForm α × Array α) × α)

/-- Prepares a program. -/
def Program.prepare (p : Program α) : Prepared α where
  program := p
  size := p.names.length
  rows := p.constraints.flatMap Constraint.rows
  objective := (p.objective, LinearForm.dense p.objective p.names.length)
  limits := (p.constraints.filter fun c => c.sense == .atMost).map fun c =>
    ((c.terms, LinearForm.dense c.terms p.names.length), c.bound)

namespace Prepared

/-- The assignment of a box without free variables. -/
def assignment (box : Box) : List α := box.toList.map fun b => bit (b.getD false)

/-- Replaces the best answer by the assignment of a box, if that satisfies all constraints and is
strictly better. -/
@[specialize] def accept (p : Prepared α) (box : Box) (best : Option (Solution α)) :
    Option (Solution α) :=
  let values : List α := assignment box
  match p.program.violation? zero values with
  | some _ => best
  | none =>
    let objective := p.program.evaluate values
    match best with
    | none => some ⟨values, objective⟩
    | some b => if lt objective b.objective then some ⟨values, objective⟩ else best

/-- One half of a box with its lower bound, unless some constraint refutes it. -/
@[specialize] def half (p : Prepared α) (box : Box) (v : Nat) (b : Bool) : Option (Box × α) :=
  match propagate p.rows (p.size + 1) (box.fix v b) with
  | none => none
  | some box =>
    let demands := p.rows.filterMap fun row => row.demand? box
    let exceeded := p.limits.any fun l =>
      clearlyBelow l.2 (leastValue l.1.1 l.1.2 box demands)
    if exceeded then none
    else some (box, leastValue p.objective.1 p.objective.2 box demands)

/-- The halves of a box, the one with the lower bound first. -/
@[specialize] def halves (p : Prepared α) (box : Box) (v : Nat) : List (Box × α) :=
  match p.half box v false, p.half box v true with
  | none, none => []
  | some l, none => [l]
  | none, some r => [r]
  | some l, some r => if lt r.2 l.2 then [r, l] else [l, r]

/-- Can a box with this lower bound not improve on the best answer? -/
def hopeless (best : Option (Solution α)) (bound : α) : Bool :=
  match best with
  | none => false
  | some b => le b.objective bound

/-- Searches a box for an assignment better than the best answer so far.  The fuel bounds the
number of free variables. -/
@[specialize] def search (p : Prepared α) : Nat → Box → Option (Solution α) → Option (Solution α)
  | 0, box, best => p.accept box best
  | fuel + 1, box, best =>
    match box.firstFree? with
    | none => p.accept box best
    | some v =>
      (p.halves box v).foldl
        (fun best half => if hopeless best half.2 then best else p.search fuel half.1 best) best

end Prepared

/-- A least assignment among those that satisfy all constraints, if there is any. -/
@[specialize] def Program.minimize? (p : Program α) : Option (Solution α) :=
  let prepared := p.prepare
  match propagate prepared.rows (prepared.size + 1) (Box.free prepared.size) with
  | none => none
  | some box => prepared.search prepared.size box none

/-- Whatever finds values for the variables of a program. -/
abbrev Backend (α : Type) := Program α → Except SolveError (List α)

/-- The backend that takes a program without a least assignment for infeasible. -/
@[inline] def Backend.ofLeast (leastAssignment? : Program α → Option (List α)) : Backend α :=
  fun p =>
    match leastAssignment? p with
    | none => .error .infeasible
    | some values => .ok values

/-- A solver that counts its answers. -/
structure ExactSolver where
  /-- Number of programs answered by a search. -/
  solves : Nat := 0
deriving DecidableEq, Repr, Inhabited

namespace ExactSolver

/-- Answers programs with the values that a backend finds.  The objective of an answer is evaluated
anew, whatever the backend made of it.  A program without variables has the empty answer, for which
the backend is not asked. -/
@[specialize] def solveThrough (backend : Backend α) : Solver ExactSolver α := fun p s =>
  if p.names.isEmpty then (.ok ⟨[], zero⟩, s)
  else
    match backend p.collect with
    | .error e => (.error e, s)
    | .ok values => (.ok ⟨values, p.evaluate values⟩, { s with solves := s.solves + 1 })

/-- Answers programs by a search for a least assignment. -/
@[specialize] def solveBy (leastAssignment? : Program α → Option (List α)) :
    Solver ExactSolver α :=
  solveThrough (Backend.ofLeast leastAssignment?)

/-- Answers programs by splitting boxes. -/
@[specialize] def solve : Solver ExactSolver α :=
  solveBy fun p => p.minimize?.map Solution.values

end ExactSolver

end Keyspace
