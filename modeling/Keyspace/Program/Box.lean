import Keyspace.Program.Basic

/-!
# Boxes of assignments

A box fixes some of the variables of a program and leaves the others free; it stands for all
assignments that agree with it.  Two kinds of knowledge narrow the search for a least assignment
down to few boxes:

* `Row.tighten` fixes variables whose other value would break a constraint, and refutes boxes in
  which a constraint cannot hold;
* `leastValue` bounds a form from below over the assignments of a box that satisfy the
  constraints.  A constraint that would fail with all its free variables at their worse values
  demands that one of them takes its better value; demands that share no variable add up.

A box is only given up where a bound is exceeded by more than rounding can account for.
-/

namespace Keyspace

open Scalar

/-- For each variable its value, if that is fixed. -/
abbrev Box := Array (Option Bool)

namespace Box

/-- The box of all assignments to `n` variables. -/
def free (n : Nat) : Box := Array.replicate n none

/-- The value of a variable in a box; variables outside the program count as 0. -/
def value (box : Box) (v : Nat) : Option Bool := box.getD v (some false)

/-- Fixes a variable. -/
def fix (box : Box) (v : Nat) (b : Bool) : Box := box.setIfInBounds v (some b)

/-- The first variable that is free. -/
def firstFree? (box : Box) : Option Nat := box.findIdx? Option.isNone

/-- Number of free variables. -/
def freeCount (box : Box) : Nat := box.countP Option.isNone

end Box

variable {α : Type} [Scalar α]

/-- The value 0 or 1 as a scalar. -/
@[inline] def bit (b : Bool) : α := if b then one else zero

/-- Is `x` below `y` by more than rounding can account for? -/
@[inline] def clearlyBelow (x y : α) : Bool :=
  lt (x + decimal 1 9 * (one + (abs x + abs y))) y

/-! ### Terms over a box -/

/-- The least value of a term over a box. -/
@[specialize] def Box.leastTerm (box : Box) (t : Nat × α) : α :=
  match box.value t.1 with
  | some b => t.2 * bit b
  | none => min (t.2 * zero) (t.2 * one)

/-- The greatest value of a term over a box. -/
@[specialize] def Box.greatestTerm (box : Box) (t : Nat × α) : α :=
  match box.value t.1 with
  | some b => t.2 * bit b
  | none => max (t.2 * zero) (t.2 * one)

/-! ### Rows -/

/-- A constraint in one direction: the form is at least the bound. -/
structure Row (α : Type) where
  terms : LinearForm α
  bound : α

/-- The form with all signs changed. -/
def LinearForm.negate (f : LinearForm α) : LinearForm α :=
  f.map fun t => (t.1, Scalar.negate t.2)

/-- A constraint as rows; an equality is two of them. -/
def Constraint.rows (c : Constraint α) : List (Row α) :=
  let lower : Row α := ⟨c.terms, c.bound⟩
  let upper : Row α := ⟨LinearForm.negate c.terms, Scalar.negate c.bound⟩
  match c.sense with
  | .atLeast => [lower]
  | .atMost => [upper]
  | .equal => [lower, upper]

namespace Row

/-- The better value of a variable for a row is the one that makes its term greater. -/
@[inline] def better (coefficient : α) : Bool := lt (coefficient * zero) (coefficient * one)

/-- Fixes the variable of a term if the row cannot hold with its worse value; `greatest` is the
greatest value of the whole form. -/
@[specialize] def tightenTerm (row : Row α) (greatest : α) (box : Box) (t : Nat × α) : Box :=
  match box.value t.1 with
  | some _ => box
  | none =>
    let swing := box.greatestTerm t - box.leastTerm t
    if clearlyBelow (greatest - swing) row.bound then box.fix t.1 (better t.2) else box

/-- Fixes what a row forces; without a result the row fails throughout the box. -/
@[specialize] def tighten (row : Row α) (box : Box) : Option Box :=
  let greatest := sum (row.terms.map box.greatestTerm)
  if clearlyBelow greatest row.bound then none
  else some (row.terms.foldl (row.tightenTerm greatest) box)

/-- What a row demands of its free variables: one of them has its better value.  A row that holds
however they are chosen demands nothing. -/
@[specialize] def demand? (row : Row α) (box : Box) : Option (List (Nat × Bool)) :=
  if clearlyBelow (sum (row.terms.map box.leastTerm)) row.bound then
    some ((row.terms.filter fun t => (box.value t.1).isNone).map fun t => (t.1, better t.2))
  else none

end Row

/-- Tightens a box by all rows in turn. -/
@[specialize] def tightenAll (rows : List (Row α)) (box : Box) : Option Box :=
  rows.foldlM (fun box row => row.tighten box) box

/-- Tightens a box until nothing changes any more. -/
@[specialize] def propagate (rows : List (Row α)) : Nat → Box → Option Box
  | 0, box => some box
  | fuel + 1, box =>
    match tightenAll rows box with
    | none => none
    | some tighter =>
      if tighter.freeCount = box.freeCount then some tighter else propagate rows fuel tighter

/-! ### Bounds -/

/-- The coefficients of a form by variable. -/
def LinearForm.dense (f : LinearForm α) (n : Nat) : Array α :=
  f.foldl (fun a t => a.modify t.1 (· + t.2)) (Array.replicate n zero)

/-- How much a form grows at least if a free variable takes a given value. -/
@[inline] def growth (coefficients : Array α) (literal : Nat × Bool) : α :=
  let c := coefficients.getD literal.1 zero
  c * bit literal.2 - min (c * zero) (c * one)

/-- The least growth that meets a demand. -/
@[specialize] def leastGrowth (coefficients : Array α) : List (Nat × Bool) → α
  | [] => zero
  | [l] => growth coefficients l
  | l :: rest => min (growth coefficients l) (leastGrowth coefficients rest)

/-- Adds the growths of demands that share no variable with those already counted. -/
@[specialize] def addGrowth (coefficients : Array α) (state : α × Array Bool)
    (demand : List (Nat × Bool)) : α × Array Bool :=
  let growth := leastGrowth coefficients demand
  if lt zero growth && demand.all fun l => !state.2.getD l.1 true then
    (state.1 + growth, demand.foldl (fun used l => used.setIfInBounds l.1 true) state.2)
  else state

/-- A lower bound of a form over the assignments of a box that meet all demands. -/
@[specialize] def leastValue (f : LinearForm α) (coefficients : Array α) (box : Box)
    (demands : List (List (Nat × Bool))) : α :=
  (demands.foldl (addGrowth coefficients)
    (sum (f.map box.leastTerm), Array.replicate box.size false)).1

end Keyspace
