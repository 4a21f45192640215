/-!
# Scalars

Costs, statistics and linear programs are computed over one interface, `Scalar`: four
operations, comparisons and the conversions the planner needs.  Every computation of the library
is written once against it.  The planner runs over doubles (`instScalarFloat`), and its theory is
read over exact extended rationals (`Keyspace.Scalar.Exact`).

Comparisons are Boolean and not assumed total: a value that is not a number is neither below, nor
equal to, nor above anything.  `rank` is the total order used where a choice must not depend on
such values.
-/

namespace Keyspace

/-- Arithmetic of costs.  No laws are required: what holds of every scalar type, rounding or not,
is proved from the definitions alone. -/
class Scalar (α : Type) extends Add α, Sub α, Mul α, Div α where
  /-- The scalar nearest to a natural number. -/
  ofNat : Nat → α
  /-- The scalar nearest to `digits / 10 ^ places`. -/
  decimal (digits places : Nat) : α
  /-- The value of a sum without terms. -/
  emptySum : α
  /-- Additive inverse. -/
  negate : α → α
  /-- Absolute value. -/
  abs : α → α
  /-- Strictly below. -/
  lt : α → α → Bool
  /-- Below or equal. -/
  le : α → α → Bool
  /-- Equal as numbers. -/
  same : α → α → Bool
  /-- A total order: negative zero before zero, what is not a number after everything. -/
  rank : α → α → Ordering

namespace Scalar

variable {α : Type} [Scalar α]

/-- Zero. -/
@[inline] def zero : α := ofNat 0

/-- One. -/
@[inline] def one : α := ofNat 1

/-- Only a value that is not a number differs from itself. -/
@[inline] def isNaN (x : α) : Bool := !same x x

/-- The greater of two scalars; if one of them is not a number, the other. -/
@[inline] def max (x y : α) : α := if lt x y || isNaN x then y else x

/-- The smaller of two scalars; if one of them is not a number, the other. -/
@[inline] def min (x y : α) : α := if lt y x || isNaN x then y else x

/-- Terms are added from left to right, which fixes the rounding. -/
def sum (xs : List α) : α := xs.foldl (· + ·) emptySum

end Scalar

/-! ### Doubles -/

namespace Binary64

/-- The bit holding the sign of a double. -/
def signBit : UInt64 := 0x8000000000000000

/-- A word whose unsigned order is the total order of doubles: negative doubles, whose magnitude
bits grow downwards, are complemented, and the others are moved above them. -/
def orderWord (x : Float) : UInt64 :=
  let bits := x.toBits
  if bits &&& signBit == 0 then bits ||| signBit else ~~~bits

end Binary64

/-- Doubles.  The empty sum is negative zero, the one double whose addition changes no other. -/
instance instScalarFloat : Scalar Float where
  ofNat n := Float.ofNat n
  decimal digits places := Float.ofScientific digits true places
  emptySum := -0.0
  negate x := -x
  abs := Float.abs
  lt x y := decide (x < y)
  le x y := decide (x ≤ y)
  same x y := x == y
  rank x y := compare (Binary64.orderWord x) (Binary64.orderWord y)

end Keyspace
