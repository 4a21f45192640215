import Keyspace.Scalar.Basic

/-!
# Exact scalars

`Exact` adds two infinities and a value that is not a number to the rationals.  Finite values are
computed without rounding, and the other values combine as they do for doubles, so that a
statement over `Exact` reads the planner's sums as exact arithmetic and still covers inputs that
are infinite or not numbers.
-/

namespace Keyspace

/-- An exact scalar. -/
inductive Exact where
  | finite (value : Rat)
  | posInf
  | negInf
  | nan
deriving DecidableEq

namespace Exact

instance : Inhabited Exact := ⟨finite 0⟩

/-- The infinity with the sign of a nonzero rational; zero has none. -/
def infinityLike (q : Rat) : Exact :=
  if q = 0 then nan else if 0 < q then posInf else negInf

/-- Additive inverse. -/
def neg : Exact → Exact
  | finite q => finite (-q)
  | posInf => negInf
  | negInf => posInf
  | nan => nan

/-- Infinities of opposite signs have no sum. -/
def add : Exact → Exact → Exact
  | finite p, finite q => finite (p + q)
  | nan, _ | _, nan => nan
  | posInf, negInf | negInf, posInf => nan
  | posInf, _ | _, posInf => posInf
  | negInf, _ | _, negInf => negInf

/-- Zero times an infinity is not a number. -/
def mul : Exact → Exact → Exact
  | finite p, finite q => finite (p * q)
  | nan, _ | _, nan => nan
  | finite p, posInf | posInf, finite p => infinityLike p
  | finite p, negInf | negInf, finite p => infinityLike (-p)
  | posInf, posInf | negInf, negInf => posInf
  | posInf, negInf | negInf, posInf => negInf

/-- A nonzero value over zero is infinite; zero over zero and a quotient of infinities are not
numbers. -/
def div : Exact → Exact → Exact
  | finite p, finite q => if q = 0 then infinityLike p else finite (p / q)
  | nan, _ | _, nan => nan
  | finite _, _ => finite 0
  | posInf, finite q => if q = 0 then posInf else infinityLike q
  | negInf, finite q => if q = 0 then negInf else infinityLike (-q)
  | _, _ => nan

/-- Absolute value. -/
def abs : Exact → Exact
  | finite q => finite (if q < 0 then -q else q)
  | posInf | negInf => posInf
  | nan => nan

/-- Strictly below; nothing is below or above a value that is not a number. -/
def lt : Exact → Exact → Bool
  | finite p, finite q => decide (p < q)
  | nan, _ | _, nan => false
  | negInf, negInf | posInf, _ | _, negInf => false
  | negInf, _ | _, posInf => true

/-- Equal as numbers. -/
def same : Exact → Exact → Bool
  | finite p, finite q => decide (p = q)
  | posInf, posInf | negInf, negInf => true
  | _, _ => false

/-- Position in the total order: the infinities around the rationals, `nan` last. -/
def tier : Exact → Nat
  | negInf => 0
  | finite _ => 1
  | posInf => 2
  | nan => 3

/-- The total order: by tier, rationals among themselves by value. -/
def rank : Exact → Exact → Ordering
  | finite p, finite q => if p < q then .lt else if p = q then .eq else .gt
  | x, y => compare x.tier y.tier

instance : Scalar Exact where
  add := add
  sub x y := add x (neg y)
  mul := mul
  div := div
  ofNat n := finite n
  decimal digits places := finite (mkRat digits (Nat.pow 10 places))
  emptySum := finite 0
  negate := neg
  abs := abs
  lt := lt
  le x y := lt x y || same x y
  same := same
  rank := rank

end Exact

end Keyspace
