import Keyspace.Decimal.Binary64

/-!
# The fewest digits that read back

`Dyadic.shortest` finds a decimal with the fewest digits among those that round to the given
double, and among these the nearest.  The grids of one, two, ... significant digits are tried in
turn: on each grid only the two neighbours of the value can be nearest to it, and each of them is
tested against the interval of the reals that round to the value.
-/

namespace Keyspace.Decimal

/-- The number `digits * 10 ^ exponent`. -/
structure Digits where
  digits : Nat
  exponent : Int
deriving DecidableEq, Repr

/-- Where a value lies exactly halfway between two neighbours. -/
inductive Tie where
  | up
  | toEven
deriving DecidableEq, Repr

/-- Compares `a * 10 ^ i` with `n * 2 ^ j`. -/
def compareScaled (a : Nat) (i : Int) (n : Nat) (j : Int) : Ordering :=
  compare (a * Nat.pow 10 i.toNat * Nat.pow 2 (-j).toNat)
    (n * Nat.pow 2 j.toNat * Nat.pow 10 (-i).toNat)

/-- Does the decimal round to the value?  The reals that do so reach halfway to either neighbour;
the ends belong to them when the mantissa is even. -/
def Dyadic.readsBack (v : Dyadic) (d : Digits) : Bool :=
  let low := if v.narrowBelow then 4 * v.mantissa - 1 else 4 * v.mantissa - 2
  let high := 4 * v.mantissa + 2
  let closed := v.mantissa % 2 == 0
  let fromLow := compareScaled d.digits d.exponent low (v.exponent - 2)
  let fromHigh := compareScaled d.digits d.exponent high (v.exponent - 2)
  (fromLow == .gt || closed && fromLow == .eq) && (fromHigh == .lt || closed && fromHigh == .eq)

/-- The value in units of `10 ^ exponent`, rounded down. -/
def Dyadic.floorAt (v : Dyadic) (exponent : Int) : Nat :=
  let (num, den) := v.fraction
  num * Nat.pow 10 (-exponent).toNat / (den * Nat.pow 10 exponent.toNat)

/-- Does the value lie above (`gt`), on or below the middle between `d` and `d + 1` units of
`10 ^ exponent`? -/
def Dyadic.sideOfMiddle (v : Dyadic) (d : Nat) (exponent : Int) : Ordering :=
  (compareScaled (2 * d + 1) exponent v.mantissa (v.exponent + 1)).swap

/-- The least `k` with `v < 10 ^ k`, searched upwards from a lower bound. -/
def Dyadic.scaleFrom (v : Dyadic) (k : Int) : Nat → Int
  | 0 => k
  | fuel + 1 =>
    if compareScaled 1 k v.mantissa v.exponent == .gt then k else v.scaleFrom (k + 1) fuel

/-- The least `k` with `v < 10 ^ k` for a nonzero value.  The binary logarithm gives a lower bound
that is at most two steps away. -/
def Dyadic.scale (v : Dyadic) : Int :=
  let log2 := (Nat.log2 v.mantissa : Int) + v.exponent
  v.scaleFrom (log2 * 30103 / 100000 - 1) 4

/-- The neighbour of the value on one grid that reads back; of two such neighbours the nearer. -/
def Dyadic.onGrid? (v : Dyadic) (tie : Tie) (exponent : Int) : Option Digits :=
  let d := v.floorAt exponent
  let below : Digits := ⟨d, exponent⟩
  let above : Digits := ⟨d + 1, exponent⟩
  match v.readsBack below, v.readsBack above with
  | false, false => none
  | true, false => some below
  | false, true => some above
  | true, true =>
    match v.sideOfMiddle d exponent, tie with
    | .gt, _ => some above
    | .lt, _ => some below
    | .eq, .up => some above
    | .eq, .toEven => some (if d % 2 = 0 then below else above)

/-- Moves zeros at the end of the digits into the exponent. -/
def Digits.strip (d : Digits) : Nat → Digits
  | 0 => d
  | fuel + 1 =>
    if d.digits % 10 = 0 && d.digits ≠ 0 then strip ⟨d.digits / 10, d.exponent + 1⟩ fuel else d

/-- The exact decimal value of a dyadic number. -/
def Dyadic.exactDigits (v : Dyadic) : Digits :=
  if v.exponent < 0 then ⟨v.mantissa * Nat.pow 5 (-v.exponent).toNat, v.exponent⟩
  else ⟨v.mantissa * Nat.pow 2 v.exponent.toNat, 0⟩

/-- The first of the grids with `n`, `n + 1`, ... digits on which a neighbour reads back. -/
def Dyadic.searchGrids (v : Dyadic) (tie : Tie) (scale : Int) (n : Nat) : Nat → Option Digits
  | 0 => none
  | fuel + 1 => (v.onGrid? tie (scale - n)).or (v.searchGrids tie scale (n + 1) fuel)

/-- The fewest digits that read back as the value, and of those the nearest; zero has no digits. -/
def Dyadic.shortest (v : Dyadic) (tie : Tie) : Digits :=
  if v.mantissa = 0 then ⟨0, 0⟩
  else ((v.searchGrids tie v.scale 1 17).getD v.exactDigits).strip 400

end Keyspace.Decimal
