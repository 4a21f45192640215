/-!
# Decimal literals

`Literal` is a signed decimal number as it is written in a text, before any rounding.  `toFloat`
gives the double nearest to it.
-/

namespace Keyspace.Decimal

/-- The number `± digits * 10 ^ exponent`. -/
structure Literal where
  negative : Bool
  digits : Nat
  exponent : Int
deriving DecidableEq, Repr

/-- The value of a string of decimal digits. -/
def natOfDigits (cs : List Char) : Nat :=
  cs.foldl (fun n c => 10 * n + (c.toNat - '0'.toNat)) 0

/-- The nearest double.  A literal whose leading digit stands beyond `10 ^ 400` or below
`10 ^ -400` is out of range on that side, whatever its digits, and needs no arithmetic. -/
def Literal.toFloat (l : Literal) : Float :=
  let leading : Int := l.exponent + (Nat.repr l.digits).length
  let magnitude : Float :=
    if l.digits = 0 || leading < -400 then 0.0
    else if 400 < leading then 1.0 / 0.0
    else Float.ofScientific l.digits (l.exponent < 0) l.exponent.natAbs
  if l.negative then -magnitude else magnitude

end Keyspace.Decimal
