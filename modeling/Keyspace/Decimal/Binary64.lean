/-!
# Doubles as dyadic numbers

`Reading.ofFloat` reads a finite double as sign, `m` and `q` with magnitude `m * 2 ^ q`.  All
decimal texts of this library are computed from that reading in exact integer arithmetic.
-/

namespace Keyspace.Decimal

/-- The magnitude `mantissa * 2 ^ exponent` of a double. -/
structure Dyadic where
  mantissa : Nat
  exponent : Int
  /-- Is the next smaller double only half as far away as the next greater one? -/
  narrowBelow : Bool
deriving DecidableEq, Repr

/-- What a double stands for. -/
inductive Reading where
  | finite (negative : Bool) (magnitude : Dyadic)
  | infinite (negative : Bool)
  | nan
deriving DecidableEq, Repr

/-- Splits the 64 bits of a double into sign, exponent field and fraction field. -/
def Reading.ofBits (bits : UInt64) : Reading :=
  let negative := bits >>> 63 == 1
  let field := ((bits >>> 52) &&& 0x7FF).toNat
  let fraction := (bits &&& 0xFFFFFFFFFFFFF).toNat
  if field = 0x7FF then
    if fraction = 0 then .infinite negative else .nan
  else if field = 0 then .finite negative ⟨fraction, -1074, false⟩
  else .finite negative ⟨0x10000000000000 + fraction, (field : Int) - 1075, fraction = 0 && field > 1⟩

/-- The reading of a double. -/
def Reading.ofFloat (x : Float) : Reading := .ofBits x.toBits

/-- The magnitude as a fraction of natural numbers. -/
def Dyadic.fraction (d : Dyadic) : Nat × Nat :=
  (d.mantissa * Nat.pow 2 d.exponent.toNat, Nat.pow 2 (-d.exponent).toNat)

end Keyspace.Decimal
