import Keyspace.Decimal.Binary64

/-!
# Fixed places

`Dyadic.roundTo` counts a value in units of `10 ^ -places`, rounded to the nearest count; a value
exactly halfway between two counts goes to the even one.
-/

namespace Keyspace.Decimal

/-- The quotient rounded to the nearest natural number, a tie to the even one. -/
def roundDiv (num den : Nat) : Nat :=
  let quotient := num / den
  match compare (2 * (num % den)) den with
  | .lt => quotient
  | .gt => quotient + 1
  | .eq => if quotient % 2 = 0 then quotient else quotient + 1

/-- The value in units of `10 ^ -places`. -/
def Dyadic.roundTo (v : Dyadic) (places : Nat) : Nat :=
  let (num, den) := v.fraction
  roundDiv (num * Nat.pow 10 places) den

/-- Digits padded on the left with zeros to at least a given width. -/
def padded (n width : Nat) : List Char :=
  let digits := (Nat.repr n).toList
  List.replicate (width - digits.length) '0' ++ digits

/-- A count of units of `10 ^ -places` as a text with a point. -/
def pointed (count places : Nat) : List Char :=
  if places = 0 then (Nat.repr count).toList
  else
    let digits := padded count (places + 1)
    let whole := digits.length - places
    digits.take whole ++ '.' :: digits.drop whole

end Keyspace.Decimal
