import Keyspace.Decimal.Shortest
import Keyspace.Decimal.Fixed

/-!
# Decimal texts of doubles

A `Style` says how the shortest digits of a double are laid out: which magnitudes are written
positionally, whether a whole number keeps `.0`, how ties among the digits go and what stands for
the values that are not finite.  `Style.text` writes a double in a style, `fixedText` with a fixed
number of places.
-/

namespace Keyspace.Decimal

/-- A layout of decimal texts. -/
structure Style where
  /-- The range `10 ^ least ≤ x < 10 ^ limit` that is written without an exponent; without a range
  every number is. -/
  positional : Option (Int × Int)
  /-- Does a whole number end in `.0`? -/
  wholeMark : Bool
  /-- Which of two equally near digit strings is written. -/
  tie : Tie
  /-- The texts of NaN and of the infinities. -/
  nan : String
  infinite : Bool → String

/-- Puts the point into a digit string whose last digit counts units of `10 ^ exponent`. -/
def positionalText (wholeMark : Bool) (digits : List Char) (exponent : Int) : List Char :=
  if 0 ≤ exponent then
    let whole := if digits = ['0'] then digits else digits ++ List.replicate exponent.toNat '0'
    if wholeMark then whole ++ ['.', '0'] else whole
  else
    let places := (-exponent).toNat
    if digits.length ≤ places then
      '0' :: '.' :: (List.replicate (places - digits.length) '0' ++ digits)
    else
      let whole := digits.length - places
      digits.take whole ++ '.' :: digits.drop whole

/-- One digit before the point, and the exponent with its sign. -/
def scientificText (digits : List Char) (leading : Int) : List Char :=
  let exponent :=
    (if leading < 0 then ['e', '-'] else ['e', '+']) ++ (Nat.repr leading.natAbs).toList
  match digits with
  | [] => exponent
  | [d] => d :: exponent
  | d :: rest => d :: '.' :: (rest ++ exponent)

/-- The text of a magnitude given by its shortest digits. -/
def Style.digitsText (style : Style) (d : Digits) : List Char :=
  let digits := (Nat.repr d.digits).toList
  let leading : Int := d.exponent + digits.length - 1
  let positional :=
    match style.positional with
    | none => true
    | some (least, limit) => d.digits == 0 || (least ≤ leading && leading < limit)
  if positional then positionalText style.wholeMark digits d.exponent
  else scientificText digits leading

/-- The text of what a double stands for. -/
def Style.readingText (style : Style) : Reading → String
  | .nan => style.nan
  | .infinite negative => style.infinite negative
  | .finite negative magnitude =>
    let body := style.digitsText (magnitude.shortest style.tie)
    String.ofList (if negative then '-' :: body else body)

/-- The text of a double. -/
def Style.text (style : Style) (x : Float) : String := style.readingText (.ofFloat x)

/-- The text of a double with a fixed number of places; values that are not finite are written as
in the given style. -/
def Style.fixedText (style : Style) (places : Nat) (x : Float) : String :=
  match Reading.ofFloat x with
  | .finite negative magnitude =>
    let body := pointed (magnitude.roundTo places) places
    String.ofList (if negative then '-' :: body else body)
  | reading => style.readingText reading

end Keyspace.Decimal
