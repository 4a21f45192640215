import Keyspace.Decimal.Text
import Keyspace.Scalar.Basic

/-!
# Texts of scalars

Three texts of a number appear in what the library writes: the plain text of messages and linear
programs, a rounded text in reports for readers, and the text in JSON.
-/

namespace Keyspace

/-- How scalars are written. -/
class ScalarText (α : Type) where
  /-- The text in messages and linear programs. -/
  plain : α → String
  /-- The text with a fixed number of places. -/
  fixed (places : Nat) : α → String
  /-- The text in JSON. -/
  json : α → String

/-- Plain numbers have no exponent and no superfluous point, and ties among digits go up. -/
def plainStyle : Decimal.Style where
  positional := none
  wholeMark := false
  tie := .up
  nan := "NaN"
  infinite negative := if negative then "-inf" else "inf"

/-- JSON numbers from `10 ^ -5` up to `10 ^ 16` have no exponent, whole numbers keep `.0`, and
what is not finite is `null`. -/
def jsonStyle : Decimal.Style where
  positional := some (-5, 16)
  wholeMark := true
  tie := .toEven
  nan := "null"
  infinite _ := "null"

instance : ScalarText Float where
  plain := plainStyle.text
  fixed := plainStyle.fixedText
  json := jsonStyle.text

end Keyspace
