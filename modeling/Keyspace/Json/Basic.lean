import Keyspace.Decimal.Literal
import Keyspace.Scalar.Text
import Keyspace.Sorted.Map

/-!
# JSON values

A number is kept as the token it is written with, because whether a token has a fraction or an
exponent decides how it is written again.  `Json.canonical` brings a value into the form that is
hashed: members sorted by name, the last of equally named members kept, and numbers with the fewest
digits.
-/

namespace Keyspace

/-- A JSON value. -/
inductive Json where
  | null
  | bool (value : Bool)
  | number (token : String)
  | text (value : String)
  | array (items : List Json)
  | object (members : List (String × Json))

namespace Json

instance : Inhabited Json := ⟨null⟩

/-- A natural number. -/
def ofNat (n : Nat) : Json := number (Nat.repr n)

/-- A list of texts. -/
def texts (values : List String) : Json := array (values.map text)

/-- A scalar in its JSON form. -/
def ofScalar {α : Type} [ScalarText α] (x : α) : Json := number (ScalarText.json x)

/-- The member of a given name; the last one counts. -/
def member? (name : String) : Json → Option Json
  | object members => (members.reverse.find? fun m => m.1 == name).map (·.2)
  | _ => none

/-! ### Number tokens -/

/-- The parts of a number token. -/
structure NumberToken where
  literal : Decimal.Literal
  /-- Is there neither a fraction nor an exponent? -/
  whole : Bool

/-- Reads an exponent after its `e`; the absence of digits counts as zero. -/
def exponentOf : List Char → Int
  | '-' :: digits => -(Decimal.natOfDigits digits : Int)
  | '+' :: digits => Decimal.natOfDigits digits
  | digits => Decimal.natOfDigits digits

/-- Takes a number token apart. -/
def readNumber (token : String) : NumberToken :=
  let (negative, cs) :=
    match token.toList with
    | '-' :: cs => (true, cs)
    | cs => (false, cs)
  let (whole, rest) := cs.span Char.isDigit
  let (fraction, rest) :=
    match rest with
    | '.' :: rest => rest.span Char.isDigit
    | rest => ([], rest)
  let (exponent, scientific) :=
    match rest with
    | 'e' :: rest | 'E' :: rest => (exponentOf rest, true)
    | _ => (0, false)
  { literal := ⟨negative, Decimal.natOfDigits (whole ++ fraction), exponent - fraction.length⟩
    whole := fraction.isEmpty && !scientific }

/-- Magnitudes up to this one have a negative in a signed word of 64 bits. -/
def signedLimit : Nat := 9223372036854775808

/-- Natural numbers below this one fit an unsigned word of 64 bits. -/
def unsignedLimit : Nat := 18446744073709551616

/-- A number token in canonical form.  Whole tokens that fit a signed or an unsigned word of 64 bits
stay integers; all others, and negative zero, become the nearest double. -/
def canonicalNumber (token : String) : String :=
  let n := readNumber token
  let fits :=
    if n.literal.negative then 0 < n.literal.digits && n.literal.digits ≤ signedLimit
    else n.literal.digits < unsignedLimit
  if n.whole && fits then
    (if n.literal.negative then "-" else "") ++ Nat.repr n.literal.digits
  else jsonStyle.text n.literal.toFloat

/-! ### Canonical form -/

/-- Members in ascending order of their names; of equally named members the last one is kept. -/
def sortMembers (members : List (String × Json)) : List (String × Json) :=
  (SortedMap.ofList members).entries

mutual

/-- Sorts all members and brings all numbers into canonical form. -/
def canonical : Json → Json
  | null => null
  | bool b => bool b
  | number token => number (canonicalNumber token)
  | text s => text s
  | array items => array (canonicalItems items)
  | object members => object (sortMembers (canonicalMembers members))

/-- The canonical forms of a list of values. -/
def canonicalItems : List Json → List Json
  | [] => []
  | item :: rest => canonical item :: canonicalItems rest

/-- The canonical forms of the values of members. -/
def canonicalMembers : List (String × Json) → List (String × Json)
  | [] => []
  | (name, value) :: rest => (name, canonical value) :: canonicalMembers rest

end

end Json

end Keyspace
