import Keyspace.Toml.Basic

/-!
# Bare values

Booleans, numbers and moments in time are written without quotes.  `Item.ofToken?` tells them
apart by their form.  Digits may be grouped by single underscores between two digits, and a decimal
number has no superfluous zero in front.  `hasIntegerForm` admits more than integers: it looks at
the start of a token and at its underscores alone.
-/

namespace Keyspace.Toml

/-- Removes underscores, each of which has to stand between two digits of the given kind. -/
def ungroup? (isDigit : Char → Bool) : List Char → Option (List Char)
  | [] => none
  | [c] => if isDigit c then some [c] else none
  | c :: '_' :: rest => if isDigit c then (ungroup? isDigit rest).map (c :: ·) else none
  | c :: rest => if isDigit c then (ungroup? isDigit rest).map (c :: ·) else none

/-- Takes a sign off. -/
def splitSign : List Char → Bool × Bool × List Char
  | '+' :: rest => (true, false, rest)
  | '-' :: rest => (true, true, rest)
  | cs => (false, false, cs)

/-- A digit of a base up to sixteen. -/
def digitValue (c : Char) : Nat :=
  if c.isDigit then c.toNat - '0'.toNat
  else if 'a' ≤ c && c ≤ 'f' then c.toNat - 'a'.toNat + 10
  else if 'A' ≤ c && c ≤ 'F' then c.toNat - 'A'.toNat + 10
  else 16

/-- The digits after a mark such as `0x`. -/
def basedNumber? (base : Nat) (cs : List Char) : Option Int :=
  (ungroup? (fun c => digitValue c < base) cs).map fun digits =>
    (digits.foldl (fun n c => base * n + digitValue c) 0 : Nat)

/-- Decimal digits without a superfluous zero in front. -/
def wholeDigits? (cs : List Char) : Option (List Char) :=
  (ungroup? Char.isDigit cs).bind fun digits =>
    match digits with
    | '0' :: _ :: _ => none
    | digits => some digits

/-- An integer of any size. -/
def integer? (cs : List Char) : Option Int :=
  match cs with
  | '0' :: 'x' :: rest => basedNumber? 16 rest
  | '0' :: 'o' :: rest => basedNumber? 8 rest
  | '0' :: 'b' :: rest => basedNumber? 2 rest
  | cs =>
    let (_, negative, digits) := splitSign cs
    (wholeDigits? digits).map fun digits =>
      if negative then -(Decimal.natOfDigits digits : Int) else Decimal.natOfDigits digits

/-- Does each underscore stand between two hexadecimal digits?  The first argument tells whether
such a digit stands right in front of the characters. -/
def joinsDigits : Bool → List Char → Bool
  | _, [] => true
  | afterDigit, '_' :: rest =>
    afterDigit && rest.head?.any (digitValue · < 16) && joinsDigits false rest
  | _, c :: rest => joinsDigits (digitValue c < 16) rest

/-- Does a token have the form of an integer, though no integer need stand there?  It does if it is
the mark of a base alone, or if grouped digits start it and no point or exponent follows. -/
def hasIntegerForm (cs : List Char) : Bool :=
  let (_, _, body) := splitSign cs
  let (digits, rest) := body.span Char.isDigit
  [['0', 'x'], ['0', 'o'], ['0', 'b']].contains cs ||
    digits.head?.any (· ≠ '0') && rest.head? = some '_' && joinsDigits false body &&
      !rest.any (['.', 'e', 'E'].contains ·)

/-- An exponent after its `e`. -/
def exponent? (cs : List Char) : Option Int :=
  let (_, negative, digits) := splitSign cs
  (ungroup? Char.isDigit digits).map fun digits =>
    if negative then -(Decimal.natOfDigits digits : Int) else Decimal.natOfDigits digits

/-- A number with a fraction or an exponent; it is infinite beyond the range of doubles. -/
def fractional? (cs : List Char) : Option Float := do
  let (_, negative, body) := splitSign cs
  let isE := fun c : Char => c = 'e' || c = 'E'
  let (mantissa, power) := body.span fun c => !isE c
  let (whole, fraction) := mantissa.span (· ≠ '.')
  let whole ← wholeDigits? whole
  let fraction ←
    match fraction with
    | [] => some []
    | _ :: digits => ungroup? Char.isDigit digits
  let exponent ←
    match power with
    | [] => some 0
    | _ :: digits => exponent? digits
  if mantissa.contains '.' || !power.isEmpty then
    some <| Decimal.Literal.toFloat
      ⟨negative, Decimal.natOfDigits (whole ++ fraction), exponent - fraction.length⟩
  else none

/-- The names of the values that no digits write. -/
def special? (cs : List Char) : Option Float :=
  let (_, negative, name) := splitSign cs
  if name = ['i', 'n', 'f'] then some (if negative then -1.0 / 0.0 else 1.0 / 0.0)
  else if name = ['n', 'a', 'n'] then some (0.0 / 0.0)
  else none

/-! ### Moments -/

/-- Two digits in a range. -/
def twoDigits? (least greatest : Nat) : List Char → Option (Nat × List Char)
  | a :: b :: rest =>
    if a.isDigit && b.isDigit then
      let n := Decimal.natOfDigits [a, b]
      if least ≤ n && n ≤ greatest then some (n, rest) else none
    else none
  | _ => none

/-- One expected character. -/
def expect? (c : Char) : List Char → Option (List Char)
  | d :: rest => if c = d then some rest else none
  | [] => none

/-- Number of days in a month. -/
def daysIn (year month : Nat) : Nat :=
  if month = 2 then
    if year % 4 = 0 && (year % 100 ≠ 0 || year % 400 = 0) then 29 else 28
  else if [4, 6, 9, 11].contains month then 30
  else 31

/-- A date, and what follows it. -/
def date? (cs : List Char) : Option (List Char) := do
  let year := cs.take 4
  if year.length = 4 && year.all Char.isDigit then
    let rest ← expect? '-' (cs.drop 4)
    let (month, rest) ← twoDigits? 1 12 rest
    let rest ← expect? '-' rest
    let (_, rest) ← twoDigits? 1 (daysIn (Decimal.natOfDigits year) month) rest
    some rest
  else none

/-- Seconds after their colon, which may have a fraction, and what follows them. -/
def seconds? (cs : List Char) : Option (List Char) := do
  let (_, rest) ← twoDigits? 0 60 cs
  match rest with
  | '.' :: rest =>
    let (fraction, rest) := rest.span Char.isDigit
    if fraction.isEmpty then none else some rest
  | rest => some rest

/-- A time of day, with or without seconds, and what follows it. -/
def timeOfDay? (cs : List Char) : Option (List Char) := do
  let (_, rest) ← twoDigits? 0 23 cs
  let rest ← expect? ':' rest
  let (_, rest) ← twoDigits? 0 59 rest
  match rest with
  | ':' :: rest => seconds? rest
  | rest => some rest

/-- Nothing more, or the distance from universal time. -/
def isOffset (cs : List Char) : Bool :=
  match cs with
  | [] => true
  | ['Z'] | ['z'] => true
  | c :: rest =>
    (c = '+' || c = '-') &&
      (do let (_, rest) ← twoDigits? 0 23 rest
          let rest ← expect? ':' rest
          let (_, rest) ← twoDigits? 0 59 rest
          some rest) == some []

/-- A date, a time of day, or a date and a time of day. -/
def isMoment (cs : List Char) : Bool :=
  match date? cs with
  | some [] => true
  | some (c :: rest) =>
    (c = 'T' || c = 't' || c = ' ') &&
      match timeOfDay? rest with
      | some rest => isOffset rest
      | none => false
  | none => timeOfDay? cs == some []

/-! ### Values -/

/-- Does an integer fit a signed or an unsigned word of 128 bits? -/
def fitsWord (n : Int) : Bool :=
  -170141183460469231731687303715884105728 ≤ n && n < 340282366920938463463374607431768211456

/-- The value that a bare token stands for.  Integers have to fit a word of 128 bits, and numbers
with a fraction or an exponent the range of doubles, to be represented; what only has the form of an
integer is not represented either. -/
def Item.ofToken? (cs : List Char) : Option Item :=
  let beyond := Item.unrepresentable (String.ofList cs)
  if cs = ['t', 'r', 'u', 'e'] then some (.bool true)
  else if cs = ['f', 'a', 'l', 's', 'e'] then some (.bool false)
  else if isMoment cs then some (.moment (String.ofList cs))
  else if let some x := special? cs then some (.float x)
  else if let some n := integer? cs then some (if fitsWord n then .integer n else beyond)
  else if hasIntegerForm cs then some beyond
  else (fractional? cs).map fun x => if x.isInf then beyond else .float x

end Keyspace.Toml
