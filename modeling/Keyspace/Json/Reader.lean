import Keyspace.Json.Basic

/-!
# Reading JSON

`Json.read?` reads a text that is one JSON value with blanks around it.  Number tokens are kept as
they are written.  Readers take the characters that are left and return what they read with the
rest; nested values are read with a fuel that the length of the text bounds, since every level of
nesting begins with a bracket.
-/

namespace Keyspace.Json

/-- The four blanks of JSON. -/
def isJsonBlank (c : Char) : Bool := c = ' ' || c = '\t' || c = '\n' || c = '\r'

/-- Drops blanks. -/
def skipBlanks (cs : List Char) : List Char := cs.dropWhile isJsonBlank

/-- The value of a hexadecimal digit. -/
def hexValue? (c : Char) : Option Nat :=
  if '0' ≤ c && c ≤ '9' then some (c.toNat - '0'.toNat)
  else if 'a' ≤ c && c ≤ 'f' then some (c.toNat - 'a'.toNat + 10)
  else if 'A' ≤ c && c ≤ 'F' then some (c.toNat - 'A'.toNat + 10)
  else none

/-- The value of a string of hexadecimal digits. -/
def hexNumber? (cs : List Char) : Option Nat :=
  cs.foldlM (fun n c => (hexValue? c).map (16 * n + ·)) 0

/-- Four hexadecimal digits, as after `\u`. -/
def readUnit? (cs : List Char) : Option (Nat × List Char) :=
  if (cs.take 4).length = 4 then (hexNumber? (cs.take 4)).map (·, cs.drop 4) else none

/-- The character of an escape `\u`, which may take a second one to complete a surrogate pair. -/
def readCodePoint? (cs : List Char) : Option (Char × List Char) := do
  let (high, rest) ← readUnit? cs
  if 0xD800 ≤ high && high < 0xDC00 then
    match rest with
    | '\\' :: 'u' :: rest =>
      let (low, rest) ← readUnit? rest
      if 0xDC00 ≤ low && low < 0xE000 then
        some (Char.ofNat (0x10000 + (high - 0xD800) * 0x400 + (low - 0xDC00)), rest)
      else none
    | _ => none
  else if 0xDC00 ≤ high && high < 0xE000 then none
  else some (Char.ofNat high, rest)

/-- The characters up to the closing quote; the opening one has been read. -/
def readQuoted? (read : List Char) : List Char → Nat → Option (String × List Char)
  | _, 0 => none
  | [], _ => none
  | '"' :: rest, _ => some (String.ofList read.reverse, rest)
  | '\\' :: 'u' :: rest, fuel + 1 => do
    let (c, rest) ← readCodePoint? rest
    readQuoted? (c :: read) rest fuel
  | '\\' :: c :: rest, fuel + 1 =>
    match c with
    | '"' | '\\' | '/' => readQuoted? (c :: read) rest fuel
    | 'b' => readQuoted? ('\x08' :: read) rest fuel
    | 'f' => readQuoted? ('\x0c' :: read) rest fuel
    | 'n' => readQuoted? ('\n' :: read) rest fuel
    | 'r' => readQuoted? ('\r' :: read) rest fuel
    | 't' => readQuoted? ('\t' :: read) rest fuel
    | _ => none
  | c :: rest, fuel + 1 => if c.toNat < 0x20 then none else readQuoted? (c :: read) rest fuel

/-- The characters that may stand in a number token. -/
def isNumberChar (c : Char) : Bool :=
  c.isDigit || c = '-' || c = '+' || c = '.' || c = 'e' || c = 'E'

mutual

/-- Reads a value. -/
def readValue? : List Char → Nat → Option (Json × List Char)
  | _, 0 => none
  | cs, fuel + 1 =>
    match skipBlanks cs with
    | 'n' :: 'u' :: 'l' :: 'l' :: rest => some (null, rest)
    | 't' :: 'r' :: 'u' :: 'e' :: rest => some (bool true, rest)
    | 'f' :: 'a' :: 'l' :: 's' :: 'e' :: rest => some (bool false, rest)
    | '"' :: rest => (readQuoted? [] rest (rest.length + 1)).map fun p => (text p.1, p.2)
    | '[' :: rest =>
      match skipBlanks rest with
      | ']' :: rest => some (array [], rest)
      | rest => (readItems? rest fuel).map fun p => (array p.1, p.2)
    | '\x7b' :: rest =>
      match skipBlanks rest with
      | '\x7d' :: rest => some (object [], rest)
      | rest => (readMembers? rest fuel).map fun p => (object p.1, p.2)
    | rest =>
      let (token, rest) := rest.span isNumberChar
      if token.any Char.isDigit then some (number (String.ofList token), rest) else none

/-- Reads the items of a list up to its closing bracket. -/
def readItems? : List Char → Nat → Option (List Json × List Char)
  | _, 0 => none
  | cs, fuel + 1 => do
    let (item, rest) ← readValue? cs fuel
    match skipBlanks rest with
    | ',' :: rest => (readItems? rest fuel).map fun p => (item :: p.1, p.2)
    | ']' :: rest => some ([item], rest)
    | _ => none

/-- Reads the members of an object up to its closing bracket. -/
def readMembers? : List Char → Nat → Option (List (String × Json) × List Char)
  | _, 0 => none
  | cs, fuel + 1 =>
    match skipBlanks cs with
    | '"' :: rest => do
      let (name, rest) ← readQuoted? [] rest (rest.length + 1)
      match skipBlanks rest with
      | ':' :: rest => do
        let (value, rest) ← readValue? rest fuel
        match skipBlanks rest with
        | ',' :: rest => (readMembers? rest fuel).map fun p => ((name, value) :: p.1, p.2)
        | '\x7d' :: rest => some ([(name, value)], rest)
        | _ => none
      | _ => none
    | _ => none

end

/-- Reads a whole text as one value. -/
def read? (s : String) : Option Json := do
  let cs := s.toList
  let (value, rest) ← readValue? cs (cs.length + 1)
  if (skipBlanks rest).isEmpty then some value else none

end Keyspace.Json
