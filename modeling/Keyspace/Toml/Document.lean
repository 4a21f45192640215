import Keyspace.Toml.Quoted
import Keyspace.Toml.Token

/-!
# Reading TOML

`Toml.read?` reads a text as a document, or refuses it.  A document is a sequence of lines: entries
`key = value`, headers in brackets, comments, and nothing.  Values in brackets may run over several
lines.  Nested values are read with a fuel that the length of the text bounds.
-/

namespace Keyspace.Toml

/-- Drops a comment up to the end of its line. -/
def skipComment? : List Char → Option (List Char)
  | '#' :: rest =>
    let (comment, rest) := rest.span fun c => c ≠ '\n' && c ≠ '\r'
    if comment.all isPlain then some rest else none
  | cs => some cs

/-- Drops blanks, line breaks and comments, which may stand between the parts of a value in
brackets. -/
def skipLines? : List Char → Nat → Option (List Char)
  | _, 0 => none
  | cs, fuel + 1 =>
    match cs.dropWhile isLineBlank with
    | '#' :: rest => do
      let rest ← skipComment? ('#' :: rest)
      skipLines? rest fuel
    | rest =>
      match lineBreak? rest with
      | some rest => skipLines? rest fuel
      | none => some rest

/-- The characters of bare values: all that no other part of a document starts with. -/
def isTokenChar (c : Char) : Bool :=
  c ∉ ['=', ',', '[', ']', '\x7b', '\x7d', '#', ' ', '\t', '\r', '\n']

/-- A bare value.  Between a date and a time of day there may be a single blank. -/
def bareValue? (cs : List Char) : Option (Item × List Char) :=
  let (token, rest) := cs.span isTokenChar
  let (token, rest) :=
    match date? token, rest with
    | some [], ' ' :: d :: after =>
      if d.isDigit then
        let (time, rest) := (d :: after).span isTokenChar
        (token ++ ' ' :: time, rest)
      else (token, rest)
    | _, _ => (token, rest)
  (Item.ofToken? token).map (·, rest)

mutual

/-- A value inside brackets that leave room for `depth` more. -/
def value? (depth : Nat) : List Char → Nat → Option (Item × List Char)
  | _, 0 => none
  | cs, fuel + 1 =>
    match quoted? cs with
    | some result => result.map fun p => (.text p.1, p.2)
    | none =>
      match cs, depth with
      | '[' :: _, 0 | '\x7b' :: _, 0 => none
      | '[' :: rest, depth + 1 => (items? depth rest fuel).map fun p => (.array p.1, p.2)
      | '\x7b' :: rest, depth + 1 =>
        (entries? depth [] rest fuel).map fun p => (.table .inline p.1, p.2)
      | cs, _ => bareValue? cs

/-- The items of an array up to its closing bracket. -/
def items? (depth : Nat) : List Char → Nat → Option (List Item × List Char)
  | _, 0 => none
  | cs, fuel + 1 => do
    match ← skipLines? cs (cs.length + 1) with
    | ']' :: rest => some ([], rest)
    | rest => do
      let (item, rest) ← value? depth rest fuel
      match ← skipLines? rest (rest.length + 1) with
      | ',' :: rest => (items? depth rest fuel).map fun p => (item :: p.1, p.2)
      | ']' :: rest => some ([item], rest)
      | _ => none

/-- The entries of an inline table up to its closing brace.  Line breaks and comments may stand
anywhere but within a key. -/
def entries? (depth : Nat) (members : Members) : List Char → Nat → Option (Members × List Char)
  | _, 0 => none
  | cs, fuel + 1 => do
    match ← skipLines? cs (cs.length + 1) with
    | '\x7d' :: rest => some (members, rest)
    | rest => do
      let (key, rest) ← key? rest
      match ← skipLines? rest (rest.length + 1) with
      | '=' :: rest => do
        let (item, rest) ← value? depth (← skipLines? rest (rest.length + 1)) fuel
        let members ← addDotted (key.getLast?.getD "") item key.dropLast members
        match ← skipLines? rest (rest.length + 1) with
        | ',' :: rest => entries? depth members rest fuel
        | '\x7d' :: rest => some (members, rest)
        | _ => none
      | _ => none

end

/-- What a document has so far, and the header that new entries go under. -/
structure State where
  document : Members := []
  header : List String := []

/-- Reads a header after its opening bracket or brackets. -/
def header? (closing : List Char) (openAt : List String → String → Members → Option Members)
    (state : State) (cs : List Char) : Option (State × List Char) := do
  let (key, rest) ← key? cs
  if rest.take closing.length = closing then
    let document ← openAt key.dropLast (key.getLast?.getD "") state.document
    some (⟨document, key⟩, rest.drop closing.length)
  else none

/-- Reads what stands at the start of a line. -/
def line? (state : State) (cs : List Char) : Option (State × List Char) :=
  match cs.dropWhile isLineBlank with
  | [] => some (state, [])
  | '#' :: rest => some (state, '#' :: rest)
  | '\n' :: rest => some (state, '\n' :: rest)
  | '\r' :: rest => some (state, '\r' :: rest)
  | '[' :: '[' :: rest => header? [']', ']'] openElement state rest
  | '[' :: rest => header? [']'] openTable state rest
  | rest => do
    let (key, rest) ← key? rest
    match rest with
    | '=' :: rest => do
      let (item, rest) ← value? nestingLimit (rest.dropWhile isLineBlank) (rest.length + 1)
      let document ←
        addEntry state.header key.dropLast (key.getLast?.getD "") item state.document
      some ({ state with document }, rest)
    | _ => none

/-- Reads line after line. -/
def lines? (state : State) : List Char → Nat → Option State
  | _, 0 => none
  | cs, fuel + 1 => do
    let (state, rest) ← line? state cs
    let rest ← skipComment? (rest.dropWhile isLineBlank)
    match rest with
    | [] => some state
    | rest => do
      let rest ← lineBreak? rest
      lines? state rest fuel

/-- Reads a whole document.  A byte order mark in front of it is dropped. -/
def read? (s : String) : Option Members :=
  let cs := match s.toList with
    | '\uFEFF' :: rest => rest
    | cs => cs
  (lines? {} cs (cs.length + 1)).map State.document

end Keyspace.Toml
