import Keyspace.Digest.Sha256
import Keyspace.Json.Basic

/-!
# JSON texts

`compact` writes a value without any blanks, `pretty` with one member or item on a line and two
blanks of indentation for each level; both leave an empty list or object as a pair of brackets.
`fingerprint` is the hash of the compact text.
-/

namespace Keyspace.Json

/-- A character inside quotes.  Quotes, backslashes and control characters are escaped, the five
control characters that have a letter of their own by that letter. -/
def escapeChar (c : Char) : List Char :=
  match c with
  | '"' => ['\\', '"']
  | '\\' => ['\\', '\\']
  | '\x08' => ['\\', 'b']
  | '\x0c' => ['\\', 'f']
  | '\n' => ['\\', 'n']
  | '\r' => ['\\', 'r']
  | '\t' => ['\\', 't']
  | c => if c.toNat < 0x20 then ['\\', 'u'] ++ Digest.hexText c.toNat 4 else [c]

/-- A text in quotes. -/
def quoted (s : String) : String :=
  String.ofList ('"' :: (s.toList.flatMap escapeChar ++ ['"']))

mutual

/-- The text without blanks. -/
def compact : Json → String
  | null => "null"
  | bool b => if b then "true" else "false"
  | number token => token
  | text s => quoted s
  | array items => "[" ++ String.intercalate "," (compactItems items) ++ "]"
  | object members => "\x7b" ++ String.intercalate "," (compactMembers members) ++ "\x7d"

/-- The texts of the items of a list. -/
def compactItems : List Json → List String
  | [] => []
  | item :: rest => compact item :: compactItems rest

/-- The texts of the members of an object. -/
def compactMembers : List (String × Json) → List String
  | [] => []
  | (name, value) :: rest => (quoted name ++ ":" ++ compact value) :: compactMembers rest

end

/-- Lines of a bracketed block, each on its own level of indentation. -/
def block (opening closing : String) (depth : Nat) (lines : List String) : String :=
  let indent := fun n => String.ofList (List.replicate (2 * n) ' ')
  match lines with
  | [] => opening ++ closing
  | lines =>
    opening ++ "\n" ++
      String.intercalate ",\n" (lines.map fun line => indent (depth + 1) ++ line) ++
      "\n" ++ indent depth ++ closing

mutual

/-- The text with one item or member on a line, inside `depth` levels of brackets. -/
def prettyAt (depth : Nat) : Json → String
  | null => "null"
  | bool b => if b then "true" else "false"
  | number token => token
  | text s => quoted s
  | array items => block "[" "]" depth (prettyItems (depth + 1) items)
  | object members => block "\x7b" "\x7d" depth (prettyMembers (depth + 1) members)

/-- The texts of the items of a list. -/
def prettyItems (depth : Nat) : List Json → List String
  | [] => []
  | item :: rest => prettyAt depth item :: prettyItems depth rest

/-- The texts of the members of an object. -/
def prettyMembers (depth : Nat) : List (String × Json) → List String
  | [] => []
  | (name, value) :: rest => (quoted name ++ ": " ++ prettyAt depth value) ::
      prettyMembers depth rest

end

/-- The indented text. -/
def pretty (value : Json) : String := prettyAt 0 value

/-- The hash of a value, equal for values with the same canonical form. -/
def fingerprint (value : Json) : String := Digest.sha256Hex (compact value.canonical)

end Keyspace.Json
