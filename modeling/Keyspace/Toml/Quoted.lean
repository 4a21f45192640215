import Keyspace.Json.Reader
import Keyspace.Toml.Basic

/-!
# Quoted texts and keys

Texts in double quotes know escapes, texts in single quotes are taken as they are; tripled quotes
let a text run over several lines.  A key is a bare word or a quoted text on one line, and dotted
keys join several of them.
-/

namespace Keyspace.Toml

/-- Blanks within a line. -/
def isLineBlank (c : Char) : Bool := c = ' ' || c = '\t'

/-- May the character stand in a text or a comment as it is? -/
def isPlain (c : Char) : Bool := c = '\t' || (0x20 ≤ c.toNat && c.toNat ≠ 0x7F)

/-- Takes a line break off. -/
def lineBreak? : List Char → Option (List Char)
  | '\n' :: rest => some rest
  | '\r' :: '\n' :: rest => some rest
  | _ => none

/-- The character of an escape, after its backslash. -/
def escape? : List Char → Option (Char × List Char)
  | 'b' :: rest => some ('\x08', rest)
  | 't' :: rest => some ('\t', rest)
  | 'n' :: rest => some ('\n', rest)
  | 'f' :: rest => some ('\x0c', rest)
  | 'r' :: rest => some ('\r', rest)
  | 'e' :: rest => some ('\x1b', rest)
  | '"' :: rest => some ('"', rest)
  | '\\' :: rest => some ('\\', rest)
  | 'x' :: rest => codePoint? 2 rest
  | 'u' :: rest => codePoint? 4 rest
  | 'U' :: rest => codePoint? 8 rest
  | _ => none
where
  /-- A character by its code point. -/
  codePoint? (width : Nat) (cs : List Char) : Option (Char × List Char) := do
    let digits := cs.take width
    let n ← Json.hexNumber? digits
    if digits.length = width && n.isValidChar then some (Char.ofNat n, cs.drop width) else none

/-- The rest of a text on one line, up to its closing quote. -/
def lineText? (quote : Char) (read : List Char) : List Char → Nat → Option (String × List Char)
  | _, 0 | [], _ => none
  | c :: rest, fuel + 1 =>
    if c = quote then some (String.ofList read.reverse, rest)
    else if c = '\\' && quote = '"' then do
      let (e, rest) ← escape? rest
      lineText? quote (e :: read) rest fuel
    else if isPlain c then lineText? quote (c :: read) rest fuel
    else none

/-- Drops blanks and line breaks. -/
def skipSpace : List Char → List Char
  | ' ' :: rest | '\t' :: rest | '\n' :: rest | '\r' :: '\n' :: rest => skipSpace rest
  | cs => cs

/-- The rest of a text over several lines.  Up to two quotes may stand right before the closing
ones.  A backslash at the end of a line swallows the break and all blanks after it. -/
def blockText? (quote : Char) (read : List Char) : List Char → Nat → Option (String × List Char)
  | _, 0 | [], _ => none
  | c :: rest, fuel + 1 =>
    if c = quote then
      let (quotes, after) := (c :: rest).span (· = quote)
      if quotes.length < 3 then blockText? quote (quotes ++ read) after fuel
      else if quotes.length ≤ 5 then
        some (String.ofList (quotes.drop 3 ++ read).reverse, after)
      else none
    else if c = '\\' && quote = '"' then
      match lineBreak? (rest.dropWhile isLineBlank) with
      | some after => blockText? quote read (skipSpace after) fuel
      | none => do
        let (e, rest) ← escape? rest
        blockText? quote (e :: read) rest fuel
    else
      match lineBreak? (c :: rest) with
      | some after => blockText? quote ('\n' :: read) after fuel
      | none => if isPlain c then blockText? quote (c :: read) rest fuel else none

/-- A quoted text, if one begins here. -/
def quoted? : List Char → Option (Option (String × List Char))
  | '"' :: '"' :: '"' :: rest => some (blockText? '"' [] ((lineBreak? rest).getD rest) rest.length)
  | '\x27' :: '\x27' :: '\x27' :: rest =>
    some (blockText? '\x27' [] ((lineBreak? rest).getD rest) rest.length)
  | '"' :: rest => some (lineText? '"' [] rest rest.length)
  | '\x27' :: rest => some (lineText? '\x27' [] rest rest.length)
  | _ => none

/-- The characters of bare keys. -/
def isKeyChar (c : Char) : Bool := c.isAlphanum || c = '_' || c = '-'

/-- One part of a key. -/
def keyPart? (cs : List Char) : Option (String × List Char) :=
  match cs with
  | '"' :: rest => lineText? '"' [] rest rest.length
  | '\x27' :: rest => lineText? '\x27' [] rest rest.length
  | cs =>
    let (name, rest) := cs.span isKeyChar
    if name.isEmpty then none else some (String.ofList name, rest)

/-- A key of at most the given number of parts, which are joined by dots with blanks around
them. -/
def keyUpTo? : Nat → List Char → Option (List String × List Char)
  | 0, _ => none
  | limit + 1, cs => do
    let (part, rest) ← keyPart? (cs.dropWhile isLineBlank)
    match rest.dropWhile isLineBlank with
    | '.' :: rest => (keyUpTo? limit rest).map fun p => (part :: p.1, p.2)
    | rest => some ([part], rest)

/-- Keys have no more parts than this, and brackets nest no deeper. -/
def nestingLimit : Nat := 80

/-- A key. -/
def key? (cs : List Char) : Option (List String × List Char) := keyUpTo? nestingLimit cs

end Keyspace.Toml
