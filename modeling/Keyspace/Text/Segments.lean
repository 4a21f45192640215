import Keyspace.Text.Blank

/-!
# Dotted texts

A dotted text names a walk: the parts between its dots, without the blanks around them.  Parts
that are blank throughout name nothing and are left out.
-/

namespace Keyspace.Text

/-- The parts of a text between occurrences of a separator; there is always at least one. -/
def splitAt (separator : Char) : List Char → List (List Char)
  | [] => [[]]
  | c :: rest =>
    if c = separator then [] :: splitAt separator rest
    else
      match splitAt separator rest with
      | [] => [[c]]
      | part :: parts => (c :: part) :: parts

/-- The names that a dotted text lists. -/
def segments (dotted : String) : List String :=
  ((splitAt '.' dotted.toList).map trim).filter (fun part => !part.isEmpty) |>.map String.ofList

end Keyspace.Text
