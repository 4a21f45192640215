/-!
# Blank characters

`isBlank` is the Unicode property `White_Space`.  It is wider than the blanks of ASCII: the
no-break space and the ideographic space belong to it, zero-width characters do not.  `trim`
takes blanks off both ends of a text.
-/

namespace Keyspace.Text

/-- The code points with the Unicode property `White_Space`. -/
def blankCodes : List Nat :=
  [0x09, 0x0A, 0x0B, 0x0C, 0x0D, 0x20, 0x85, 0xA0, 0x1680,
    0x2000, 0x2001, 0x2002, 0x2003, 0x2004, 0x2005, 0x2006, 0x2007, 0x2008, 0x2009, 0x200A,
    0x2028, 0x2029, 0x202F, 0x205F, 0x3000]

/-- Is the character white space? -/
def isBlank (c : Char) : Bool := blankCodes.contains c.toNat

/-- Drops the elements at the end that pass a test. -/
def dropEndWhile {α : Type} (test : α → Bool) (l : List α) : List α :=
  (l.reverse.dropWhile test).reverse

/-- Takes the blanks off both ends. -/
def trim (cs : List Char) : List Char := dropEndWhile isBlank (cs.dropWhile isBlank)

end Keyspace.Text
