import Keyspace.Decimal.Literal

/-!
# TOML documents

A document is a tree of tables.  How a table came about decides what may be added to it later:
a table that stands under a header of its own is complete but for its subtables, one that was only
passed through by a header may still get a header, one that was made by a dotted key grows by
dotted keys alone, and an inline table does not grow at all.  `openTable`, `openElement` and
`addEntry` are the three ways in which a document grows; each fails where a name is taken.
-/

namespace Keyspace.Toml

/-- How a table came about. -/
inductive Origin where
  /-- By a header of its own. -/
  | header
  /-- As a parent in the header of another table. -/
  | parent
  /-- By a dotted key. -/
  | dotted
  /-- As a value in braces. -/
  | inline
deriving DecidableEq, Repr, Inhabited

/-- A value, a table or an array of tables. -/
inductive Item where
  | text (value : String)
  | bool (value : Bool)
  | integer (value : Int)
  | float (value : Float)
  /-- A token in the form of a number that no word or double in use stands for. -/
  | unrepresentable (token : String)
  /-- A date, a time of day or both. -/
  | moment (token : String)
  | array (items : List Item)
  | table (origin : Origin) (members : List (String × Item))
  /-- Tables under repeated headers, the last one first. -/
  | tables (elements : List (List (String × Item)))

instance : Inhabited Item := ⟨.table .header []⟩

mutual

/-- Can all numbers of an item be represented? -/
def Item.isRepresentable : Item → Bool
  | .unrepresentable _ => false
  | .array items => areRepresentable items
  | .table _ members => haveRepresentable members
  | .tables elements => allHaveRepresentable elements
  | .text _ | .bool _ | .integer _ | .float _ | .moment _ => true

/-- Can all numbers of several items be represented? -/
def areRepresentable : List Item → Bool
  | [] => true
  | item :: rest => item.isRepresentable && areRepresentable rest

/-- Can all numbers of the members of a table be represented? -/
def haveRepresentable : List (String × Item) → Bool
  | [] => true
  | (_, item) :: rest => item.isRepresentable && haveRepresentable rest

/-- Can all numbers of several tables be represented? -/
def allHaveRepresentable : List (List (String × Item)) → Bool
  | [] => true
  | members :: rest => haveRepresentable members && allHaveRepresentable rest

end

/-- Named items, in no particular order. -/
abbrev Members := List (String × Item)

namespace Members

/-- The item of a given name. -/
def item? (ms : Members) (name : String) : Option Item :=
  (List.find? (fun m => m.1 == name) ms).map (·.2)

/-- Replaces or adds an item. -/
def put (ms : Members) (name : String) (item : Item) : Members :=
  (name, item) :: ms.filter fun m => m.1 != name

end Members

/-- Changes the table that a header path leads to, making parents on the way.  The way leads into
the latest element of an array of tables, and not through values. -/
def alterAt (change : Members → Option Members) : List String → Members → Option Members
  | [], ms => change ms
  | name :: path, ms =>
    match ms.item? name with
    | none => (alterAt change path []).map fun sub => ms.put name (.table .parent sub)
    | some (.table .inline _) => none
    | some (.table origin sub) =>
      (alterAt change path sub).map fun sub => ms.put name (.table origin sub)
    | some (.tables (latest :: earlier)) =>
      (alterAt change path latest).map fun sub => ms.put name (.tables (sub :: earlier))
    | some _ => none

/-- Opens the table of a header.  A table that was only a parent so far keeps what it has. -/
def openLast (name : String) (ms : Members) : Option Members :=
  match ms.item? name with
  | none => some (ms.put name (.table .header []))
  | some (.table .parent sub) => some (ms.put name (.table .header sub))
  | some _ => none

/-- Opens a new element of an array of tables. -/
def openLastElement (name : String) (ms : Members) : Option Members :=
  match ms.item? name with
  | none => some (ms.put name (.tables [[]]))
  | some (.tables elements) => some (ms.put name (.tables ([] :: elements)))
  | some _ => none

/-- Opens the table under a header in brackets. -/
def openTable (parents : List String) (name : String) (document : Members) : Option Members :=
  alterAt (openLast name) parents document

/-- Opens the table under a header in double brackets. -/
def openElement (parents : List String) (name : String) (document : Members) : Option Members :=
  alterAt (openLastElement name) parents document

/-- Adds a value under a dotted key.  The last table that the key passes through is one that dotted
keys make; before it the key may also pass through parents and into the latest element of an array
of tables. -/
def addDotted (name : String) (item : Item) : List String → Members → Option Members
  | [], ms => if (ms.item? name).isSome then none else some (ms.put name item)
  | key :: path, ms =>
    match ms.item? key with
    | none => (addDotted name item path []).map fun sub => ms.put key (.table .dotted sub)
    | some (.table .dotted sub) =>
      (addDotted name item path sub).map fun sub => ms.put key (.table .dotted sub)
    | some (.table .parent sub) =>
      if path.isEmpty then none
      else (addDotted name item path sub).map fun sub => ms.put key (.table .parent sub)
    | some (.tables (latest :: earlier)) =>
      if path.isEmpty then none
      else (addDotted name item path latest).map fun sub => ms.put key (.tables (sub :: earlier))
    | some _ => none

/-- Adds a value under a dotted key to the table that a header path leads to. -/
def addEntry (header : List String) (path : List String) (name : String) (item : Item)
    (document : Members) : Option Members :=
  alterAt (addDotted name item path) header document

end Keyspace.Toml
