import Keyspace.Workload.Basic

/-!
# Tables shared by candidates

Candidates with the same key read from one table.  `Tables.collapse` lists the tables that a list
of candidates needs, in the order of their keys, each with its candidates as members.
-/

namespace Keyspace

/-- A table and the candidates that would read from it, by number. -/
structure Table where
  key : TableKey
  members : List Nat
deriving Inhabited

/-- The tables of a list of candidates.  Tables are numbered by position, candidates keep their
numbers. -/
structure Tables where
  tables : List Table := []
  /-- For each candidate the number of its table. -/
  homes : List Nat := []
deriving Inhabited

namespace Tables

/-- The members of each key, in the order of the keys. -/
def group (candidates : List Candidate) : SortedMap TableKey (List Nat) :=
  candidates.zipIdx.foldl
    (fun groups c => groups.alter c.1.key fun members => members.getD [] ++ [c.2]) ∅

/-- The tables of a list of candidates. -/
def collapse (candidates : List Candidate) : Tables :=
  let tables := (group candidates).entries.map fun e => Table.mk e.1 e.2
  { tables
    homes := candidates.map fun c => tables.findIdx fun t => compare c.key t.key == .eq }

variable (ts : Tables)

/-- Number of tables. -/
def size : Nat := ts.tables.length

/-- The table of a given number. -/
def table (id : Nat) : Table := ts.tables.getD id default

/-- The number of the table that a candidate reads from. -/
def home (candidate : Nat) : Nat := ts.homes.getD candidate 0

/-- The numbers of the tables that store rows of an entity. -/
def rootedAt (id : EntityId) : List Nat :=
  (List.range ts.size).filter fun t => (ts.table t).key.root == id

end Tables

end Keyspace
