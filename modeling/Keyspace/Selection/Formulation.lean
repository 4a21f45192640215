import Keyspace.Program.Basic
import Keyspace.Selection.Tables

/-!
# Choosing tables as a program

The program has a variable for each table and one for each candidate, and three families of
constraints:

* linking: a candidate is used only if its table is built;
* coverage: each set of alternatives has a used member;
* fanout: an insertion touches at least one and at most `maxTables` tables of its entity.

Its objective is the cost of the used candidates, each weighted with the throughput of its query.
-/

namespace Keyspace

open Scalar

/-- The program for a workload, with the tables it chooses from. -/
structure Formulation (α : Type) where
  program : Program α
  tables : Tables
  /-- The weighted cost of each candidate, on the candidate's variable. -/
  costTerms : LinearForm α
deriving Inhabited

variable {α : Type} [Scalar α]

namespace Formulation

/-- Tables come first among the variables. -/
def tableVar (table : Nat) : Nat := table

/-- The variable of a candidate, after those of all tables. -/
def candidateVar (tables : Tables) (candidate : Nat) : Nat := tables.size + candidate

/-- A candidate is used only if its table is built. -/
def linking (tables : Tables) (candidate : Nat) : Constraint α where
  name := "link_i" ++ Nat.repr candidate
  terms := [(tableVar (tables.home candidate), one), (candidateVar tables candidate, negate one)]
  sense := .atLeast
  bound := zero

/-- One of the alternatives is used. -/
def coverage (tables : Tables) (number : Nat) (siblings : List Nat) : Constraint α where
  name := "cover_" ++ Nat.repr number
  terms := siblings.map fun c => (candidateVar tables c, one)
  sense := .atLeast
  bound := one

/-- The bounds that a mutation sets to the tables it touches: only insertions set any, and only if
there is a table to touch. -/
def fanout (tables : Tables) (number : Nat) (m : Mutation) : List (Constraint α) :=
  let touched := tables.rootedAt m.entity
  if m.kind == .insert && !touched.isEmpty then
    let terms := touched.map fun t => (tableVar t, one)
    [⟨"fanout_min_" ++ Nat.repr number, terms, .atLeast, one⟩,
      ⟨"fanout_max_" ++ Nat.repr number, terms, .atMost, ofNat m.maxTables⟩]
  else []

end Formulation

open Formulation in
/-- The program that chooses among the candidates of a workload, given their costs. -/
def Model.formulate (m : Model α) (w : Workload) (costs : List α) : Formulation α :=
  let tables := Tables.collapse w.candidates
  let ids := List.range w.candidates.length
  let costTerms : LinearForm α := ids.map fun c =>
    (candidateVar tables c,
      costs.getD c zero * ofNat (m.query (w.candidate c).query).serviceLevel.throughput)
  { program :=
      { names :=
          ((List.range tables.size).map fun t => "t" ++ Nat.repr t) ++
            ids.map fun c => "i" ++ Nat.repr c
        constraints :=
          ids.map (linking tables) ++ w.siblingSets.mapIdx (coverage tables) ++
            (m.mutations.mapIdx (fanout tables)).flatten
        objective := costTerms }
    tables
    costTerms }

end Keyspace
