import Keyspace.Report.Basic
import Keyspace.Workload.Explain

/-!
# Reports as text

`Report.text` is the report for readers, `Report.toJson` the full report for other programs.
Solves are listed without their duration, so that equal inputs have equal reports; the member that
would hold it is zero.
-/

namespace Keyspace

variable {α : Type} [ScalarText α]

namespace Report

/-- A line of text. -/
def line (depth : Nat) (content : String) : String := indentation depth ++ content ++ "\n"

/-- The lines on one query. -/
def queryText (q : QueryAssignment α) : String :=
  line 1 q.query ++
    String.join (q.indexes.map fun i => line 2 (i.table ++ " cost=" ++ costText i.cost)) ++
    String.join (q.directLookups.map fun label => line 2 (label ++ " by id"))

/-- The line on one mutation. -/
def mutationText (m : MutationReport) : String :=
  line 1 (m.kind ++ " " ++ m.entity ++ " " ++ m.mutation ++ " tables=" ++
    Nat.repr m.tablesTouched ++ "/" ++ Nat.repr m.maxTables)

/-- The report for readers.  Mutations are left out if there are none. -/
def text (r : Report α) : String :=
  line 0 ("phase 1 cost: " ++ costText r.phase1Cost) ++
    line 0 ("phase 2 cost: " ++ costText r.phase2Cost) ++
    line 0 ("tables: " ++ Nat.repr r.tableCount) ++
    String.join (r.selectedTables.map fun t => line 1 t.describe) ++
    line 0 "queries:" ++ String.join (r.queries.map queryText) ++
    (if r.mutations.isEmpty then ""
      else line 0 "mutations:" ++ String.join (r.mutations.map mutationText))

/-- One query as JSON. -/
def queryJson (q : QueryAssignment α) : Json :=
  .object
    [("query", .text q.query),
      ("indexes", .array (q.indexes.map fun i =>
        .object [("table", .text i.table), ("cost", .ofScalar i.cost)])),
      ("direct_lookups", .texts q.directLookups)]

/-- One mutation as JSON. -/
def mutationJson (m : MutationReport) : Json :=
  .object
    [("mutation", .text m.mutation), ("entity", .text m.entity), ("kind", .text m.kind),
      ("max_tables", .ofNat m.maxTables), ("tables_touched", .ofNat m.tablesTouched)]

/-- One solve as JSON. -/
def statsJson (s : PhaseStats α) : Json :=
  .object
    [("phase", .text s.phase.word), ("variables", .ofNat s.variableCount),
      ("constraints", .ofNat s.constraintCount), ("objective", .ofScalar s.objective),
      ("elapsed_ms", .number "0.0")]

/-- The full report as JSON. -/
def toJson (r : Report α) : Json :=
  .object
    [("phase1_cost", .ofScalar r.phase1Cost), ("phase2_cost", .ofScalar r.phase2Cost),
      ("table_count", .ofNat r.tableCount),
      ("tables", .array (r.tables.map TableReport.toJson)),
      ("queries", .array (r.queries.map queryJson)),
      ("mutations", .array (r.mutations.map mutationJson)),
      ("stats", .array (r.stats.map statsJson)), ("fingerprint", .text r.fingerprint)]

end Report

end Keyspace
