import Keyspace.Settings.Basic
import Keyspace.Toml.Document

/-!
# Settings as a document

Settings are read from the three sections `cost`, `optimizer` and `candidates` of a document.
What is left out keeps its standard value, and unknown names are ignored.  A section may also be
written as an array of its values in order, and a moment in time stands for a section that leaves
everything out.  Whole numbers stand for scalars too; any other mismatch of types refuses the
document, and so does a number that cannot be represented, wherever it stands.  Only the items of
an array that go beyond the values of its section are not looked at.
-/

namespace Keyspace.Settings

open Toml (Item Members)

/-- The sections, each with the number of its values. -/
def sections : List (String × Nat) := [("cost", 1), ("optimizer", 2), ("candidates", 1)]

/-- A member of the document, as far as it is looked at. -/
def visiblePart (name : String) : Item → Item
  | .array items =>
    match sections.lookup name with
    | some count => .array (items.take count)
    | none => .array items
  | item => item

/-- Can all numbers that are looked at be represented? -/
def isRepresentable (document : Members) : Bool :=
  document.all fun m => (visiblePart m.1 m.2).isRepresentable

/-- The item at a place of a section: by name in a table, by position in an array. -/
def sectionItem? (part : Item) (position : Nat) (name : String) :
    Except (SettingsError Float) (Option Item) :=
  match part with
  | .table _ members => .ok (Members.item? members name)
  | .array items => .ok items[position]?
  | .tables elements => .ok ((elements.reverse[position]?).map fun ms => .table .header ms)
  | .moment _ => .ok none
  | _ => .error .malformed

/-- A scalar.  Whole numbers are accepted as far as a word of 64 bits reaches. -/
def scalarOf (standard : Float) : Option Item → Except (SettingsError Float) Float
  | none => .ok standard
  | some (.float x) => .ok x
  | some (.integer n) =>
    let fits := if n < 0 then n.natAbs ≤ Json.signedLimit else n.natAbs < Json.unsignedLimit
    if fits then .ok (Decimal.Literal.toFloat ⟨n < 0, n.natAbs, 0⟩) else .error .malformed
  | some _ => .error .malformed

/-- A truth value. -/
def flagOf (standard : Bool) : Option Item → Except (SettingsError Float) Bool
  | none => .ok standard
  | some (.bool b) => .ok b
  | some _ => .error .malformed

/-- Reads the values of the sections, without checking their ranges. -/
def ofSections (document : Members) : Except (SettingsError Float) (Settings Float) := do
  let standard : Settings Float := .standard
  let part := fun name => (Members.item? document name).getD (.table .header [])
  let rowScanCost ←
    (← sectionItem? (part "cost") 0 "row_scan_cost") |> scalarOf standard.rowScanCost
  let costMargin ←
    (← sectionItem? (part "optimizer") 0 "cost_margin") |> scalarOf standard.costMargin
  let verifyTolerance ←
    (← sectionItem? (part "optimizer") 1 "verify_tolerance") |> scalarOf standard.verifyTolerance
  let pruneOverLatency ←
    (← sectionItem? (part "candidates") 0 "prune_over_latency") |>
      flagOf standard.pruneOverLatency
  .ok { rowScanCost, costMargin, verifyTolerance, pruneOverLatency }

/-- Reads settings from a document, without checking their ranges. -/
def ofDocument (document : Members) : Except (SettingsError Float) (Settings Float) :=
  if isRepresentable document then ofSections document else .error .malformed

/-- Reads and checks settings.  A text that is no document is refused before any range is
checked. -/
def ofToml (text : String) : Except (SettingsError Float) (Settings Float) := do
  match Toml.read? text with
  | none => .error .malformed
  | some document =>
    let settings ← ofDocument document
    settings.validate
    .ok settings

end Keyspace.Settings
