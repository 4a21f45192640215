import Keyspace.Scalar.Text

/-!
# Settings of the planner

A scan costs `rowScanCost` for each row, the second phase may spend `costMargin` times the least
cost, answers of a solver are verified up to `verifyTolerance`, and candidates that are too slow
may be dropped beforehand.  `Settings.validate` refuses values that the planner cannot work with.
-/

namespace Keyspace

open Scalar

/-- The settings of a run. -/
structure Settings (α : Type) where
  rowScanCost : α
  costMargin : α
  verifyTolerance : α
  pruneOverLatency : Bool
deriving Inhabited

/-- What is wrong with settings, or with the place they are read from. -/
inductive SettingsError (α : Type) where
  /-- There is no such file. -/
  | fileNotFound (path : String)
  /-- The file cannot be read. -/
  | unreadable
  /-- The text of the file does not describe settings. -/
  | malformed
  /-- A value is out of range; `requirement` says which values are not. -/
  | outOfRange (name requirement : String) (value : α)
deriving Inhabited

/-- The error in one sentence; the two errors about the contents of a file leave their cause to
whoever read it. -/
def SettingsError.message {α : Type} [ScalarText α] : SettingsError α → String
  | fileNotFound path => "Config file not found: " ++ path
  | unreadable => "Failed to read config file"
  | malformed => "Failed to parse config file"
  | outOfRange name requirement value =>
    "Invalid configuration: " ++ name ++ " must be " ++ requirement ++ ", got " ++
      ScalarText.plain value

namespace Settings

variable {α : Type} [Scalar α]

/-- The settings of a run without any file. -/
def standard : Settings α where
  rowScanCost := decimal 1005 3
  costMargin := decimal 11 1
  verifyTolerance := decimal 1 7
  pruneOverLatency := false

/-- Checks the range of each value.  What is not a number is in no range. -/
def validate (s : Settings α) : Except (SettingsError α) Unit :=
  if !le one s.rowScanCost then
    .error (.outOfRange "cost.row_scan_cost" ">= 1" s.rowScanCost)
  else if !le one s.costMargin then
    .error (.outOfRange "optimizer.cost_margin" ">= 1" s.costMargin)
  else if !lt zero s.verifyTolerance then
    .error (.outOfRange "optimizer.verify_tolerance" "> 0" s.verifyTolerance)
  else .ok ()

end Settings

end Keyspace
