import Keyspace.Scalar.Basic

/-!
# Selectivity statistics

A statistic describes a set of paths: how many combinations of values occur, and how many rows
have to be scanned to collect a page of matches.  The scan is estimated by a distribution, which
may be any function of the page size and the number of distinct values.
-/

namespace Keyspace

/-- Rows scanned for a page of matches, given the page size and the number of distinct values. -/
structure Distribution (α : Type) where
  expected : (pageSize distinct : Nat) → α

namespace Distribution

variable {α : Type} [Scalar α]

/-- Evenly spread values, with a one-sided normal bound `z`: the page size over the probability of
a match, times `z`.  No distinct value counts as one. -/
def uniform (z : α) : Distribution α :=
  ⟨fun pageSize distinct =>
    z * (Scalar.ofNat pageSize / (Scalar.one / Scalar.ofNat (Nat.max distinct 1)))⟩

/-- The same scan for every page. -/
def constant (rows : α) : Distribution α := ⟨fun _ _ => rows⟩

end Distribution

/-- What is known about a set of paths. -/
structure Statistic (α : Type) where
  /-- Number of distinct combinations of values. -/
  distinct : Nat
  distribution : Distribution α
  /-- Do a few values hold most of the rows? -/
  hotspot : Bool := false
  /-- Confidence of the author of the statistic. -/
  probability : α

namespace Statistic

variable {α : Type} [Scalar α]

/-- A statistic over a given distribution. -/
def ofDistribution (distinct : Nat) (distribution : Distribution α) : Statistic α where
  distinct
  distribution
  probability := Scalar.one

/-- The score of the 95th percentile, one-sided. -/
def z95 : α := Scalar.decimal 1645 3

/-- A statistic over evenly spread values. -/
def uniform (distinct : Nat) : Statistic α := ofDistribution distinct (.uniform z95)

/-- Rows scanned for a page of matches. -/
def expected (s : Statistic α) (pageSize : Nat) : α :=
  s.distribution.expected pageSize s.distinct

end Statistic

end Keyspace
