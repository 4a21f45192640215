import Keyspace.Proofs.Selection.Tables
import Keyspace.Proofs.Workload.Siblings
import Mathlib.Data.Finset.Card

/-!
# Choices of tables and candidates

The problem behind the program, without variables and constraints: `Workload.Serves` says that a
set of tables and a set of candidates serve a workload, with a used candidate for every level and a
table for every used candidate.  `Model.IsSelection` adds that no insertion touches too many tables.

That an insertion touches at least one table need not be asked for: `Serves.one_le_card` finds it
from the levels, since every candidate belongs to a level, a used candidate of that level has a
table, and that table stores the same entity.
-/

namespace Keyspace

open Tables

/-- The chosen tables that store rows of an entity. -/
def Workload.chosenAt (w : Workload) (T : Finset ℕ) (id : EntityId) : Finset ℕ :=
  T.filter fun t => ((collapse w.candidates).table t).key.root = id

/-- A set `T` of tables and a set `U` of candidates that serve the reads of a workload whose levels
have the given alternatives. -/
structure Workload.Serves (w : Workload) (sets : List (List ℕ)) (T U : Finset ℕ) : Prop where
  table_lt : ∀ t ∈ T, t < (collapse w.candidates).size
  candidate_lt : ∀ c ∈ U, c < w.candidates.length
  /-- Every used candidate has its table. -/
  linked : ∀ c ∈ U, (collapse w.candidates).home c ∈ T
  /-- Every level has a used candidate. -/
  covered : ∀ ids ∈ sets, ∃ c ∈ ids, c ∈ U

/-- A choice that serves the reads and keeps the insertions within their bounds. -/
structure Model.IsSelection {α : Type} (m : Model α) (w : Workload) (sets : List (List ℕ))
    (T U : Finset ℕ) : Prop extends w.Serves sets T U where
  /-- An insertion into an entity that has candidates touches no more tables than it may. -/
  fanout : ∀ mu ∈ m.mutations, mu.kind = .insert → (∃ c ∈ w.candidates, c.key.root = mu.entity) →
    (w.chosenAt T mu.entity).card ≤ mu.maxTables

/-- Of an entity that has candidates some table is chosen. -/
theorem Workload.Serves.one_le_card {w : Workload} {sets : List (List ℕ)} {T U : Finset ℕ}
    (h : w.Serves sets T U) (hw : w.IsLeveled sets) {id : EntityId}
    (hid : ∃ c ∈ w.candidates, c.key.root = id) : 1 ≤ (w.chosenAt T id).card := by
  obtain ⟨c, hc, hroot⟩ := hid
  obtain ⟨i, hi, rfl⟩ := List.getElem_of_mem hc
  -- the level of the candidate has a used one, of the same root
  obtain ⟨ids, hids, hmem⟩ := hw.exists_mem hi
  obtain ⟨d, hd, hused⟩ := h.covered ids hids
  have hlt := h.candidate_lt d hused
  have hsame := hw.root_eq ids hids d hd i hmem
  rw [Workload.candidate_eq_getElem hlt, Workload.candidate_eq_getElem hi, hroot] at hsame
  refine Finset.card_pos.mpr ⟨(collapse w.candidates).home d, ?_⟩
  exact Finset.mem_filter.mpr ⟨h.linked d hused, (root_home hlt).trans hsame⟩

end Keyspace
