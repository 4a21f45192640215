import Keyspace.Proofs.Selection.Assignment
import Keyspace.Proofs.Sorted.Set
import Mathlib.Algebra.Order.BigOperators.Group.Finset

/-!
# Plans

A plan reads every level from exactly one candidate, while a selection may use several of a level.
The two agree on what is least: a plan is a selection (`IsPlan.isSelection`), and of a selection one
used candidate for each level makes a plan on the same tables (`isPlan_of_isSelection`), which
costs no more if no cost is negative (`planCost_le`).
-/

namespace Keyspace

open Tables
open Exact (finite)

/-- Tables `T`, and for every level of a workload a candidate that is read from one of them. -/
structure Model.IsPlan {α : Type} (m : Model α) (w : Workload) (sets : List (List ℕ))
    (T : Finset ℕ) (choice : List ℕ) : Prop where
  table_lt : ∀ t ∈ T, t < (collapse w.candidates).size
  /-- One alternative for each level, in the order of the levels. -/
  chosen : List.Forall₂ (· ∈ ·) choice sets
  built : ∀ c ∈ choice, (collapse w.candidates).home c ∈ T
  fanout : ∀ mu ∈ m.mutations, mu.kind = .insert →
    (w.chosenAt T mu.entity).card ≤ mu.maxTables

/-- The cost of a plan: the weighted costs of its candidates, level by level. -/
def Model.planCost (m : Model Exact) (w : Workload) (costs : List ℚ) (choice : List ℕ) : ℚ :=
  (choice.map (m.weight w costs)).sum

/-! ### One alternative for each level -/

section Chosen

variable {w : Workload} {sets : List (List ℕ)} {choice : List ℕ}

theorem sublist_flatten_of_forall₂ (h : List.Forall₂ (· ∈ ·) choice sets) :
    choice.Sublist sets.flatten := by
  induction h with
  | nil => exact List.Sublist.refl _
  | cons hmem _ ih => exact (List.singleton_sublist.mpr hmem).append ih

/-- The alternatives of the levels are numbered one level after the other. -/
theorem pairwise_lt_of_forall₂ (hw : w.IsLeveled sets) (h : List.Forall₂ (· ∈ ·) choice sets) :
    choice.Pairwise (· < ·) := by
  have hsub := sublist_flatten_of_forall₂ h
  rw [hw.flatten_eq] at hsub
  exact List.pairwise_lt_range.sublist hsub

theorem lt_of_forall₂ (hw : w.IsLeveled sets) (h : List.Forall₂ (· ∈ ·) choice sets) {c : ℕ}
    (hc : c ∈ choice) : c < w.candidates.length := by
  have hmem := (sublist_flatten_of_forall₂ h).subset hc
  rwa [hw.flatten_eq, List.mem_range] at hmem

/-- A selected set of one alternative for each level lists them in their order. -/
theorem toList_ofList_of_forall₂ (hw : w.IsLeveled sets)
    (h : List.Forall₂ (· ∈ ·) choice sets) : (SortedSet.ofList choice).toList = choice :=
  SortedSet.toList_ofList_of_ascending (SortedSet.ascending_of_lt (pairwise_lt_of_forall₂ hw h))

theorem exists_choice_of_covered {U : Finset ℕ} (h : ∀ ids ∈ sets, ∃ c ∈ ids, c ∈ U) :
    ∃ choice : List ℕ, List.Forall₂ (· ∈ ·) choice sets ∧ ∀ c ∈ choice, c ∈ U := by
  induction sets with
  | nil => exact ⟨[], .nil, by simp⟩
  | cons ids sets ih =>
    obtain ⟨c, hc, hused⟩ := h ids List.mem_cons_self
    obtain ⟨choice, hchoice, hall⟩ := ih fun ids' h' => h ids' (List.mem_cons_of_mem ids h')
    exact ⟨c :: choice, .cons hc hchoice, List.forall_mem_cons.mpr ⟨hused, hall⟩⟩

end Chosen

/-! ### Plans and selections -/

section Selections

variable {α : Type} {m : Model α} {w : Workload} {sets : List (List ℕ)} {T U : Finset ℕ}
  {choice : List ℕ}

/-- The candidates of a plan are a selection. -/
theorem Model.IsPlan.isSelection (h : m.IsPlan w sets T choice) (hw : w.IsLeveled sets) :
    m.IsSelection w sets T choice.toFinset := by
  refine ⟨⟨h.table_lt, fun c hc => ?_, fun c hc => ?_, fun ids hids => ?_⟩,
    fun mu hmu hins _ => h.fanout mu hmu hins⟩
  · exact lt_of_forall₂ hw h.chosen (List.mem_toFinset.mp hc)
  · exact h.built c (List.mem_toFinset.mp hc)
  · obtain ⟨c, hc, hmem⟩ := exists_left_of_forall₂ h.chosen hids
    exact ⟨c, hmem, List.mem_toFinset.mpr hc⟩

/-- One used candidate for each level makes a plan of a selection. -/
theorem Model.isPlan_of_isSelection (h : m.IsSelection w sets T U)
    (hchoice : List.Forall₂ (· ∈ ·) choice sets) (hused : ∀ c ∈ choice, c ∈ U) :
    m.IsPlan w sets T choice := by
  refine ⟨h.table_lt, hchoice, fun c hc => h.linked c (hused c hc), fun mu hmu hins => ?_⟩
  by_cases hex : ∃ c ∈ w.candidates, c.key.root = mu.entity
  · exact h.fanout mu hmu hins hex
  · -- every table is the home of a candidate, and so of another entity
    have hempty : w.chosenAt T mu.entity = ∅ := by
      rw [Finset.eq_empty_iff_forall_notMem]
      intro t ht
      obtain ⟨hmem, hroot⟩ := Finset.mem_filter.mp ht
      obtain ⟨c, hc, rfl⟩ := exists_home_eq (h.table_lt t hmem)
      exact hex ⟨w.candidates[c], List.getElem_mem hc, (root_home hc).symm.trans hroot⟩
    rw [hempty, Finset.card_empty]
    exact Nat.zero_le _

end Selections

/-! ### Costs -/

section Costs

variable {m : Model Exact} {w : Workload} {sets : List (List ℕ)} {costs : List ℚ}
  {choice : List ℕ} (hw : w.IsLeveled sets) (hchoice : List.Forall₂ (· ∈ ·) choice sets)

theorem weight_nonneg (hcosts : ∀ q ∈ costs, 0 ≤ q) (c : ℕ) : 0 ≤ m.weight w costs c :=
  mul_nonneg (Exact.getD_of_forall_mem le_rfl hcosts c) (Nat.cast_nonneg _)

/-- The cost of candidates that are listed once each. -/
theorem planCost_eq_sum_of_nodup (h : choice.Nodup) :
    m.planCost w costs choice = ∑ c ∈ choice.toFinset, m.weight w costs c :=
  (List.sum_toFinset _ h).symm

theorem planCost_le_of_nodup (hcosts : ∀ q ∈ costs, 0 ≤ q) (h : choice.Nodup) {U : Finset ℕ}
    (hused : ∀ c ∈ choice, c ∈ U) : m.planCost w costs choice ≤ ∑ c ∈ U, m.weight w costs c := by
  rw [planCost_eq_sum_of_nodup h]
  refine Finset.sum_le_sum_of_subset_of_nonneg (fun c hc => ?_) fun c _ _ => weight_nonneg hcosts c
  exact hused c (List.mem_toFinset.mp hc)

include hw hchoice

theorem planCost_eq_sum : m.planCost w costs choice = ∑ c ∈ choice.toFinset, m.weight w costs c :=
  planCost_eq_sum_of_nodup ((pairwise_lt_of_forall₂ hw hchoice).imp Nat.ne_of_lt)

/-- A plan costs no more than the selection it was taken from. -/
theorem planCost_le (hcosts : ∀ q ∈ costs, 0 ≤ q) {U : Finset ℕ} (hused : ∀ c ∈ choice, c ∈ U) :
    m.planCost w costs choice ≤ ∑ c ∈ U, m.weight w costs c :=
  planCost_le_of_nodup hcosts ((pairwise_lt_of_forall₂ hw hchoice).imp Nat.ne_of_lt) hused

end Costs

end Keyspace
