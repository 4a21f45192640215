import Keyspace.Proofs.Selection.Phases

/-!
# The cheapest used candidate

From each set of alternatives a selection takes a used member of least cost, and of several such the
one with the least number.  Both conditions together are a single one for `costOrder`, the order by
cost and then by number: what is taken comes first in it.  For this the costs need not be rational,
nor their order antisymmetric; it has to be transitive.
-/

namespace Keyspace

open Scalar Formulation
open Std (TransCmp TransOrd OrientedCmp ReflCmp)

variable {α : Type} [Scalar α]

/-- Candidates by cost, equally expensive ones by number. -/
def costOrder (costs : List α) (c d : ℕ) : Ordering :=
  (rank (costs.getD c zero) (costs.getD d zero)).then (compare c d)

/-- Candidate `c` is a used member of a set of alternatives, none of which is cheaper, and the first
of those that are as cheap. -/
structure Formulation.IsCheapest (f : Formulation α) (costs : List α) (s : Solution α)
    (ids : List ℕ) (c : ℕ) : Prop where
  mem : c ∈ ids
  isSet : s.isSet (candidateVar f.tables c) = true
  rank_ne : ∀ d ∈ ids, s.isSet (candidateVar f.tables d) = true →
    rank (costs.getD c zero) (costs.getD d zero) ≠ .gt
  le : ∀ d ∈ ids, s.isSet (candidateVar f.tables d) = true →
    rank (costs.getD c zero) (costs.getD d zero) = .eq → c ≤ d

variable [TransCmp (rank : α → α → Ordering)] {costs : List α}

instance : TransCmp (costOrder costs) :=
  letI : Ord α := ⟨rank⟩
  haveI : TransOrd α := inferInstanceAs (TransCmp (rank : α → α → Ordering))
  inferInstanceAs (TransCmp (compareLex (compareOn fun c => costs.getD c zero) compare))

/-- Of two candidates in the order of their numbers, the cheaper one comes first by cost. -/
theorem isLE_costOrder_cheaper (costs : List α) {c d : ℕ} (h : c < d) :
    (costOrder costs (cheaper costs c d) c).isLE = true ∧
      (costOrder costs (cheaper costs c d) d).isLE = true := by
  have hself : ∀ c, (costOrder costs c c).isLE = true := fun c => ReflCmp.isLE_rfl
  rw [cheaper]
  split_ifs with hlt
  · rw [beq_iff_eq] at hlt
    refine ⟨?_, hself d⟩
    rw [costOrder, hlt]
    rfl
  · refine ⟨hself c, ?_⟩
    have hswap : rank (costs.getD c zero) (costs.getD d zero)
        = (rank (costs.getD d zero) (costs.getD c zero)).swap := OrientedCmp.eq_swap
    rw [costOrder, hswap, Nat.compare_eq_lt.mpr h]
    cases hrank : rank (costs.getD d zero) (costs.getD c zero) with
    | lt => exact absurd (beq_iff_eq.mpr hrank) hlt
    | eq => rfl
    | gt => rfl

/-- The cheaper ones of candidates in the order of their numbers lead to the first one by cost. -/
theorem isLE_costOrder_foldl {rest : List ℕ} :
    ∀ {c : ℕ}, (c :: rest).Pairwise (· < ·) →
      ∀ d ∈ c :: rest, (costOrder costs (rest.foldl (cheaper costs) c) d).isLE = true := by
  induction rest with
  | nil =>
    intro c _ d hd
    obtain rfl := List.mem_singleton.mp hd
    exact ReflCmp.isLE_rfl
  | cons e rest ih =>
    intro c hasc d hd
    obtain ⟨hc, hrest⟩ := List.pairwise_cons.mp hasc
    obtain ⟨he, htail⟩ := List.pairwise_cons.mp hrest
    obtain ⟨hlec, hlee⟩ := isLE_costOrder_cheaper costs (hc e List.mem_cons_self)
    have hbelow : ∀ d ∈ rest, cheaper costs c e < d := by
      intro d hd
      rw [cheaper]
      split_ifs
      · exact he d hd
      · exact hc d (List.mem_cons_of_mem e hd)
    have ih := ih (List.pairwise_cons.mpr ⟨hbelow, htail⟩)
    have hfirst := ih _ List.mem_cons_self
    rw [List.foldl_cons]
    rcases List.mem_cons.mp hd with rfl | hd
    · exact TransCmp.isLE_trans hfirst hlec
    · rcases List.mem_cons.mp hd with rfl | hd
      · exact TransCmp.isLE_trans hfirst hlee
      · exact ih d (List.mem_cons_of_mem _ hd)

/-- What is taken from a set of alternatives in ascending order is the cheapest used member. -/
theorem isCheapest_of_cheapestUsed? {f : Formulation α} {s : Solution α} {ids : List ℕ} {c : ℕ}
    (hasc : ids.Pairwise (· < ·)) (h : f.cheapestUsed? costs s ids = some c) :
    f.IsCheapest costs s ids c := by
  obtain ⟨hmem, hset⟩ := cheapestUsed?_eq_some f costs s h
  have hfirst : ∀ d ∈ ids, s.isSet (candidateVar f.tables d) = true →
      (costOrder costs c d).isLE = true := by
    intro d hd hused
    rw [cheapestUsed?] at h
    split at h
    · exact absurd h (by simp)
    next first rest hfilter =>
      obtain rfl := Option.some.inj h
      refine isLE_costOrder_foldl ?_ d ?_
      · rw [← hfilter]
        exact hasc.filter _
      · rw [← hfilter]
        exact List.mem_filter.mpr ⟨hd, hused⟩
  refine ⟨hmem, hset, fun d hd hused hgt => ?_, fun d hd hused heq => ?_⟩
  · have hle := hfirst d hd hused
    rw [costOrder, hgt] at hle
    exact absurd hle Bool.false_ne_true
  · have hle := hfirst d hd hused
    rw [costOrder, heq] at hle
    exact Nat.isLE_compare.mp hle

end Keyspace
