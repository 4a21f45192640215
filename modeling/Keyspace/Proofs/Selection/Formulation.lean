import Keyspace.Selection.Phases
import Keyspace.Proofs.Program.Verify
import Keyspace.Proofs.Selection.Choice

/-!
# What the constraints of a formulation say

`mem_constraints_iff` lists the constraints of the program for a workload, and `forall_holds_iff`
reads them over rational values: linking, coverage and fanout as inequalities between the values of
tables and candidates (`Model.Satisfies`).

`isSelection_of_satisfies` is the step from values to choices.  The values may be off by a
tolerance `t`, and a sum of `n` of them by `n` tolerances; as long as `(N + 1) t < 1` for a program
of `N` variables, the tables and candidates read as set still form a selection.
-/

namespace Keyspace

open Scalar Tables Formulation
open Exact (finite)

/-! ### The shape of the program -/

section Shape

variable {α : Type} [Scalar α] (m : Model α) (w : Workload) (costs : List α)

theorem length_names :
    (m.formulate w costs).program.names.length
      = (collapse w.candidates).size + w.candidates.length := by
  simp [Model.formulate]

/-- The weighted cost of a candidate. -/
theorem getD_costTerms {c : ℕ} (hc : c < w.candidates.length) :
    ((m.formulate w costs).costTerms.map (·.2)).getD c zero
      = costs.getD c zero * ofNat (m.query (w.candidate c).query).serviceLevel.throughput := by
  rw [Model.formulate, List.map_map, List.getD_eq_getElem _ _ (by simpa using hc),
    List.getElem_map, List.getElem_range]
  rfl

theorem mem_constraints_iff {c : Constraint α} :
    c ∈ (m.formulate w costs).program.constraints ↔
      (∃ i < w.candidates.length, c = linking (collapse w.candidates) i) ∨
      (∃ k s, w.siblingSets[k]? = some s ∧ c = coverage (collapse w.candidates) k s) ∨
      ∃ k mu, m.mutations[k]? = some mu ∧ c ∈ fanout (collapse w.candidates) k mu := by
  rw [Model.formulate, List.mem_append, List.mem_append, or_assoc]
  refine or_congr ?_ (or_congr ?_ ?_)
  · simp [eq_comm]
  · rw [List.mem_mapIdx]
    constructor
    · rintro ⟨k, hk, rfl⟩
      exact ⟨k, _, List.getElem?_eq_getElem hk, rfl⟩
    · rintro ⟨k, s, hs, rfl⟩
      obtain ⟨hk, rfl⟩ := List.getElem?_eq_some_iff.mp hs
      exact ⟨k, hk, rfl⟩
  · rw [List.mem_flatten]
    constructor
    · rintro ⟨cs, hcs, hc⟩
      obtain ⟨k, hk, rfl⟩ := List.mem_mapIdx.mp hcs
      exact ⟨k, _, List.getElem?_eq_getElem hk, hc⟩
    · rintro ⟨k, mu, hmu, hc⟩
      obtain ⟨hk, rfl⟩ := List.getElem?_eq_some_iff.mp hmu
      exact ⟨_, List.mem_mapIdx.mpr ⟨k, hk, rfl⟩, hc⟩

/-- Two constraints for each insertion into an entity that has candidates. -/
theorem length_flatten_fanout (ts : Tables) (mus : List Mutation) :
    (mus.mapIdx (fanout (α := α) ts)).flatten.length
      = 2 * mus.countP fun mu => mu.kind == .insert && !(ts.rootedAt mu.entity).isEmpty := by
  -- the numbers in the names of the constraints shift along the induction
  suffices general : ∀ f : ℕ → Mutation → List (Constraint α),
      (∀ k mu, (f k mu).length
        = if mu.kind == .insert && !(ts.rootedAt mu.entity).isEmpty then 2 else 0) →
      (mus.mapIdx f).flatten.length
        = 2 * mus.countP fun mu => mu.kind == .insert && !(ts.rootedAt mu.entity).isEmpty by
    refine general _ fun k mu => ?_
    unfold fanout
    dsimp only
    split_ifs <;> rfl
  induction mus with
  | nil => exact fun f _ => rfl
  | cons mu mus ih =>
    intro f hf
    rw [List.mapIdx_cons, List.flatten_cons, List.length_append, hf,
      ih (fun k => f (k + 1)) fun k => hf (k + 1), List.countP_cons]
    split_ifs <;> omega

theorem length_constraints :
    (m.formulate w costs).program.constraints.length
      = w.candidates.length + w.siblingSets.length
        + 2 * m.mutations.countP fun mu =>
          mu.kind == .insert && w.candidates.any fun c => c.key.root == mu.entity := by
  have hactive : ∀ mu : Mutation, (!((collapse w.candidates).rootedAt mu.entity).isEmpty)
      = w.candidates.any fun c => c.key.root == mu.entity := by
    intro mu
    rw [Bool.eq_iff_iff, Bool.not_eq_true', List.isEmpty_eq_false_iff, rootedAt_ne_nil_iff]
    simp
  rw [Model.formulate, List.length_append, List.length_append, length_flatten_fanout]
  simp only [List.length_map, List.length_range, List.length_mapIdx, hactive]

/-- Every variable occurs in a linking constraint: a candidate in its own, a table in those of its
candidates. -/
theorem exists_term_eq {v : ℕ} (hv : v < (m.formulate w costs).program.names.length) :
    ∃ c ∈ (m.formulate w costs).program.constraints, ∃ term ∈ c.terms, term.1 = v := by
  rw [length_names] at hv
  by_cases htable : v < (collapse w.candidates).size
  · -- no table is without candidates
    obtain ⟨i, hi, rfl⟩ := exists_home_eq htable
    exact ⟨linking (collapse w.candidates) i,
      (mem_constraints_iff m w costs).mpr (.inl ⟨i, hi, rfl⟩), _, List.mem_cons_self, rfl⟩
  · refine ⟨linking (collapse w.candidates) (v - (collapse w.candidates).size),
      (mem_constraints_iff m w costs).mpr (.inl ⟨_, by omega, rfl⟩), _,
      List.mem_cons_of_mem _ List.mem_cons_self, ?_⟩
    show (collapse w.candidates).size + (v - (collapse w.candidates).size) = v
    omega

end Shape

/-! ### The constraints over rational values -/

/-- What the constraints say of rational values, up to a tolerance. -/
structure Model.Satisfies {α : Type} (m : Model α) (w : Workload) (t : ℚ) (qs : List ℚ) : Prop where
  linking : ∀ c < w.candidates.length,
    qs.getD (candidateVar (collapse w.candidates) c) 0
      ≤ qs.getD (tableVar ((collapse w.candidates).home c)) 0 + t
  coverage : ∀ s ∈ w.siblingSets,
    1 - t ≤ (s.map fun c => qs.getD (candidateVar (collapse w.candidates) c) 0).sum
  fanout : ∀ mu ∈ m.mutations, mu.kind = .insert →
    (collapse w.candidates).rootedAt mu.entity ≠ [] →
    1 - t ≤ (((collapse w.candidates).rootedAt mu.entity).map fun t => qs.getD (tableVar t) 0).sum ∧
    (((collapse w.candidates).rootedAt mu.entity).map fun t => qs.getD (tableVar t) 0).sum
      ≤ mu.maxTables + t

section Holds

variable (ts : Tables) (t : ℚ) (qs : List ℚ)

theorem holds_linking (c : ℕ) :
    (linking ts c).holds ((linking ts c).terms.eval (qs.map finite)) (finite t) = true ↔
      qs.getD (candidateVar ts c) 0 ≤ qs.getD (tableVar (ts.home c)) 0 + t := by
  have heval := LinearForm.eval_map_finite
    [(tableVar (ts.home c), 1), (candidateVar ts c, -1)] qs
  have hterms : (linking ts c).terms.eval (qs.map finite)
      = finite (qs.getD (tableVar (ts.home c)) 0 - qs.getD (candidateVar ts c) 0) := by
    refine heval.trans (congrArg finite ?_)
    simp [sub_eq_add_neg]
  rw [hterms]
  simp only [linking, Constraint.holds, Exact.zero_eq, Exact.finite_sub_finite, Exact.le_finite,
    decide_eq_true_eq]
  constructor <;> intro h <;> linarith

theorem holds_coverage (k : ℕ) (s : List ℕ) :
    (coverage ts k s).holds ((coverage ts k s).terms.eval (qs.map finite)) (finite t) = true ↔
      1 - t ≤ (s.map fun c => qs.getD (candidateVar ts c) 0).sum := by
  have hterms := LinearForm.eval_map_one s (candidateVar ts) qs
  simp only [coverage, Constraint.holds, hterms, Exact.one_eq, Exact.finite_sub_finite,
    Exact.le_finite, decide_eq_true_eq]

theorem holds_fanout (k : ℕ) (mu : Mutation) :
    (∀ c ∈ fanout ts k mu, c.holds (c.terms.eval (qs.map finite)) (finite t) = true) ↔
      (mu.kind = .insert → ts.rootedAt mu.entity ≠ [] →
        1 - t ≤ ((ts.rootedAt mu.entity).map fun t => qs.getD (tableVar t) 0).sum ∧
        ((ts.rootedAt mu.entity).map fun t => qs.getD (tableVar t) 0).sum ≤ mu.maxTables + t) := by
  have hterms := LinearForm.eval_map_one (ts.rootedAt mu.entity) tableVar qs
  by_cases hactive : mu.kind = .insert ∧ ts.rootedAt mu.entity ≠ []
  · have hcond : (mu.kind == .insert && !(ts.rootedAt mu.entity).isEmpty) = true := by
      simp [hactive]
    simp only [fanout, hcond, if_true, List.mem_cons, List.not_mem_nil, or_false, forall_eq_or_imp,
      forall_eq, Constraint.holds, hterms, Exact.one_eq, Exact.ofNat_eq, Exact.finite_sub_finite,
      Exact.finite_add_finite, Exact.le_finite, decide_eq_true_eq]
    exact ⟨fun h _ _ => h, fun h => h hactive.1 hactive.2⟩
  · have hcond : (mu.kind == .insert && !(ts.rootedAt mu.entity).isEmpty) = false := by
      simpa using hactive
    simp only [fanout, hcond]
    exact iff_of_true (by simp) fun h₁ h₂ => absurd ⟨h₁, h₂⟩ hactive

end Holds

/-- **The constraints over rational values.** -/
theorem forall_holds_iff (m : Model Exact) (w : Workload) (costs : List Exact) (t : ℚ)
    (qs : List ℚ) :
    (∀ c ∈ (m.formulate w costs).program.constraints,
      c.holds (c.terms.eval (qs.map finite)) (finite t) = true) ↔ m.Satisfies w t qs := by
  constructor
  · intro h
    refine ⟨fun c hc => ?_, fun s hs => ?_, fun mu hmu => ?_⟩
    · exact (holds_linking _ t qs c).mp (h _ ((mem_constraints_iff m w costs).mpr
        (.inl ⟨c, hc, rfl⟩)))
    · obtain ⟨k, hk⟩ := List.mem_iff_getElem?.mp hs
      exact (holds_coverage _ t qs k s).mp (h _ ((mem_constraints_iff m w costs).mpr
        (.inr (.inl ⟨k, s, hk, rfl⟩))))
    · obtain ⟨k, hk⟩ := List.mem_iff_getElem?.mp hmu
      exact (holds_fanout _ t qs k mu).mp fun c hc => h c ((mem_constraints_iff m w costs).mpr
        (.inr (.inr ⟨k, mu, hk, hc⟩)))
  · intro h c hc
    rcases (mem_constraints_iff m w costs).mp hc with ⟨i, hi, rfl⟩ | ⟨k, s, hs, rfl⟩ |
      ⟨k, mu, hmu, hc⟩
    · exact (holds_linking _ t qs i).mpr (h.linking i hi)
    · exact (holds_coverage _ t qs k s).mpr (h.coverage s (List.mem_of_getElem? hs))
    · exact (holds_fanout _ t qs k mu).mpr (h.fanout mu (List.mem_of_getElem? hmu)) c hc

/-! ### From values to choices -/

section Choice

variable (w : Workload) (qs : List ℚ)

/-- The tables read as set. -/
def setTables : Finset ℕ :=
  (Finset.range (collapse w.candidates).size).filter fun t => 1 / 2 < qs.getD (tableVar t) 0

/-- The candidates read as set. -/
def setCandidates : Finset ℕ :=
  (Finset.range w.candidates.length).filter fun c =>
    1 / 2 < qs.getD (candidateVar (collapse w.candidates) c) 0

/-- The number of set tables of an entity. -/
theorem card_chosenAt_setTables (id : EntityId) :
    (w.chosenAt (setTables w qs) id).card
      = (((collapse w.candidates).rootedAt id).map fun t => qs.getD (tableVar t) 0).countP
          fun q => 1 / 2 < q := by
  have hset : w.chosenAt (setTables w qs) id
      = (((collapse w.candidates).rootedAt id).filter
          fun t => 1 / 2 < qs.getD (tableVar t) 0).toFinset := by
    ext t
    simp only [Workload.chosenAt, setTables, Finset.mem_filter, Finset.mem_range, List.mem_toFinset,
      List.mem_filter, mem_rootedAt, decide_eq_true_eq]
    tauto
  have hnodup : ((collapse w.candidates).rootedAt id).Nodup := List.nodup_range.filter _
  rw [hset, List.toFinset_card_of_nodup (hnodup.filter _), List.countP_map,
    List.countP_eq_length_filter]
  rfl

variable {w qs} {t : ℚ}

theorem abs_getD_sub_bitOf_le (ht : 0 ≤ t) (near : ∀ q ∈ qs, |q - bitOf q| ≤ t) (v : ℕ) :
    |qs.getD v 0 - bitOf (qs.getD v 0)| ≤ t :=
  Exact.getD_of_forall_mem (P := fun q => |q - bitOf q| ≤ t)
    (by rwa [bitOf_zero, sub_zero, abs_zero]) near v

/-- A sum of variables is near the number of those that are set. -/
theorem abs_sum_getD_sub_countP_le (ht : 0 ≤ t) (near : ∀ q ∈ qs, |q - bitOf q| ≤ t)
    (ids : List ℕ) (var : ℕ → ℕ) :
    |(ids.map fun i => qs.getD (var i) 0).sum
        - ((ids.map fun i => qs.getD (var i) 0).countP fun q => 1 / 2 < q : ℕ)|
      ≤ ids.length * t := by
  have h := abs_sum_sub_countP_le (t := t) (ids.map fun i => qs.getD (var i) 0) fun q hq => by
    obtain ⟨i, -, rfl⟩ := List.mem_map.mp hq
    exact abs_getD_sub_bitOf_le ht near (var i)
  rwa [List.length_map] at h

variable (hw : w.IsLeveled w.siblingSets) (ht : 0 ≤ t)
  (hN : (((collapse w.candidates).size + w.candidates.length + 1 : ℕ) : ℚ) * t < 1)
  (near : ∀ q ∈ qs, |q - bitOf q| ≤ t)
include hw ht hN near

/-- Linking and coverage leave tables and candidates that serve the reads. -/
theorem serves_of_linking_coverage
    (hlink : ∀ c < w.candidates.length,
      qs.getD (candidateVar (collapse w.candidates) c) 0
        ≤ qs.getD (tableVar ((collapse w.candidates).home c)) 0 + t)
    (hcover : ∀ s ∈ w.siblingSets,
      1 - t ≤ (s.map fun c => qs.getD (candidateVar (collapse w.candidates) c) 0).sum) :
    w.Serves w.siblingSets (setTables w qs) (setCandidates w qs) := by
  have small : ∀ k : ℕ, k ≤ (collapse w.candidates).size + w.candidates.length + 1 →
      (k : ℚ) * t < 1 := fun k hk =>
    lt_of_le_of_lt (mul_le_mul_of_nonneg_right (Nat.cast_le.mpr hk) ht) hN
  refine ⟨fun t' ht' => ?_, fun c hc => ?_, fun c hc => ?_, fun s hs => ?_⟩
  · exact Finset.mem_range.mp (Finset.mem_filter.mp ht').1
  · exact Finset.mem_range.mp (Finset.mem_filter.mp hc).1
  · obtain ⟨hc, hset⟩ := Finset.mem_filter.mp hc
    have hc := Finset.mem_range.mp hc
    have hhome := home_lt_size hc
    refine Finset.mem_filter.mpr ⟨Finset.mem_range.mpr hhome, ?_⟩
    -- an unset table is near zero, too far below a candidate near one
    by_contra hunset
    have hlinked := hlink c hc
    have htable := abs_getD_sub_bitOf_le ht near (tableVar ((collapse w.candidates).home c))
    have hcand := abs_getD_sub_bitOf_le ht near (candidateVar (collapse w.candidates) c)
    rw [bitOf, if_neg hunset, sub_zero] at htable
    rw [bitOf, if_pos hset] at hcand
    have h3 := small 3 (by omega)
    push_cast at h3
    linarith [(abs_le.mp hcand).1, (abs_le.mp htable).2]
  · have hsum := hcover s hs
    have hnear := abs_sum_getD_sub_countP_le ht near s (candidateVar (collapse w.candidates))
    have hlen := small (s.length + 1) (by have := hw.length_le hs; omega)
    rw [abs_le] at hnear
    push_cast at hlen
    -- if none were set, the sum would be near zero
    have hpos : 0 < (s.map fun c => qs.getD (candidateVar (collapse w.candidates) c) 0).countP
        fun q => 1 / 2 < q := by
      rw [Nat.pos_iff_ne_zero]
      intro hzero
      rw [hzero, Nat.cast_zero] at hnear
      linarith [hnear.2]
    obtain ⟨q, hq, hset⟩ := List.countP_pos_iff.mp hpos
    obtain ⟨c, hc, rfl⟩ := List.mem_map.mp hq
    exact ⟨c, hc, Finset.mem_filter.mpr
      ⟨Finset.mem_range.mpr (hw.lt_of_mem hs hc), by simpa using hset⟩⟩

/-- **From values to choices**: values that satisfy the constraints up to a small tolerance read as
a selection. -/
theorem isSelection_of_satisfies {m : Model Exact} (h : m.Satisfies w t qs) :
    m.IsSelection w w.siblingSets (setTables w qs) (setCandidates w qs) := by
  refine ⟨serves_of_linking_coverage hw ht hN near h.linking h.coverage,
    fun mu hmu hins hex => ?_⟩
  have hsum := (h.fanout mu hmu hins (rootedAt_ne_nil_iff.mpr hex)).2
  have hnear := abs_sum_getD_sub_countP_le ht near ((collapse w.candidates).rootedAt mu.entity)
    tableVar
  have hle := length_rootedAt_le (collapse w.candidates) mu.entity
  have hlen : ((((collapse w.candidates).rootedAt mu.entity).length + 1 : ℕ) : ℚ) * t < 1 :=
    lt_of_le_of_lt (mul_le_mul_of_nonneg_right (Nat.cast_le.mpr (by omega)) ht) hN
  rw [abs_le] at hnear
  push_cast at hlen
  rw [card_chosenAt_setTables, ← Nat.lt_add_one_iff, ← Nat.cast_lt (α := ℚ), Nat.cast_succ]
  linarith [hnear.1]

end Choice

end Keyspace
