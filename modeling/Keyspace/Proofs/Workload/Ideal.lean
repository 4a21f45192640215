import Keyspace.Proofs.Cost.Bounds
import Keyspace.Proofs.Cost.Shared
import Keyspace.Proofs.Workload.Priced

/-!
# Ideal tables

A table is ideal for a level if a read of it filters only what could not be part of any key, and
does not sort.  Without pruning, every level whose order may be part of a key is offered such a
table (`Model.exists_ideal`): all sargable predicates in the partition key, and the clustering key
that the order of the level itself gives rise to.  No other candidate of the level leaves less to
filter.  If nothing is left at all, a read of the ideal table costs exactly one row, and no read
costs less.
-/

namespace Keyspace

open Scalar
open Exact (finite)

namespace Model

/-! ### Free sorts -/

section FreeSort

variable {α : Type} [Scalar α] {m : Model α} {c : Candidate}

/-- Terms deliver themselves, whatever follows them. -/
theorem matchedTerms_eq_self {physical requested : List OrderTerm} (h : requested <+: physical) :
    matchedTerms physical requested = requested := by
  induction requested generalizing physical with
  | nil => cases physical <;> rfl
  | cons t rest ih =>
    obtain ⟨tail, rfl⟩ := h
    have hself : t.satisfies t = true := OrderTerm.satisfies_eq_true_iff.mpr ⟨rfl, .inr (.inr rfl)⟩
    rw [List.cons_append, matchedTerms, if_pos hself, ih (List.prefix_append rest tail)]

/-- A clustering key that starts with the requested order leaves nothing to sort. -/
theorem sortRows_eq_zero (h : c.clause.order <+: c.key.clusteringKey) :
    m.sortRows c = .ok zero := by
  unfold sortRows
  dsimp only
  rw [matchedTerms_eq_self h, if_pos rfl]

end FreeSort

/-- A read that neither filters nor sorts costs one row, whatever the cost of scanning one. -/
theorem estimate_of_free {m : Model Exact} {c : Candidate} (rowScanCost : Exact)
    (hremaining : c.remaining.isEmpty = true) (hsort : m.sortRows c = .ok zero) :
    m.estimate rowScanCost c = .ok ⟨one, zero, one⟩ := by
  have hfilter : m.filterRows c = .ok one := by rw [filterRows, if_pos hremaining]
  rw [estimate, hfilter, hsort, hremaining]
  rfl

/-! ### The ideal candidate -/

/-- Only the predicates that cannot be part of a key are left to filter, and nothing to sort. -/
structure IsIdeal {α : Type} [Scalar α] (m : Model α) (l : Level) (c : Candidate) : Prop where
  mem_remaining_iff : ∀ p, p ∈ c.remaining.toList ↔
    p.sargable = false ∧ ∃ q ∈ l.clause.predicates, q.path = p
  sortRows_eq : m.sortRows c = .ok zero

/-- If all predicates may be part of a key, a read of an ideal table costs one row. -/
theorem IsIdeal.total_eq_one {m : Model Exact} {l : Level} {c : Candidate} (hc : m.IsIdeal l c)
    (hpredicates : ∀ q ∈ l.clause.predicates, q.path.sargable = true) (rowScanCost : Exact) :
    (m.estimate rowScanCost c).map Estimate.total = .ok one := by
  have hremaining : c.remaining.isEmpty = true := by
    refine List.isEmpty_iff.mpr (List.eq_nil_iff_forall_not_mem.mpr fun p hp => ?_)
    obtain ⟨hstale, q, hq, rfl⟩ := (hc.mem_remaining_iff p).mp hp
    exact Bool.false_ne_true (hstale.symm.trans (hpredicates q hq))
  rw [estimate_of_free rowScanCost hremaining hc.sortRows_eq]
  rfl

section Ideal

variable {α : Type} [Scalar α] {decls : Declarations α} {m : Model α}
  (hbuild : decls.build = .ok m) {l : Level} (hl : l ∈ m.levels)
include hbuild hl

/-- No candidate leaves less to filter than an ideal one. -/
theorem IsIdeal.remaining_subset {c d : Candidate} (hc : m.IsIdeal l c) (hd : d ∈ m.candidates l) :
    c.remaining.toList ⊆ d.remaining.toList := by
  intro p hp
  obtain ⟨hstale, q, hq, rfl⟩ := (hc.mem_remaining_iff p).mp hp
  exact (divides_of_mem_candidates hbuild hl hd).mem_remaining q hq hstale

/-- An order that may be part of a key has an ideal candidate. -/
theorem exists_isIdeal (horder : ∀ t ∈ l.clause.order, t.path.sargable = true) :
    ∃ c ∈ m.candidates l, m.IsIdeal l c := by
  have hclause : l.clause ∈ m.clausesRootedAt l.clause.root :=
    List.mem_filter.mpr ⟨List.mem_map_of_mem hl, beq_self_eq_true _⟩
  obtain ⟨key, hkey, hprefix⟩ := exists_prefix_mem_clusteringKeys hclause horder
  have hmem : l.candidate l.clause.sargablePaths key ∈ m.candidates l :=
    mem_candidates_iff.mpr ⟨_, (mem_partitionKeys_iff _).mpr fun _ => id, key, hkey, rfl⟩
  have hresolved := Declarations.resolved_of_build hbuild l hl
  refine ⟨_, hmem, fun p => ⟨fun hp => ?_, fun ⟨hstale, q, hq, hpath⟩ => ?_⟩,
    sortRows_eq_zero hprefix⟩
  · -- what is left is outside the partition key, which holds all that may be part of a key
    obtain ⟨hpredicate, hnot⟩ := SortedSet.mem_toList_difference.mp (promote_sublist.subset hp)
    refine ⟨Bool.eq_false_iff.mpr fun hsargable => ?_,
      hresolved.mem_predicatePaths_iff.mp hpredicate⟩
    exact hnot p (hresolved.mem_sargablePaths_iff.mpr ⟨hpredicate, hsargable⟩)
      Std.ReflCmp.compare_self
  · subst hpath
    exact (divides_of_mem_candidates hbuild hl hmem).mem_remaining q hq hstale

end Ideal

/-- A candidate with an estimate has one for any cost of scanning a row, and costs a row or more. -/
theorem exists_one_le_total {decls : Declarations Exact} {m : Model Exact}
    (hbuild : decls.build = .ok m) {l : Level} (hl : l ∈ m.levels) {c : Candidate}
    (hc : c ∈ m.candidates l) {s r : Exact} (hs : ∃ e, m.estimate s c = .ok e)
    (hr : le one r = true) : ∃ e, m.estimate r c = .ok e ∧ le one e.total = true := by
  obtain ⟨e, he⟩ : ∃ e, m.estimate r c = .ok e := by
    rw [← failure?_eq_none_iff] at hs ⊢
    rw [m.failure?_estimate_eq r s, hs]
  have hrows : 0 < (m.entity c.key.root).maxRows := by
    rw [root_of_mem_candidates hc]
    exact Declarations.maxRows_pos_of_build hbuild hl
  exact ⟨e, he, (bounds_of_maxRows_pos hrows hr he).total.1⟩

/-! ### Searched workloads -/

/-- **Every level is offered its ideal table**, if its order may be part of a key: in a workload
searched without pruning, some alternative of the level leaves only those predicates to filter that
cannot be part of a key, no alternative leaves less, and nothing is to be sorted.  If all predicates
may be part of a key, it costs exactly one row, and no alternative costs less, whatever the cost of
scanning a row as long as it is one or more. -/
theorem exists_ideal {decls : Declarations Exact} {m : Model Exact} (hbuild : decls.build = .ok m)
    {rowScanCost : Exact} {memo : Memo Exact} (hmemo : m.RemembersCosts rowScanCost memo)
    {w : Workload} (hw : (m.search rowScanCost false memo).1 = .ok w) :
    List.Forall₂
      (fun l ids => (∀ t ∈ l.clause.order, t.path.sargable = true) →
        ∃ ideal ∈ ids, m.IsIdeal l (w.candidate ideal) ∧
          (∀ c ∈ ids, (w.candidate ideal).remaining.toList ⊆ (w.candidate c).remaining.toList) ∧
          ((∀ q ∈ l.clause.predicates, q.path.sargable = true) →
            ∀ r, le one r = true →
              (m.estimate r (w.candidate ideal)).map Estimate.total = .ok one ∧
              ∀ c ∈ ids, ∃ e, m.estimate r (w.candidate c) = .ok e ∧ le one e.total = true))
      m.plannedLevels w.siblingSets := by
  have hanswers := forall₂_siblingSets hmemo hw
  refine (List.forall₂_and_left _ _ |>.mpr ⟨fun l hl => hl, hanswers⟩).imp ?_
  rintro l ids ⟨hplanned, hanswer⟩ horder
  have hl : l ∈ m.levels := List.mem_of_mem_filter hplanned
  have hcandidates : ids.map w.candidate = m.candidates l :=
    (LevelPlan.tables.inj
      (eq_tables_of_answer (bindsIdentifier_of_mem_plannedLevels hplanned) hanswer)).2
  have hmem : ∀ c ∈ ids, w.candidate c ∈ m.candidates l :=
    fun c hc => hcandidates ▸ List.mem_map_of_mem hc
  obtain ⟨c, hc, hideal⟩ := exists_isIdeal hbuild hl horder
  rw [← hcandidates] at hc
  obtain ⟨ideal, hids, rfl⟩ := List.mem_map.mp hc
  exact ⟨ideal, hids, hideal, fun c hc => hideal.remaining_subset hbuild hl (hmem c hc),
    fun hpredicates r hr => ⟨hideal.total_eq_one hpredicates r, fun c hc =>
      exists_one_le_total hbuild hl (hmem c hc)
        (exists_estimate_of_answer hanswer (List.mem_map_of_mem hc)) hr⟩⟩

/-- Every level of a forum has a table whose read costs one row, also the authors of a given name,
whom the other table of users finds by a full scan. -/
theorem exists_ideal_forum :
    Forum.workload.siblingSets = [[0], [1], [2, 3]] ∧
    List.Forall₂
      (fun l ids => ∃ ideal ∈ ids, Forum.model.IsIdeal l (Forum.workload.candidate ideal) ∧
        (Forum.model.estimate (finite 10) (Forum.workload.candidate ideal)).map Estimate.total
          = .ok one)
      Forum.model.plannedLevels Forum.workload.siblingSets := by
  have hbuild : Forum.declarations.build = .ok Forum.model := rfl
  have hw : (Forum.model.search (finite 1) false {}).1 = .ok Forum.workload := rfl
  have hsargable : ∀ l ∈ Forum.model.plannedLevels,
      (∀ t ∈ l.clause.order, t.path.sargable = true) ∧
      ∀ q ∈ l.clause.predicates, q.path.sargable = true := by decide +kernel
  refine ⟨(siblingSets_eq_levelSets hw).trans rfl, ?_⟩
  have hideals := exists_ideal hbuild remembersCosts_empty hw
  refine (List.forall₂_and_left _ _ |>.mpr ⟨hsargable, hideals⟩).imp ?_
  rintro l ids ⟨⟨horder, hpredicates⟩, hideal⟩
  obtain ⟨ideal, hids, hisIdeal, -, hone⟩ := hideal horder
  exact ⟨ideal, hids, hisIdeal, (hone hpredicates (finite 10) (by decide)).1⟩

end Model

end Keyspace
