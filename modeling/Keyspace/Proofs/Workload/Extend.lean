import Keyspace.Proofs.Workload.Priced
import Keyspace.Proofs.Workload.Reorder
import Mathlib.Data.List.NodupEquivFin

/-!
# Further queries

`m.ExtendsTo m'` says that `m'` is `m` with further queries, as when these are added to the
declarations of a built model (`Declarations.extendsTo_of_build`).  The levels of `m` are then part
of those of `m'`, in the same order (`Model.exists_plannedLevels_sublist`), and so are the
clustering keys of an entity, unless the identifier stands in for an order that no query of `m`
requests (`Model.candidates_sublist`).

No option is lost then: every level of `m` finds its candidates again among those that it has in
`m'`, in the same order and at the same costs (`Model.exists_options_of_extendsTo`), and its
cheapest candidate in `m'` costs no more.
-/

namespace Keyspace

/-- The same model with further queries.  The mutations, of which no level is answered, are left
open. -/
structure Model.ExtendsTo {α : Type} (m m' : Model α) : Prop where
  catalog_eq : m'.catalog = m.catalog
  statistics_eq : m'.statistics = m.statistics
  definitions_eq : m'.definitions = m.definitions
  queries : m.queries.Sublist m'.queries

/-- Declaring further queries extends a model. -/
theorem Declarations.extendsTo_of_build {α : Type} {decls : Declarations α}
    {queries : List QueryDecl} (hqueries : decls.queries.Sublist queries) {m m' : Model α}
    (h : decls.build = .ok m) (h' : { decls with queries }.build = .ok m') : m.ExtendsTo m' := by
  obtain ⟨hcatalog, hstatistics, hdefinitions, hresolve, -⟩ := build_eq_ok_iff.mp h
  obtain ⟨hcatalog', hstatistics', hdefinitions', hresolve', -⟩ := build_eq_ok_iff.mp h'
  have hcatalog : m'.catalog = m.catalog := Except.ok.inj (hcatalog'.symm.trans hcatalog)
  rw [hcatalog] at hstatistics' hdefinitions' hresolve'
  have hdefinitions : m'.definitions = m.definitions :=
    Except.ok.inj (hdefinitions'.symm.trans hdefinitions)
  rw [hdefinitions] at hresolve'
  refine ⟨hcatalog, Except.ok.inj (hstatistics'.symm.trans hstatistics), hdefinitions, ?_⟩
  exact sublist_of_forall₂ (fun decl q q' hq hq' => Except.ok.inj (hq.symm.trans hq')) hqueries
    (mapM_eq_ok_iff.mp hresolve) (mapM_eq_ok_iff.mp hresolve')

namespace Model

/-! ### Levels and candidates -/

section Levels

variable {α : Type} {m m' : Model α} (h : m.ExtendsTo m')
include h

/-- The levels of a model are part of those with further queries. -/
theorem exists_levels_sublist :
    ∃ ls, List.Forall₂ (m.SameLevel m') m.levels ls ∧ ls.Sublist m'.levels := by
  -- the queries of `m` and their numbers in `m'`
  obtain ⟨qs, hqs, hmap⟩ : ∃ qs : List (Query × ℕ), qs.Sublist m'.queries.zipIdx ∧
      m.queries.zipIdx.map Prod.fst = qs.map Prod.fst := by
    have hsub := h.queries
    rw [← List.zipIdx_map_fst 0 m.queries, ← List.zipIdx_map_fst 0 m'.queries] at hsub
    exact List.sublist_map_iff.mp hsub
  have hrel : List.Forall₂ (fun q q' : Query × ℕ => q.1 = q'.1 ∧ m.query q.2 = q.1 ∧
      m'.query q'.2 = q'.1) m.queries.zipIdx qs :=
    forall₂_of_map_eq_map (fun q hq q' hq' heq =>
      ⟨heq, query_of_mem_zipIdx hq, query_of_mem_zipIdx (hqs.subset hq')⟩) hmap
  rw [levels_eq_flatMap, levels_eq_flatMap]
  refine ⟨_, List.rel_flatMap hrel ?_, hqs.flatMap _⟩
  rintro ⟨q, k⟩ ⟨q', k'⟩ ⟨heq, hq, hq'⟩
  dsimp only at heq hq hq' ⊢
  subst heq
  refine List.rel_flatMap (List.forall₂_same.mpr fun s _ => rfl) ?_
  rintro s _ rfl
  exact forall₂_levels hq hq' rfl rfl h.definitions_eq s

/-- So are the levels that need a table. -/
theorem exists_plannedLevels_sublist :
    ∃ ls, List.Forall₂ (m.SameLevel m') m.plannedLevels ls ∧ ls.Sublist m'.plannedLevels := by
  obtain ⟨ls, hsame, hsub⟩ := exists_levels_sublist h
  refine ⟨_, List.rel_filter (fun l l' hl => ?_) hsame, hsub.filter _⟩
  dsimp only
  rw [bindsIdentifier_eq_of_catalog_eq h.catalog_eq, hl.eq_moveTo]
  rfl

theorem clausesRootedAt_sublist (id : EntityId) :
    (m.clausesRootedAt id).Sublist (m'.clausesRootedAt id) := by
  obtain ⟨ls, hsame, hsub⟩ := exists_levels_sublist h
  have hclauses : m.levels.map Level.clause = ls.map Level.clause :=
    map_eq_map_of_forall₂ (fun l l' hl => by rw [hl.eq_moveTo]; rfl) hsame
  rw [clausesRootedAt, hclauses]
  exact (hsub.map _).filter _

/-- The candidates of a level are part of those with further queries, if the order of some query
sorts the tables of its entity. -/
theorem candidates_sublist {l : Level} (hrequests : m.RequestsOrder l.clause.root)
    (query : QueryId) :
    ((m.candidates l).map (Candidate.moveTo query)).Sublist (m'.candidates (l.moveTo query)) := by
  rw [candidates, candidates, List.map_flatMap]
  refine List.Sublist.flatMap_right _ fun partitionKey _ => ?_
  rw [List.map_map]
  exact (clusteringKeys_sublist h.catalog_eq (clausesRootedAt_sublist h _).subset hrequests).map _

end Levels

/-! ### Options -/

section Options

variable {α : Type} [Scalar α] {m m' : Model α} {rowScanCost : α} {w w' : Workload}
  {costs costs' : List α}

variable (w w' costs costs') in
/-- The same table, read in the same way for the same cost. -/
structure SameOption (c c' : ℕ) : Prop where
  key_eq : (w'.candidate c').key = (w.candidate c).key
  remaining_eq : (w'.candidate c').remaining = (w.candidate c).remaining
  pageSize_eq : (w'.candidate c').pageSize = (w.candidate c).pageSize
  cost_eq : costs'.getD c' Scalar.zero = costs.getD c Scalar.zero

section Extended

variable (h : m.ExtendsTo m') (hw : (m.search rowScanCost false {}).1 = .ok w)
  (hw' : (m'.search rowScanCost false {}).1 = .ok w')
  (hcosts : List.Forall₂ (fun c cost => (m.estimate rowScanCost c).map Estimate.total = .ok cost)
    w.candidates costs)
  (hcosts' : List.Forall₂ (fun c cost => (m'.estimate rowScanCost c).map Estimate.total = .ok cost)
    w'.candidates costs')
include h hcosts hcosts'

theorem sameOption_of_moveTo {c c' : ℕ} (hc : c < w.candidates.length)
    (hc' : c' < w'.candidates.length) {query : QueryId}
    (heq : (w.candidate c).moveTo query = w'.candidate c') :
    SameOption w w' costs costs' c c' := by
  have hcost := Workload.rel_getD_of_forall₂ hcosts hc Scalar.zero
  have hcost' := Workload.rel_getD_of_forall₂ hcosts' hc' Scalar.zero
  rw [← heq, estimate_moveTo h.catalog_eq h.statistics_eq, hcost] at hcost'
  refine ⟨?_, ?_, ?_, (Except.ok.inj hcost').symm⟩ <;> rw [← heq] <;> rfl

include hw hw'

/-- The alternatives of a level are found again among those with further queries. -/
theorem sublistForall₂_sameOption {l l' : Level} (hl : m.SameLevel m' l l')
    (hrequests : m.RequestsOrder l.clause.root) {ids ids' : List ℕ}
    (hids : ids ∈ w.siblingSets) (hids' : ids' ∈ w'.siblingSets)
    (hcandidates : ids.map w.candidate = m.candidates l)
    (hcandidates' : ids'.map w'.candidate = m'.candidates l') :
    List.SublistForall₂ (SameOption w w' costs costs') ids ids' := by
  have hsub := candidates_sublist h hrequests l'.query
  rw [← hl.eq_moveTo, ← hcandidates, ← hcandidates', List.map_map] at hsub
  obtain ⟨found, hfound, hmap⟩ := List.sublist_map_iff.mp hsub
  refine List.sublistForall₂_iff.mpr ⟨found, ?_, hfound⟩
  refine forall₂_of_map_eq_map (fun c hc c' hc' heq => ?_) hmap
  exact sameOption_of_moveTo h hcosts hcosts' ((isLeveled_siblingSets hw).lt_of_mem hids hc)
    ((isLeveled_siblingSets hw').lt_of_mem hids' (hfound.subset hc')) heq

end Extended

/-- **Further queries take no option away.**  A planned level of a model stays one with further
queries.  If some query requests an order of its entity that tables can be sorted by, each of its
candidates is found again, in the same order, with the same table, the same predicates left to
filter, the same page size and the same cost.  So the cheapest candidate, with further queries, is
not more expensive than any candidate was without. -/
theorem exists_options_of_extendsTo (h : m.ExtendsTo m')
    (hw : (m.search rowScanCost false {}).1 = .ok w)
    (hw' : (m'.search rowScanCost false {}).1 = .ok w') :
    ∃ costs costs', m.pricedWorkload rowScanCost false = .ok (w, costs) ∧
      m'.pricedWorkload rowScanCost false = .ok (w', costs') ∧
      ∃ place : ℕ ↪o ℕ, ∀ k l, m.plannedLevels[k]? = some l →
        ∃ l' ids ids', m'.plannedLevels[place k]? = some l' ∧ m.SameLevel m' l l' ∧
          w.siblingSets[k]? = some ids ∧ w'.siblingSets[place k]? = some ids' ∧
          (m.RequestsOrder l.clause.root →
            List.SublistForall₂ (SameOption w w' costs costs') ids ids' ∧
            ∀ cheapest ∈ ids',
              (∀ c' ∈ ids', (Scalar.rank (costs'.getD cheapest Scalar.zero)
                (costs'.getD c' Scalar.zero)).isLE) →
              ∀ c ∈ ids, (Scalar.rank (costs'.getD cheapest Scalar.zero)
                (costs.getD c Scalar.zero)).isLE) := by
  obtain ⟨costs, hpriced, hcosts⟩ := exists_pricedWorkload hw
  obtain ⟨costs', hpriced', hcosts'⟩ := exists_pricedWorkload hw'
  obtain ⟨ls, hsame, hsub⟩ := exists_plannedLevels_sublist h
  obtain ⟨place, hplace⟩ := List.sublist_iff_exists_orderEmbedding_getElem?_eq.mp hsub
  have hlevels := forall₂_levelSets_unpruned hw
  have hlevels' := forall₂_levelSets_unpruned hw'
  rw [← siblingSets_eq_levelSets hw] at hlevels
  rw [← siblingSets_eq_levelSets hw'] at hlevels'
  refine ⟨costs, costs', hpriced, hpriced', place, fun k l hl => ?_⟩
  obtain ⟨l', hl', hll'⟩ := exists_getElem?_of_forall₂ hsame hl
  rw [hplace k] at hl'
  obtain ⟨ids, hids, hcandidates⟩ := exists_getElem?_of_forall₂ hlevels hl
  obtain ⟨ids', hids', hcandidates'⟩ := exists_getElem?_of_forall₂ hlevels' hl'
  refine ⟨l', ids, ids', hl', hll', hids, hids', fun hrequests => ?_⟩
  have hoptions := sublistForall₂_sameOption h hw hw' hcosts hcosts' hll' hrequests
    (List.mem_of_getElem? hids) (List.mem_of_getElem? hids') hcandidates hcandidates'
  refine ⟨hoptions, fun cheapest _ hleast c hc => ?_⟩
  obtain ⟨found, hfound, hsub⟩ := List.sublistForall₂_iff.mp hoptions
  obtain ⟨c', hc', hoption⟩ := exists_left_of_forall₂ hfound.flip hc
  rw [← hoption.cost_eq]
  exact hleast c' (hsub.subset hc')

end Options

end Model

namespace Log

/-- The declarations of a log with a definition for each direction, of which only one is read. -/
def oneWayDeclarations : Declarations Exact :=
  { declarations [.asc, .desc] with queries := (declarations [.asc, .desc]).queries.take 1 }

/-- The model of a log that is read in one direction. -/
def oneWay : Model Exact := oneWayDeclarations.build.toOption.getD default

end Log

/-- A log that is read in one direction keeps its only candidate when it is read in the other one as
well. -/
theorem Model.exists_options_of_extendsTo_log :
    ∃ w costs costs' ids', Log.oneWay.pricedWorkload (.finite 1) false = .ok (w, costs) ∧
      (Log.model [.asc, .desc]).pricedWorkload (.finite 1) false
        = .ok (Log.workload [.asc, .desc], costs') ∧
      w.siblingSets = [[0]] ∧ ids' ∈ (Log.workload [.asc, .desc]).siblingSets ∧
      List.SublistForall₂
        (Model.SameOption w (Log.workload [.asc, .desc]) costs costs') [0] ids' := by
  have hqueries : Log.oneWayDeclarations.queries.Sublist
      (Log.declarations [.asc, .desc]).queries := List.take_sublist _ _
  have hbuild : Log.oneWayDeclarations.build = .ok Log.oneWay := rfl
  have hextends : Log.oneWay.ExtendsTo (Log.model [.asc, .desc]) :=
    Declarations.extendsTo_of_build hqueries hbuild rfl
  have hw : (Log.oneWay.search (.finite 1) false {}).1
      = .ok ((Log.oneWay.search (.finite 1) false {}).1.toOption.getD default) := rfl
  have hw' : ((Log.model [.asc, .desc]).search (.finite 1) false {}).1
      = .ok (Log.workload [.asc, .desc]) := rfl
  have hsets := (Model.siblingSets_eq_levelSets hw).trans
    (rfl : Log.oneWay.levelSets (.finite 1) false {} = [[0]])
  obtain ⟨costs, costs', hpriced, hpriced', place, hplace⟩ :=
    Model.exists_options_of_extendsTo hextends hw hw'
  obtain ⟨l', ids, ids', -, -, hids, hids', hoptions⟩ := hplace 0 _ rfl
  rw [hsets] at hids
  obtain rfl := Option.some.inj hids
  refine ⟨_, costs, costs', ids', hpriced, hpriced', hsets, List.mem_of_getElem? hids', ?_⟩
  exact (hoptions ⟨_, List.mem_cons_self, _, rfl, rfl⟩).1

end Keyspace
