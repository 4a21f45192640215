import Keyspace.Proofs.Report.Identity
import Mathlib.Data.Finset.Card
import Mathlib.Data.Finset.Image
import Mathlib.Data.List.Sort

/-!
# The same tables in different models

Two reports may name the same tables although their models differ (`Report.identities`).  Then they
list the same reports on tables, and the text that is hashed is the same if it lists them in the
same order.  The order is that of the table keys, and these are compared by the places of their
entities before any name in them is looked at.  So the texts agree just when the models declare the
entities of the built tables in the same order, partitioned tables and others apart
(`Model.identityText_eq_iff_ordersAlike`); a model that declares them the other way round has
another fingerprint for the same tables (`Library.not_identityText_eq`).
-/

namespace Keyspace

open Tables
open Std (TransCmp OrientedCmp ReflCmp)

/-- What a table is by names: its entity, the set of its partition key, and its clustering key. -/
def TableReport.identity (t : TableReport) : String × Finset String × List String :=
  (t.entity, t.partitionKey.toFinset, t.clusteringKey)

/-- The identities of the built tables. -/
def Report.identities {α : Type} (r : Report α) : Finset (String × Finset String × List String) :=
  (r.selectedTables.map TableReport.identity).toFinset

/-- Do two catalogs list the entities of tables in the same order?  Tables with a partition key are
not compared with tables without. -/
def Catalog.OrdersAlike (c c' : Catalog) (tables : List TableReport) : Prop :=
  ∀ t ∈ tables, ∀ t' ∈ tables, (t.partitionKey = [] ↔ t'.partitionKey = []) →
    compare (c.position t.entity) (c.position t'.entity)
      = compare (c'.position t.entity) (c'.position t'.entity)

instance (c c' : Catalog) (tables : List TableReport) : Decidable (c.OrdersAlike c' tables) :=
  inferInstanceAs (Decidable (∀ t ∈ tables, ∀ t' ∈ tables, _ → _))

/-! ### Reports with the same identity -/

section Identity

variable {α : Type} {decls decls' : Declarations α} {m m' : Model α} {a b : TableKey}
  (hbuild : decls.build = .ok m) (hbuild' : decls'.build = .ok m')

include hbuild in
/-- The names along the paths of a partition key ascend. -/
theorem ascending_segments_partitionKey (ha : m.OffersKey a) :
    (a.partitionKey.toList.map Path.segments).Pairwise fun s t => compare s t = .lt := by
  refine List.pairwise_map.mpr (a.partitionKey.ascending.imp_of_mem fun {p q} hp hq hlt => ?_)
  have hroot : compare p.root q.root = .eq := by
    rw [(ha.isNamed_of_mem_partitionKey hbuild hp).root_eq,
      (ha.isNamed_of_mem_partitionKey hbuild hq).root_eq]
    exact ReflCmp.compare_self
  rwa [Path.compare_def, hroot] at hlt

include hbuild hbuild' in
/-- Texts tell the names along the paths of a partition key. -/
theorem segments_subset_of_toFinset_eq (ha : m.OffersKey a) (hb : m'.OffersKey b)
    (h : a.partitionKey.texts.toFinset = b.partitionKey.texts.toFinset) :
    a.partitionKey.toList.map Path.segments ⊆ b.partitionKey.toList.map Path.segments := by
  intro s hs
  obtain ⟨p, hp, rfl⟩ := List.mem_map.mp hs
  have htext : p.text ∈ a.partitionKey.texts.toFinset :=
    List.mem_toFinset.mpr (List.mem_map_of_mem hp)
  rw [h, List.mem_toFinset] at htext
  obtain ⟨q, hq, hpq⟩ := List.mem_map.mp htext
  have hsegments := Path.segments_eq_of_text_eq
    (hb.isNamed_of_mem_partitionKey hbuild' hq).isDotted
    (ha.isNamed_of_mem_partitionKey hbuild hp).isDotted hpq
  exact hsegments ▸ List.mem_map_of_mem hq

include hbuild hbuild' in
/-- A partition key is listed the same way in every model that has it. -/
theorem texts_eq_of_toFinset_eq (ha : m.OffersKey a) (hb : m'.OffersKey b)
    (h : a.partitionKey.texts.toFinset = b.partitionKey.texts.toFinset) :
    a.partitionKey.texts = b.partitionKey.texts := by
  have hsegments : a.partitionKey.toList.map Path.segments
      = b.partitionKey.toList.map Path.segments :=
    SortedSet.eq_of_ascending_of_mem_iff (ascending_segments_partitionKey hbuild ha)
      (ascending_segments_partitionKey hbuild' hb) fun s =>
        ⟨fun hs => segments_subset_of_toFinset_eq hbuild hbuild' ha hb h hs,
          fun hs => segments_subset_of_toFinset_eq hbuild' hbuild hb ha h.symm hs⟩
  have htexts : ∀ key : TableKey, key.partitionKey.texts
      = (key.partitionKey.toList.map Path.segments).map (String.intercalate ".") := by
    intro key
    rw [List.map_map]
    rfl
  rw [htexts, htexts, hsegments]

include hbuild hbuild' in
theorem report_eq_of_identity_eq (ha : m.OffersKey a) (hb : m'.OffersKey b)
    (h : (Report.ofTable m.catalog a true).identity = (Report.ofTable m'.catalog b true).identity) :
    Report.ofTable m.catalog a true = Report.ofTable m'.catalog b true := by
  obtain ⟨hentity, h⟩ := Prod.mk.inj h
  obtain ⟨hpartition, hclustering⟩ := Prod.mk.inj h
  have htexts := texts_eq_of_toFinset_eq hbuild hbuild' ha hb hpartition
  exact (TableReport.mk.injEq ..).mpr ⟨hentity, htexts, hclustering, rfl⟩

end Identity

/-! ### How keys compare -/

section Compare

variable {α : Type} {decls decls' : Declarations α} {m m' : Model α}
  (hbuild : decls.build = .ok m) (hbuild' : decls'.build = .ok m') {a a' b b' : TableKey}

theorem PathSet.texts_eq_nil_iff {s : PathSet} : s.texts = [] ↔ s.toList = [] :=
  List.map_eq_nil_iff

/-- Keys without a partition key come first. -/
theorem compare_eq_lt_of_texts_eq_nil (h : a.partitionKey.texts = [])
    (h' : a'.partitionKey.texts ≠ []) : compare a a' = .lt := by
  obtain ⟨p, ps, hps⟩ := List.exists_cons_of_ne_nil
    fun hnil => h' (PathSet.texts_eq_nil_iff.mpr hnil)
  rw [TableKey.compare_def, SortedSet.compare_eq_compare_toList, PathSet.texts_eq_nil_iff.mp h, hps]
  rfl

include hbuild

/-- Keys of different entities, both partitioned or both not, compare as their entities do. -/
theorem compare_eq_compare_root (ha : m.OffersKey a) (ha' : m.OffersKey a')
    (hstatus : a.partitionKey.texts = [] ↔ a'.partitionKey.texts = [])
    (hne : compare a.root a'.root ≠ .eq) : compare a a' = compare a.root a'.root := by
  have hpath : ∀ p p' : Path, p.root = a.root → p'.root = a'.root →
      compare p p' = compare a.root a'.root := by
    intro p p' hp hp'
    rw [Path.compare_def, hp, hp']
    revert hne
    cases compare a.root a'.root <;> simp
  have hthen : ∀ o : Ordering, (compare a.root a'.root).then o = compare a.root a'.root := by
    intro o
    revert hne
    cases compare a.root a'.root <;> simp
  rw [TableKey.compare_def, SortedSet.compare_eq_compare_toList]
  rw [PathSet.texts_eq_nil_iff, PathSet.texts_eq_nil_iff] at hstatus
  by_cases hnil : a.partitionKey.toList = []
  · -- the clustering keys decide, by the entities of their first terms
    rw [hnil, hstatus.mp hnil, compare_list_eq_of_forall
      (Model.ne_nil_of_mem_clusteringKeys ha.mem_clusteringKeys)
      (Model.ne_nil_of_mem_clusteringKeys ha'.mem_clusteringKeys) hne, hthen]
    · rfl
    · intro t ht t' ht'
      rw [OrderTerm.compare_def, hpath _ _ (ha.root_of_mem_clusteringKey hbuild ht)
        (ha'.root_of_mem_clusteringKey hbuild ht'), hthen]
  · rw [compare_list_eq_of_forall hnil (fun hnil' => hnil (hstatus.mpr hnil')) hne, hthen]
    intro p hp p' hp'
    exact hpath p p' (ha.isNamed_of_mem_partitionKey hbuild hp).root_eq
      (ha'.isNamed_of_mem_partitionKey hbuild hp').root_eq

include hbuild'

/-- Keys with the same reports compare the same way in both models, if their entities do where it
matters. -/
theorem compare_eq_compare_of_report (hdot : ∀ e ∈ m.catalog.entities, '.' ∉ e.idField.toList)
    (hdot' : ∀ e ∈ m'.catalog.entities, '.' ∉ e.idField.toList) (ha : m.OffersKey a)
    (ha' : m.OffersKey a') (hb : m'.OffersKey b) (hb' : m'.OffersKey b')
    (h : Report.ofTable m.catalog a true = Report.ofTable m'.catalog b true)
    (h' : Report.ofTable m.catalog a' true = Report.ofTable m'.catalog b' true)
    (hroot : (a.partitionKey.texts = [] ↔ a'.partitionKey.texts = []) →
      compare a.root a'.root = compare b.root b'.root) : compare a a' = compare b b' := by
  have hcorresponds : ∀ {a b : TableKey}, m.OffersKey a → m'.OffersKey b →
      Report.ofTable m.catalog a true = Report.ofTable m'.catalog b true → a.Corresponds b := by
    intro a b ha hb h
    obtain ⟨-, hpartition, hclustering, -⟩ := TableReport.mk.inj h
    exact corresponds_of_texts_eq hbuild hbuild' ha hb
      (hdot _ (Catalog.entity_mem (ha.root_lt hbuild)))
      (hdot' _ (Catalog.entity_mem (hb.root_lt hbuild'))) hpartition hclustering
  by_cases hstatus : a.partitionKey.texts = [] ↔ a'.partitionKey.texts = []
  · exact (hcorresponds ha hb h).compare_eq (hcorresponds ha' hb' h') (hroot hstatus)
  · -- one of the two is partitioned, in both models
    obtain ⟨-, hpartition, -, -⟩ := TableReport.mk.inj h
    obtain ⟨-, hpartition', -, -⟩ := TableReport.mk.inj h'
    by_cases hnil : a.partitionKey.texts = []
    · have hne : a'.partitionKey.texts ≠ [] := fun hnil' => hstatus (iff_of_true hnil hnil')
      rw [compare_eq_lt_of_texts_eq_nil hnil hne,
        compare_eq_lt_of_texts_eq_nil (hpartition ▸ hnil) (hpartition' ▸ hne)]
    · have hnil' : a'.partitionKey.texts = [] := by
        by_contra hne
        exact hstatus (iff_of_false hnil hne)
      rw [OrientedCmp.gt_of_lt (compare_eq_lt_of_texts_eq_nil hnil' hnil),
        OrientedCmp.gt_of_lt
          (compare_eq_lt_of_texts_eq_nil (hpartition' ▸ hnil') (hpartition ▸ hnil))]

end Compare

/-! ### Selections of searched workloads -/

/-- The outcome selects among the tables of a workload that a search finds for a built model. -/
structure Outcome.ChoosesFrom {α : Type} [Scalar α] (o : Outcome α) (m : Model α) (w : Workload) :
    Prop where
  exists_build : ∃ decls : Declarations α, decls.build = .ok m
  exists_search : ∃ rowScanCost prune memo, (m.search rowScanCost prune memo).1 = .ok w
  tables_eq : o.tables = collapse w.candidates

/-- The reports are on built tables, the first of which has the smaller key. -/
def Outcome.Precedes {α : Type} (o : Outcome α) (catalog : Catalog) (t t' : TableReport) : Prop :=
  ∃ a ∈ o.builtKeys, ∃ a' ∈ o.builtKeys, Report.ofTable catalog a true = t ∧
    Report.ofTable catalog a' true = t' ∧ compare a a' = .lt

theorem Report.mem_identities_iff {α : Type} {r : Report α}
    {i : String × Finset String × List String} :
    i ∈ r.identities ↔ ∃ t ∈ r.selectedTables, t.identity = i := by
  rw [identities, List.mem_toFinset, List.mem_map]

namespace Outcome.ChoosesFrom

variable {α : Type} [Scalar α] {m m' : Model α} {w w' : Workload} {o o' : Outcome α}
  (h : o.ChoosesFrom m w) (h' : o'.ChoosesFrom m' w')

include h

theorem ascending_builtKeys : o.builtKeys.Pairwise fun a b => compare a b = .lt := by
  rw [Outcome.builtKeys, List.pairwise_map]
  refine (List.pairwise_lt_range.filter _).imp_of_mem fun {s t} _ ht hst => ?_
  have hlt : t < (collapse w.candidates).tables.length := by
    rw [← h.tables_eq]
    exact List.mem_range.mp (List.mem_of_mem_filter ht)
  rw [h.tables_eq, table, table, List.getD_eq_getElem _ _ (hst.trans hlt),
    List.getD_eq_getElem _ _ hlt]
  exact key_lt_key w.candidates hst hlt

theorem offersKey {key : TableKey} (hkey : key ∈ o.builtKeys) : m.OffersKey key := by
  obtain ⟨_, _, _, hw⟩ := h.exists_search
  obtain ⟨t, ht, -, rfl⟩ := Outcome.mem_builtKeys_iff.mp hkey
  rw [h.tables_eq] at ht ⊢
  exact Model.offersKey_of_lt hw ht

/-- The report on a built table tells its key. -/
theorem key_eq_of_report_eq {a b : TableKey} (ha : a ∈ o.builtKeys) (hb : b ∈ o.builtKeys)
    (heq : Report.ofTable m.catalog a true = Report.ofTable m.catalog b true) : a = b := by
  obtain ⟨decls, hbuild⟩ := h.exists_build
  have hcompare := Model.compare_eq_of_report hbuild (h.offersKey ha) (h.offersKey hb) heq
  exact SortedSet.eq_of_compare_eq (s := ⟨o.builtKeys, h.ascending_builtKeys⟩) ha hb hcompare

theorem nodup_selectedTables {costs : List α} :
    (Report.build m w costs o).selectedTables.Nodup := by
  rw [Report.selectedTables_build]
  exact (SortedSet.nodup_of_ascending h.ascending_builtKeys).map_on
    fun a ha b hb => h.key_eq_of_report_eq ha hb

theorem position_eq {key : TableKey} (hkey : key ∈ o.builtKeys) :
    m.catalog.position (Report.ofTable m.catalog key true).entity = key.root := by
  obtain ⟨decls, hbuild⟩ := h.exists_build
  exact position_of_buildCatalog (Declarations.build_eq_ok_iff.mp hbuild).1
    ((h.offersKey hkey).root_lt hbuild)

include h'

/-- A table of one selection that the other names has the same report in both. -/
theorem mem_selectedTables_of_identities_eq {costs costs' : List α}
    (hsame : (Report.build m w costs o).identities = (Report.build m' w' costs' o').identities)
    {t : TableReport} (ht : t ∈ (Report.build m w costs o).selectedTables) :
    t ∈ (Report.build m' w' costs' o').selectedTables := by
  obtain ⟨decls, hbuild⟩ := h.exists_build
  obtain ⟨decls', hbuild'⟩ := h'.exists_build
  have hmem : t.identity ∈ (Report.build m w costs o).identities :=
    Report.mem_identities_iff.mpr ⟨t, ht, rfl⟩
  rw [hsame] at hmem
  obtain ⟨t', ht', hidentity⟩ := Report.mem_identities_iff.mp hmem
  rw [Report.selectedTables_build] at ht
  have hreport := ht'
  rw [Report.selectedTables_build] at hreport
  obtain ⟨a, ha, rfl⟩ := List.mem_map.mp ht
  obtain ⟨b, hb, rfl⟩ := List.mem_map.mp hreport
  rwa [report_eq_of_identity_eq hbuild hbuild' (h.offersKey ha) (h'.offersKey hb) hidentity.symm]

/-- The same tables have the same reports, in some order. -/
theorem selectedTables_perm {costs costs' : List α}
    (hsame : (Report.build m w costs o).identities = (Report.build m' w' costs' o').identities) :
    (Report.build m w costs o).selectedTables.Perm
      (Report.build m' w' costs' o').selectedTables :=
  (List.perm_ext_iff_of_nodup h.nodup_selectedTables h'.nodup_selectedTables).mpr fun _ =>
    ⟨h.mem_selectedTables_of_identities_eq h' hsame,
      h'.mem_selectedTables_of_identities_eq h hsame.symm⟩

/-- Keys that compare the same way in both models have entities that do. -/
theorem compare_root_eq_of_compare_eq {a a' b b' : TableKey} (ha : a ∈ o.builtKeys)
    (ha' : a' ∈ o.builtKeys) (hb : b ∈ o'.builtKeys) (hb' : b' ∈ o'.builtKeys)
    (hab : Report.ofTable m.catalog a true = Report.ofTable m'.catalog b true)
    (hab' : Report.ofTable m.catalog a' true = Report.ofTable m'.catalog b' true)
    (hstatus : a.partitionKey.texts = [] ↔ a'.partitionKey.texts = [])
    (hcompare : compare a a' = compare b b') : compare a.root a'.root = compare b.root b'.root := by
  obtain ⟨decls, hbuild⟩ := h.exists_build
  obtain ⟨decls', hbuild'⟩ := h'.exists_build
  by_cases hentity : (Report.ofTable m.catalog a true).entity
      = (Report.ofTable m.catalog a' true).entity
  · -- the two keys are of one entity, in both models
    have hroot : a.root = a'.root := by rw [← h.position_eq ha, ← h.position_eq ha', hentity]
    have hroot' : b.root = b'.root := by
      rw [← h'.position_eq hb, ← h'.position_eq hb', ← hab, ← hab', hentity]
    rw [Nat.compare_eq_eq.mpr hroot, Nat.compare_eq_eq.mpr hroot']
  · have hne : compare a.root a'.root ≠ .eq := fun hroot =>
      hentity (congrArg (fun id => (m.catalog.entity id).name) (Nat.compare_eq_eq.mp hroot))
    have hne' : compare b.root b'.root ≠ .eq := by
      rw [hab, hab'] at hentity
      exact fun hroot =>
        hentity (congrArg (fun id => (m'.catalog.entity id).name) (Nat.compare_eq_eq.mp hroot))
    have hstatus' : b.partitionKey.texts = [] ↔ b'.partitionKey.texts = [] := by
      obtain ⟨-, hpartition, -, -⟩ := TableReport.mk.inj hab
      obtain ⟨-, hpartition', -, -⟩ := TableReport.mk.inj hab'
      rwa [← hpartition, ← hpartition']
    rw [← compare_eq_compare_root hbuild (h.offersKey ha) (h.offersKey ha') hstatus hne,
      ← compare_eq_compare_root hbuild' (h'.offersKey hb) (h'.offersKey hb') hstatus' hne',
      hcompare]

/-- Reports listed in the same order belong to models that order the entities alike. -/
theorem ordersAlike_of_eq {costs costs' : List α}
    (heq : (Report.build m w costs o).selectedTables
      = (Report.build m' w' costs' o').selectedTables) :
    m.catalog.OrdersAlike m'.catalog (Report.build m w costs o).selectedTables := by
  intro t ht t' ht' hstatus
  rw [Report.selectedTables_build] at ht ht'
  rw [Report.selectedTables_build, Report.selectedTables_build] at heq
  have hlength : o.builtKeys.length = o'.builtKeys.length := by
    simpa using congrArg List.length heq
  have hreport : ∀ k (hk : k < o.builtKeys.length) (hk' : k < o'.builtKeys.length),
      Report.ofTable m.catalog o.builtKeys[k] true
        = Report.ofTable m'.catalog o'.builtKeys[k] true := by
    intro k hk hk'
    have hget := List.getElem_of_eq heq (by simpa using hk)
    rwa [List.getElem_map, List.getElem_map] at hget
  obtain ⟨a, ha, rfl⟩ := List.mem_map.mp ht
  obtain ⟨a', ha', rfl⟩ := List.mem_map.mp ht'
  obtain ⟨i, hi, rfl⟩ := List.getElem_of_mem ha
  obtain ⟨j, hj, rfl⟩ := List.getElem_of_mem ha'
  have hi' : i < o'.builtKeys.length := hlength ▸ hi
  have hj' : j < o'.builtKeys.length := hlength ▸ hj
  have hb := List.getElem_mem hi'
  have hb' := List.getElem_mem hj'
  -- the keys at two places compare as the places do, in both models
  have hcompare : compare o.builtKeys[i] o.builtKeys[j]
      = compare o'.builtKeys[i] o'.builtKeys[j] := by
    rw [SortedSet.compare_getElem_of_ascending h.ascending_builtKeys hi hj,
      SortedSet.compare_getElem_of_ascending h'.ascending_builtKeys hi' hj']
  rw [h.position_eq ha, h.position_eq ha', hreport i hi hi', hreport j hj hj', h'.position_eq hb,
    h'.position_eq hb']
  exact h.compare_root_eq_of_compare_eq h' ha ha' hb hb' (hreport i hi hi') (hreport j hj hj')
    hstatus hcompare

/-- Models that order the entities alike list the same reports in the same order. -/
theorem eq_of_ordersAlike (hdot : ∀ e ∈ m.catalog.entities, '.' ∉ e.idField.toList)
    (hdot' : ∀ e ∈ m'.catalog.entities, '.' ∉ e.idField.toList) {costs costs' : List α}
    (hsame : (Report.build m w costs o).identities = (Report.build m' w' costs' o').identities)
    (halike : m.catalog.OrdersAlike m'.catalog (Report.build m w costs o).selectedTables) :
    (Report.build m w costs o).selectedTables = (Report.build m' w' costs' o').selectedTables := by
  obtain ⟨decls, hbuild⟩ := h.exists_build
  obtain ⟨decls', hbuild'⟩ := h'.exists_build
  have hperm : (Report.build m w costs o).selectedTables.Perm
      (Report.build m' w' costs' o').selectedTables := h.selectedTables_perm h' hsame
  rw [Report.selectedTables_build, Report.selectedTables_build] at hperm ⊢
  rw [Report.selectedTables_build] at halike
  -- both lists ascend in the order of the first model's keys
  have hfirst : (o.builtKeys.map fun key => Report.ofTable m.catalog key true).Pairwise
      (o.Precedes m.catalog) := by
    refine List.pairwise_map.mpr (h.ascending_builtKeys.imp_of_mem fun {a a'} ha ha' hlt => ?_)
    exact ⟨a, ha, a', ha', rfl, rfl, hlt⟩
  have hsecond : (o'.builtKeys.map fun key => Report.ofTable m'.catalog key true).Pairwise
      (o.Precedes m.catalog) := by
    refine List.pairwise_map.mpr (h'.ascending_builtKeys.imp_of_mem fun {b b'} hb hb' hlt => ?_)
    have hmem : ∀ {b}, b ∈ o'.builtKeys → ∃ a ∈ o.builtKeys,
        Report.ofTable m.catalog a true = Report.ofTable m'.catalog b true := fun hb =>
      List.mem_map.mp (hperm.mem_iff.mpr (List.mem_map_of_mem hb))
    obtain ⟨a, ha, hab⟩ := hmem hb
    obtain ⟨a', ha', hab'⟩ := hmem hb'
    refine ⟨a, ha, a', ha', hab, hab', ?_⟩
    rw [compare_eq_compare_of_report hbuild hbuild' hdot hdot' (h.offersKey ha) (h.offersKey ha')
      (h'.offersKey hb) (h'.offersKey hb') hab hab' fun hstatus => ?_, hlt]
    have hposition := halike _ (List.mem_map_of_mem ha) _ (List.mem_map_of_mem ha') hstatus
    rwa [h.position_eq ha, h.position_eq ha', hab, hab', h'.position_eq hb, h'.position_eq hb']
      at hposition
  refine hperm.eq_of_pairwise ?_ hfirst hsecond
  rintro _ _ - - ⟨a, ha, a', ha', rfl, rfl, hlt⟩ ⟨b', hb', b, hb, hb'eq, hbeq, hgt⟩
  rw [h.key_eq_of_report_eq hb' ha' hb'eq, h.key_eq_of_report_eq hb ha hbeq,
    OrientedCmp.gt_of_lt hlt] at hgt
  exact absurd hgt (by decide)

end Outcome.ChoosesFrom

/-- **The same tables are hashed from the same text just when the models order their entities
alike.**  Two selections of the same tables have the same reports, and these are listed in the same
order if and only if the entities of the built tables are declared in the same order, as far as
these are compared with each other. -/
theorem Model.identityText_eq_iff_ordersAlike {α : Type} [Scalar α] {m m' : Model α}
    {w w' : Workload} {o o' : Outcome α} (h : o.ChoosesFrom m w) (h' : o'.ChoosesFrom m' w')
    (hdot : ∀ e ∈ m.catalog.entities, '.' ∉ e.idField.toList)
    (hdot' : ∀ e ∈ m'.catalog.entities, '.' ∉ e.idField.toList) {costs costs' : List α}
    (hsame : (Report.build m w costs o).identities = (Report.build m' w' costs' o').identities) :
    (Report.build m w costs o).selectedTables.Perm
        (Report.build m' w' costs' o').selectedTables ∧
      (identityText (Report.build m w costs o).selectedTables
          = identityText (Report.build m' w' costs' o').selectedTables ↔
        m.catalog.OrdersAlike m'.catalog (Report.build m w costs o).selectedTables) := by
  refine ⟨h.selectedTables_perm h' hsame, ?_⟩
  rw [identityText_injective.eq_iff]
  exact ⟨h.ordersAlike_of_eq h', h.eq_of_ordersAlike h' hdot hdot' hsame⟩

/-! ### Examples -/

namespace Library

/-- A library that lists its books and its authors.  Whatever else it keeps is not read. -/
def declarations (entities : List String) : Declarations Exact where
  entities := entities.map fun name =>
    { name, fields := [{ name := "id", typeName := idType }], statistics := [] }
  definitions := [{ name := "books", entity := "Book", clause := {} },
    { name := "authors", entity := "Author", clause := {} }]
  queries := [{ name := "home", selections := [⟨"books", 10, []⟩, ⟨"authors", 10, []⟩] }]

/-- The model of a library. -/
def model (entities : List String) : Model Exact :=
  (declarations entities).build.toOption.getD default

/-- The candidates for a library, found without pruning. -/
def workload (entities : List String) : Workload :=
  ((model entities).search (.finite 1) false {}).1.toOption.getD default

/-- The selection of both tables. -/
def outcome (entities : List String) : Outcome Exact where
  tables := collapse (workload entities).candidates
  selectedTables := [0, 1]
  phase1Cost := .finite 2
  phase2Cost := .finite 2

/-- The report on both tables. -/
def report (entities : List String) : Report Exact :=
  .build (model entities) (workload entities) [.finite 1, .finite 1] (outcome entities)

theorem choosesFrom (entities : List String)
    (hbuild : (declarations entities).build = .ok (model entities))
    (hw : ((model entities).search (.finite 1) false {}).1 = .ok (workload entities)) :
    (outcome entities).ChoosesFrom (model entities) (workload entities) :=
  ⟨⟨_, hbuild⟩, ⟨_, _, _, hw⟩, rfl⟩

/-- A library that keeps a list of readers as well has the same two tables, and the same text is
hashed for them. -/
theorem identityText_eq :
    (report ["Book", "Author"]).identities.card = 2 ∧
    identityText (report ["Book", "Author"]).selectedTables
      = identityText (report ["Reader", "Book", "Author"]).selectedTables := by
  refine ⟨by decide +kernel, ?_⟩
  exact (Model.identityText_eq_iff_ordersAlike (choosesFrom _ rfl rfl) (choosesFrom _ rfl rfl)
    (by decide +kernel) (by decide +kernel) (by decide +kernel)).2.mpr (by decide +kernel)

/-- The same two tables are hashed from different texts if the entities are declared in another
order. -/
theorem not_identityText_eq :
    ¬ ∀ (m m' : Model Exact) (w w' : Workload) (o o' : Outcome Exact) (costs costs' : List Exact),
      o.ChoosesFrom m w → o'.ChoosesFrom m' w' →
      (Report.build m w costs o).identities = (Report.build m' w' costs' o').identities →
      identityText (Report.build m w costs o).selectedTables
        = identityText (Report.build m' w' costs' o').selectedTables := by
  intro hclaim
  have htext := hclaim _ _ _ _ _ _ [] [] (choosesFrom ["Book", "Author"] rfl rfl)
    (choosesFrom ["Author", "Book"] rfl rfl) (by decide +kernel)
  exact absurd htext (by decide +kernel)

end Library

end Keyspace
