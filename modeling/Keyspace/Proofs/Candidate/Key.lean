import Keyspace.Candidate.Basic
import Keyspace.Proofs.Sorted.Faithful

/-!
# Keys that compare equal

Paths are compared by their walks alone, so that keys which compare equal need not be equal.  They
agree on everything but the flags that say which paths may be part of a key: on the root, on the
walks and directions of the clustering key, and on every text (`TableKey.describe_eq`).  Keys that
hold only such paths are equal (`TableKey.IsSargable.eq_of_compare_eq`).
-/

namespace Keyspace

/-- Terms compare equal if they walk the same way in the same direction. -/
theorem OrderTerm.compare_eq_eq_iff {a b : OrderTerm} :
    compare a b = .eq ↔ a.path.walk = b.path.walk ∧ a.direction = b.direction := by
  rw [compare_def, Ordering.then_eq_eq, Path.compare_eq_iff]
  refine and_congr_right fun _ => ?_
  show compare a.direction.index b.direction.index = .eq ↔ _
  rw [Nat.compare_eq_eq]
  cases a.direction <;> cases b.direction <;> decide

/-- Order terms are as faithful as their paths. -/
theorem Faithful.orderTerm {P : Path → Prop} (h : Faithful P) :
    Faithful fun t : OrderTerm => P t.path := by
  intro s t hs ht heq
  obtain ⟨hwalk, hdirection⟩ := OrderTerm.compare_eq_eq_iff.mp heq
  have hpath := h s.path t.path hs ht (Path.compare_eq_iff.mpr hwalk)
  cases s
  cases t
  simp_all

theorem forall₂_of_compare_eq {as bs : List OrderTerm} (h : compare as bs = .eq) :
    List.Forall₂ (fun a b => a.path.walk = b.path.walk ∧ a.direction = b.direction) as bs :=
  (forall₂_of_compare_list_eq h).imp fun _ _ => OrderTerm.compare_eq_eq_iff.mp

theorem Path.text_eq_of_walk_eq {p q : Path} (h : p.walk = q.walk) : p.text = q.text := by
  have hsegments : p.segments = q.segments := (Prod.mk.inj h).2
  rw [text, text, hsegments]

/-! ### Keys of sargable paths -/

/-- Paths that may be part of a key have the same flag, so that the walk is all there is to them. -/
theorem Path.faithful_sargable : Faithful fun p : Path => p.sargable = true := by
  intro p q hp hq h
  obtain ⟨hroot, hsegments⟩ := Prod.mk.inj (Path.compare_eq_iff.mp h)
  cases p
  cases q
  simp_all

/-- Clustering keys of sargable paths that compare equal are equal. -/
theorem eq_of_compare_eq_of_sargable {as bs : List OrderTerm} (h : compare as bs = .eq)
    (has : ∀ t ∈ as, t.path.sargable = true) (hbs : ∀ t ∈ bs, t.path.sargable = true) :
    as = bs :=
  Path.faithful_sargable.orderTerm.list as bs has hbs h

namespace TableKey

/-- All paths of a key may be part of one. -/
structure IsSargable (key : TableKey) : Prop where
  partitionKey : ∀ p ∈ key.partitionKey.toList, p.sargable = true
  clusteringKey : ∀ t ∈ key.clusteringKey, t.path.sargable = true

variable {a b : TableKey} (h : compare a b = .eq)
include h

theorem root_eq_of_compare_eq : a.root = b.root := by
  rw [compare_def, Ordering.then_eq_eq, Ordering.then_eq_eq] at h
  exact Nat.compare_eq_eq.mp h.2.2

theorem compare_clusteringKey : compare a.clusteringKey b.clusteringKey = .eq := by
  rw [compare_def, Ordering.then_eq_eq, Ordering.then_eq_eq] at h
  exact h.2.1

theorem texts_partitionKey : a.partitionKey.texts = b.partitionKey.texts := by
  rw [compare_def, Ordering.then_eq_eq, SortedSet.compare_eq_compare_toList] at h
  refine map_eq_map_of_forall₂ (fun p q hpq => ?_) (forall₂_of_compare_list_eq h.1)
  exact Path.text_eq_of_walk_eq (Path.compare_eq_iff.mp hpq)

theorem texts_clusteringKey :
    a.clusteringKey.map OrderTerm.text = b.clusteringKey.map OrderTerm.text := by
  refine map_eq_map_of_forall₂ ?_ (forall₂_of_compare_eq (compare_clusteringKey h))
  rintro s t ⟨hwalk, hdirection⟩
  rw [OrderTerm.text, OrderTerm.text, Path.text_eq_of_walk_eq hwalk, hdirection]

/-- Keys of sargable paths that compare equal are equal. -/
theorem IsSargable.eq_of_compare_eq (ha : a.IsSargable) (hb : b.IsSargable) : a = b := by
  have hroot := root_eq_of_compare_eq h
  have hclustering := eq_of_compare_eq_of_sargable (compare_clusteringKey h) ha.clusteringKey
    hb.clusteringKey
  rw [compare_def, Ordering.then_eq_eq] at h
  have hpartition := (SortedSet.actsExactly_of_faithful Path.faithful_sargable).eq_of_compare_eq
    a.partitionKey b.partitionKey ha.partitionKey hb.partitionKey h.1
  cases a
  cases b
  rw [TableKey.mk.injEq]
  exact ⟨hpartition, hclustering, hroot⟩

/-- Keys that compare equal are described by the same text. -/
theorem describe_eq (catalog : Catalog) : a.describe catalog = b.describe catalog := by
  rw [describe, describe, root_eq_of_compare_eq h, PathSet.text, PathSet.text,
    texts_partitionKey h, orderText, orderText, texts_clusteringKey h]

end TableKey

end Keyspace
