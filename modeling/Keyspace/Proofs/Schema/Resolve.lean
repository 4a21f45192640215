import Keyspace.Proofs.Schema.Build
import Keyspace.Proofs.Sorted.Faithful

/-!
# Resolved paths

`Path.walk` identifies a path, and the flag that says whether it may be part of a key takes no part
in that.  Between paths of one catalog (`Catalog.IsPath`) nothing is lost: the flag is what the walk
over the catalog finds, so that paths with the same walk are the same (`IsPath.eq_of_walk_eq`).

Hence the sets of paths of a resolved clause are what their names say: `mem_predicatePaths_iff` and
`mem_sargablePaths_iff` give their members without a word about which of several equal paths a set
keeps.
-/

namespace Keyspace

/-! ### Paths of a catalog -/

/-- The path walks over fields of the catalog, and its flag is what the walk finds. -/
def Catalog.IsPath (c : Catalog) (p : Path) : Prop :=
  c.walk (c.entity p.root) p.segments = .ok p.sargable

namespace Catalog

variable {c : Catalog} {p q : Path}

/-- A text with names in it resolves as the walk over them does. -/
theorem resolve_of_ne_nil {root : EntityId} {dotted : String} {names : List String}
    (hnames : Text.segments dotted = names) (hne : names ≠ []) :
    c.resolve root dotted
      = (c.walk (c.entity root) names).map fun sargable => ⟨root, names, sargable⟩ := by
  rw [resolve, hnames]
  split
  · exact absurd rfl hne
  · rfl

theorem isPath_of_resolve {root : EntityId} {dotted : String} (h : c.resolve root dotted = .ok p) :
    p.root = root ∧ c.IsPath p := by
  unfold resolve at h
  split at h
  · exact absurd h (by simp)
  · obtain ⟨sargable, hwalk, rfl⟩ := map_eq_ok_iff.mp h
    exact ⟨rfl, hwalk⟩

/-- Paths of one catalog that walk the same way are the same. -/
theorem IsPath.eq_of_walk_eq (hp : c.IsPath p) (hq : c.IsPath q) (h : p.walk = q.walk) : p = q := by
  obtain ⟨hroot, hsegments⟩ := Prod.mk.inj h
  unfold IsPath at hp hq
  rw [hroot, hsegments, hq] at hp
  have hsargable : q.sargable = p.sargable := Except.ok.inj hp
  cases p
  cases q
  simp_all

/-- Hence the flag may be left out of their identity. -/
theorem faithful_isPath (c : Catalog) : Faithful c.IsPath := fun _ _ hp hq heq =>
  hp.eq_of_walk_eq hq (Path.compare_eq_iff.mp heq)

/-- A walk over a single field passes no field that could change, so it may be part of a key. -/
theorem IsPath.sargable_of_segments_eq {name : String} (hp : c.IsPath p)
    (h : p.segments = [name]) : p.sargable = true := by
  unfold IsPath at hp
  rw [h, walk] at hp
  split at hp
  · exact absurd hp (by simp)
  · exact (Except.ok.inj hp).symm

end Catalog

/-! ### Paths of a clause -/

namespace Clause

variable {P : Path → Prop} (hP : Faithful P) {c : Clause} (hc : ∀ q ∈ c.predicates, P q.path)
  {p : Path}
include hP hc

theorem mem_predicatePaths_iff_of_faithful :
    p ∈ c.predicatePaths.toList ↔ ∃ q ∈ c.predicates, q.path = p := by
  have hpaths : ∀ p ∈ c.predicates.map Predicate.path, P p := List.forall_mem_map.mpr hc
  rw [predicatePaths, (SortedSet.actsExactly_of_faithful hP).mem_ofList_iff _ hpaths, List.mem_map]

theorem mem_sargablePaths_iff_of_faithful :
    p ∈ c.sargablePaths.toList ↔ p ∈ c.predicatePaths.toList ∧ p.sargable = true := by
  have hpaths : ∀ p ∈ (c.predicates.map Predicate.path).filter Path.sargable, P p :=
    fun p hp => List.forall_mem_map.mpr hc p (List.mem_of_mem_filter hp)
  rw [sargablePaths, (SortedSet.actsExactly_of_faithful hP).mem_ofList_iff _ hpaths,
    List.mem_filter, List.mem_map, mem_predicatePaths_iff_of_faithful hP hc]

end Clause

namespace Catalog.Resolved

variable {c : Catalog} {clause : Clause} (h : c.Resolved clause)
include h

theorem isPath_of_mem_predicates {q : Predicate} (hq : q ∈ clause.predicates) :
    q.path.root = clause.root ∧ c.IsPath q.path := by
  obtain ⟨-, decl, h⟩ := h
  obtain ⟨predicates, hpredicates, h⟩ := bind_eq_ok_iff.mp h
  obtain ⟨order, -, h⟩ := bind_eq_ok_iff.mp h
  have hclause := Except.ok.inj h
  rw [← hclause] at hq
  obtain ⟨_, -, hresolve⟩ := exists_of_mem_mapM hpredicates hq
  obtain ⟨path, hpath, rfl⟩ := map_eq_ok_iff.mp hresolve
  exact isPath_of_resolve hpath

theorem isPath_of_mem_order {t : OrderTerm} (ht : t ∈ clause.order) :
    t.path.root = clause.root ∧ c.IsPath t.path := by
  obtain ⟨-, decl, h⟩ := h
  obtain ⟨predicates, -, h⟩ := bind_eq_ok_iff.mp h
  obtain ⟨order, horder, h⟩ := bind_eq_ok_iff.mp h
  have hclause := Except.ok.inj h
  rw [← hclause] at ht
  obtain ⟨_, -, hresolve⟩ := exists_of_mem_mapM horder ht
  obtain ⟨path, hpath, rfl⟩ := map_eq_ok_iff.mp hresolve
  exact isPath_of_resolve hpath

/-- The predicate paths are the paths of the predicates. -/
theorem mem_predicatePaths_iff {p : Path} :
    p ∈ clause.predicatePaths.toList ↔ ∃ q ∈ clause.predicates, q.path = p :=
  Clause.mem_predicatePaths_iff_of_faithful c.faithful_isPath
    fun _ hq => (h.isPath_of_mem_predicates hq).2

/-- The sargable paths are the predicate paths that may be part of a key. -/
theorem mem_sargablePaths_iff {p : Path} :
    p ∈ clause.sargablePaths.toList ↔ p ∈ clause.predicatePaths.toList ∧ p.sargable = true :=
  Clause.mem_sargablePaths_iff_of_faithful c.faithful_isPath
    fun _ hq => (h.isPath_of_mem_predicates hq).2

/-- Predicate paths belong to the catalog and start from the root of the clause. -/
theorem isPath_of_mem_predicatePaths {p : Path} (hp : p ∈ clause.predicatePaths.toList) :
    p.root = clause.root ∧ c.IsPath p := by
  obtain ⟨q, hq, rfl⟩ := h.mem_predicatePaths_iff.mp hp
  exact h.isPath_of_mem_predicates hq

end Catalog.Resolved

end Keyspace
