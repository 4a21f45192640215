import Keyspace.Proofs.Candidate.Enumerate
import Keyspace.Proofs.Schema.Names

/-!
# Keys known by their names

The texts of a key are those of its paths and order terms.  Among the keys that a workload is
offered (`Model.OffersKey`) they tell which names it holds (`TableKey.Corresponds`): the names along
every path but the identifier were read off dotted texts, and where the name of the identifier has a
dot in it, the identifier closes every clustering key of its entity (`OffersKey.exists_eq_concat`).

How two keys of one model compare is seen from the names in them and the places of their entities,
so that keys of another model with the same names compare the same way if their entities do
(`TableKey.Corresponds.compare_eq`).
-/

namespace Keyspace

open Std (ReflCmp)

/-! ### Keys with the same names -/

/-- Do paths on the rows of `i` and of `j` walk over the same names? -/
structure Path.Corresponds (i j : EntityId) (p q : Path) : Prop where
  root_left : p.root = i
  root_right : q.root = j
  segments_eq : p.segments = q.segments

/-- Do terms on the rows of `i` and of `j` sort by the same names in the same direction? -/
structure OrderTerm.Corresponds (i j : EntityId) (s t : OrderTerm) : Prop where
  path : Path.Corresponds i j s.path t.path
  direction_eq : s.direction = t.direction

/-- Do two keys, of whatever models, hold the same names? -/
structure TableKey.Corresponds (a b : TableKey) : Prop where
  partitionKey : List.Forall₂ (Path.Corresponds a.root b.root) a.partitionKey.toList
    b.partitionKey.toList
  clusteringKey : List.Forall₂ (OrderTerm.Corresponds a.root b.root) a.clusteringKey
    b.clusteringKey

section Compare

variable {i i' j j' : EntityId} (hroot : compare i i' = compare j j')
include hroot

theorem Path.Corresponds.compare_eq {p p' q q' : Path} (h : Path.Corresponds i j p q)
    (h' : Path.Corresponds i' j' p' q') : compare p p' = compare q q' := by
  rw [Path.compare_def, Path.compare_def, h.root_left, h'.root_left, h.root_right, h'.root_right,
    h.segments_eq, h'.segments_eq, hroot]

theorem OrderTerm.Corresponds.compare_eq {s s' t t' : OrderTerm}
    (h : OrderTerm.Corresponds i j s t) (h' : OrderTerm.Corresponds i' j' s' t') :
    compare s s' = compare t t' := by
  rw [OrderTerm.compare_def, OrderTerm.compare_def, h.path.compare_eq hroot h'.path,
    h.direction_eq, h'.direction_eq]

end Compare

namespace TableKey.Corresponds

variable {a a' b b' : TableKey} (h : a.Corresponds b) (h' : a'.Corresponds b')
include h h'

/-- Keys with the same names compare the same way, if their entities do. -/
theorem compare_eq (hroot : compare a.root a'.root = compare b.root b'.root) :
    compare a a' = compare b b' := by
  rw [TableKey.compare_def, TableKey.compare_def, SortedSet.compare_eq_compare_toList,
    SortedSet.compare_eq_compare_toList, hroot,
    compare_list_congr (fun _ _ _ _ => Path.Corresponds.compare_eq hroot) h.partitionKey
      h'.partitionKey,
    compare_list_congr (fun _ _ _ _ => OrderTerm.Corresponds.compare_eq hroot) h.clusteringKey
      h'.clusteringKey]

end TableKey.Corresponds

/-! ### Keys that are offered -/

/-- Some level of the workload is offered a table with the key. -/
def Model.OffersKey {α : Type} (m : Model α) (key : TableKey) : Prop :=
  ∃ l ∈ m.levels, ∃ c ∈ m.candidates l, c.key = key

namespace Model.OffersKey

variable {α : Type} {decls : Declarations α} {m : Model α} (hbuild : decls.build = .ok m)
  {key : TableKey} (h : m.OffersKey key)
include h

theorem mem_clusteringKeys : key.clusteringKey ∈ m.clusteringKeys key.root := by
  obtain ⟨l, -, c, hc, rfl⟩ := h
  obtain ⟨partitionKey, -, clusteringKey, hclustering, rfl⟩ := mem_candidates_iff.mp hc
  exact hclustering

include hbuild

theorem root_lt : key.root < m.catalog.entities.length := by
  obtain ⟨l, hl, c, hc, rfl⟩ := h
  rw [root_of_mem_candidates hc]
  exact (Declarations.resolved_of_build hbuild l hl).root_lt

theorem isNamed_of_mem_partitionKey {p : Path} (hp : p ∈ key.partitionKey.toList) :
    m.catalog.IsNamed key.root p := by
  obtain ⟨l, hl, c, hc, rfl⟩ := h
  have hresolved := Declarations.resolved_of_build hbuild l hl
  obtain ⟨-, q, hq, rfl⟩ :=
    ((enumerates_candidates hresolved).exists_iff _ _).mp
      ⟨c, hc, by rw [← root_of_mem_candidates hc]⟩ |>.1 p hp
  rw [root_of_mem_candidates hc]
  exact hresolved.isNamed_of_mem_predicates hq

/-- Terms of a clustering key other than the identifier are requested by name. -/
theorem eq_identifier_or_isNamed {t : OrderTerm} (ht : t ∈ key.clusteringKey) :
    t = m.identifierTerm key.root ∨ m.catalog.IsNamed key.root t.path := by
  refine (eq_identifier_or_exists_of_mem h.mem_clusteringKeys ht).imp_right ?_
  rintro ⟨-, l, hl, hroot, hmem⟩
  rw [← hroot]
  exact (Declarations.resolved_of_build hbuild l hl).isNamed_of_mem_order hmem

theorem isDotted_of_mem_clusteringKey (hdot : '.' ∉ (m.entity key.root).idField.toList)
    {t : OrderTerm} (ht : t ∈ key.clusteringKey) : t.path.IsDotted := by
  rcases h.eq_identifier_or_isNamed hbuild ht with rfl | hnamed
  · refine ⟨List.cons_ne_nil _ _, fun name hname => ?_⟩
    obtain rfl := List.mem_singleton.mp hname
    exact hdot
  · exact hnamed.isDotted

/-- An identifier that no dotted text can name closes every clustering key of its entity. -/
theorem exists_eq_concat (hdot : '.' ∈ (m.entity key.root).idField.toList) :
    ∃ terms, key.clusteringKey = terms ++ [m.identifierTerm key.root] ∧
      ∀ t ∈ terms, t.path.IsDotted ∧ t.path.root = key.root := by
  have hkey := h.mem_clusteringKeys
  rw [clusteringKeys] at hkey
  split_ifs at hkey
  · exact ⟨[], List.mem_singleton.mp hkey, by simp⟩
  · obtain ⟨clause, hclause, hkey⟩ := List.mem_flatMap.mp (SortedSet.mem_of_mem_toList_ofList hkey)
    obtain ⟨hclause, hroot⟩ := List.mem_filter.mp hclause
    obtain ⟨l, hl, rfl⟩ := List.mem_map.mp hclause
    obtain ⟨part, hpart, hkey⟩ := List.mem_map.mp hkey
    have hnamed : ∀ t ∈ part, m.catalog.IsNamed key.root t.path := by
      intro t ht
      rw [← beq_iff_eq.mp hroot]
      refine (Declarations.resolved_of_build hbuild l hl).isNamed_of_mem_order ?_
      exact (List.takeWhile_prefix _).subset ((prefix_of_mem_leadingParts hpart).subset ht)
    -- no requested path is the identifier's, whose name has a dot
    have hnone : ¬ (part.any fun t => t.path.same (m.identifierTerm key.root).path) = true := by
      intro hany
      obtain ⟨t, ht, hsame⟩ := List.any_eq_true.mp hany
      have hwalk := Path.same_eq_true_iff.mp hsame
      have hsegments : t.path.segments = [(m.entity key.root).idField] := (Prod.mk.inj hwalk).2
      exact (hnamed t ht).isDotted.not_mem _ (by rw [hsegments]; exact List.mem_singleton_self _)
        hdot
    rw [closeWith, if_neg hnone] at hkey
    exact ⟨part, hkey.symm, fun t ht => ⟨(hnamed t ht).isDotted, (hnamed t ht).root_eq⟩⟩

theorem root_of_mem_clusteringKey {t : OrderTerm} (ht : t ∈ key.clusteringKey) :
    t.path.root = key.root :=
  root_of_mem_clusteringKeys h.mem_clusteringKeys ht hbuild

end Model.OffersKey

/-! ### Texts of keys -/

section Texts

variable {α : Type} {decls decls' : Declarations α} {m m' : Model α} {a b : TableKey}

/-- Dotted terms with the same texts hold the same names. -/
theorem forall₂_corresponds_of_texts_eq {i j : EntityId} {ss ts : List OrderTerm}
    (hss : ∀ s ∈ ss, s.path.IsDotted ∧ s.path.root = i)
    (hts : ∀ t ∈ ts, t.path.IsDotted ∧ t.path.root = j)
    (h : ss.map OrderTerm.text = ts.map OrderTerm.text) :
    List.Forall₂ (OrderTerm.Corresponds i j) ss ts := by
  refine forall₂_of_map_eq_map (fun s hs t ht hst => ?_) h
  obtain ⟨hpath, hdirection⟩ := OrderTerm.text_eq_iff.mp hst
  obtain ⟨hs, hsroot⟩ := hss s hs
  obtain ⟨ht, htroot⟩ := hts t ht
  exact ⟨⟨hsroot, htroot, Path.segments_eq_of_text_eq hs ht hpath⟩, hdirection⟩

theorem forall₂_partitionKey_of_texts_eq (hbuild : decls.build = .ok m)
    (hbuild' : decls'.build = .ok m') (ha : m.OffersKey a) (hb : m'.OffersKey b)
    (h : a.partitionKey.texts = b.partitionKey.texts) :
    List.Forall₂ (Path.Corresponds a.root b.root) a.partitionKey.toList b.partitionKey.toList := by
  refine forall₂_of_map_eq_map (fun p hp q hq hpq => ?_) h
  have hp := ha.isNamed_of_mem_partitionKey hbuild hp
  have hq := hb.isNamed_of_mem_partitionKey hbuild' hq
  exact ⟨hp.root_eq, hq.root_eq, Path.segments_eq_of_text_eq hp.isDotted hq.isDotted hpq⟩

/-- Keys with the same texts hold the same names, if no identifier has a dot in its name. -/
theorem corresponds_of_texts_eq (hbuild : decls.build = .ok m) (hbuild' : decls'.build = .ok m')
    (ha : m.OffersKey a) (hb : m'.OffersKey b)
    (hdot : '.' ∉ (m.entity a.root).idField.toList)
    (hdot' : '.' ∉ (m'.entity b.root).idField.toList)
    (hpartition : a.partitionKey.texts = b.partitionKey.texts)
    (hclustering : a.clusteringKey.map OrderTerm.text = b.clusteringKey.map OrderTerm.text) :
    a.Corresponds b := by
  refine ⟨forall₂_partitionKey_of_texts_eq hbuild hbuild' ha hb hpartition,
    forall₂_corresponds_of_texts_eq (fun s hs => ?_) (fun t ht => ?_) hclustering⟩
  · exact ⟨ha.isDotted_of_mem_clusteringKey hbuild hdot hs, ha.root_of_mem_clusteringKey hbuild hs⟩
  · exact ⟨hb.isDotted_of_mem_clusteringKey hbuild' hdot' ht,
      hb.root_of_mem_clusteringKey hbuild' ht⟩

/-- Keys of one entity with the same texts hold the same names. -/
theorem corresponds_of_root_eq (hbuild : decls.build = .ok m) (ha : m.OffersKey a)
    (hb : m.OffersKey b) (hroot : a.root = b.root)
    (hpartition : a.partitionKey.texts = b.partitionKey.texts)
    (hclustering : a.clusteringKey.map OrderTerm.text = b.clusteringKey.map OrderTerm.text) :
    a.Corresponds b := by
  by_cases hdot : '.' ∈ (m.entity a.root).idField.toList
  · obtain ⟨ss, hss, hssnamed⟩ := ha.exists_eq_concat hbuild hdot
    obtain ⟨ts, hts, htsnamed⟩ := hb.exists_eq_concat hbuild (hroot ▸ hdot)
    refine ⟨forall₂_partitionKey_of_texts_eq hbuild hbuild ha hb hpartition, ?_⟩
    rw [hss, hts, List.map_append, List.map_append, hroot] at hclustering
    rw [hss, hts]
    refine List.rel_append (forall₂_corresponds_of_texts_eq hssnamed htsnamed
      (List.append_cancel_right hclustering)) (.cons ⟨⟨rfl, rfl, ?_⟩, rfl⟩ .nil)
    rw [hroot]
  · exact corresponds_of_texts_eq hbuild hbuild ha hb hdot (hroot ▸ hdot) hpartition hclustering

/-- Keys of one entity with the same texts compare equal. -/
theorem compare_eq_of_texts_eq (hbuild : decls.build = .ok m) (ha : m.OffersKey a)
    (hb : m.OffersKey b) (hroot : a.root = b.root)
    (hpartition : a.partitionKey.texts = b.partitionKey.texts)
    (hclustering : a.clusteringKey.map OrderTerm.text = b.clusteringKey.map OrderTerm.text) :
    compare a b = .eq := by
  have hab := corresponds_of_root_eq hbuild ha hb hroot hpartition hclustering
  have hbb := corresponds_of_root_eq hbuild hb hb rfl rfl rfl
  rw [hab.compare_eq hbb (by rw [hroot])]
  exact ReflCmp.compare_self

end Texts

end Keyspace
