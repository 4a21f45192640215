import Keyspace.Proofs.Schema.Resolve
import Keyspace.Proofs.Text.Segments

/-!
# What names tell

The texts of a schema are made of names, and as far as these contain no separators they can be taken
apart again.

* An entity is known by its name (`Declarations.root_eq_of_name_eq`): no two entities of a built
  catalog share one.
* A resolved path is known by its text, given its root (`Path.IsDotted`), since the names along it
  were read off a dotted text; the same text resolves to the path once more
  (`Catalog.resolve_text`).
* An order term is known by the text of its path and its direction (`OrderTerm.text_eq_iff`).
-/

namespace Keyspace

/-! ### Entities -/

theorem firstRepeated?_eq_none_iff {earlier names : List String} :
    firstRepeated? earlier names = none ↔
      names.Nodup ∧ ∀ name ∈ names, name ∉ earlier := by
  induction names generalizing earlier with
  | nil => simp [firstRepeated?]
  | cons name rest ih =>
    rw [firstRepeated?, List.nodup_cons, List.forall_mem_cons]
    split_ifs with hrepeated
    · exact iff_of_false (by simp) fun h => h.2.1 (by simpa using hrepeated)
    · rw [ih]
      have hname : name ∉ earlier := by simpa using hrepeated
      constructor
      · rintro ⟨hnodup, hrest⟩
        exact ⟨⟨fun hmem => hrest name hmem List.mem_cons_self, hnodup⟩, hname,
          fun other hother => List.not_mem_of_not_mem_cons (hrest other hother)⟩
      · rintro ⟨⟨hnew, hnodup⟩, -, hrest⟩
        refine ⟨hnodup, fun other hother hmem => ?_⟩
        rcases List.mem_cons.mp hmem with rfl | hmem
        · exact hnew hother
        · exact hrest other hother hmem

theorem name_of_buildEntity {α : Type} {names : List String} {decl : EntityDecl α} {e : Entity}
    (h : buildEntity names decl = .ok e) : e.name = decl.name := by
  unfold buildEntity at h
  split_ifs at h
  obtain ⟨fields, -, h⟩ := bind_eq_ok_iff.mp h
  split at h
  · obtain rfl := Except.ok.inj h
    rfl
  · exact absurd h (by simp)

/-- The entities of a built catalog have the declared names. -/
theorem names_of_buildCatalog {α : Type} {decls : List (EntityDecl α)} {c : Catalog}
    (h : buildCatalog decls = .ok c) :
    c.entities.map Entity.name = decls.map EntityDecl.name := by
  rw [eq_comm, ← List.forall₂_eq_eq_eq, List.forall₂_map_left_iff, List.forall₂_map_right_iff]
  exact (buildCatalog_eq_ok h).2.imp fun _ _ h => (name_of_buildEntity h).symm

/-- No two entities of a catalog share a name. -/
theorem nodup_names_of_buildCatalog {α : Type} {decls : List (EntityDecl α)} {c : Catalog}
    (h : buildCatalog decls = .ok c) : (c.entities.map Entity.name).Nodup := by
  rw [names_of_buildCatalog h]
  exact (firstRepeated?_eq_none_iff.mp (buildCatalog_eq_ok h).1).1

theorem Catalog.entity_mem {c : Catalog} {id : EntityId} (h : id < c.entities.length) :
    c.entity id ∈ c.entities := by
  rw [entity, List.getD_eq_getElem _ _ h]
  exact List.getElem_mem h

/-- The place of the entity of a given name. -/
def Catalog.position (c : Catalog) (name : String) : ℕ := c.entities.findIdx fun e => e.name == name

/-- An entity of a built catalog stands where its name is found. -/
theorem position_of_buildCatalog {α : Type} {decls : List (EntityDecl α)} {c : Catalog}
    (h : buildCatalog decls = .ok c) {id : EntityId} (hid : id < c.entities.length) :
    c.position (c.entity id).name = id := by
  rw [Catalog.position, Catalog.entity, List.getD_eq_getElem _ _ hid, List.findIdx_eq hid]
  refine ⟨by simp, fun j hj => ?_⟩
  have hnodup := List.pairwise_iff_getElem.mp (nodup_names_of_buildCatalog h) j id
    (by simpa using hj.trans hid) (by simpa using hid) hj
  simpa using hnodup

/-! ### Fields -/

theorem name_of_mem_addField {names : List String} {owner : String}
    {fields fields' : SortedMap String Field} {decl : FieldDecl}
    (hfields : ∀ e ∈ fields.entries, e.2.name = e.1)
    (h : addField names owner fields decl = .ok fields') :
    ∀ e ∈ fields'.entries, e.2.name = e.1 := by
  obtain ⟨target, -, h⟩ := bind_eq_ok_iff.mp h
  by_cases hdup : (fields.find? decl.name).isSome = true
  · rw [if_pos hdup] at h
    exact absurd h (by simp)
  rw [if_neg hdup] at h
  obtain rfl := Except.ok.inj h
  intro e he
  rcases SortedMap.mem_alterIn he with he | rfl | ⟨v, -, heq, hvalue⟩
  · exact hfields e he
  · rfl
  · rw [hvalue]
    exact Std.LawfulEqCmp.eq_of_compare heq

/-- The fields of a built entity stand under their names. -/
theorem name_of_mem_fields {α : Type} {decls : List (EntityDecl α)} {c : Catalog}
    (h : buildCatalog decls = .ok c) {e : Entity} (he : e ∈ c.entities) :
    ∀ entry ∈ e.fields.entries, entry.2.name = entry.1 := by
  obtain ⟨decl, hdecl⟩ := exists_buildEntity_of_buildCatalog h he
  unfold buildEntity at hdecl
  split_ifs at hdecl
  obtain ⟨fields, hfields, hdecl⟩ := bind_eq_ok_iff.mp hdecl
  have hnames := foldlM_induction (fun _ _ _ _ => name_of_mem_addField) (by simp) hfields
  split at hdecl
  · obtain rfl := Except.ok.inj hdecl
    exact hnames
  · exact absurd hdecl (by simp)

/-- A field is found under its own name. -/
theorem name_of_field? {α : Type} {decls : List (EntityDecl α)} {c : Catalog}
    (h : buildCatalog decls = .ok c) {e : Entity} (he : e ∈ c.entities) {name : String} {f : Field}
    (hf : e.field? name = some f) : f.name = name := by
  obtain ⟨entry, hentry, rfl⟩ := Option.map_eq_some_iff.mp hf
  have hkey := List.find?_some hentry
  rw [name_of_mem_fields h he entry (List.mem_of_find?_eq_some hentry)]
  exact (Std.LawfulEqCmp.eq_of_compare (beq_iff_eq.mp hkey)).symm

/-- Every name along a walk is that of a field. -/
theorem Catalog.exists_field_of_walk {c : Catalog} (hc : c.IsClosed) {names : List String} :
    ∀ {e : Entity}, e ∈ c.entities → ∀ {settled : Bool}, c.walk e names = .ok settled →
      ∀ name ∈ names, ∃ e' ∈ c.entities, ∃ f, e'.field? name = some f := by
  induction names with
  | nil => exact fun _ _ _ name hname => absurd hname List.not_mem_nil
  | cons name rest ih =>
    intro e he settled h
    cases rest with
    | nil =>
      rw [walk] at h
      split at h
      · exact absurd h (by simp)
      next f hf =>
        intro name hname
        obtain rfl := List.mem_singleton.mp hname
        exact ⟨e, he, f, hf⟩
    | cons next rest =>
      rw [walk] at h
      · split at h
        · exact absurd h (by simp)
        next f hf =>
          split at h
          · exact absurd h (by simp)
          next target htarget =>
            obtain ⟨settled', hrest, -⟩ := map_eq_ok_iff.mp h
            have hlt := hc.target_lt e he f (SortedMap.mem_values_of_find? hf) target htarget
            refine List.forall_mem_cons.mpr ⟨⟨e, he, f, hf⟩, ih (entity_mem hlt) hrest⟩
      · simp

/-! ### Paths -/

/-- A path whose names can be read off its text. -/
structure Path.IsDotted (p : Path) : Prop where
  ne_nil : p.segments ≠ []
  not_mem : ∀ name ∈ p.segments, '.' ∉ name.toList

theorem Path.segments_eq_of_text_eq {p q : Path} (hp : p.IsDotted) (hq : q.IsDotted)
    (h : p.text = q.text) : p.segments = q.segments :=
  Text.eq_of_string_intercalate_eq [] hp.ne_nil hq.ne_nil hp.not_mem hq.not_mem h

namespace Catalog

variable {c : Catalog} {root : EntityId} {dotted : String} {p : Path}

/-- A resolved path walks over the names that its text lists. -/
theorem segments_of_resolve (h : c.resolve root dotted = .ok p) :
    p.segments ≠ [] ∧ ∀ name ∈ p.segments, Text.IsSegment name := by
  unfold resolve at h
  split at h
  · exact absurd h (by simp)
  next hne =>
    obtain ⟨sargable, -, rfl⟩ := map_eq_ok_iff.mp h
    exact ⟨hne, fun name hname => Text.isSegment_of_mem_segments hname⟩

theorem isDotted_of_resolve (h : c.resolve root dotted = .ok p) : p.IsDotted :=
  ⟨(segments_of_resolve h).1, fun name hname => ((segments_of_resolve h).2 name hname).not_mem⟩

/-- A resolved path is what its own text resolves to. -/
theorem resolve_text (h : c.resolve root dotted = .ok p) : c.resolve root p.text = .ok p := by
  obtain ⟨hne, hnames⟩ := segments_of_resolve h
  obtain ⟨hroot, hpath⟩ := isPath_of_resolve h
  rw [IsPath, hroot] at hpath
  rw [Path.text, resolve_of_ne_nil (Text.segments_intercalate hne hnames) hne, hpath, ← hroot]
  rfl

/-- The path belongs to the catalog, starts from the rows of `root`, and is found by its text. -/
structure IsNamed (c : Catalog) (root : EntityId) (p : Path) : Prop where
  root_eq : p.root = root
  isPath : c.IsPath p
  isDotted : p.IsDotted
  resolve_text : c.resolve root p.text = .ok p

theorem isNamed_of_resolve (h : c.resolve root dotted = .ok p) : c.IsNamed root p :=
  ⟨(isPath_of_resolve h).1, (isPath_of_resolve h).2, isDotted_of_resolve h, resolve_text h⟩

namespace Resolved

variable {clause : Clause} (h : c.Resolved clause)
include h

theorem isNamed_of_mem_predicates {q : Predicate} (hq : q ∈ clause.predicates) :
    c.IsNamed clause.root q.path := by
  obtain ⟨-, decl, h⟩ := h
  obtain ⟨predicates, hpredicates, h⟩ := bind_eq_ok_iff.mp h
  obtain ⟨order, -, h⟩ := bind_eq_ok_iff.mp h
  rw [← Except.ok.inj h] at hq ⊢
  obtain ⟨_, -, hresolve⟩ := exists_of_mem_mapM hpredicates hq
  obtain ⟨path, hpath, rfl⟩ := map_eq_ok_iff.mp hresolve
  exact isNamed_of_resolve hpath

theorem isNamed_of_mem_order {t : OrderTerm} (ht : t ∈ clause.order) :
    c.IsNamed clause.root t.path := by
  obtain ⟨-, decl, h⟩ := h
  obtain ⟨predicates, -, h⟩ := bind_eq_ok_iff.mp h
  obtain ⟨order, horder, h⟩ := bind_eq_ok_iff.mp h
  rw [← Except.ok.inj h] at ht ⊢
  obtain ⟨_, -, hresolve⟩ := exists_of_mem_mapM horder ht
  obtain ⟨path, hpath, rfl⟩ := map_eq_ok_iff.mp hresolve
  exact isNamed_of_resolve hpath

end Resolved

end Catalog

/-! ### Order terms -/

/-- The text of a term ends with its direction, which contains no blank. -/
theorem OrderTerm.text_eq_iff {s t : OrderTerm} :
    s.text = t.text ↔ s.path.text = t.path.text ∧ s.direction = t.direction := by
  refine ⟨fun h => ?_, fun ⟨hpath, hdirection⟩ => by rw [text, text, hpath, hdirection]⟩
  have hreverse : ∀ u : OrderTerm, u.text.toList.reverse
      = u.direction.text.toList.reverse ++ ' ' :: u.path.text.toList.reverse := by
    intro u
    rw [text, String.toList_append, String.toList_append, List.reverse_append, List.reverse_append]
    rfl
  have hblank : ∀ d : Direction, ' ' ∉ d.text.toList.reverse := by
    rintro ⟨⟩ <;> decide
  have hboth := hreverse t
  rw [← h, hreverse s] at hboth
  obtain ⟨hdirection, hpath⟩ := Text.eq_of_append_cons_eq (hblank _) (hblank _) hboth
  refine ⟨String.toList_inj.mp (List.reverse_inj.mp hpath), ?_⟩
  revert hdirection
  cases s.direction <;> cases t.direction <;> decide

end Keyspace
