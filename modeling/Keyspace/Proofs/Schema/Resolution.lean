import Keyspace.Proofs.Schema.Names
import Keyspace.Scalar.Exact

/-!
# What a dotted text resolves to

`Catalog.Passes` follows names through the relationship fields of a catalog, from entity to entity,
and `Catalog.ResolvesTo` says what becomes of a list of names: it ends at a field, or it stops at
the first name that is no field or that cannot be walked through.

Every list of names stops somewhere (`Catalog.exists_stop`), so that resolving a text comes to
exactly that (`Catalog.resolve_eq_iff`).  Between the paths of one root and their texts nothing is
lost (`Declarations.resolve_spec`).
-/

namespace Keyspace

namespace Catalog

/-- The names lead from one entity through the given relationship fields to another entity. -/
inductive Passes (c : Catalog) : Entity → List String → List Field → Entity → Prop
  | nil {e : Entity} : Passes c e [] [] e
  | cons {e e' : Entity} {name : String} {f : Field} {next : EntityId} {names : List String}
      {fields : List Field} (hf : e.field? name = some f) (htarget : f.target = some next)
      (hrest : Passes c (c.entity next) names fields e') :
      Passes c e (name :: names) (f :: fields) e'

/-- What becomes of names that are followed from the rows of an entity. -/
inductive ResolvesTo (c : Catalog) (root : EntityId) :
    List String → Except SchemaError Path → Prop
  /-- There is nothing to follow. -/
  | empty : ResolvesTo c root [] (.error (.emptyPath (c.entity root).name))
  /-- The first name that does not lead on is missing from the entity reached. -/
  | unknown {names rest : List String} {fields : List Field} {e : Entity} {name : String}
      (hpasses : c.Passes (c.entity root) names fields e) (hnone : e.field? name = none) :
      ResolvesTo c root (names ++ name :: rest) (.error (.unknownField e.name name))
  /-- The first name that does not lead on is a scalar, and not the last name. -/
  | scalar {names rest : List String} {fields : List Field} {e : Entity} {name : String}
      {f : Field} (hpasses : c.Passes (c.entity root) names fields e)
      (hf : e.field? name = some f) (htarget : f.target = none) (hrest : rest ≠ []) :
      ResolvesTo c root (names ++ name :: rest) (.error (.notRelationship e.name name))
  /-- All names but the last lead on, and the last one is a field. -/
  | found {names : List String} {fields : List Field} {e : Entity} {name : String} {f : Field}
      {sargable : Bool} (hpasses : c.Passes (c.entity root) names fields e)
      (hf : e.field? name = some f)
      (hsargable : sargable = true ↔ ∀ g ∈ fields, g.immutable = true ∧ g.nonNull = true) :
      ResolvesTo c root (names ++ [name]) (.ok ⟨root, names ++ [name], sargable⟩)

variable {c : Catalog} {e e' : Entity} {names : List String} {fields : List Field}

/-! ### Walks -/

theorem all_settled_iff : fields.all Field.settled = true ↔
    ∀ g ∈ fields, g.immutable = true ∧ g.nonNull = true := by
  simp [Field.settled]

/-- Names that lead on are walked one after the other. -/
theorem Passes.walk_append (h : c.Passes e names fields e') {rest : List String}
    (hrest : rest ≠ []) : c.walk e (names ++ rest)
      = (c.walk e' rest).map (fields.all Field.settled && ·) := by
  induction h with
  | nil =>
    rw [List.nil_append]
    cases c.walk _ rest <;> rfl
  | cons hf htarget _ ih =>
    rw [List.cons_append, walk, hf]
    · dsimp only
      rw [htarget]
      dsimp only
      rw [ih]
      cases c.walk _ rest with
      | error error => rfl
      | ok settled => rw [Except.map, Except.map, Except.map, List.all_cons, Bool.and_assoc]
    · simp [hrest]

theorem Passes.mem_entities (h : c.Passes e names fields e') (hc : c.IsClosed)
    (he : e ∈ c.entities) : e' ∈ c.entities := by
  induction h with
  | nil => exact he
  | cons hf htarget _ ih =>
    exact ih (entity_mem (hc.target_lt _ he _ (SortedMap.mem_values_of_find? hf) _ htarget))

/-- A walk stops at the last name or at the first one that does not lead on. -/
theorem exists_stop (hne : names ≠ []) :
    ∃ passed name rest fields e', names = passed ++ name :: rest ∧ c.Passes e passed fields e' ∧
      (e'.field? name = none ∨ ∃ f, e'.field? name = some f ∧ (f.target = none ∨ rest = [])) := by
  induction names generalizing e with
  | nil => exact absurd rfl hne
  | cons name rest ih =>
    cases hf : e.field? name with
    | none => exact ⟨[], name, rest, [], e, rfl, .nil, .inl hf⟩
    | some f =>
      by_cases hrest : rest = []
      · exact ⟨[], name, rest, [], e, rfl, .nil, .inr ⟨f, hf, .inr hrest⟩⟩
      cases htarget : f.target with
      | none => exact ⟨[], name, rest, [], e, rfl, .nil, .inr ⟨f, hf, .inl htarget⟩⟩
      | some next =>
        obtain ⟨passed, last, rest', fields, e', rfl, hpasses, hstop⟩ := @ih (c.entity next) hrest
        exact ⟨name :: passed, last, rest', f :: fields, e', rfl, .cons hf htarget hpasses, hstop⟩

theorem walk_of_field?_eq_none {name : String} (hnone : e.field? name = none)
    (rest : List String) : c.walk e (name :: rest) = .error (.unknownField e.name name) := by
  cases rest <;> rw [walk, hnone]
  simp

theorem walk_of_target_eq_none {name : String} {f : Field} (hf : e.field? name = some f)
    (htarget : f.target = none) {rest : List String} (hrest : rest ≠ []) :
    c.walk e (name :: rest) = .error (.notRelationship e.name f.name) := by
  rw [walk, hf]
  · dsimp only
    rw [htarget]
  · simpa using hrest

theorem walk_singleton {name : String} {f : Field} (hf : e.field? name = some f) :
    c.walk e [name] = .ok true := by
  rw [walk, hf]

/-! ### Resolution -/

/-- Names are followed to some end. -/
theorem exists_resolvesTo (root : EntityId) (names : List String) :
    ∃ r, c.ResolvesTo root names r := by
  by_cases hne : names = []
  · subst hne
    exact ⟨_, .empty⟩
  obtain ⟨passed, name, rest, fields, e', rfl, hpasses, hnone | ⟨f, hf, hstop⟩⟩ :=
    @exists_stop c (c.entity root) names hne
  · exact ⟨_, .unknown hpasses hnone⟩
  by_cases hrest : rest = []
  · subst hrest
    exact ⟨_, .found hpasses hf all_settled_iff⟩
  · exact ⟨_, .scalar hpasses hf (hstop.resolve_right hrest) hrest⟩

variable {α : Type} {decls : List (EntityDecl α)} (h : buildCatalog decls = .ok c)
  {root : EntityId} (hroot : root < c.entities.length) {dotted : String}
include h hroot

theorem resolve_of_resolvesTo {r : Except SchemaError Path}
    (hr : c.ResolvesTo root (Text.segments dotted) r) : c.resolve root dotted = r := by
  generalize hnames : Text.segments dotted = names at hr
  cases hr with
  | empty => rw [resolve, hnames]
  | unknown hpasses hnone =>
    rw [resolve_of_ne_nil hnames (by simp), hpasses.walk_append (by simp),
      walk_of_field?_eq_none hnone]
    rfl
  | scalar hpasses hf htarget hrest =>
    have he := hpasses.mem_entities (isClosed_of_buildCatalog h) (entity_mem hroot)
    rw [resolve_of_ne_nil hnames (by simp), hpasses.walk_append (by simp),
      walk_of_target_eq_none hf htarget hrest, name_of_field? h he hf]
    rfl
  | @found names fields _ name _ sargable hpasses hf hsargable =>
    have hall : fields.all Field.settled = sargable := by
      rw [Bool.eq_iff_iff, hsargable, all_settled_iff]
    rw [resolve_of_ne_nil hnames (by simp), hpasses.walk_append (by simp), walk_singleton hf,
      ← hall]
    simp [Except.map]

/-- **Resolving a text follows its names.** -/
theorem resolve_eq_iff {r : Except SchemaError Path} :
    c.resolve root dotted = r ↔ c.ResolvesTo root (Text.segments dotted) r := by
  refine ⟨?_, resolve_of_resolvesTo h hroot⟩
  rintro rfl
  obtain ⟨r, hr⟩ := exists_resolvesTo (c := c) root (Text.segments dotted)
  rwa [resolve_of_resolvesTo h hroot hr]

end Catalog

/-- **What a dotted text resolves to, and back.**  The names are the parts of the text between its
dots, without white space around them and as far as something is left.  Resolving the text follows
them through the catalog, and the text of a resolved path resolves to that path and to no other. -/
theorem Declarations.resolve_spec {α : Type} {decls : Declarations α} {m : Model α}
    (h : decls.build = .ok m) {root : EntityId} (hroot : root < m.catalog.entities.length)
    (dotted : String) :
    Text.segments dotted
      = (((dotted.toList.splitOn '.').map fun part =>
          (part.dropWhile Text.isBlank).rdropWhile Text.isBlank).filter (· ≠ [])).map
            String.ofList ∧
    (∀ r, m.catalog.resolve root dotted = r ↔
      m.catalog.ResolvesTo root (Text.segments dotted) r) ∧
    ∀ p, m.catalog.resolve root dotted = .ok p →
      m.catalog.resolve root p.text = .ok p ∧
      ∀ dotted' q, m.catalog.resolve root dotted' = .ok q → q.text = p.text → q = p := by
  obtain ⟨hcatalog, -⟩ := build_eq_ok_iff.mp h
  refine ⟨Text.segments_eq dotted, fun r => Catalog.resolve_eq_iff hcatalog hroot,
    fun p hp => ⟨Catalog.resolve_text hp, fun dotted' q hq htext => ?_⟩⟩
  have hp := Catalog.resolve_text hp
  rw [← htext, Catalog.resolve_text hq] at hp
  exact Except.ok.inj hp

namespace Staff

/-- A staff whose members report to each other, which may change. -/
def declarations : Declarations Exact where
  entities := [{
    name := "Person"
    fields := [{ name := "id", typeName := idType }, { name := "name", typeName := "String" },
      { name := "manager", typeName := "Person", isMutable := true }]
    statistics := [] }]

/-- The model of a staff. -/
def model : Model Exact := declarations.build.toOption.getD default

end Staff

/-- Blanks and superfluous dots make no difference to the name of a manager's manager. -/
theorem Declarations.resolve_spec_staff :
    Staff.model.catalog.ResolvesTo 0 ["manager", "manager", "name"]
      (.ok ⟨0, ["manager", "manager", "name"], false⟩) ∧
    Staff.model.catalog.resolve 0 "manager.manager.name"
      = .ok ⟨0, ["manager", "manager", "name"], false⟩ := by
  have hbuild : Staff.declarations.build = .ok Staff.model := rfl
  have hroot : 0 < Staff.model.catalog.entities.length := by decide +kernel
  have hsegments : Text.segments " manager..manager . name" = ["manager", "manager", "name"] := by
    decide +kernel
  obtain ⟨-, hresolve, htext⟩ :=
    Declarations.resolve_spec hbuild hroot " manager..manager . name"
  have hpath : Staff.model.catalog.resolve 0 " manager..manager . name"
      = .ok ⟨0, ["manager", "manager", "name"], false⟩ := by
    rw [Catalog.resolve_of_ne_nil hsegments (by simp)]
    rfl
  exact ⟨hsegments ▸ (hresolve _).mp hpath, (htext _ hpath).1⟩

end Keyspace
