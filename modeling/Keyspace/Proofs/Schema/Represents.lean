import Keyspace.Proofs.Schema.Names
import Keyspace.Proofs.Schema.Plannable

/-!
# The catalog of declared entities

Building an entity runs over its fields with the ones before them at hand.  What these are
(`HoldsFields`) decides how it fails: `failure?_buildEntity` and `failure?_buildCatalog` say that it
does so with the first fault of the declarations.

A catalog that is built represents the declarations (`Catalog.Represents`): a name is found in it
where it is declared, and its fields lead to where the declared ones do.
-/

namespace Keyspace

variable {α β γ : Type}

/-! ### The first fault of several steps -/

theorem head?_require {p : Prop} [Decidable p] (fault : SchemaError) :
    (require p fault).head? = if p then none else some fault := by
  rw [require]
  split_ifs <;> rfl

/-- A check fails with the fault of the condition that it checks. -/
theorem failure?_ite {p q : Prop} [Decidable p] [Decidable q] {fault : SchemaError} {b : β}
    (h : p ↔ ¬ q) :
    failure? (if p then .error fault else .ok b : Except SchemaError β)
      = (require q fault).head? := by
  rw [head?_require]
  by_cases hq : q
  · rw [if_pos hq, if_neg (mt h.mp (not_not.mpr hq))]
    rfl
  · rw [if_neg hq, if_pos (h.mpr hq)]
    rfl

/-- A traversal fails with the first fault of its members, if every step does so. -/
theorem failure?_mapM_eq {f : β → Except SchemaError γ} {faults : β → List SchemaError}
    {bs : List β} (h : ∀ b ∈ bs, failure? (f b) = (faults b).head?) :
    failure? (bs.mapM f) = (bs.flatMap faults).head? := by
  rw [failure?_mapM]
  induction bs with
  | nil => rfl
  | cons b rest ih =>
    obtain ⟨hb, hrest⟩ := List.forall_mem_cons.mp h
    rw [List.findSome?_cons, List.flatMap_cons, List.head?_append, ih hrest, hb]
    cases (faults b).head? <;> rfl

/-- A run fails with the first fault of its members, if every step does so that comes after the
ones before it. -/
theorem failure?_foldlM {f : β → γ → Except SchemaError β} {own : γ → List SchemaError}
    {name : γ → String} {repeated : γ → SchemaError} {R : List γ → β → Prop}
    (hfail : ∀ earlier b c, R earlier b →
      failure? (f b c) = (own c ++ require (name c ∉ earlier.map name) (repeated c)).head?)
    (hkeep : ∀ earlier b c b', R earlier b → f b c = .ok b' → R (earlier ++ [c]) b')
    {cs : List γ} : ∀ {earlier : List γ} {b : β}, R earlier b →
      failure? (cs.foldlM f b) = (namedFaults own name repeated (earlier.map name) cs).head? := by
  induction cs with
  | nil => exact fun _ => rfl
  | cons c rest ih =>
    intro earlier b hb
    rw [List.foldlM_cons, namedFaults, List.head?_append, ← hfail earlier b c hb]
    refine failure?_bind_of_eq_ok fun b' hb' => ?_
    rw [ih (hkeep earlier b c b' hb hb'), List.map_append, List.map_singleton]

/-- A run leaves behind what belongs to all its members. -/
theorem rel_of_foldlM {ε : Type} {f : β → γ → Except ε β} {R : List γ → β → Prop}
    (hkeep : ∀ earlier b c b', R earlier b → f b c = .ok b' → R (earlier ++ [c]) b')
    {cs : List γ} : ∀ {earlier : List γ} {b b' : β}, R earlier b → cs.foldlM f b = .ok b' →
      R (earlier ++ cs) b' := by
  induction cs with
  | nil =>
    intro earlier b b' hb h
    obtain rfl := Except.ok.inj h
    rwa [List.append_nil]
  | cons c rest ih =>
    intro earlier b b' hb h
    rw [List.foldlM_cons] at h
    obtain ⟨b₁, hb₁, h⟩ := bind_eq_ok_iff.mp h
    have hrest := ih (hkeep earlier b c b₁ hb hb₁) h
    rwa [List.append_assoc, List.singleton_append] at hrest

/-! ### Fields -/

/-- The field that a declaration stands for. -/
def FieldDecl.toField (names : List String) (decl : FieldDecl) : Field where
  name := decl.name
  typeName := decl.typeName
  target :=
    if decl.typeName ∈ scalarTypes then none else names.findIdx? (· == decl.typeName)
  multiplicity := if decl.isList then .list else .single
  nonNull := !decl.isNullable
  immutable := !decl.isMutable

/-- The fields stand for the declarations read so far. -/
structure HoldsFields (names : List String) (earlier : List FieldDecl)
    (fields : SortedMap String Field) : Prop where
  find?_eq : ∀ name, fields.find? name
    = (earlier.find? fun f => f.name == name).map (FieldDecl.toField names)
  values_perm : fields.values.Perm (earlier.map (FieldDecl.toField names))

section Fields

variable {names : List String} {owner : String} {earlier : List FieldDecl}
  {fields fields' : SortedMap String Field} {decl : FieldDecl}

theorem holdsFields_empty : HoldsFields names [] ∅ := ⟨fun _ => rfl, .nil⟩

theorem failure?_resolveType :
    failure? (resolveType names owner decl)
      = (require (decl.typeName ∈ scalarTypes ∨ decl.typeName ∈ names)
          (.unresolvedType owner decl.name decl.typeName)).head? := by
  rw [head?_require, resolveType]
  by_cases hscalar : decl.typeName ∈ scalarTypes
  · rw [if_pos (List.contains_iff_mem.mpr hscalar), if_pos (.inl hscalar)]
    rfl
  · rw [if_neg (mt List.contains_iff_mem.mp hscalar)]
    cases hfind : names.findIdx? (· == decl.typeName) with
    | none =>
      have hnames : decl.typeName ∉ names := fun hmem =>
        absurd (List.findIdx?_eq_none_iff.mp hfind _ hmem) (by simp)
      rw [if_neg (not_or.mpr ⟨hscalar, hnames⟩)]
      rfl
    | some id =>
      obtain ⟨hlt, heq, -⟩ := List.findIdx?_eq_some_iff_getElem.mp hfind
      have hnames : decl.typeName ∈ names := (eq_of_beq heq) ▸ List.getElem_mem hlt
      rw [if_pos (.inr hnames)]
      rfl

theorem target_of_resolveType {target : Option EntityId}
    (h : resolveType names owner decl = .ok target) : target = (decl.toField names).target := by
  rw [resolveType] at h
  rw [FieldDecl.toField]
  by_cases hscalar : decl.typeName ∈ scalarTypes
  · rw [if_pos (List.contains_iff_mem.mpr hscalar)] at h
    rw [if_pos hscalar, Except.ok.inj h]
  · rw [if_neg (mt List.contains_iff_mem.mp hscalar)] at h
    rw [if_neg hscalar]
    cases hfind : names.findIdx? (· == decl.typeName) with
    | none =>
      rw [hfind] at h
      exact absurd h (by simp)
    | some id =>
      rw [hfind] at h
      exact (Except.ok.inj h).symm

theorem HoldsFields.isSome_find?_iff (h : HoldsFields names earlier fields) (name : String) :
    (fields.find? name).isSome = true ↔ name ∈ earlier.map FieldDecl.name := by
  simp [h.find?_eq]

theorem failure?_addField (h : HoldsFields names earlier fields) :
    failure? (addField names owner fields decl)
      = (require (decl.typeName ∈ scalarTypes ∨ decl.typeName ∈ names)
            (.unresolvedType owner decl.name decl.typeName) ++
          require (decl.name ∉ earlier.map FieldDecl.name)
            (.duplicateField owner decl.name)).head? := by
  rw [addField, List.head?_append, ← failure?_resolveType]
  exact failure?_bind fun _ => failure?_ite ((h.isSome_find?_iff _).trans not_not.symm)

theorem addField_eq_ok (h : addField names owner fields decl = .ok fields') :
    fields.find? decl.name = none ∧ fields' = fields.insert decl.name (decl.toField names) := by
  obtain ⟨target, htarget, h⟩ := bind_eq_ok_iff.mp h
  obtain rfl := target_of_resolveType htarget
  by_cases hdup : (fields.find? decl.name).isSome = true
  · rw [if_pos hdup] at h
    exact absurd h (by simp)
  · rw [if_neg hdup] at h
    exact ⟨Option.not_isSome_iff_eq_none.mp hdup, (Except.ok.inj h).symm⟩

theorem HoldsFields.concat (h : HoldsFields names earlier fields)
    (hadd : addField names owner fields decl = .ok fields') :
    HoldsFields names (earlier ++ [decl]) fields' := by
  obtain ⟨hnew, rfl⟩ := addField_eq_ok hadd
  constructor
  · intro name
    rw [SortedMap.find?_insert, List.find?_append, h.find?_eq]
    by_cases hname : name = decl.name
    · have hnone := h.find?_eq decl.name
      rw [hnew, eq_comm, Option.map_eq_none_iff] at hnone
      rw [hname, if_pos Std.ReflCmp.compare_self, hnone]
      simp
    · rw [if_neg fun heq => hname (Std.LawfulEqCmp.eq_of_compare heq)]
      have hother : [decl].find? (fun f => f.name == name) = none := by
        simpa using Ne.symm hname
      rw [hother, Option.or_none]
  · rw [List.map_append, List.map_singleton]
    refine (SortedMap.values_insert_perm hnew).trans ?_
    exact (h.values_perm.cons _).trans (List.perm_append_singleton _ _).symm

variable {decls : List FieldDecl}

theorem failure?_foldlM_addField :
    failure? (decls.foldlM (addField names owner) ∅)
      = (namedFaults
          (fun f => require (f.typeName ∈ scalarTypes ∨ f.typeName ∈ names)
            (.unresolvedType owner f.name f.typeName))
          FieldDecl.name (fun f => .duplicateField owner f.name) [] decls).head? :=
  failure?_foldlM (R := HoldsFields names) (fun _ _ _ => failure?_addField)
    (fun _ _ _ _ => HoldsFields.concat) holdsFields_empty

theorem holdsFields_of_foldlM (h : decls.foldlM (addField names owner) ∅ = .ok fields) :
    HoldsFields names decls fields :=
  rel_of_foldlM (R := HoldsFields names) (fun _ _ _ _ => HoldsFields.concat) holdsFields_empty h

end Fields

/-! ### Entities -/

section Entities

variable {names : List String} {e : EntityDecl α}

theorem HoldsFields.length_identifiers {fields : SortedMap String Field}
    (h : HoldsFields names e.fields fields) :
    (fields.values.filter fun f => f.typeName == idType).length = e.identifierCount := by
  rw [← List.countP_eq_length_filter, h.values_perm.countP_eq, List.countP_map]
  rfl

theorem failure?_buildEntity :
    failure? (buildEntity names e)
      = (require (0 < e.maxRows) (.noRows e.name) ++
          namedFaults
            (fun f => require (f.typeName ∈ scalarTypes ∨ f.typeName ∈ names)
              (.unresolvedType e.name f.name f.typeName))
            FieldDecl.name (fun f => .duplicateField e.name f.name) [] e.fields ++
          require (e.identifierCount = 1)
            (.identifierCount e.name e.identifierCount)).head? := by
  rw [List.append_assoc, List.head?_append, List.head?_append, head?_require, buildEntity]
  by_cases hrows : e.maxRows = 0
  · rw [if_pos hrows, if_neg (by omega)]
    rfl
  rw [if_neg hrows, if_pos (by omega), Option.none_or, ← failure?_foldlM_addField]
  refine failure?_bind_of_eq_ok fun fields hfields => ?_
  rw [head?_require, ← (holdsFields_of_foldlM hfields).length_identifiers]
  generalize fields.values.filter (fun f => f.typeName == idType) = identifiers
  match identifiers with
  | [] => rfl
  | [_] => rfl
  | _ :: _ :: _ =>
    rw [if_neg (by simp)]
    rfl

theorem buildEntity_fields {built : Entity} (h : buildEntity names e = .ok built) :
    HoldsFields names e.fields built.fields := by
  unfold buildEntity at h
  split_ifs at h
  obtain ⟨fields, hfields, h⟩ := bind_eq_ok_iff.mp h
  split at h
  · obtain rfl := Except.ok.inj h
    exact holdsFields_of_foldlM hfields
  · exact absurd h (by simp)

end Entities

/-! ### The catalog -/

theorem map_firstRepeated? {ds : List (EntityDecl α)} {earlier earlier' : List String}
    (h : ∀ name, name ∈ earlier ↔ name ∈ earlier') :
    (firstRepeated? earlier (ds.map EntityDecl.name)).map SchemaError.duplicateEntity
      = (namedFaults (fun _ => []) EntityDecl.name (fun e => .duplicateEntity e.name) earlier'
          ds).head? := by
  induction ds generalizing earlier earlier' with
  | nil => rfl
  | cons d rest ih =>
    rw [List.map_cons, firstRepeated?, namedFaults, List.nil_append, List.head?_append,
      head?_require]
    by_cases hname : d.name ∈ earlier'
    · rw [if_pos (List.contains_iff_mem.mpr ((h _).mpr hname)), if_neg (not_not.mpr hname)]
      rfl
    · rw [if_neg (mt List.contains_iff_mem.mp (mt (h _).mp hname)), if_pos hname, Option.none_or]
      refine ih fun name => ?_
      rw [List.mem_cons, List.mem_append, List.mem_singleton, h name, or_comm]

theorem failure?_buildCatalog (decls : Declarations α) :
    failure? (buildCatalog decls.entities)
      = (namedFaults (fun _ => []) EntityDecl.name (fun e => .duplicateEntity e.name) []
            decls.entities ++ decls.entities.flatMap decls.entityFaults).head? := by
  have hnames : (firstRepeated? [] (decls.entities.map EntityDecl.name)).map
      SchemaError.duplicateEntity
        = (namedFaults (fun _ => []) EntityDecl.name (fun e => .duplicateEntity e.name) []
            decls.entities).head? :=
    map_firstRepeated? fun _ => .rfl
  rw [List.head?_append, ← hnames, buildCatalog]
  cases firstRepeated? [] (decls.entities.map EntityDecl.name) with
  | some name => rfl
  | none =>
    dsimp only
    rw [failure?_map, Option.map_none, Option.none_or]
    exact failure?_mapM_eq fun _ _ => failure?_buildEntity

/-- A declared entity stands at a position. -/
def Declarations.StandsAt (decls : Declarations α) (id : EntityId) (e : EntityDecl α) : Prop :=
  decls.entities[id]? = some e

/-- The catalog finds what is declared, by the same names, and in the same places. -/
structure Catalog.Represents (c : Catalog) (decls : Declarations α) : Prop where
  name_eq : ∀ {id e}, decls.StandsAt id e → (c.entity id).name = e.name
  find? : ∀ name, Option.Rel decls.StandsAt (c.find? name) (decls.entity? name)
  field? : ∀ {id e}, decls.StandsAt id e → ∀ name,
    Option.Rel (fun f d => f.name = name ∧ Option.Rel decls.StandsAt f.target (decls.target? d))
      ((c.entity id).field? name) (e.field? name)

theorem represents_of_buildCatalog {decls : Declarations α} {c : Catalog}
    (h : buildCatalog decls.entities = .ok c) : c.Represents decls := by
  obtain ⟨-, hentities⟩ := buildCatalog_eq_ok h
  have hbuilt : ∀ {id e}, decls.StandsAt id e →
      buildEntity (decls.entities.map EntityDecl.name) e = .ok (c.entity id) := by
    intro id e hid
    obtain ⟨built, hget, hbuilt⟩ := exists_getElem?_of_forall₂ hentities hid
    rwa [Catalog.entity, List.getD_eq_getElem?_getD, hget]
  have hfind : ∀ name, Option.Rel decls.StandsAt
      ((decls.entities.map EntityDecl.name).findIdx? (· == name)) (decls.entity? name) := by
    intro name
    rw [List.findIdx?_map]
    exact rel_findIdx?_find? _ _
  refine ⟨fun hid => name_of_buildEntity (hbuilt hid), fun name => ?_, fun {id e} hid name => ?_⟩
  · have hsame := hfind name
    rwa [← names_of_buildCatalog h, List.findIdx?_map] at hsame
  · have hfield := (buildEntity_fields (hbuilt hid)).find?_eq name
    rw [Entity.field?, hfield, EntityDecl.field?]
    cases hdecl : e.fields.find? fun f => f.name == name with
    | none => exact .none
    | some d =>
      have hname : d.name = name := by
        simpa using List.find?_some (p := fun f : FieldDecl => f.name == name) hdecl
      refine .some ⟨hname, ?_⟩
      rw [FieldDecl.toField, Declarations.target?]
      by_cases hscalar : d.typeName ∈ scalarTypes
      · rw [if_pos hscalar, if_pos hscalar]
        exact .none
      · rw [if_neg hscalar, if_neg hscalar]
        exact hfind d.typeName

end Keyspace
