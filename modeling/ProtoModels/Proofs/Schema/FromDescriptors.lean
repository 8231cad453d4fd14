import ProtoModels.Proofs.Compile.FileOrder
import ProtoModels.Proofs.Descriptor.Pool.Names
/-!
# Schemas and pools

A pool lists declarations by the full names of the messages they stand in, and a schema completes names
scope by scope. Both list the same fields in the same order, those of inner messages first
(`Schema.forall₂_allFields`), and every type name of a pool is that of a type of the schema. What
resolves in a valid pool therefore resolves in the schema, if it is a full name
(`Schema.exists_of_build_eq_error`).
-/
namespace ProtoModels

open Descriptor (Pool SameFile)

/-! ## Fields -/

/-- A field that was read with some rules from a descriptor that stands in some message. -/
structure Field.IsReadFrom (index : RuleIndex) (x : Pool.Sited Descriptor.Field) (f : Field) : Prop where
  fullName : f.fullName = Pool.fieldName x
  name : f.name = x.decl.name
  kind : f.kind = .ofNumber (x.decl.kind.getD 0)
  typeName : f.typeName = x.decl.typeName
  rules : f.rules = index.get? f.fullName

theorem forall₂_mapIdx {α β : Type} {R : α → β → Prop} {f : Nat → α → β} (h : ∀ i a, R a (f i a))
    (l : List α) : List.Forall₂ R l (l.mapIdx f) :=
  List.forall₂_iff_get.2 ⟨by simp, fun i hi _ => by simpa using h i _⟩

section
variable {c : FileContext} {file : Descriptor.File}

mutual
theorem Message.forall₂_allFields : ∀ (sc : Scope) (path : List Int) (d : Descriptor.Message),
    List.Forall₂ (Field.IsReadFrom c.rules) ((Pool.flatten sc.outer d).flatMap (Pool.ownFields file))
      (Message.ofDescriptor c sc path d).allFields
  | sc, path, ⟨name, fields, extensions, nested, enums, oneofs, ranges, reserved, mapEntry, options⟩ => by
    have hinner := Message.forall₂_allFieldsOfList (sc.enter name) (path ++ [3]) 0 nested
    rw [Descriptor.flatten_eq, List.flatMap_append, Message.ofDescriptor, Message.allFields]
    refine List.rel_append hinner ?_
    rw [List.flatMap_singleton, Pool.ownFields, List.forall₂_map_left_iff]
    exact forall₂_mapIdx (fun i x => ⟨rfl, rfl, rfl, rfl, rfl⟩) fields

theorem Message.forall₂_allFieldsOfList :
    ∀ (sc : Scope) (path : List Int) (i : Nat) (ds : List Descriptor.Message),
      List.Forall₂ (Field.IsReadFrom c.rules) ((Pool.flattenList sc.outer ds).flatMap (Pool.ownFields file))
        (Message.allFieldsOfList (Message.ofDescriptors c sc path i ds))
  | _, _, _, [] => .nil
  | sc, path, i, d :: ds => by
    rw [Pool.flattenList, List.flatMap_append, Message.ofDescriptors, Message.allFieldsOfList]
    exact List.rel_append (Message.forall₂_allFields sc _ d)
      (Message.forall₂_allFieldsOfList sc path (i + 1) ds)
end

end

theorem File.forall₂_allFields (rules : RuleIndex) (d : Descriptor.File) :
    List.Forall₂ (Field.IsReadFrom rules) (Pool.partsOf d Descriptor.Message.fields)
      (File.ofDescriptor rules d).allFields := by
  rw [Pool.partsOf_fields]
  let c : FileContext := ⟨d.name, d.package, .ofText d.dialect, d.locations, rules⟩
  exact Message.forall₂_allFieldsOfList (c := c) c.scope [4] 0 d.messages

/-- **A schema has the fields that a pool lists**, under the same full names and in the same order. -/
theorem Schema.forall₂_allFields (rules : RuleIndex) (files : List Descriptor.File) :
    List.Forall₂ (Field.IsReadFrom rules) (Pool.fieldsOf (keepFirst [] files))
      (ofDescriptors files rules).allFields := by
  rw [allFields, ofDescriptors, List.flatMap_map]
  refine List.rel_flatMap (R := Eq) (List.forall₂_eq_eq_eq ▸ rfl) ?_
  rintro d _ rfl
  exact File.forall₂_allFields rules d

/-! ## Types -/

theorem map_fullName_mapIdx_enums (c : FileContext) (sc : Scope) (path : Nat → List Int)
    (enums : List Descriptor.Enum) :
    (enums.mapIdx fun i e => Enum.ofDescriptor c sc (path i) e).map (·.fullName) =
      enums.map (qualify sc.outer ·.name) :=
  List.ext_getElem (by simp) fun i _ _ => by simp [Enum.ofDescriptor]

section
variable {c : FileContext}

mutual
/-- A message that a pool lists is one of the schema, with the enums that it declares. -/
theorem Message.exists_of_mem_flatten : ∀ (sc : Scope) (path : List Int) (d : Descriptor.Message),
    ∀ e ∈ Pool.flatten sc.outer d, ∃ m, .message m ∈ (Message.ofDescriptor c sc path d).types ∧
      m.fullName = qualify e.1 e.2.name ∧
      m.enums.map (·.fullName) = e.2.enums.map (qualify (qualify e.1 e.2.name) ·.name)
  | sc, path, ⟨name, fields, extensions, nested, enums, oneofs, ranges, reserved, mapEntry, options⟩,
      e, he => by
    have hinner := Message.exists_of_mem_flattenList (sc.enter name) (path ++ [3]) 0 nested e
    rw [Descriptor.flatten_eq, List.mem_append, List.mem_singleton] at he
    rw [Message.ofDescriptor]
    rcases he with he | rfl
    · obtain ⟨m, hm, h⟩ := hinner he
      refine ⟨m, ?_, h⟩
      rw [Message.types_eq]
      exact List.mem_cons_of_mem _ (List.mem_append_right _ hm)
    · refine ⟨_, Message.self_mem_types _, rfl, ?_⟩
      exact map_fullName_mapIdx_enums c (sc.enter name) _ enums

theorem Message.exists_of_mem_flattenList :
    ∀ (sc : Scope) (path : List Int) (i : Nat) (ds : List Descriptor.Message),
      ∀ e ∈ Pool.flattenList sc.outer ds, ∃ m,
        .message m ∈ Message.typesOfList (Message.ofDescriptors c sc path i ds) ∧
        m.fullName = qualify e.1 e.2.name ∧
        m.enums.map (·.fullName) = e.2.enums.map (qualify (qualify e.1 e.2.name) ·.name)
  | _, _, _, [], e, he => absurd he List.not_mem_nil
  | sc, path, i, d :: ds, e, he => by
    rw [Pool.flattenList, List.mem_append] at he
    rw [Message.ofDescriptors, Message.typesOfList]
    rcases he with he | he
    · obtain ⟨m, hm, h⟩ := Message.exists_of_mem_flatten sc (path ++ [(i : Int)]) d e he
      exact ⟨m, List.mem_append_left _ hm, h⟩
    · obtain ⟨m, hm, h⟩ := Message.exists_of_mem_flattenList sc path (i + 1) ds e he
      exact ⟨m, List.mem_append_right _ hm, h⟩
end

end

/-- The names of the types of a file, as a pool lists them. -/
theorem File.exists_of_mem_typeNames (rules : RuleIndex) {d : Descriptor.File} {name : String}
    (h : name ∈ Pool.typeNames d) : ∃ t ∈ (File.ofDescriptor rules d).types, t.fullName = name := by
  let c : FileContext := ⟨d.name, d.package, .ofText d.dialect, d.locations, rules⟩
  have hmessages := fun e he => Message.exists_of_mem_flattenList (c := c) c.scope [4] 0 d.messages e he
  rw [Pool.typeNames_eq, List.mem_append, List.mem_append, List.mem_map, List.mem_flatMap] at h
  rw [File.types]
  rcases h with ⟨e, he, rfl⟩ | h | ⟨e, he, h⟩
  · obtain ⟨m, hm, hname, -⟩ := hmessages e he
    exact ⟨.message m, List.mem_append_right _ hm, hname⟩
  · have henums := map_fullName_mapIdx_enums c c.scope (fun i => [5, (i : Int)]) d.enums
    rw [← show c.scope.outer = d.package from rfl, ← henums] at h
    obtain ⟨e, he, rfl⟩ := List.mem_map.1 h
    exact ⟨.enum e, List.mem_append_left _ (List.mem_map_of_mem he), rfl⟩
  · obtain ⟨m, hm, -, henums⟩ := hmessages e he
    rw [← henums] at h
    obtain ⟨en, hen, rfl⟩ := List.mem_map.1 h
    obtain ⟨m', hm', hm⟩ := Message.mem_typesOfList.1 hm
    have hinner : .enum en ∈ m.inner := List.mem_append_right _ (List.mem_map_of_mem hen)
    have hmem := Message.types_subset hm (Message.inner_subset_types hinner)
    exact ⟨.enum en, List.mem_append_right _ (Message.mem_typesOfList.2 ⟨m', hm', hmem⟩), rfl⟩

/-! ## References -/

/-- A field that refers to a type and has a type in a pool gives the name of a type, and the name
resolves. -/
theorem exists_typeName_of_valueType? {p : Pool} {x : Pool.Sited Descriptor.Field}
    (h : (p.valueType? x).isSome = true)
    (hkind : (FieldKind.ofNumber (x.decl.kind.getD 0)).isReference = true) :
    ∃ name isGroup, x.decl.typeName = some name ∧
      (p.resolve x.file (Pool.Definition.valueType? isGroup) (Pool.fieldName x) name).isSome = true := by
  cases hgiven : x.decl.kind with
  | none =>
    rw [hgiven] at hkind
    cases hkind
  | some k =>
    rw [hgiven, Option.getD_some] at hkind
    rw [Pool.valueType?, hgiven, Option.getD_some] at h
    cases hname : x.decl.typeName.filter (· ≠ "") with
    | some name => exact ⟨name, _, (Option.filter_eq_some_iff.1 hname).1, by simpa only [hname] using h⟩
    | none =>
      -- Without a name, only a kind that is no reference is a type.
      simp only [hname] at h
      cases hk : FieldKind.ofNumber k <;> simp_all [FieldKind.isReference]

namespace Schema

section
variable {files : List Descriptor.File} {p : Pool} (hp : (Pool.ofFiles files).interpret? = some p)
  (hvalid : p.isValid = true)
include hp hvalid

theorem nodup_fileNames_of_isValid : (files.map (·.name)).Nodup := by
  rw [← map_eq_map_of_forall₂ (Pool.forall₂_interpret? hp) fun _ _ h => h.name]
  exact Pool.nodup_fileNames hvalid

/-- **The fields of a valid pool** are those of the schema, each once. -/
theorem forall₂_allFields_of_isValid (rules : RuleIndex) :
    List.Forall₂ (Field.IsReadFrom rules) (Pool.fieldsOf files) (ofDescriptors files rules).allFields := by
  have hfields := forall₂_allFields rules files
  rwa [keepFirst_eq_self (nodup_fileNames_of_isValid hp hvalid) (by simp)] at hfields

/-- What a full name stands for in the pool is a type of the schema. -/
theorem exists_type_of_resolveFull (rules : RuleIndex) {file : Descriptor.File} {isGroup : Bool}
    {name : String}
    (h : (p.resolveFull file (Pool.Definition.valueType? isGroup) name).isSome = true) :
    ∃ t ∈ (ofDescriptors files rules).types, t.fullName = name := by
  obtain ⟨d', hd', hname⟩ := Pool.mem_typeNames_of_resolveFull (Pool.eq_ofFiles_of_interpret? hp) h
  obtain ⟨d, hd, hsame⟩ := exists_of_forall₂_left (Pool.forall₂_interpret? hp).flip d' hd'
  rw [Pool.typeNames_congr hsame] at hname
  obtain ⟨t, ht, hfull⟩ := File.exists_of_mem_typeNames rules hname
  refine ⟨t, ?_, hfull⟩
  rw [types, files_ofDescriptors (nodup_fileNames_of_isValid hp hvalid), List.flatMap_map]
  exact List.mem_flatMap.2 ⟨d, hd, ht⟩

/-- **A schema can be built** of files that form a valid pool, unless a type is named by a name that is
not full. -/
theorem exists_of_build_eq_error {rules : RuleIndex} {e : CompileError}
    (h : build files rules = .error e) : ∃ x ∈ Pool.fieldsOf files, ∃ name ∈ x.decl.typeName,
      name.toList.head? ≠ some '.' ∧ e = .unresolvedType (Pool.fieldName x) name := by
  obtain ⟨f, hfirst, rfl⟩ : ∃ f, (ofDescriptors files rules).firstUnresolved? = some f ∧
      CompileError.unresolvedType f.fullName (f.typeName.getD "") = e := by
    simp only [build] at h
    split at h
    · exact ⟨_, ‹_›, Except.error.inj h⟩
    · cases h
  have hf := List.mem_of_find?_eq_some hfirst
  have hbad := List.find?_some hfirst
  rw [Bool.and_eq_true, Option.isNone_iff_eq_none] at hbad
  obtain ⟨hreference, htarget⟩ := hbad
  obtain ⟨x, hx, hxf⟩ :=
    exists_of_forall₂_left (forall₂_allFields_of_isValid hp hvalid rules).flip f hf
  obtain ⟨y, hy, -, options, hdecl⟩ :=
    exists_of_forall₂_left (Pool.forall₂_fieldsOf_interpret? hp) x hx
  -- The field has a type in the pool, so its type name resolves there.
  have hkind : (FieldKind.ofNumber (y.decl.kind.getD 0)).isReference = true := by
    rwa [hdecl, ← hxf.kind]
  obtain ⟨name, isGroup, hname, hresolve⟩ :=
    exists_typeName_of_valueType? (Pool.isSome_valueType?_of_isValid hvalid hy) hkind
  rw [hdecl] at hname
  refine ⟨x, hx, name, hname, fun hhead => ?_, by rw [hxf.fullName, hxf.typeName, hname]; rfl⟩
  obtain ⟨rest, hrest⟩ := List.head?_eq_some_iff.1 hhead
  have hdrop : dropLeadingDot name = String.ofList rest := by simp [dropLeadingDot, hrest]
  simp only [Pool.resolve, hrest] at hresolve
  obtain ⟨t, ht, hfull⟩ := exists_type_of_resolveFull hp hvalid rules hresolve
  have hsome := isSome_type?_of_mem ht (hfull.trans hdrop.symm)
  rw [target?, if_pos hreference, hxf.typeName, hname, Option.getD_some] at htarget
  rw [htarget] at hsome
  cases hsome

end
end Schema
end ProtoModels
