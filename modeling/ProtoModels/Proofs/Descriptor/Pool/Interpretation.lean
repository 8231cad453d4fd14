import ProtoModels.Descriptor.Pool.Interpretation
import ProtoModels.Proofs.Traversals
/-!
# What setting options keeps

A declaration whose options are set is the declaration it was, but for options: every file keeps its
messages, fields, enums and extensions under their names and in their order (`Pool.forall₂_interpret?`), and
with them the names of its types (`Pool.typeNames_congr`) and the list of its fields
(`Pool.forall₂_fieldsOf_interpret?`).
-/
namespace ProtoModels.Descriptor

/-- The same field with other options. -/
def SameField (x x' : Field) : Prop := ∃ options, x' = { x with options }

/-- The same message with other options, as far as its fields and the names of its enums go. -/
structure SameMessage (m m' : Message) : Prop where
  name : m'.name = m.name
  fields : List.Forall₂ SameField m.fields m'.fields
  enums : m'.enums.map (·.name) = m.enums.map (·.name)

/-- The same file with other options. Its messages are compared one by one, with what they stand in. -/
structure SameFile (f f' : File) : Prop where
  name : f'.name = f.name
  package : f'.package = f.package
  messages : List.Forall₂ (fun e e' => e'.1 = e.1 ∧ SameMessage e.2 e'.2)
    (Pool.flattenList f.package f.messages) (Pool.flattenList f.package f'.messages)
  enums : f'.enums.map (·.name) = f.enums.map (·.name)
  extensions : List.Forall₂ SameField f.extensions f'.extensions

section
variable {read : OptionReader}

theorem forall₂_mapOptions_fields {outer : String} {fields fields' : List Field}
    (h : fields.mapM (Field.mapOptions read outer) = some fields') :
    List.Forall₂ SameField fields fields' := by
  refine (mapM_eq_some_iff.1 h).imp fun x x' hx => ?_
  obtain ⟨options, _, rfl⟩ := Option.map_eq_some_iff.1 hx
  exact ⟨options, rfl⟩

theorem map_name_mapOptions_enums {outer : String} {enums enums' : List Enum}
    (h : enums.mapM (Enum.mapOptions read outer) = some enums') :
    enums'.map (·.name) = enums.map (·.name) := by
  refine map_eq_map_of_forall₂ (mapM_eq_some_iff.1 h) fun e e' he => ?_
  simp only [Enum.mapOptions, Option.bind_eq_bind, Option.bind_eq_some_iff] at he
  obtain ⟨_, _, _, _, he⟩ := he
  cases he
  rfl

theorem flatten_eq (outer : String) (m : Message) :
    Pool.flatten outer m = Pool.flattenList (qualify outer m.name) m.nested ++ [(outer, m)] := by
  cases m
  rw [Pool.flatten]

mutual
theorem Message.forall₂_mapOptions : ∀ (outer : String) (m m' : Message),
    Message.mapOptions read outer m = some m' →
      List.Forall₂ (fun e e' => e'.1 = e.1 ∧ SameMessage e.2 e'.2)
        (Pool.flatten outer m) (Pool.flatten outer m')
  | outer, ⟨name, fields, extensions, nested, enums, oneofs, ranges, reserved, mapEntry, options⟩, m',
      h => by
    rw [Message.mapOptions] at h
    simp only [Option.bind_eq_bind, Option.bind_eq_some_iff] at h
    obtain ⟨fields', hfields, _, _, nested', hnested, enums', henums, _, _, _, _, _, _, h⟩ := h
    cases h
    rw [flatten_eq, flatten_eq]
    refine List.rel_append (Message.forall₂_mapOptionsList (qualify outer name) nested nested' hnested)
      (.cons ⟨rfl, ?_⟩ .nil)
    exact ⟨rfl, forall₂_mapOptions_fields hfields, map_name_mapOptions_enums henums⟩

theorem Message.forall₂_mapOptionsList : ∀ (outer : String) (ms ms' : List Message),
    Message.mapOptionsList read outer ms = some ms' →
      List.Forall₂ (fun e e' => e'.1 = e.1 ∧ SameMessage e.2 e'.2)
        (Pool.flattenList outer ms) (Pool.flattenList outer ms')
  | _, [], ms', h => by
    cases h
    exact .nil
  | outer, m :: ms, ms', h => by
    rw [Message.mapOptionsList] at h
    simp only [Option.bind_eq_bind, Option.bind_eq_some_iff] at h
    obtain ⟨m₁, hm, ms₁, hms, h⟩ := h
    cases h
    rw [Pool.flattenList, Pool.flattenList]
    exact List.rel_append (Message.forall₂_mapOptions outer m m₁ hm)
      (Message.forall₂_mapOptionsList outer ms ms₁ hms)
end

theorem sameFile_of_mapOptions {f f' : File} (h : File.mapOptions read f = some f') : SameFile f f' := by
  rw [File.mapOptions] at h
  simp only [Option.bind_eq_bind, Option.bind_eq_some_iff] at h
  obtain ⟨messages, hmessages, enums, henums, _, _, extensions, hextensions, _, _, h⟩ := h
  cases h
  exact
    { name := rfl
      package := rfl
      messages := Message.forall₂_mapOptionsList f.package f.messages messages hmessages
      enums := map_name_mapOptions_enums henums
      extensions := forall₂_mapOptions_fields hextensions }

end

namespace Pool

/-- **Setting options** keeps all files, in their order. -/
theorem forall₂_interpret? {files : List File} {p : Pool} (h : (ofFiles files).interpret? = some p) :
    List.Forall₂ SameFile files p.files := by
  obtain ⟨files', hfiles, rfl⟩ := Option.map_eq_some_iff.1 h
  exact (mapM_eq_some_iff.1 hfiles).imp fun _ _ => sameFile_of_mapOptions

theorem eq_ofFiles_of_interpret? {p p' : Pool} (h : p.interpret? = some p') : p' = ofFiles p'.files := by
  obtain ⟨files', _, rfl⟩ := Option.map_eq_some_iff.1 h
  rfl

/-! ## Names of types -/

/-- The full names of the messages and enums of a file. -/
def typeNames (f : File) : List String :=
  (messagesOf f).map messageName ++ (enumsOf f).map fun e => qualify e.outer e.decl.name

theorem typeNames_eq (f : File) :
    typeNames f = (flattenList f.package f.messages).map (fun e => qualify e.1 e.2.name) ++
      (f.enums.map (qualify f.package ·.name) ++
        (flattenList f.package f.messages).flatMap fun e =>
          e.2.enums.map (qualify (qualify e.1 e.2.name) ·.name)) := by
  simp only [typeNames, enumsOf, partsOf, messagesOf, List.map_map, List.map_append, List.map_flatMap,
    List.flatMap_map]
  rfl

theorem typeNames_congr {f f' : File} (h : SameFile f f') : typeNames f' = typeNames f := by
  have hmessages : (flattenList f.package f'.messages).map (fun e => qualify e.1 e.2.name) =
      (flattenList f.package f.messages).map fun e => qualify e.1 e.2.name :=
    map_eq_map_of_forall₂ h.messages fun e e' he => by rw [he.1, he.2.name]
  have htop : f'.enums.map (qualify f.package ·.name) = f.enums.map (qualify f.package ·.name) := by
    simpa [Function.comp_def] using congrArg (List.map (qualify f.package)) h.enums
  have hinner : (flattenList f.package f'.messages).flatMap
      (fun e => e.2.enums.map (qualify (qualify e.1 e.2.name) ·.name)) =
        (flattenList f.package f.messages).flatMap fun e =>
          e.2.enums.map (qualify (qualify e.1 e.2.name) ·.name) := by
    rw [List.flatMap_def, List.flatMap_def, map_eq_map_of_forall₂ h.messages fun e e' he => ?_]
    have hnames := congrArg (List.map (qualify (qualify e.1 e.2.name))) he.2.enums
    rw [he.1, he.2.name]
    simpa [Function.comp_def] using hnames
  rw [typeNames_eq, typeNames_eq, h.package, hmessages, htop, hinner]

/-! ## Fields -/

/-- The fields of all messages of some files, inner messages first. -/
def fieldsOf (files : List File) : List (Sited Field) :=
  files.flatMap fun f => partsOf f Message.fields

/-- The fields of a message that stands in a file, given with the full name of what it is declared in. -/
def ownFields (file : File) (e : String × Message) : List (Sited Field) :=
  e.2.fields.map (⟨file, qualify e.1 e.2.name, ·⟩)

theorem partsOf_fields (f : File) :
    partsOf f Message.fields = (flattenList f.package f.messages).flatMap (ownFields f) := by
  rw [partsOf, messagesOf, List.flatMap_map]
  rfl

/-- The same field in the same message, with other options. -/
def SameSited (x y : Sited Field) : Prop := y.outer = x.outer ∧ SameField x.decl y.decl

theorem SameSited.fieldName_eq {x y : Sited Field} (h : SameSited x y) : fieldName y = fieldName x := by
  obtain ⟨houter, options, hdecl⟩ := h
  rw [fieldName, fieldName, houter, hdecl]

theorem forall₂_partsOf_fields {f f' : File} (h : SameFile f f') :
    List.Forall₂ SameSited (partsOf f Message.fields) (partsOf f' Message.fields) := by
  rw [partsOf_fields, partsOf_fields, h.package]
  refine List.rel_flatMap h.messages fun e e' he => ?_
  obtain ⟨houter, hm⟩ := he
  rw [ownFields, ownFields, houter, hm.name, List.forall₂_map_left_iff, List.forall₂_map_right_iff]
  exact hm.fields.imp fun _ _ hx => ⟨rfl, hx⟩

/-- **Setting options** keeps all fields, in their order. -/
theorem forall₂_fieldsOf_interpret? {files : List File} {p : Pool}
    (h : (ofFiles files).interpret? = some p) :
    List.Forall₂ SameSited (fieldsOf files) (fieldsOf p.files) :=
  List.rel_flatMap (forall₂_interpret? h) fun _ _ => forall₂_partsOf_fields

end Pool
end ProtoModels.Descriptor
