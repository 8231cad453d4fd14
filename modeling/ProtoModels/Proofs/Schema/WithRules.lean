import ProtoModels.FieldSpec
import ProtoModels.Proofs.Schema.Declarations
import ProtoModels.Schema.Build
/-!
# Schemas with other rules

Reading descriptors with some rules is reading them without any and then giving every field its rules
(`Schema.ofDescriptors_eq`). Nothing but a field's specification looks at rules: lookups, class paths,
field types, walks and the declarations that are collected are those of the schema without rules
(`Schema.type?_withRules`, `Schema.fieldType_withRules`, `Schema.collect_withRules`).
-/
namespace ProtoModels

/-! ## Giving fields their rules -/

/-- The field with the rules that an index has for it. -/
def Field.withRules (rules : RuleIndex) (f : Field) : Field :=
  { f with rules := rules.get? f.fullName }

mutual
/-- The message with the rules of its fields and of those of all messages in it. -/
def Message.withRules (rules : RuleIndex) : Message → Message
  | ⟨name, fullName, place, parent, enums, messages, fields, oneofs, mapEntry, comment⟩ =>
    ⟨name, fullName, place, parent, enums, Message.withRulesList rules messages,
      fields.map (Field.withRules rules), oneofs, mapEntry, comment⟩

def Message.withRulesList (rules : RuleIndex) : List Message → List Message
  | [] => []
  | m :: ms => m.withRules rules :: Message.withRulesList rules ms
end

def TypeDecl.withRules (rules : RuleIndex) : TypeDecl → TypeDecl
  | message m => message (m.withRules rules)
  | enum e => enum e

def File.withRules (rules : RuleIndex) (f : File) : File :=
  { f with messages := f.messages.map (Message.withRules rules) }

def Schema.withRules (rules : RuleIndex) (s : Schema) : Schema := ⟨s.files.map (File.withRules rules)⟩

def Decl.withRules (rules : RuleIndex) : Decl → Decl
  | file f => file (f.withRules rules)
  | enum e => enum e
  | message m => message (m.withRules rules)
  | field f => field (f.withRules rules)

variable {rules : RuleIndex}

namespace Message

@[simp] theorem withRulesList_eq (ms : List Message) :
    withRulesList rules ms = ms.map (withRules rules) := by
  induction ms with
  | nil => rfl
  | cons m ms ih => rw [withRulesList, ih, List.map_cons]

section
variable (m : Message)

@[simp] theorem name_withRules : (m.withRules rules).name = m.name := by cases m; rw [withRules]
@[simp] theorem fullName_withRules : (m.withRules rules).fullName = m.fullName := by
  cases m; rw [withRules]
@[simp] theorem place_withRules : (m.withRules rules).place = m.place := by cases m; rw [withRules]
@[simp] theorem parent_withRules : (m.withRules rules).parent = m.parent := by cases m; rw [withRules]
@[simp] theorem enums_withRules : (m.withRules rules).enums = m.enums := by cases m; rw [withRules]
@[simp] theorem messages_withRules :
    (m.withRules rules).messages = m.messages.map (withRules rules) := by
  cases m; rw [withRules, withRulesList_eq]
@[simp] theorem fields_withRules : (m.withRules rules).fields = m.fields.map (Field.withRules rules) := by
  cases m; rw [withRules]
@[simp] theorem oneofs_withRules : (m.withRules rules).oneofs = m.oneofs := by cases m; rw [withRules]
@[simp] theorem mapEntry_withRules : (m.withRules rules).mapEntry = m.mapEntry := by
  cases m; rw [withRules]
@[simp] theorem comment_withRules : (m.withRules rules).comment = m.comment := by
  cases m; rw [withRules]

end
end Message

namespace TypeDecl

variable (t : TypeDecl)

@[simp] theorem name_withRules : (t.withRules rules).name = t.name := by
  cases t <;> simp [withRules, name]
@[simp] theorem fullName_withRules : (t.withRules rules).fullName = t.fullName := by
  cases t <;> simp [withRules, fullName]
@[simp] theorem place_withRules : (t.withRules rules).place = t.place := by
  cases t <;> simp [withRules, place]
@[simp] theorem package_withRules : (t.withRules rules).package = t.package := by simp [package]
@[simp] theorem isStandard_withRules : (t.withRules rules).isStandard = t.isStandard := by
  simp [isStandard]

end TypeDecl

@[simp] theorem Decl.name_withRules (d : Decl) : (d.withRules rules).name = d.name := by
  cases d <;> simp [Decl.withRules, Decl.name, File.withRules, Field.withRules]

@[simp] theorem Decl.ofType_withRules (t : TypeDecl) :
    Decl.ofType (t.withRules rules) = (Decl.ofType t).withRules rules := by
  cases t <;> rfl

/-! ## Reading descriptors -/

theorem map_mapIdx {α β γ : Type} (f : Nat → α → β) (g : β → γ) (l : List α) :
    (l.mapIdx f).map g = l.mapIdx fun i a => g (f i a) :=
  List.ext_getElem (by simp) (by simp)

mutual
theorem Message.ofDescriptor_eq (c : FileContext) (sc : Scope) (path : List Int) :
    ∀ d : Descriptor.Message, Message.ofDescriptor { c with rules } sc path d =
      (Message.ofDescriptor c sc path d).withRules rules
  | ⟨_, _, _, _, _, _, _, _, _, _⟩ => by
    rw [Message.ofDescriptor, Message.ofDescriptor, withRules, Message.ofDescriptors_eq, map_mapIdx]
    rfl

theorem Message.ofDescriptors_eq (c : FileContext) (sc : Scope) (path : List Int) :
    ∀ (i : Nat) (ds : List Descriptor.Message), Message.ofDescriptors { c with rules } sc path i ds =
      Message.withRulesList rules (Message.ofDescriptors c sc path i ds)
  | _, [] => rfl
  | i, d :: ds => by
    rw [Message.ofDescriptors, Message.ofDescriptors, withRulesList, Message.ofDescriptor_eq,
      Message.ofDescriptors_eq]
end

theorem File.ofDescriptor_eq (d : Descriptor.File) :
    File.ofDescriptor rules d = (File.ofDescriptor {} d).withRules rules := by
  simp only [File.ofDescriptor, File.withRules]
  rw [Message.ofDescriptors_eq ⟨d.name, d.package, .ofText d.dialect, d.locations, {}⟩,
    Message.withRulesList_eq]
  rfl

/-- **Reading with rules** is reading without rules, and then giving every field its rules. -/
theorem Schema.ofDescriptors_eq (files : List Descriptor.File) (rules : RuleIndex) :
    ofDescriptors files rules = (ofDescriptors files {}).withRules rules := by
  rw [ofDescriptors, ofDescriptors, withRules, List.map_map]
  exact congrArg Schema.mk (List.map_congr_left fun d _ => File.ofDescriptor_eq d)

/-! ## Declarations -/

mutual
theorem Message.types_withRules : ∀ m : Message,
    (m.withRules rules).types = m.types.map (TypeDecl.withRules rules)
  | ⟨n, fn, p, pa, es, ms, fs, os, me, c⟩ => by
    have hinner := Message.typesOfList_withRules ms
    rw [Message.types_eq, Message.types_eq]
    simp only [Message.enums_withRules, Message.messages_withRules, hinner, List.map_cons,
      List.map_append, List.map_map]
    rfl

theorem Message.typesOfList_withRules : ∀ ms : List Message,
    Message.typesOfList (ms.map (Message.withRules rules)) =
      (Message.typesOfList ms).map (TypeDecl.withRules rules)
  | [] => rfl
  | m :: ms => by
    rw [List.map_cons, Message.typesOfList, Message.typesOfList, List.map_append,
      Message.types_withRules m, Message.typesOfList_withRules ms]
end

mutual
theorem Message.allFields_withRules : ∀ m : Message,
    (m.withRules rules).allFields = m.allFields.map (Field.withRules rules)
  | ⟨n, fn, p, pa, es, ms, fs, os, me, c⟩ => by
    have hinner := Message.allFieldsOfList_withRules ms
    rw [Message.allFields_eq, Message.allFields_eq]
    simp only [Message.fields_withRules, Message.messages_withRules, hinner, List.map_append]

theorem Message.allFieldsOfList_withRules : ∀ ms : List Message,
    Message.allFieldsOfList (ms.map (Message.withRules rules)) =
      (Message.allFieldsOfList ms).map (Field.withRules rules)
  | [] => rfl
  | m :: ms => by
    rw [List.map_cons, Message.allFieldsOfList, Message.allFieldsOfList, List.map_append,
      Message.allFields_withRules m, Message.allFieldsOfList_withRules ms]
end

section
variable {rules' : RuleIndex}

mutual
theorem Message.withRules_congr : ∀ m : Message,
    (∀ f ∈ m.allFields, rules'.get? f.fullName = rules.get? f.fullName) →
      m.withRules rules' = m.withRules rules
  | ⟨n, fn, p, pa, es, ms, fs, os, me, c⟩, h => by
    rw [Message.allFields_eq, List.forall_mem_append] at h
    have hfields : fs.map (Field.withRules rules') = fs.map (Field.withRules rules) :=
      List.map_congr_left fun f hf => by rw [Field.withRules, Field.withRules, h.2 f hf]
    rw [withRules, withRules, Message.withRulesList_congr ms h.1, hfields]

theorem Message.withRulesList_congr : ∀ ms : List Message,
    (∀ f ∈ Message.allFieldsOfList ms, rules'.get? f.fullName = rules.get? f.fullName) →
      Message.withRulesList rules' ms = Message.withRulesList rules ms
  | [], _ => rfl
  | m :: ms, h => by
    rw [Message.allFieldsOfList, List.forall_mem_append] at h
    rw [withRulesList, withRulesList, Message.withRules_congr m h.1, Message.withRulesList_congr ms h.2]
end

/-- Only the rules of the fields there are count. -/
theorem Schema.withRules_congr (s : Schema)
    (h : ∀ f ∈ s.allFields, rules'.get? f.fullName = rules.get? f.fullName) :
    s.withRules rules' = s.withRules rules := by
  refine congrArg Schema.mk (List.map_congr_left fun file hfile => ?_)
  rw [File.withRules, File.withRules, ← Message.withRulesList_eq, ← Message.withRulesList_eq,
    Message.withRulesList_congr]
  exact fun f hf => h f (List.mem_flatMap.2 ⟨file, hfile, hf⟩)

end

theorem File.types_withRules (f : File) :
    (f.withRules rules).types = f.types.map (TypeDecl.withRules rules) := by
  simp only [File.types, File.withRules, Message.typesOfList_withRules, List.map_append, List.map_map]
  rfl

theorem File.topLevel_withRules (f : File) :
    (f.withRules rules).topLevel = f.topLevel.map (TypeDecl.withRules rules) := by
  simp only [File.topLevel, File.withRules, List.map_append, List.map_map]
  rfl

namespace Schema

variable (s : Schema)

theorem types_withRules : (s.withRules rules).types = s.types.map (TypeDecl.withRules rules) := by
  simp only [types, withRules, List.flatMap_map, List.map_flatMap, File.types_withRules]

theorem allFields_withRules :
    (s.withRules rules).allFields = s.allFields.map (Field.withRules rules) := by
  simp only [allFields, withRules, List.flatMap_map, List.map_flatMap, File.allFields, File.withRules,
    Message.allFieldsOfList_withRules]

/-! ## Lookups -/

theorem file?_withRules (path : String) :
    (s.withRules rules).file? path = (s.file? path).map (File.withRules rules) := by
  simp [file?, withRules, List.find?_map, Function.comp_def, File.withRules]

theorem type?_withRules (name : String) :
    (s.withRules rules).type? name = (s.type? name).map (TypeDecl.withRules rules) := by
  simp only [type?, types_withRules, List.findRev?_eq_find?_reverse, ← List.map_reverse, List.find?_map,
    Function.comp_def, TypeDecl.fullName_withRules]

theorem target?_withRules (f : Field) :
    (s.withRules rules).target? (f.withRules rules) = (s.target? f).map (TypeDecl.withRules rules) := by
  have hkind : (f.withRules rules).kind = f.kind := rfl
  have hname : (f.withRules rules).typeName = f.typeName := rfl
  rw [target?, target?, hkind, hname, type?_withRules]
  split <;> rfl

theorem mapEntry?_withRules (f : Field) :
    mapEntry? (s.withRules rules) (f.withRules rules) =
      (s.mapEntry? f).map (Message.withRules rules) := by
  have hrepeated : (f.withRules rules).isRepeated = f.isRepeated := rfl
  unfold mapEntry?
  rw [hrepeated, target?_withRules]
  cases f.isRepeated with
  | false => rfl
  | true =>
    cases s.target? f with
    | none => rfl
    | some t =>
      cases t with
      | enum e => rfl
      | message m => cases h : m.mapEntry <;> simp [TypeDecl.withRules, h]

theorem isMap_withRules (f : Field) : (s.withRules rules).isMap (f.withRules rules) = s.isMap f := by
  simp [isMap, mapEntry?_withRules]

theorem entryFields?_withRules (f : Field) :
    (s.withRules rules).entryFields? (f.withRules rules) =
      (s.entryFields? f).map fun (key, value) => (key.withRules rules, value.withRules rules) := by
  have hfind : ∀ (name : String) (m : Message), (m.withRules rules).fields.find? (·.name == name) =
      (m.fields.find? (·.name == name)).map (Field.withRules rules) := fun name m => by
    simp [List.find?_map, Function.comp_def, Field.withRules]
  unfold entryFields?
  rw [mapEntry?_withRules]
  cases s.mapEntry? f with
  | none => rfl
  | some entry =>
    simp only [Option.map_some, Option.bind_eq_bind, Option.bind_some, hfind]
    cases entry.fields.find? (·.name == "key") with
    | none => rfl
    | some key => cases entry.fields.find? (·.name == "value") <;> rfl

theorem firstUnresolved?_withRules :
    (s.withRules rules).firstUnresolved? = s.firstUnresolved?.map (Field.withRules rules) := by
  have hreference : ∀ f : Field, (f.withRules rules).kind.isReference = f.kind.isReference := fun _ => rfl
  simp only [firstUnresolved?, allFields_withRules, List.find?_map, Function.comp_def, target?_withRules,
    hreference, Option.isNone_map]

/-! ## Class paths and types of fields -/

theorem ofPackage_withRules (target : String) :
    ClassNames.ofPackage (s.withRules rules) target = ClassNames.ofPackage s target := by
  have htop : (s.withRules rules).topLevelNames target = s.topLevelNames target := by
    simp [topLevelNames, withRules, List.filter_map, List.map_flatMap, List.flatMap_map,
      File.topLevel_withRules, Function.comp_def]
    rfl
  have hforeign : (s.withRules rules).foreignPackages target = s.foreignPackages target := by
    simp [foreignPackages, withRules, Function.comp_def, File.withRules]
  rw [ClassNames.ofPackage, ClassNames.ofPackage, htop, hforeign]

end Schema

@[simp] theorem ClassNames.resolve_withRules (names : ClassNames) (t : TypeDecl) :
    names.resolve (t.withRules rules) = names.resolve t := by
  simp [resolve]

namespace Schema

variable (s : Schema) (names : ClassNames)

theorem namedType_withRules (t : TypeDecl) : namedType names (t.withRules rules) = namedType names t := by
  simp [namedType]

theorem singularType_withRules (f : Field) :
    (s.withRules rules).singularType names (f.withRules rules) = s.singularType names f := by
  have hkind : (f.withRules rules).kind = f.kind := rfl
  unfold singularType
  rw [hkind, target?_withRules]
  cases f.kind <;> cases s.target? f <;> simp [namedType_withRules, Field.withRules]

/-- **The type of a field** does not depend on rules. -/
theorem fieldType_withRules (f : Field) :
    (s.withRules rules).fieldType names (f.withRules rules) = s.fieldType names f := by
  have hrepeated : (f.withRules rules).isRepeated = f.isRepeated := rfl
  rw [fieldType, fieldType, entryFields?_withRules, singularType_withRules, hrepeated]
  cases s.entryFields? f with
  | none => rfl
  | some entry => simp [singularType_withRules]

end Schema

/-! ## Walks -/

/-- The task for the declaration with its rules. -/
def Task.withRules (rules : RuleIndex) : Task → Task
  | enter d => enter (d.withRules rules)
  | leave m => leave (m.withRules rules)

namespace Walk

theorem belowFile_withRules (f : File) :
    belowFile (f.withRules rules) = (belowFile f).map (Task.withRules rules) := by
  simp [belowFile, File.withRules, Function.comp_def, Task.withRules, Decl.withRules]

theorem belowMessage_withRules (m : Message) :
    belowMessage (m.withRules rules) = (belowMessage m).map (Task.withRules rules) := by
  simp [belowMessage, Function.comp_def, Task.withRules, Decl.withRules]

theorem belowField_withRules (s : Schema) (f : Field) :
    belowField (s.withRules rules) (f.withRules rules) =
      (belowField s f).map (Task.withRules rules) := by
  rw [belowField, belowField, Schema.entryFields?_withRules, Schema.target?_withRules]
  cases s.entryFields? f <;> cases s.target? f <;> simp [Task.withRules, Decl.withRules]

variable {s : Schema} {visit visit' : List Decl → Decl → Bool}
  (hvisit : ∀ visited d,
    visit' (visited.map (Decl.withRules rules)) (d.withRules rules) = visit visited d)
include hvisit

theorem enter_withRules (visited : List Decl) (d : Decl) :
    enter (s.withRules rules) visit' (visited.map (Decl.withRules rules)) (d.withRules rules) =
      ((enter s visit visited d).1.map (Decl.withRules rules),
        (enter s visit visited d).2.map (Task.withRules rules)) := by
  have h := hvisit visited d
  cases d with
  | message m => simp only [Decl.withRules, enter, belowMessage_withRules]
  | enum e => rfl
  | file f =>
    simp only [Decl.withRules, enter, belowFile_withRules] at h ⊢
    rw [h]
    split <;> rfl
  | field f =>
    simp only [Decl.withRules, enter, belowField_withRules] at h ⊢
    rw [h]
    split <;> rfl

/-- A walk visits the declarations with their rules, if the visitor does not ask for rules. -/
theorem run_withRules (unused : List String) (visited : List Decl) (tasks : List Task) :
    run (s.withRules rules) visit' unused (visited.map (Decl.withRules rules))
        (tasks.map (Task.withRules rules)) =
      (run s visit unused visited tasks).map (Decl.withRules rules) := by
  fun_induction run s visit unused visited tasks with
  | case1 unused visited => rw [List.map_nil, run]
  | case2 unused visited m tasks ih =>
    rw [List.map_cons, Task.withRules, run]
    exact ih
  | case3 unused visited d tasks hmem _ step ih =>
    rw [List.map_cons, Task.withRules, run, dif_pos (by rwa [Decl.name_withRules]),
      enter_withRules hvisit]
    dsimp only
    rw [Decl.name_withRules, ← List.map_append]
    exact ih
  | case4 unused visited d tasks hmem ih =>
    rw [List.map_cons, Task.withRules, run, dif_neg (by rwa [Decl.name_withRules])]
    exact ih

end Walk

theorem Decl.classType?_withRules (d : Decl) :
    (d.withRules rules).classType? = d.classType?.map (TypeDecl.withRules rules) := by
  cases d with
  | message m =>
    simp only [Decl.withRules, classType?, Message.mapEntry_withRules, Message.fullName_withRules]
    split <;> rfl
  | enum e =>
    simp only [Decl.withRules, classType?]
    split <;> rfl
  | file f => rfl
  | field f => rfl

namespace Schema

variable (s : Schema)

theorem descends_withRules (d : Decl) :
    (s.withRules rules).descends (d.withRules rules) = s.descends d := by
  cases d with
  | field f =>
    simp only [Decl.withRules, descends, target?_withRules]
    cases s.target? f <;> simp
  | file f => rfl
  | enum e => rfl
  | message m => rfl

theorem names_withRules : (s.withRules rules).names = s.names := by
  have hpaths : (s.withRules rules).files.map (·.path) = s.files.map (·.path) := by
    simp [withRules, Function.comp_def, File.withRules]
  rw [names, names, types_withRules, allFields_withRules, hpaths]
  simp [Function.comp_def, Field.withRules]

/-- **The types that become classes** are the same, whatever the rules. -/
theorem collect_withRules (roots : List File) :
    (s.withRules rules).collect (roots.map (File.withRules rules)) =
      (s.collect roots).map (TypeDecl.withRules rules) := by
  have hroots : (roots.map (File.withRules rules)).map (fun f => Task.enter (.file f)) =
      (roots.map fun f => Task.enter (.file f)).map (Task.withRules rules) := by
    simp [Function.comp_def, Task.withRules, Decl.withRules]
  have hrun : Walk.run (s.withRules rules) (fun _ d => (s.withRules rules).descends d) s.names []
      ((roots.map fun f => Task.enter (.file f)).map (Task.withRules rules)) =
        (Walk.run s (fun _ d => s.descends d) s.names []
          (roots.map fun f => Task.enter (.file f))).map (Decl.withRules rules) :=
    Walk.run_withRules (fun _ d => s.descends_withRules d) s.names [] _
  rw [collect, collect, walk, walk, names_withRules, hroots, hrun, ← List.map_reverse,
    List.filterMap_map, List.map_filterMap]
  exact congrArg (List.filterMap · _) (funext fun d => d.classType?_withRules)

end Schema
end ProtoModels
