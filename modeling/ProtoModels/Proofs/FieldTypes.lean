import ProtoModels.FieldType
import ProtoModels.Proofs.Schema.Placement
import ProtoModels.Proofs.Traversals
/-!
# Types of fields

A field's type is that of one value, found at `Schema.valueField`, put in a list or a map
(`fieldType_eq`). In a built schema it is missing for the kinds without Python type and for no other
(`fieldType_eq_error_iff`), and the classes that it names are those of declared types
(`exists_target?_of_mem_paths`).
-/
namespace ProtoModels

/-- The class paths that a type names. -/
def FieldType.paths : FieldType → List ClassPath
  | scalar _ | standard _ => []
  | declared path => [path]
  | list items => items.paths
  | map values => values.paths

/-- The kinds for which there is no Python type. -/
def FieldKind.isUnsupported : FieldKind → Bool
  | group | unknown _ => true
  | _ => false

namespace Schema

variable {s : Schema} {names : ClassNames}

/-- The field that says what the values of a field are: the value field of a map, else the field. -/
def valueField (s : Schema) (f : Field) : Field :=
  match s.entryFields? f with
  | some (_, value) => value
  | none => f

theorem valueField_eq_value {f key value : Field} (h : s.entryFields? f = some (key, value)) :
    s.valueField f = value := by
  simp [valueField, h]

theorem valueField_eq_self {f : Field} (h : s.entryFields? f = none) : s.valueField f = f := by
  simp [valueField, h]

theorem valueField_mem_allFields {f : Field} (hf : f ∈ s.allFields) : s.valueField f ∈ s.allFields := by
  cases h : s.entryFields? f with
  | none => rwa [valueField_eq_self h]
  | some entry => exact valueField_eq_value h ▸ (mem_allFields_of_entryFields? h).2

/-- The type of a field is the type of one value in a list or a map, or by itself. -/
theorem fieldType_eq (s : Schema) (names : ClassNames) (f : Field) : ∃ wrap : FieldType → FieldType,
    (∀ type, (wrap type).paths = type.paths) ∧
      s.fieldType names f = (s.singularType names (s.valueField f)).map wrap := by
  unfold fieldType
  cases h : s.entryFields? f with
  | some entry => exact ⟨.map, fun _ => rfl, by rw [valueField_eq_value h]⟩
  | none =>
    refine ⟨fun type => if f.isRepeated then .list type else type, fun type => ?_, ?_⟩
    · simp only
      split <;> rfl
    · rw [valueField_eq_self h]

/-! ## Missing types -/

/-- Groups and unknown kinds are all that has no type, if every reference has a target. -/
theorem singularType_eq_error_iff (names : ClassNames) {f : Field}
    (htarget : f.kind.isReference = true → ∃ t, s.target? f = some t) {e : CompileError} :
    s.singularType names f = .error e ↔
      f.kind.isUnsupported = true ∧ e = .unsupportedKind f.fullName f.kind.number := by
  have hscalar : ∀ kind : FieldKind, kind ≠ .message → kind ≠ .enum →
      kind.scalar?.isNone = kind.isUnsupported := by
    intro kind hm he
    cases kind <;> first | rfl | contradiction
  unfold singularType
  split
  · rename_i hk
    obtain ⟨t, ht⟩ := htarget (by rw [hk]; rfl)
    simp [hk, ht, FieldKind.isUnsupported]
  · rename_i hk
    obtain ⟨t, ht⟩ := htarget (by rw [hk]; rfl)
    simp [hk, ht, FieldKind.isUnsupported]
  · rename_i hm he
    rw [← hscalar _ hm he]
    cases f.kind.scalar? <;> simp [eq_comm]

/-- **In a built schema** a field has no type exactly if it is a group or of an unknown kind. -/
theorem fieldType_eq_error_iff {files : List Descriptor.File} {rules : RuleIndex}
    (h : build files rules = .ok s) {f : Field} (hf : f ∈ s.allFields) {e : CompileError} :
    s.fieldType names f = .error e ↔ (s.valueField f).kind.isUnsupported = true ∧
      e = .unsupportedKind (s.valueField f).fullName (s.valueField f).kind.number := by
  obtain ⟨wrap, _, htype⟩ := fieldType_eq s names f
  have htarget := exists_target?_of_build h (valueField_mem_allFields hf)
  rw [← singularType_eq_error_iff names htarget, htype, map_eq_error_iff]

/-! ## Named classes -/

theorem paths_of_singularType {f : Field} {type : FieldType} (h : s.singularType names f = .ok type)
    {p : ClassPath} (hp : p ∈ type.paths) :
    ∃ t, s.target? f = some t ∧ t.isStandard = false ∧ p = names.resolve t := by
  have named : ∀ t, p ∈ (namedType names t).paths → t.isStandard = false ∧ p = names.resolve t := by
    intro t ht
    unfold namedType at ht
    split at ht
    · simp [FieldType.paths] at ht
    · rename_i hnone
      exact ⟨by simp [TypeDecl.isStandard, StandardType.isStandard, hnone],
        by simpa [FieldType.paths] using ht⟩
  unfold singularType at h
  split at h
  · split at h <;> cases h
    exact ⟨_, ‹_›, named _ hp⟩
  · split at h <;> cases h
    exact ⟨_, ‹_›, named _ hp⟩
  · split at h <;> cases h
    simp [FieldType.paths] at hp

/-- **A class path in a type** is that of the type which the field's values have. -/
theorem exists_target?_of_mem_paths {f : Field} {type : FieldType}
    (h : s.fieldType names f = .ok type) {p : ClassPath} (hp : p ∈ type.paths) :
    ∃ t, s.target? (s.valueField f) = some t ∧ t.isStandard = false ∧ p = names.resolve t := by
  obtain ⟨wrap, hpaths, htype⟩ := fieldType_eq s names f
  obtain ⟨value, hvalue, rfl⟩ := map_eq_ok_iff.1 (htype ▸ h)
  exact paths_of_singularType hvalue (hpaths value ▸ hp)

/-- A field whose values have a declared type that is not standard names the type's class. -/
theorem exists_fieldType_of_target? (names : ClassNames) {f : Field} {t : TypeDecl}
    (hkind : (s.valueField f).kind.isUnsupported = false)
    (ht : s.target? (s.valueField f) = some t) (hstd : t.isStandard = false) :
    ∃ type, s.fieldType names f = .ok type ∧ names.resolve t ∈ type.paths := by
  obtain ⟨wrap, hpaths, htype⟩ := fieldType_eq s names f
  have hvalue : s.singularType names (s.valueField f) = .ok (.declared (names.resolve t)) := by
    have hnone : StandardType.find? t.fullName = none := by
      simpa [TypeDecl.isStandard, StandardType.isStandard] using hstd
    have hreference := isReference_of_target? ht
    revert hkind hreference
    unfold singularType
    cases (s.valueField f).kind <;>
      simp [FieldKind.isUnsupported, FieldKind.isReference, ht, namedType, hnone]
  refine ⟨wrap (.declared (names.resolve t)), ?_, by simp [hpaths, FieldType.paths]⟩
  rw [htype, hvalue]
  rfl

end Schema
end ProtoModels
