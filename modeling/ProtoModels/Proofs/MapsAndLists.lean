import Mathlib.Data.List.Nodup
import ProtoModels.Proofs.Failures
import ProtoModels.Proofs.Oneofs
import ProtoModels.Proofs.References
/-!
# Maps and lists

What a schema calls a map or a list decides in three places: the type of a field, the serializer of its
message, and the default that stands for a missing value. If every entry of a map declares a key and a
value, the three agree on every field that has a type (`Schema.maps_and_lists_agree`).
-/
namespace ProtoModels

/-! ## The type of a field -/

/-- The type of one value, which is neither a list nor a map. -/
def FieldType.IsSingle (type : FieldType) : Prop := type.isList = false ∧ type.isMap = false

namespace Schema

variable {s : Schema} {names : ClassNames} {f : Field} {type : FieldType}

theorem isSingle_of_singularType (h : s.singularType names f = .ok type) : type.IsSingle := by
  have hnamed (t : TypeDecl) : (namedType names t).IsSingle := by
    unfold namedType
    split <;> exact ⟨rfl, rfl⟩
  unfold singularType at h
  split at h
  · split at h <;> cases h
    exact hnamed _
  · split at h <;> cases h
    exact hnamed _
  · split at h <;> cases h
    exact ⟨rfl, rfl⟩

theorem isRepeated_of_isMap (h : s.isMap f = true) : f.isRepeated = true := by
  obtain ⟨entry, hentry⟩ := Option.isSome_iff_exists.1 h
  exact (mapEntry?_eq_some_iff.1 hentry).1

section
variable (hkey : ∀ m ∈ s.mapEntries, ∃ f ∈ m.fields, f.name = "key")
  (hvalue : ∀ m ∈ s.mapEntries, ∃ f ∈ m.fields, f.name = "value")
  (h : s.fieldType names f = .ok type)
include hkey hvalue h

/-- A field that has a type is a map, a list or neither, in the schema as in its type. -/
theorem fieldType_cases :
    (s.isMap f = true ∧ f.isRepeated = true ∧ ∃ values : FieldType, values.IsSingle ∧ type = .map values) ∨
    (s.isMap f = false ∧ f.isRepeated = true ∧ ∃ items : FieldType, items.IsSingle ∧ type = .list items) ∨
    (s.isMap f = false ∧ f.isRepeated = false ∧ type.IsSingle) := by
  rw [fieldType] at h
  cases hentry : s.mapEntry? f with
  | some entry =>
    obtain ⟨key, value, hfields, -⟩ := exists_entryFields?_of_mapEntry? hkey hvalue hentry
    have hmap : s.isMap f = true := by rw [isMap, hentry]; rfl
    rw [hfields] at h
    obtain ⟨values, hvalues, rfl⟩ := map_eq_ok_iff.1 h
    exact .inl ⟨hmap, isRepeated_of_isMap hmap, values, isSingle_of_singularType hvalues, rfl⟩
  | none =>
    have hnone : s.entryFields? f = none := by simp [entryFields?, hentry]
    have hmap : s.isMap f = false := by rw [isMap, hentry]; rfl
    rw [hnone] at h
    obtain ⟨single, hsingle, rfl⟩ := map_eq_ok_iff.1 h
    cases hrepeated : f.isRepeated with
    | true => exact .inr (.inl ⟨hmap, rfl, single, isSingle_of_singularType hsingle, rfl⟩)
    | false => exact .inr (.inr ⟨hmap, rfl, isSingle_of_singularType hsingle⟩)

theorem isMap_fieldType : type.isMap = s.isMap f := by
  rcases fieldType_cases hkey hvalue h with
    ⟨hmap, -, values, -, rfl⟩ | ⟨hmap, -, items, -, rfl⟩ | ⟨hmap, -, hsingle⟩
  · exact hmap.symm
  · exact hmap.symm
  · exact hsingle.2.trans hmap.symm

theorem isList_fieldType : type.isList = s.isList f := by
  rcases fieldType_cases hkey hvalue h with
    ⟨hmap, -, values, -, rfl⟩ | ⟨hmap, hrepeated, items, -, rfl⟩ | ⟨-, hrepeated, hsingle⟩
  · simp [isList, hmap, FieldType.isList]
  · simp [isList, hmap, hrepeated, FieldType.isList]
  · simp [isList, hrepeated, hsingle.1]

theorem isSingle_fieldType_iff : type.IsSingle ↔ f.isRepeated = false := by
  rcases fieldType_cases hkey hvalue h with
    ⟨-, hrepeated, values, -, rfl⟩ | ⟨-, hrepeated, items, -, rfl⟩ | ⟨-, hrepeated, hsingle⟩
  · simp [FieldType.IsSingle, FieldType.isMap, hrepeated]
  · simp [FieldType.IsSingle, FieldType.isList, hrepeated]
  · exact iff_of_true hsingle hrepeated

/-- The type inside of a map or a list is the type of one value. -/
theorem isSingle_inner {inner : FieldType} (hinner : type = .map inner ∨ type = .list inner) :
    inner.IsSingle := by
  rcases fieldType_cases hkey hvalue h with
    ⟨-, -, values, hvalues, rfl⟩ | ⟨-, -, items, hitems, rfl⟩ | ⟨-, -, hsingle⟩
  · rcases hinner with heq | heq <;> cases heq
    exact hvalues
  · rcases hinner with heq | heq <;> cases heq
    exact hitems
  · rcases hinner with rfl | rfl
    · cases hsingle.2
    · cases hsingle.1

end

/-! ## The serializer of a message -/

theorem mapFields_eq_append {m : Message} {before after : List Field}
    (h : m.fields = before ++ f :: after) :
    s.mapFields m = (before.filter s.isMap).map (·.name) ++ (if s.isMap f then [f.name] else []) ++
      (after.filter s.isMap).map (·.name) := by
  rw [mapFields, h, List.filter_append, List.filter_cons, List.map_append, List.append_assoc]
  split <;> rfl

theorem mem_mapFields_iff {m : Message} (hf : f ∈ m.fields) (hnames : (m.fields.map (·.name)).Nodup) :
    f.name ∈ s.mapFields m ↔ s.isMap f = true := by
  rw [mapFields, List.mem_map]
  constructor
  · rintro ⟨g, hg, hname⟩
    obtain ⟨hg, hmap⟩ := List.mem_filter.1 hg
    rwa [List.inj_on_of_nodup_map hnames hg hf hname] at hmap
  · exact fun hmap => ⟨f, List.mem_filter.2 ⟨hf, hmap⟩, rfl⟩

end Schema

/-! ## The default of a field -/

/-- Without the keyword `optional` and outside all oneofs the implied default is the empty value of the
type, if it has one. -/
theorem Field.directive_impliedDefault {f : Field} (hkeyword : f.optionalKeyword = false)
    (honeof : f.oneof = none) (type : FieldType) :
    (f.impliedDefault type).map (·.directive) =
      if type.isMap then some "default_factory=dict"
      else if type.isList then some "default_factory=list"
      else none := by
  have hgroup : f.inOneofGroup = false := by simp [inOneofGroup, honeof]
  rw [impliedDefault, hkeyword, hgroup]
  cases type <;> rfl

theorem Field.exists_spec_iff {f : Field} {type : FieldType} :
    (∃ spec, f.spec type = .ok spec) ↔ ¬ (f.rules.getD .unset).Conflict := by
  constructor
  · rintro ⟨spec, hspec⟩ hconflict
    obtain ⟨e, he⟩ := exists_spec_error hconflict type
    rw [hspec] at he
    cases he
  · intro hconflict
    cases hspec : f.spec type with
    | ok spec => exact ⟨spec, rfl⟩
    | error e => exact absurd (exists_conflict_of_spec hspec).1 hconflict

/-! ## Agreement -/

/-- **All parts agree on maps and lists.** If every entry of a map declares a key and a value, then a field
that has a type is a map or a list in its type exactly if it is one in the schema, and neither exactly if it
is not repeated; what is inside of a map or a list is neither. The serializer of a message has, in the order
of the fields, the names of those whose type is a map. A field without a default of its own, without the
keyword `optional` and outside all oneofs has an empty dictionary, an empty list or nothing as its default,
as its type says, unless its rules conflict. -/
theorem Schema.maps_and_lists_agree {s : Schema}
    (hkey : ∀ m ∈ s.mapEntries, ∃ f ∈ m.fields, f.name = "key")
    (hvalue : ∀ m ∈ s.mapEntries, ∃ f ∈ m.fields, f.name = "value") (package : String) {f : Field}
    {type : FieldType} (h : s.fieldType (.ofPackage s package) f = .ok type) :
    (type.isMap = true ↔ s.isMap f = true) ∧
    (∀ m before after, m.fields = before ++ f :: after → s.mapFields m =
      (before.filter s.isMap).map (·.name) ++ (if type.isMap then [f.name] else []) ++
        (after.filter s.isMap).map (·.name)) ∧
    (∀ m, f ∈ m.fields → (m.fields.map (·.name)).Nodup →
      (f.name ∈ s.mapFields m ↔ type.isMap = true)) ∧
    (type.isList = true ↔ s.isList f = true) ∧
    (type.isMap = false ∧ type.isList = false ↔ f.isRepeated = false) ∧
    (∀ inner, type = .map inner ∨ type = .list inner → inner.isMap = false ∧ inner.isList = false) ∧
    ((∃ spec, f.spec type = .ok spec) ↔ ¬ (f.rules.getD .unset).Conflict) ∧
    (f.givesDefault = false → f.optionalKeyword = false → f.oneof = none → ∀ spec,
      f.spec type = .ok spec → spec.default.map (·.directive) =
        if type.isMap then some "default_factory=dict"
        else if type.isList then some "default_factory=list"
        else none) := by
  have hmap := isMap_fieldType hkey hvalue h
  refine ⟨by rw [hmap], fun m before after hsplit => ?_, fun m hf hnames => ?_,
    by rw [isList_fieldType hkey hvalue h], and_comm.trans (isSingle_fieldType_iff hkey hvalue h),
    fun inner hinner => (isSingle_inner hkey hvalue h hinner).symm, Field.exists_spec_iff,
    fun hgives hkeyword honeof spec hspec => ?_⟩
  · rw [hmap, mapFields_eq_append hsplit]
  · rw [hmap, mem_mapFields_iff hf hnames]
  · rw [(Field.default_of_spec hspec).2 hgives]
    exact Field.directive_impliedDefault hkeyword honeof type

theorem Schema.maps_and_lists_agree_orders :
    let s := ofDescriptors orderFiles {}
    let prices := orderMessage.fields.get ⟨1, by decide⟩
    let type := FieldType.map (.declared ⟨["money", "Amount"]⟩)
    build orderFiles {} = .ok s ∧ .message orderMessage ∈ s.types ∧
    (∀ m ∈ s.mapEntries, ∃ f ∈ m.fields, f.name = "key") ∧
    (∀ m ∈ s.mapEntries, ∃ f ∈ m.fields, f.name = "value") ∧
    s.fieldType (.ofPackage s "shop") prices = .ok type ∧
    s.isMap prices = true ∧ s.mapFields orderMessage = ["prices"] ∧ ¬ s.isList prices = true ∧
    ∃ spec, prices.spec type = .ok spec ∧
      spec.default.map (·.directive) = some "default_factory=dict" := by
  intro s prices type
  have hkey : ∀ m ∈ s.mapEntries, ∃ f ∈ m.fields, f.name = "key" := by decide +kernel
  have hvalue : ∀ m ∈ s.mapEntries, ∃ f ∈ m.fields, f.name = "value" := by decide +kernel
  have htype : s.fieldType (.ofPackage s "shop") prices = .ok type := by decide +kernel
  obtain ⟨hmap, hserializer, -, hlist, -, -, hspec, hdefault⟩ :=
    maps_and_lists_agree hkey hvalue "shop" htype
  obtain ⟨spec, hspec⟩ := hspec.2 (by decide)
  exact ⟨build_orderFiles, orderMessage_mem_types, hkey, hvalue, htype, hmap.1 rfl,
    hserializer orderMessage (orderMessage.fields.take 1) (orderMessage.fields.drop 2) rfl,
    fun h => absurd (hlist.2 h) (by decide), spec, hspec, hdefault rfl rfl rfl spec hspec⟩

end ProtoModels
