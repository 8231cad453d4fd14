import Mathlib.Data.List.Flatten
import Mathlib.Data.List.Nodup
import ProtoModels.Descriptor.Pool.Validity
import ProtoModels.Proofs.Descriptor.Pool.Interpretation
/-!
# Names in a valid pool

In a valid pool only packages share names. What is no package is found under its full name
(`Pool.find?_of_mem`), the fields of messages have distinct full names (`Pool.nodup_fieldNames`), and a
type name that resolves is that of a message or an enum of some file (`Pool.mem_typeNames_of_resolveFull`).
-/
namespace ProtoModels.Descriptor.Pool

/-- Whether a name stands for a package. -/
def Definition.isPackage : Definition → Bool
  | package => true
  | _ => false

variable {p : Pool}

/-! ## Distinct names -/

theorem namesValid_iff : p.namesValid = true ↔
    (((p.entries.filter (·.definition.isPackage)).map (·.name)).eraseDups ++
      (p.entries.filter (!·.definition.isPackage)).map (·.name)).Nodup := by
  simp only [namesValid, allDistinct, decide_eq_true_eq]
  exact Iff.rfl

theorem namesValid_of_isValid (h : p.isValid = true) : p.namesValid = true := by
  simp only [isValid, Bool.and_eq_true] at h
  exact h.1.1.1.1.1.2

theorem nodup_fileNames (h : p.isValid = true) : (p.files.map (·.name)).Nodup := by
  simp only [isValid, Bool.and_eq_true, allDistinct, decide_eq_true_eq] at h
  exact h.1.1.1.1.1.1.1

/-- In a valid pool every field has a type. -/
theorem isSome_valueType?_of_isValid (h : p.isValid = true) {x : Sited Field}
    (hx : x ∈ fieldsOf p.files) : (p.valueType? x).isSome = true := by
  simp only [isValid, Bool.and_eq_true, List.all_eq_true] at h
  obtain ⟨f, hf, hx⟩ := List.mem_flatMap.1 hx
  have hvalid := h.1.1.2 f hf x hx
  rw [fieldValid] at hvalid
  cases htype : p.valueType? x with
  | none => simp [htype] at hvalid
  | some type => rfl

/-- **What is no package** is found under its name. -/
theorem find?_of_mem (h : p.namesValid = true) {e : Entry} (he : e ∈ p.entries)
    (hkind : e.definition.isPackage = false) : p.find? e.name = some e := by
  obtain ⟨-, hnodup, hdisjoint⟩ := List.nodup_append'.1 (namesValid_iff.1 h)
  have hself : e ∈ p.entries.filter (!·.definition.isPackage) := by simp [he, hkind]
  obtain ⟨e', hfind⟩ := Option.isSome_iff_exists.1
    (List.find?_isSome (p := fun e' : Entry => e'.name == e.name) |>.2 ⟨e, he, by simp⟩)
  have hmem := List.mem_of_find?_eq_some hfind
  have hname : e'.name = e.name := by simpa using List.find?_some hfind
  rw [find?, hfind]
  cases hkind' : e'.definition.isPackage with
  | false =>
    have he' : e' ∈ p.entries.filter (!·.definition.isPackage) := by simp [hmem, hkind']
    rw [List.inj_on_of_nodup_map hnodup he' hself hname]
  | true =>
    -- The name would be that of a package as well.
    refine absurd (List.mem_map_of_mem hself) (hdisjoint ?_)
    rw [List.mem_eraseDups]
    exact List.mem_map.2 ⟨e', by simp [hmem, hkind'], hname⟩

/-! ## Extensions -/

theorem mem_entries_of_extension {f : File} (hf : f ∈ p.files) {x : Field} (hx : x ∈ f.extensions)
    (hp : p = ofFiles p.files) :
    ⟨qualify f.package x.name, f.name, .extension ⟨f, f.package, x⟩⟩ ∈ p.entries := by
  rw [hp]
  refine List.mem_flatMap.2 ⟨f, hf, ?_⟩
  have hdeclared : ⟨f, f.package, x⟩ ∈ extensionsOf f :=
    List.mem_append_right _ (List.mem_map_of_mem hx)
  simp only [entriesOf, List.mem_append]
  exact Or.inl (Or.inl (Or.inr (List.mem_map_of_mem hdeclared)))

/-- **An extension at the top level of a file** is found under its full name. -/
theorem extension?_of_mem (h : p.isValid = true) (hp : p = ofFiles p.files) {f : File} (hf : f ∈ p.files)
    {x : Field} (hx : x ∈ f.extensions) :
    p.extension? (qualify f.package x.name) = some ⟨f, f.package, x⟩ := by
  have hfind := find?_of_mem (namesValid_of_isValid h) (mem_entries_of_extension hf hx hp) rfl
  rw [extension?, hfind]
  rfl

/-! ## Fields -/

/-- The entry of a field of a message. -/
def fieldEntry (x : Sited Field) : Entry := ⟨fieldName x, x.file.name, .field⟩

theorem file_of_mem_partsOf {α : Type} {f : File} {parts : Message → List α} {x : Sited α}
    (h : x ∈ partsOf f parts) : x.file = f := by
  simp only [partsOf, List.mem_flatMap, List.mem_map] at h
  obtain ⟨_, _, _, _, rfl⟩ := h
  rfl

theorem map_fieldEntry_sublist (files : List File) :
    ((fieldsOf files).map fieldEntry).Sublist (files.flatMap entriesOf) := by
  rw [fieldsOf, List.map_flatMap]
  refine List.Sublist.flatMap_right files fun f _ => ?_
  have hentries : (partsOf f Message.fields).map fieldEntry =
      (partsOf f Message.fields).map fun x => ⟨fieldName x, f.name, .field⟩ :=
    List.map_congr_left fun x hx => by rw [fieldEntry, file_of_mem_partsOf hx]
  rw [hentries, entriesOf]
  simp only [List.append_assoc]
  exact (List.sublist_append_left _ _).trans
    ((List.sublist_append_right _ _).trans (List.sublist_append_right _ _))

/-- **The fields of messages** have distinct full names. -/
theorem nodup_fieldNames (h : p.isValid = true) (hp : p = ofFiles p.files) :
    ((fieldsOf p.files).map fieldName).Nodup := by
  obtain ⟨-, hnodup, -⟩ := List.nodup_append'.1 (namesValid_iff.1 (namesValid_of_isValid h))
  have hfields := (map_fieldEntry_sublist p.files).filter (!·.definition.isPackage)
  have hkept : ((fieldsOf p.files).map fieldEntry).filter (!·.definition.isPackage) =
      (fieldsOf p.files).map fieldEntry :=
    List.filter_eq_self.2 fun e he => by
      obtain ⟨x, _, rfl⟩ := List.mem_map.1 he
      rfl
  rw [hkept] at hfields
  rw [hp] at hnodup
  simpa [Function.comp_def, fieldEntry] using hnodup.sublist (hfields.map (·.name))

/-! ## Types -/

theorem mem_typeNames_of_mem_entriesOf {f : File} {e : Entry} (he : e ∈ entriesOf f) {isGroup : Bool}
    (hkind : (e.definition.valueType? isGroup).isSome = true) : e.name ∈ typeNames f := by
  simp only [entriesOf, List.mem_append, List.mem_map, List.mem_flatMap, or_assoc] at he
  obtain ⟨_, _, rfl⟩ | ⟨m, hm, rfl⟩ | ⟨_, _, rfl⟩ | ⟨_, _, rfl⟩ | ⟨d, hd, rfl⟩ | ⟨_, _, _, _, rfl⟩ |
    ⟨_, _, rfl⟩ | ⟨_, _, rfl⟩ | ⟨_, _, _, _, rfl⟩ := he
  case inr.inl => exact List.mem_append_left _ (List.mem_map_of_mem hm)
  case inr.inr.inr.inr.inl =>
    exact List.mem_append_right _ (List.mem_map_of_mem hd)
  all_goals cases hkind

/-- A full name that stands for a type is the name of a message or an enum. -/
theorem mem_typeNames_of_resolveFull (hp : p = ofFiles p.files) {file : File} {isGroup : Bool}
    {name : String} (h : (p.resolveFull file (Definition.valueType? isGroup) name).isSome = true) :
    ∃ f ∈ p.files, name ∈ typeNames f := by
  obtain ⟨type, htype⟩ := Option.isSome_iff_exists.1 h
  obtain ⟨e, hvisible, hkind⟩ := Option.bind_eq_some_iff.1 htype
  obtain ⟨hfind, -⟩ := Option.filter_eq_some_iff.1 hvisible
  have hmem := List.mem_of_find?_eq_some hfind
  have hname : e.name = name := by simpa using List.find?_some hfind
  rw [hp] at hmem
  obtain ⟨f, hf, he⟩ := List.mem_flatMap.1 hmem
  exact ⟨f, hf, hname ▸ mem_typeNames_of_mem_entriesOf he (by rw [hkind]; rfl)⟩

end ProtoModels.Descriptor.Pool
