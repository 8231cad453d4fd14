import ProtoModels.Schema.Walk
/-!
# What a schema declares

The types and fields of a schema as sets: `Schema.types_induction` reaches every type from the top
level of a file through the messages around it, `mem_allFields_iff` finds every field in its message.
What a field refers to is declared in the schema again, so the declarations of a schema are closed
under every step a walk can take.
-/
namespace ProtoModels

namespace Message

theorem types_eq (m : Message) :
    m.types = .message m :: (m.enums.map .enum ++ typesOfList m.messages) := by
  cases m; rfl

theorem typesOfList_eq (ms : List Message) : typesOfList ms = ms.flatMap types := by
  induction ms with
  | nil => rfl
  | cons m ms ih => rw [typesOfList, ih, List.flatMap_cons]

theorem allFields_eq (m : Message) : m.allFields = allFieldsOfList m.messages ++ m.fields := by
  cases m; rfl

theorem allFieldsOfList_eq (ms : List Message) : allFieldsOfList ms = ms.flatMap allFields := by
  induction ms with
  | nil => rfl
  | cons m ms ih => rw [allFieldsOfList, ih, List.flatMap_cons]

/-- The types that are declared in a message itself. -/
def inner (m : Message) : List TypeDecl := m.messages.map .message ++ m.enums.map .enum

theorem mem_typesOfList {ms : List Message} {t : TypeDecl} :
    t ∈ typesOfList ms ↔ ∃ m ∈ ms, t ∈ m.types := by
  rw [typesOfList_eq, List.mem_flatMap]

theorem self_mem_types (m : Message) : .message m ∈ m.types := by simp [types_eq]

theorem inner_subset_types {m : Message} {t : TypeDecl} (h : t ∈ m.inner) : t ∈ m.types := by
  rw [types_eq]
  simp only [inner, List.mem_append, List.mem_map] at h
  rcases h with ⟨m', hm, rfl⟩ | ⟨e, he, rfl⟩
  · have hmem : .message m' ∈ typesOfList m.messages := mem_typesOfList.2 ⟨m', hm, m'.self_mem_types⟩
    exact List.mem_cons_of_mem _ (List.mem_append_right _ hmem)
  · exact List.mem_cons_of_mem _ (List.mem_append_left _ (List.mem_map_of_mem he))

/-- A property of a message that passes from every message in it to what that one declares holds of
all types in the message. -/
theorem types_induction {P : TypeDecl → Prop}
    (step : ∀ m, P (.message m) → ∀ t ∈ m.inner, P t) : ∀ m, P (.message m) → ∀ t ∈ m.types, P t
  | ⟨n, fn, p, pa, es, ms, fs, os, me, c⟩, h, t, ht => by
    have hinner := step _ h
    simp only [inner, List.mem_append, List.mem_map] at hinner
    rw [types_eq] at ht
    simp only [List.mem_cons, List.mem_append, List.mem_map, mem_typesOfList] at ht
    rcases ht with rfl | ⟨e, he, rfl⟩ | ⟨m', hm, ht⟩
    · exact h
    · exact hinner _ (Or.inr ⟨e, he, rfl⟩)
    · exact types_induction step m' (hinner _ (Or.inl ⟨m', hm, rfl⟩)) t ht

/-- What a message passes on to the message around it is passed on from any depth. -/
theorem subset_of_mem_types {α : Type} {G : Message → List α}
    (hG : ∀ m, ∀ m' ∈ m.messages, G m' ⊆ G m) {m m' : Message} (hm : .message m' ∈ m.types) :
    G m' ⊆ G m := by
  have key : ∀ t ∈ m.types, ∀ m', t = .message m' → G m' ⊆ G m := by
    refine types_induction ?_ m ?_
    · rintro m₁ h _ ht m' rfl
      have hm' : m' ∈ m₁.messages := by simpa [inner] using ht
      exact List.Subset.trans (hG m₁ m' hm') (h m₁ rfl)
    · rintro m' h
      cases h
      exact List.Subset.refl _
  exact key _ hm m' rfl

theorem types_subset {m m' : Message} (hm : .message m' ∈ m.types) : m'.types ⊆ m.types := by
  refine subset_of_mem_types (fun m m' hm u hu => ?_) hm
  rw [types_eq]
  exact List.mem_cons_of_mem _ (List.mem_append_right _ (mem_typesOfList.2 ⟨m', hm, hu⟩))

theorem mem_allFieldsOfList {ms : List Message} {f : Field} :
    f ∈ allFieldsOfList ms ↔ ∃ m ∈ ms, f ∈ m.allFields := by
  rw [allFieldsOfList_eq, List.mem_flatMap]

theorem allFields_subset {m m' : Message} (hm : .message m' ∈ m.types) :
    m'.allFields ⊆ m.allFields := by
  refine subset_of_mem_types (fun m m' hm f hf => ?_) hm
  rw [allFields_eq]
  exact List.mem_append_left _ (mem_allFieldsOfList.2 ⟨m', hm, hf⟩)

theorem exists_owner_of_mem_allFields : ∀ (m : Message) {f : Field}, f ∈ m.allFields →
    ∃ m', .message m' ∈ m.types ∧ f ∈ m'.fields
  | ⟨n, fn, p, pa, es, ms, fs, os, me, c⟩, f, h => by
    rw [allFields_eq, List.mem_append, mem_allFieldsOfList] at h
    rcases h with ⟨m', hm, hf⟩ | hf
    · obtain ⟨m'', hm'', hf⟩ := exists_owner_of_mem_allFields m' hf
      refine ⟨m'', types_subset (inner_subset_types ?_) hm'', hf⟩
      simp [inner, hm]
    · exact ⟨_, self_mem_types _, hf⟩

end Message

theorem File.mem_types {f : File} {t : TypeDecl} :
    t ∈ f.types ↔ (∃ e ∈ f.enums, .enum e = t) ∨ ∃ m ∈ f.messages, t ∈ m.types := by
  simp [File.types, Message.mem_typesOfList]

namespace Schema

variable {s : Schema}

theorem mem_types {t : TypeDecl} : t ∈ s.types ↔ ∃ f ∈ s.files, t ∈ f.types := List.mem_flatMap

theorem topLevel_subset_types {f : File} (hf : f ∈ s.files) {t : TypeDecl} (ht : t ∈ f.topLevel) :
    t ∈ s.types := by
  refine mem_types.2 ⟨f, hf, File.mem_types.2 ?_⟩
  simp only [File.topLevel, List.mem_append, List.mem_map] at ht
  rcases ht with ⟨m, hm, rfl⟩ | ⟨e, he, rfl⟩
  · exact Or.inr ⟨m, hm, m.self_mem_types⟩
  · exact Or.inl ⟨e, he, rfl⟩

theorem inner_subset_types {m : Message} (hm : .message m ∈ s.types) {t : TypeDecl}
    (ht : t ∈ m.inner) : t ∈ s.types := by
  obtain ⟨f, hf, hm⟩ := mem_types.1 hm
  rcases File.mem_types.1 hm with ⟨e, _, h⟩ | ⟨m', hm', hm⟩
  · cases h
  · exact mem_types.2 ⟨f, hf, File.mem_types.2
      (Or.inr ⟨m', hm', Message.types_subset hm (Message.inner_subset_types ht)⟩)⟩

/-- A property of the top level of all files that passes from every message to what it declares
holds of all types. -/
theorem types_induction {P : TypeDecl → Prop} (top : ∀ f ∈ s.files, ∀ t ∈ f.topLevel, P t)
    (nested : ∀ m, .message m ∈ s.types → P (.message m) → ∀ t ∈ m.inner, P t) :
    ∀ t ∈ s.types, P t := by
  intro t ht
  obtain ⟨f, hf, ht⟩ := mem_types.1 ht
  rcases File.mem_types.1 ht with ⟨e, he, rfl⟩ | ⟨m, hm, ht⟩
  · exact top f hf _ (by simp [File.topLevel, he])
  · have htop : .message m ∈ f.topLevel := by simp [File.topLevel, hm]
    have step : ∀ m', .message m' ∈ s.types ∧ P (.message m') → ∀ u ∈ m'.inner, u ∈ s.types ∧ P u :=
      fun m' h u hu => ⟨inner_subset_types h.1 hu, nested m' h.1 h.2 u hu⟩
    exact (Message.types_induction (P := fun t => t ∈ s.types ∧ P t) step m
      ⟨topLevel_subset_types hf htop, top f hf _ htop⟩ t ht).2

/-- Every field of a schema is a field of one of its messages. -/
theorem mem_allFields_iff {f : Field} :
    f ∈ s.allFields ↔ ∃ m, .message m ∈ s.types ∧ f ∈ m.fields := by
  simp only [allFields, List.mem_flatMap, File.allFields, Message.mem_allFieldsOfList]
  constructor
  · rintro ⟨file, hfile, m, hm, hf⟩
    obtain ⟨m', hm', hf⟩ := m.exists_owner_of_mem_allFields hf
    exact ⟨m', mem_types.2 ⟨file, hfile, File.mem_types.2 (Or.inr ⟨m, hm, hm'⟩)⟩, hf⟩
  · rintro ⟨m', hm', hf⟩
    obtain ⟨file, hfile, hm'⟩ := mem_types.1 hm'
    rcases File.mem_types.1 hm' with ⟨e, _, h⟩ | ⟨m, hm, hm'⟩
    · cases h
    · refine ⟨file, hfile, m, hm, Message.allFields_subset hm' ?_⟩
      rw [Message.allFields_eq]
      exact List.mem_append_right _ hf

/-! ## What fields refer to -/

/-- What a name means has this name. -/
theorem mem_types_of_type? {name : String} {t : TypeDecl} (h : s.type? name = some t) :
    t ∈ s.types ∧ t.fullName = dropLeadingDot name := by
  rw [type?, List.findRev?_eq_find?_reverse] at h
  exact ⟨List.mem_reverse.1 (List.mem_of_find?_eq_some h), by simpa using List.find?_some h⟩

theorem isSome_type?_of_mem {t : TypeDecl} (ht : t ∈ s.types) {name : String}
    (hname : t.fullName = dropLeadingDot name) : (s.type? name).isSome = true := by
  rw [type?, List.findRev?_eq_find?_reverse, List.find?_isSome]
  exact ⟨t, List.mem_reverse.2 ht, beq_iff_eq.2 hname⟩

theorem mem_types_of_target? {f : Field} {t : TypeDecl} (h : s.target? f = some t) : t ∈ s.types := by
  unfold target? at h
  split at h
  · exact (mem_types_of_type? h).1
  · cases h

theorem isReference_of_target? {f : Field} {t : TypeDecl} (h : s.target? f = some t) :
    f.kind.isReference = true := by
  unfold target? at h
  split at h
  · assumption
  · cases h

theorem mapEntry?_eq_some_iff {f : Field} {entry : Message} :
    s.mapEntry? f = some entry ↔
      f.isRepeated = true ∧ s.target? f = some (.message entry) ∧ entry.mapEntry = true := by
  unfold mapEntry?
  constructor
  · intro h
    split at h
    · split at h
      · split at h
        · cases h
          exact ⟨‹_›, ‹_›, ‹_›⟩
        · cases h
      · cases h
    · cases h
  · rintro ⟨hr, ht, he⟩
    simp [hr, ht, he]

theorem entryFields?_eq_some_iff {f key value : Field} :
    s.entryFields? f = some (key, value) ↔ ∃ entry, s.mapEntry? f = some entry ∧
      entry.fields.find? (·.name == "key") = some key ∧
      entry.fields.find? (·.name == "value") = some value := by
  simp [entryFields?, Option.bind_eq_some_iff]

/-- The key and the value of a map field are fields of its entry. -/
theorem mem_fields_of_entryFields? {f key value : Field} (h : s.entryFields? f = some (key, value)) :
    ∃ entry, s.mapEntry? f = some entry ∧ key ∈ entry.fields ∧ value ∈ entry.fields := by
  obtain ⟨entry, he, hk, hv⟩ := entryFields?_eq_some_iff.1 h
  exact ⟨entry, he, List.mem_of_find?_eq_some hk, List.mem_of_find?_eq_some hv⟩

theorem mem_allFields_of_entryFields? {f key value : Field}
    (h : s.entryFields? f = some (key, value)) : key ∈ s.allFields ∧ value ∈ s.allFields := by
  obtain ⟨entry, he, hk, hv⟩ := mem_fields_of_entryFields? h
  have hentry := mem_types_of_target? (mapEntry?_eq_some_iff.1 he).2.1
  exact ⟨mem_allFields_iff.2 ⟨entry, hentry, hk⟩, mem_allFields_iff.2 ⟨entry, hentry, hv⟩⟩

end Schema
end ProtoModels
