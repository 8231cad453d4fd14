import ProtoModels.Proofs.FieldTypes
import ProtoModels.Proofs.PackageTree
/-!
# References between classes

The annotations of a class name other classes by their class paths. What an annotation names has been
collected (`Schema.mem_collect_of_target?`): the walk looks at every field of a collected message, and it
stops only at fields of a standard type, which annotations do not name by a class path.

There is one gap. The value type of a map is named whatever the entry is called, while the walk stops at
an entry that has the name of a standard type. Behind such an entry an annotation has its class only if
the value type is collected for another reason (`reference_has_class_iff`).
-/
namespace ProtoModels

/-- The walk goes on behind a field whose type is not standard. -/
theorem Reached.target {s : Schema} {roots : List File} {f : Field} {t : TypeDecl}
    (hf : Reached s s.descends roots (.field f)) (ht : s.target? f = some t)
    (hstd : t.isStandard = false) : Reached s s.descends roots (.ofType t) :=
  hf.step (.target (by simp [Schema.descends, ht, hstd]) ht)

namespace Schema

/-- The messages that are entries of maps. -/
def mapEntries (s : Schema) : List Message :=
  s.types.filterMap fun
    | .message m => if m.mapEntry then some m else none
    | .enum _ => none

theorem mem_mapEntries {s : Schema} {m : Message} :
    m ∈ s.mapEntries ↔ .message m ∈ s.types ∧ m.mapEntry = true := by
  simp only [mapEntries, List.mem_filterMap]
  constructor
  · rintro ⟨t, ht, h⟩
    split at h
    · split at h <;> cases h
      exact ⟨ht, ‹_›⟩
    · cases h
  · rintro ⟨ht, h⟩
    exact ⟨_, ht, if_pos h⟩

/-- The entries of maps are as map fields make them: with a key and a value, neither repeated, and only
behind repeated fields. -/
structure EntriesWellFormed (s : Schema) : Prop where
  exists_key : ∀ m ∈ s.mapEntries, ∃ f ∈ m.fields, f.name = "key"
  exists_value : ∀ m ∈ s.mapEntries, ∃ f ∈ m.fields, f.name = "value"
  single : ∀ m ∈ s.mapEntries, ∀ f ∈ m.fields, f.name = "key" ∨ f.name = "value" → f.isRepeated = false
  behind_repeated : ∀ f ∈ s.allFields, ∀ t ∈ s.target? f, t.isMapEntry = true → f.isRepeated = true

variable {s : Schema} {roots : List File}

/-- The key and the value of a map are found if every entry declares them. -/
theorem exists_entryFields?_of_mapEntry? (hkey : ∀ m ∈ s.mapEntries, ∃ f ∈ m.fields, f.name = "key")
    (hvalue : ∀ m ∈ s.mapEntries, ∃ f ∈ m.fields, f.name = "value") {f : Field} {entry : Message}
    (hentry : s.mapEntry? f = some entry) : ∃ key value, s.entryFields? f = some (key, value) ∧
      entry ∈ s.mapEntries ∧ value ∈ entry.fields ∧ value.name = "value" := by
  obtain ⟨_, htarget, hmap⟩ := mapEntry?_eq_some_iff.1 hentry
  have hmem := mem_mapEntries.2 ⟨mem_types_of_target? htarget, hmap⟩
  have hfind : ∀ name, (∃ f ∈ entry.fields, f.name = name) →
      ∃ f, entry.fields.find? (·.name == name) = some f := by
    rintro name ⟨f, hf, hname⟩
    exact Option.isSome_iff_exists.1 (List.find?_isSome.2 ⟨f, hf, by simpa using hname⟩)
  obtain ⟨key, hkey⟩ := hfind _ (hkey entry hmem)
  obtain ⟨value, hvalue⟩ := hfind _ (hvalue entry hmem)
  exact ⟨key, value, entryFields?_eq_some_iff.2 ⟨entry, hentry, hkey, hvalue⟩, hmem,
    List.mem_of_find?_eq_some hvalue, by simpa using List.find?_some hvalue⟩

theorem EntriesWellFormed.exists_entryFields? (h : s.EntriesWellFormed) {f : Field} {entry : Message}
    (hentry : s.mapEntry? f = some entry) :
    ∃ key value, s.entryFields? f = some (key, value) ∧ value.isRepeated = false := by
  obtain ⟨key, value, hfields, hmem, hvalue, hname⟩ :=
    exists_entryFields?_of_mapEntry? h.exists_key h.exists_value hentry
  exact ⟨key, value, hfields, h.single entry hmem value hvalue (Or.inr hname)⟩

/-- The values of a field are no entries of maps. -/
theorem EntriesWellFormed.isMapEntry_eq_false (h : s.EntriesWellFormed) {f : Field}
    (hf : f ∈ s.allFields) {t : TypeDecl} (ht : s.target? (s.valueField f) = some t) :
    t.isMapEntry = false := by
  cases t with
  | enum e => rfl
  | message entry =>
    by_contra hmap
    rw [Bool.not_eq_false] at hmap
    have hrepeated := h.behind_repeated _ (valueField_mem_allFields hf) _ ht hmap
    cases hfields : s.entryFields? f with
    | none =>
      rw [valueField_eq_self hfields] at ht hrepeated
      obtain ⟨key, value, hsome, _⟩ :=
        h.exists_entryFields? (mapEntry?_eq_some_iff.2 ⟨hrepeated, ht, hmap⟩)
      rw [hfields] at hsome
      cases hsome
    | some fields =>
      obtain ⟨outer, houter, _⟩ := mem_fields_of_entryFields? hfields
      obtain ⟨key, value, hsome, hsingle⟩ := h.exists_entryFields? houter
      rw [valueField_eq_value hsome, hsingle] at hrepeated
      cases hrepeated

/-- **The type of a collected message's field is collected**, if the walk does not stop at a map
entry with the name of a standard type. -/
theorem mem_collect_of_target? (hs : s.names.Nodup) (he : s.EntriesWellFormed)
    (hroots : ∀ f ∈ roots, f ∈ s.files) {m : Message} (hm : .message m ∈ s.collect roots) {f : Field}
    (hf : f ∈ m.fields) {t : TypeDecl} (ht : s.target? (s.valueField f) = some t)
    (hstd : t.isStandard = false)
    (hentry : ∀ entry, s.mapEntry? f = some entry → StandardType.isStandard entry.fullName = false) :
    t ∈ s.collect roots := by
  have hfields : f ∈ s.allFields := mem_allFields_iff.2 ⟨m, mem_types_of_mem_collect hroots hm, hf⟩
  have hfield : Reached s s.descends roots (.field f) :=
    (reached_of_mem_collect hm).step (.ownField hf)
  have hreached : Reached s s.descends roots (.ofType t) := by
    cases hmap : s.mapEntry? f with
    | none =>
      have hnone : s.entryFields? f = none := by simp [entryFields?, hmap]
      rw [valueField_eq_self hnone] at ht
      exact hfield.target ht hstd
    | some entry =>
      obtain ⟨key, value, hsome, _⟩ := he.exists_entryFields? hmap
      have htarget := (mapEntry?_eq_some_iff.1 hmap).2.1
      have hdescends : s.descends (.field f) = true := by
        simpa [descends, htarget, TypeDecl.isStandard, TypeDecl.fullName] using hentry entry hmap
      rw [valueField_eq_value hsome] at ht
      exact (hfield.step (.entryValue hdescends hsome)).target ht hstd
  exact (mem_collect_iff hs hroots).2 ⟨hreached, he.isMapEntry_eq_false hfields ht, hstd⟩

end Schema

/-- **A reference has its class** exactly where the walk gets to the type that it means. Every class
path in the type of a collected message's field is that of the type which the field's values have, and
the tree holds this type at the class path, unless the field is a map whose entry has the name of a
standard type and nothing else leads to the type of its values. -/
theorem reference_has_class_iff {files : List Descriptor.File} {rules : RuleIndex} {s : Schema}
    (h : Schema.build files rules = .ok s) (hs : s.names.Nodup) (he : s.EntriesWellFormed)
    {roots : List File} (hroots : ∀ f ∈ roots, f ∈ s.files) (package : String) :
    ∃ tree, s.packageTree package roots = .ok tree ∧
      ∀ m, .message m ∈ s.collect roots → ∀ f ∈ m.fields, ∀ type,
        s.fieldType (.ofPackage s package) f = .ok type → ∀ p ∈ type.paths,
          ∃ t, s.target? (s.valueField f) = some t ∧ p = (ClassNames.ofPackage s package).resolve t ∧
            ((∃ node, tree.find? p.segments = some node ∧ node.decl = some t) ↔
              (∀ entry, s.mapEntry? f = some entry → StandardType.isStandard entry.fullName = false) ∨
                t ∈ s.collect roots) := by
  obtain ⟨tree, htree, hholds⟩ := Schema.packageTree_holds h hroots package
  refine ⟨tree, htree, fun m hm f hf type htype p hp => ?_⟩
  obtain ⟨t, ht, hstd, rfl⟩ := Schema.exists_target?_of_mem_paths htype hp
  refine ⟨t, ht, rfl, ?_⟩
  rw [hholds.exists_find?_iff, ClassNames.mem_entries, and_iff_left rfl]
  constructor
  · exact Or.inr
  · rintro (hentry | hcollect)
    · exact Schema.mem_collect_of_target? hs he hroots hm hf ht hstd hentry
    · exact hcollect

theorem reference_has_class_iff_orders :
    let s := Schema.ofDescriptors orderFiles {}
    let roots := s.files.take 1
    let names := ClassNames.ofPackage s "shop"
    Schema.build orderFiles {} = .ok s ∧ s.names.Nodup ∧ s.EntriesWellFormed ∧
    (∀ f ∈ roots, f ∈ s.files) ∧ .message orderMessage ∈ s.collect roots ∧
    orderMessage.fields.map (fun f => (f.name, s.fieldType names f)) =
      [("lines", .ok (.list (.declared ⟨["Order", "Line"]⟩))),
        ("prices", .ok (.map (.declared ⟨["money", "Amount"]⟩))),
        ("status", .ok (.declared ⟨["Order", "Status"]⟩))] ∧
    ∃ tree, s.packageTree "shop" roots = .ok tree ∧
      ∀ f ∈ orderMessage.fields, ∀ type, s.fieldType names f = .ok type → ∀ p ∈ type.paths,
        ∃ t, s.target? (s.valueField f) = some t ∧ p = names.resolve t ∧
          ∃ node, tree.find? p.segments = some node ∧ node.decl = some t := by
  intro s roots names
  have hentries : s.EntriesWellFormed :=
    ⟨by decide +kernel, by decide +kernel, by decide +kernel, by decide +kernel⟩
  have hcollect : s.collect roots = [s.types[1], s.types[2], s.types[4], s.types[0]] := collect_orderFiles
  have horder : .message orderMessage ∈ s.collect roots := by
    rw [hcollect]
    decide +kernel
  have hplain : ∀ f ∈ orderMessage.fields, ∀ entry ∈ s.mapEntry? f,
      StandardType.isStandard entry.fullName = false := by decide +kernel
  obtain ⟨tree, htree, hreferences⟩ :=
    reference_has_class_iff build_orderFiles names_nodup_orderFiles hentries roots_orderFiles "shop"
  refine ⟨build_orderFiles, names_nodup_orderFiles, hentries, roots_orderFiles, horder, by decide +kernel,
    tree, htree, fun f hf type htype p hp => ?_⟩
  obtain ⟨t, ht, hpath, hclass⟩ := hreferences orderMessage horder f hf type htype p hp
  exact ⟨t, ht, hpath, hclass.2 (Or.inl (hplain f hf))⟩

/-- A map whose entry has the name of a standard type, and a type that only this map refers to. -/
def structEntryFiles : List Descriptor.File := [
  { name := "google/protobuf/struct.proto"
    package := "google.protobuf"
    messages := [
      { name := "Struct"
        fields := [
          { name := "key", kind := some 9 },
          { name := "value", kind := some 11, typeName := some ".b.Item" }]
        mapEntry := true }] },
  { name := "b.proto", package := "b", messages := [{ name := "Item" }] },
  { name := "a.proto"
    package := "a"
    messages := [
      { name := "Holder"
        fields := [
          { name := "items", label := some 3, kind := some 11,
            typeName := some ".google.protobuf.Struct" }] }] }]

/-- The holder, and its items, where the walk stops. -/
theorem exists_holder_structEntryFiles {s : Schema} (hs : s = .ofDescriptors structEntryFiles {}) :
    ∃ file holder items, s.files.drop 2 = [file] ∧
      (file.enums = [] ∧ file.messages = [holder]) ∧
      (holder.fullName = "a.Holder" ∧ holder.mapEntry = false) ∧
      (holder.enums = [] ∧ holder.messages = [] ∧ holder.fields = [items]) ∧
      s.descends (.field items) = false ∧ (s.valueField items).kind.isUnsupported = false ∧
      (s.target? (s.valueField items)).map (·.fullName) = some "b.Item" := by
  subst hs
  exact ⟨_, _, _, rfl, ⟨rfl, rfl⟩, by decide +kernel, ⟨rfl, rfl, rfl⟩, by decide +kernel,
    by decide +kernel, by decide +kernel⟩

/-- The items of a holder are annotated with a class that its module does not have. -/
theorem reference_without_class :
    let s := Schema.ofDescriptors structEntryFiles {}
    let roots := s.files.drop 2
    Schema.build structEntryFiles {} = .ok s ∧ s.names.Nodup ∧ s.EntriesWellFormed ∧
    ¬ ∃ tree, s.packageTree "a" roots = .ok tree ∧
      ∀ m, .message m ∈ s.collect roots → ∀ f ∈ m.fields, ∀ type,
        s.fieldType (.ofPackage s "a") f = .ok type → ∀ p ∈ type.paths,
          ∃ t, s.target? (s.valueField f) = some t ∧
            ∃ node, tree.find? p.segments = some node ∧ node.decl = some t := by
  intro s roots
  have hbuild : Schema.build structEntryFiles {} = .ok s :=
    Schema.build_eq_ok_iff.2 ⟨rfl, by decide +kernel⟩
  have hnames : s.names.Nodup := by decide +kernel
  have hentries : s.EntriesWellFormed :=
    ⟨by decide +kernel, by decide +kernel, by decide +kernel, by decide +kernel⟩
  refine ⟨hbuild, hnames, hentries, ?_⟩
  rintro ⟨tree, htree, h⟩
  have hroots : ∀ f ∈ roots, f ∈ s.files := fun f hf => List.mem_of_mem_drop hf
  obtain ⟨file, holder, items, hfile, ⟨henums, hmessages⟩, ⟨hholder, hmap⟩, ⟨hinner, hnested, hfields⟩,
    hstop, hkind, htarget⟩ := exists_holder_structEntryFiles (s := s) rfl
  obtain ⟨item, hitem, hname⟩ := Option.map_eq_some_iff.1 htarget
  have hstandard : item.isStandard = false ∧ StandardType.isStandard holder.fullName = false := by
    rw [TypeDecl.isStandard, hname, hholder]
    decide +kernel
  have hcollect : .message holder ∈ s.collect roots := by
    refine (Schema.mem_collect_iff hnames hroots).2 ⟨?_, hmap, hstandard.2⟩
    exact (Reached.root (f := file) (by simp [roots, hfile])).step (.fileMessage rfl (by simp [hmessages]))
  -- the walk gets no further than the items
  have hmissing : item ∉ s.collect roots := by
    intro hmem
    have hclosed : ∀ d ∈ [Decl.file file, .message holder, .field items], ∀ c,
        Leads s s.descends d c → c ∈ [Decl.file file, .message holder, .field items] := by
      intro d hd c hl
      cases hl <;> simp_all
    have hd := (Schema.reached_of_mem_collect hmem).mem_of_closed (by simp [roots, hfile]) hclosed
    have hsame : Decl.ofType item = .message holder := by simpa using hd
    have hnameEq := congrArg Decl.name hsame
    rw [Decl.name_ofType, hname, Decl.name, hholder] at hnameEq
    exact absurd hnameEq (by decide)
  obtain ⟨type, htype, hpath⟩ :=
    Schema.exists_fieldType_of_target? (.ofPackage s "a") hkind hitem hstandard.1
  obtain ⟨t, ht, hnode⟩ := h holder hcollect items (by simp [hfields]) type htype _ hpath
  obtain ⟨tree', htree', hholds⟩ := Schema.packageTree_holds hbuild hroots "a"
  cases htree.symm.trans htree'
  rw [hitem, Option.some_inj] at ht
  subst ht
  exact hmissing (ClassNames.mem_entries.1 (hholds.exists_find?_iff.1 hnode)).1

end ProtoModels
