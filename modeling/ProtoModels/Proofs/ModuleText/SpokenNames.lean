import ProtoModels.Proofs.ModuleText.Bindings
import ProtoModels.Proofs.Scopes
/-!
# Names that are spoken for

Classes, fields and members are named as they were declared, and scopes as their packages. Nothing looks
whether a name is a reserved word, or whether a class takes the name of something that the head of the
module imports: a scope steps aside for the classes of its module and for earlier scopes only. So a module
binds such a name exactly if it was declared, or is the name of a package without its dots
(`spoken_names_iff`).

What a module binds is read off its lines (`Schema.mem_bindings_iff`). No scope that stepped aside is one
of these words, since none of them ends with an underscore.
-/
namespace ProtoModels

open Source (Line)

/-! ## Words that are spoken for -/

/-- The reserved words of Python. -/
def reservedWords : List String := [
  "False", "None", "True", "and", "as", "assert", "async", "await", "break", "class", "continue", "def",
  "del", "elif", "else", "except", "finally", "for", "from", "global", "if", "import", "in", "is",
  "lambda", "nonlocal", "not", "or", "pass", "raise", "return", "try", "while", "with", "yield"]

/-- The names that an import line brings in. -/
def importedNames (l : Line) : List String :=
  ((Text.splitOn ' ' l.text).dropWhile (· ≠ "import")).tail.map fun item =>
    String.ofList (item.toList.filter (· ≠ ','))

/-- What the head of a module imports for its classes: all but the feature `annotations`. -/
def usedImports : List String :=
  (Settings.initial.moduleHead.flatMap importedNames).filter (· ≠ "annotations")

theorem usedImports_eq : usedImports = ["datetime", "json", "StrEnum", "BaseModel", "Field",
    "field_serializer", "model_validator", "SerializationInfo", "Any", "Optional", "Self", "UUID"] := by
  decide +kernel

theorem isPlainWord_of_reserved : ∀ word ∈ reservedWords, IsPlainWord word := by decide

theorem isPlainWord_of_usedImport : ∀ word ∈ usedImports, IsPlainWord word := by
  rw [usedImports_eq]
  decide

/-! ## What the module of a package binds -/

namespace Schema

/-- All names of a schema are identifiers. -/
structure HasIdentifiers (s : Schema) : Prop where
  types : ∀ t ∈ s.types, IsIdentifier t.name
  members : ∀ t ∈ s.types, ∀ name ∈ t.memberNames, IsIdentifier name
  packages : ∀ f ∈ s.files, ∀ segment ∈ Text.splitOn '.' f.package, segment ≠ "" → IsIdentifier segment

/-- The lines of a package's module. -/
def packageLines (s : Schema) (settings : Settings) (package : String) (roots : List File) :
    Except CompileError (List Line) := do
  let tree ← s.packageTree package roots
  let module ← ModuleText.ofTree ⟨s, .ofPackage s package, settings⟩ tree
  return module.writer.lines.toList

variable {s : Schema} {roots : List File} {settings : Settings} {package : String}
  {files : List Descriptor.File} {rules : RuleIndex} {ls : List Line}

theorem packageModule_eq_map_text (s : Schema) (settings : Settings) (package : String)
    (roots : List File) :
    s.packageModule settings package roots = (s.packageLines settings package roots).map Source.text := by
  unfold packageModule packageLines
  cases s.packageTree package roots with
  | error e => rfl
  | ok tree =>
    simp only [bind, Except.bind]
    cases ModuleText.ofTree ⟨s, .ofPackage s package, settings⟩ tree <;> rfl

/-- The tree that the lines of a package are written from. -/
theorem exists_tree_of_packageLines (h : build files rules = .ok s) (hroots : ∀ f ∈ roots, f ∈ s.files)
    (hls : s.packageLines settings package roots = .ok ls) : ∃ tree text,
      tree.Holds ((ClassNames.ofPackage s package).entries (s.collect roots)) ∧
      ModuleText.ofTree ⟨s, .ofPackage s package, settings⟩ tree = .ok text ∧
      text.writer.lines.toList = ls := by
  obtain ⟨tree, htree, hholds⟩ := packageTree_holds h hroots package
  obtain ⟨tree', htree', hls⟩ := bind_eq_ok_iff.1 hls
  obtain rfl : tree = tree' := Except.ok.inj (htree.symm.trans htree')
  obtain ⟨text, htext, hls⟩ := bind_eq_ok_iff.1 hls
  exact ⟨tree, text, hholds, htext, Except.ok.inj hls⟩

/-- The classes in the tree of a package have identifiers for names, and so have their attributes. -/
theorem isNamed_of_mem_events (h : build files rules = .ok s) (hs : s.HasIdentifiers)
    (hroots : ∀ f ∈ roots, f ∈ s.files) {tree : ClassTree TypeDecl}
    (hholds : tree.Holds ((ClassNames.ofPackage s package).entries (s.collect roots)))
    {e : ClassEvent TypeDecl} (he : e ∈ tree.events) : e.node.IsNamed := by
  have htypes := fun t ht => mem_types_of_mem_collect (t := t) hroots ht
  obtain ⟨path, n, hpath, hfind, he⟩ := hholds.mem_events_iff.1 he
  obtain rfl : e.node = n := by rcases he with rfl | rfl <;> rfl
  constructor
  · obtain ⟨⟨entry, t⟩, hentry, hname⟩ := hholds.exists_entry_of_find? hpath hfind
    obtain ⟨ht, rfl⟩ := ClassNames.mem_entries.1 hentry
    exact ClassNames.isIdentifier_of_mem_segments h hs.types hs.packages package (htypes t ht) _ hname
  · intro t ht name hname
    have hentry := (hholds.declAt_iff path t).1 (Option.bind_eq_some_iff.2 ⟨e.node, hfind, ht⟩)
    exact hs.members t (htypes t (ClassNames.mem_entries.1 hentry).1) name
      (t.attributeNames_subset_memberNames hname)

/-- **What the module of a package binds**: the segments of the class paths of what it collects, each as
deep as it stands, and one level deeper than a class the fields or members that it declares. -/
theorem mem_bindings_iff (h : build files rules = .ok s) (hs : s.HasIdentifiers)
    (hroots : ∀ f ∈ roots, f ∈ s.files) (hls : s.packageLines .initial package roots = .ok ls)
    {b : Binding} : b ∈ bindings ls ↔ ∃ t ∈ s.collect roots,
      let segments := ((ClassNames.ofPackage s package).resolve t).segments
      (∃ outer, outer ++ [b.name] <+: segments ∧ b.indent = 4 * outer.length) ∨
        b.name ∈ t.attributeNames ∧ b.indent = 4 * segments.length := by
  obtain ⟨tree, text, hholds, htext, rfl⟩ := exists_tree_of_packageLines h hroots hls
  rw [ModuleText.bindings_ofTree rfl htext fun e he => isNamed_of_mem_events h hs hroots hholds he]
  simp only [mem_bindings_events_iff, hholds.exists_header_iff, hholds.exists_body_at_iff]
  constructor
  · rintro ⟨_, ⟨⟨outer, rfl, ⟨segments, t⟩, hentry, hstart⟩, hindent⟩ |
      ⟨t, ⟨path, hpath, hentry, rfl⟩, hname, hindent⟩⟩
    · obtain ⟨ht, rfl⟩ := ClassNames.mem_entries.1 hentry
      exact ⟨t, ht, Or.inl ⟨outer, hstart, hindent⟩⟩
    · obtain ⟨ht, rfl⟩ := ClassNames.mem_entries.1 hentry
      rw [ClassTree.depthOf, Nat.sub_add_cancel (List.length_pos_of_ne_nil hpath)] at hindent
      exact ⟨t, ht, Or.inr ⟨hname, hindent⟩⟩
  · rintro ⟨t, ht, hb⟩
    have hentry : (((ClassNames.ofPackage s package).resolve t).segments, t) ∈
        (ClassNames.ofPackage s package).entries (s.collect roots) := ClassNames.mem_entries.2 ⟨ht, rfl⟩
    rcases hb with ⟨outer, hstart, hindent⟩ | ⟨hname, hindent⟩
    · exact ⟨_, Or.inl ⟨⟨outer, rfl, _, hentry, hstart⟩, hindent⟩⟩
    · have hpath := ClassNames.segments_resolve_ne_nil (.ofPackage s package) t
      refine ⟨_, Or.inr ⟨t, ⟨_, hpath, hentry, rfl⟩, hname, ?_⟩⟩
      rw [ClassTree.depthOf, Nat.sub_add_cancel (List.length_pos_of_ne_nil hpath), hindent]

/-- The names that a module binds at all. -/
theorem exists_binding_iff (h : build files rules = .ok s) (hs : s.HasIdentifiers)
    (hroots : ∀ f ∈ roots, f ∈ s.files) (hls : s.packageLines .initial package roots = .ok ls)
    (word : String) : (∃ b ∈ bindings ls, b.name = word) ↔ ∃ t ∈ s.collect roots,
      word ∈ ((ClassNames.ofPackage s package).resolve t).segments ∨ word ∈ t.attributeNames := by
  simp only [mem_bindings_iff h hs hroots hls]
  constructor
  · rintro ⟨b, ⟨t, ht, ⟨outer, hstart, -⟩ | ⟨hname, -⟩⟩, rfl⟩
    · exact ⟨t, ht, Or.inl (hstart.subset (by simp))⟩
    · exact ⟨t, ht, Or.inr hname⟩
  · rintro ⟨t, ht, hword | hword⟩
    · obtain ⟨outer, inner, hsplit⟩ := List.append_of_mem hword
      exact ⟨⟨4 * outer.length, word⟩, ⟨t, ht, Or.inl ⟨outer, ⟨inner, by simp [hsplit]⟩, rfl⟩⟩, rfl⟩
    · exact ⟨⟨_, word⟩, ⟨t, ht, Or.inr ⟨hword, rfl⟩⟩, rfl⟩

/-- The names that a module binds at its top level. -/
theorem exists_binding_at_margin_iff (h : build files rules = .ok s) (hs : s.HasIdentifiers)
    (hroots : ∀ f ∈ roots, f ∈ s.files) (hls : s.packageLines .initial package roots = .ok ls)
    (word : String) : (∃ b ∈ bindings ls, b.indent = 0 ∧ b.name = word) ↔ ∃ t ∈ s.collect roots,
      ((ClassNames.ofPackage s package).resolve t).segments.head? = some word := by
  simp only [mem_bindings_iff h hs hroots hls]
  constructor
  · rintro ⟨b, ⟨t, ht, ⟨outer, ⟨inner, hstart⟩, hindent⟩ | ⟨-, hindent⟩⟩, hzero, rfl⟩
    · obtain rfl : outer = [] := List.length_eq_zero_iff.1 (by omega)
      exact ⟨t, ht, by rw [← hstart]; rfl⟩
    · have hlength := List.length_pos_of_ne_nil
        (ClassNames.segments_resolve_ne_nil (.ofPackage s package) t)
      omega
  · rintro ⟨t, ht, hhead⟩
    obtain ⟨inner, hsegments⟩ := List.head?_eq_some_iff.1 hhead
    exact ⟨⟨0, word⟩, ⟨t, ht, Or.inl ⟨[], ⟨inner, hsegments.symm⟩, rfl⟩⟩, rfl, rfl⟩

/-- With factories on one line every line of a module is one. -/
theorem oneLine_packageLines (h : build files rules = .ok s) (hs : s.HasIdentifiers)
    (hroots : ∀ f ∈ roots, f ∈ s.files) (hls : s.packageLines .initial package roots = .ok ls)
    (hfactories : ∀ f ∈ s.allFields, ∀ name ∈ f.factory?, OneLine name) :
    ∀ l ∈ ls, OneLine l.text := by
  obtain ⟨tree, text, hholds, htext, rfl⟩ := exists_tree_of_packageLines h hroots hls
  have hreadable : s.Readable := ⟨hs.types, hs.members, hs.packages, hfactories⟩
  have hsettings : Settings.initial.Readable := ⟨by decide, by decide⟩
  exact (ModuleText.readLines_ofTree htext hsettings fun e he =>
    plain_of_mem_events h hreadable hsettings hroots hholds he).1

/-! ## Plain words in class paths -/

section
variable {word : String} {t : TypeDecl} (h : build files rules = .ok s) (ht : t ∈ s.types)
  (hword : IsPlainWord word)
include h ht hword

theorem mem_segments_plain_iff : word ∈ ((ClassNames.ofPackage s package).resolve t).segments ↔
    word ∈ t.localPath ∨ s.HasPlainScope package t.package word := by
  rw [ClassNames.segments_resolve, List.mem_append, Option.mem_toList,
    ClassNames.scope?_eq_plain_iff hword (package_mem_of_mem_types h t ht), or_comm]

theorem head_segments_plain_iff :
    ((ClassNames.ofPackage s package).resolve t).segments.head? = some word ↔
      t.package = package ∧ t.localPath.head? = some word ∨ s.HasPlainScope package t.package word := by
  have hpackage := package_mem_of_mem_types h t ht
  rw [← ClassNames.scope?_eq_plain_iff hword hpackage, ClassNames.segments_resolve]
  by_cases htarget : t.package = package
  · rw [htarget, ClassNames.scope?_target]
    simp
  · obtain ⟨segment, hsegment⟩ := ClassNames.exists_scope? hpackage htarget
    rw [hsegment]
    simp [htarget]

end
end Schema

/-- **When a name is spoken for.** Where all names are identifiers, the module of a package that is compiled
with the initial settings consists of lines, which are those of its source text if factories are on one
line. A class, a field or an enum member in it has a reserved word for its name exactly if a collected type
lies in a declaration of this name, declares a field or a value of this name, or belongs to another package
with this name, dots apart, for its scope. A class at the module's top level has the name of something
imported exactly if it is a top-level declaration of this name in the package itself, or such a scope. -/
theorem spoken_names_iff {files : List Descriptor.File} {rules : RuleIndex} {s : Schema}
    (h : Schema.build files rules = .ok s) (hs : s.HasIdentifiers) {roots : List File}
    (hroots : ∀ f ∈ roots, f ∈ s.files) {package source : String}
    (hsource : s.packageModule .initial package roots = .ok source) :
    ∃ ls, s.packageLines .initial package roots = .ok ls ∧ source = Source.text ls ∧
      ((∀ f ∈ s.allFields, ∀ name ∈ f.factory?, OneLine name) →
        Text.splitOn '\n' source = ls.map Line.shown ++ [""]) ∧
      (∀ word ∈ reservedWords, (∃ b ∈ bindings ls, b.name = word) ↔ ∃ t ∈ s.collect roots,
        word ∈ t.localPath ∨ word ∈ t.attributeNames ∨ s.HasPlainScope package t.package word) ∧
      ∀ word ∈ usedImports, (∃ b ∈ bindings ls, b.indent = 0 ∧ b.name = word) ↔
        ∃ t ∈ s.collect roots, t.package = package ∧ t.localPath.head? = some word ∨
          s.HasPlainScope package t.package word := by
  rw [Schema.packageModule_eq_map_text] at hsource
  obtain ⟨ls, hls, rfl⟩ := map_eq_ok_iff.1 hsource
  have htypes := fun t ht => Schema.mem_types_of_mem_collect (t := t) hroots ht
  refine ⟨ls, hls, rfl, fun hfactories => ?_, fun word hword => ?_, fun word hword => ?_⟩
  · exact Source.splitOn_text (Schema.oneLine_packageLines h hs hroots hls hfactories)
  · rw [Schema.exists_binding_iff h hs hroots hls]
    refine exists_congr fun t => and_congr_right fun ht => ?_
    rw [Schema.mem_segments_plain_iff h (htypes t ht) (isPlainWord_of_reserved word hword), or_assoc,
      or_comm (b := word ∈ t.attributeNames)]
  · rw [Schema.exists_binding_at_margin_iff h hs hroots hls]
    refine exists_congr fun t => and_congr_right fun ht => ?_
    rw [Schema.head_segments_plain_iff h (htypes t ht) (isPlainWord_of_usedImport word hword)]

/-- A message, a field and an enum value with reserved words for names, and a package that is named like an
import. -/
def spokenFiles : List Descriptor.File := [
  { name := "json.proto", package := "json", messages := [{ name := "Item" }] },
  { name := "a.proto"
    package := "a"
    messages := [
      { name := "None"
        fields := [
          { name := "from", kind := some 9 },
          { name := "item", kind := some 11, typeName := some ".json.Item" }] }]
    enums := [{ name := "Kind", values := [{ name := "True" }] }] }]

theorem build_spokenFiles : Schema.build spokenFiles {} = .ok (.ofDescriptors spokenFiles {}) :=
  Schema.build_eq_ok_iff.2 ⟨rfl, by decide +kernel⟩

theorem hasIdentifiers_spokenFiles : (Schema.ofDescriptors spokenFiles {}).HasIdentifiers :=
  ⟨by decide +kernel, by decide +kernel, by decide +kernel⟩

theorem roots_spokenFiles : ∀ f ∈ (Schema.ofDescriptors spokenFiles {}).files.drop 1,
    f ∈ (Schema.ofDescriptors spokenFiles {}).files := fun _ hf => List.mem_of_mem_drop hf

theorem exists_source_spokenFiles : ∃ source, (Schema.ofDescriptors spokenFiles {}).packageModule .initial
    "a" ((Schema.ofDescriptors spokenFiles {}).files.drop 1) = .ok source :=
  Schema.exists_packageModule_of_supported build_spokenFiles roots_spokenFiles (by decide +kernel) .initial
    "a"

/-- The enum, the item of the other package and the message, in the order of the walk. -/
theorem collect_spokenFiles :
    let s := Schema.ofDescriptors spokenFiles {}
    s.collect (s.files.drop 1) = [s.types[1], s.types[0], s.types[2]] :=
  Schema.collect_eq_of_runWithin 20 (by decide +kernel)

theorem spoken_names_iff_taken :
    let s := Schema.ofDescriptors spokenFiles {}
    let roots := s.files.drop 1
    Schema.build spokenFiles {} = .ok s ∧ s.HasIdentifiers ∧ (∀ f ∈ roots, f ∈ s.files) ∧
    ∃ source, s.packageModule .initial "a" roots = .ok source ∧
    ∃ ls, s.packageLines .initial "a" roots = .ok ls ∧ source = Source.text ls ∧
      Text.splitOn '\n' source = ls.map Line.shown ++ [""] ∧
      (∀ word ∈ reservedWords,
        (∃ b ∈ bindings ls, b.name = word) ↔ word = "None" ∨ word = "True" ∨ word = "from") ∧
      ∀ word ∈ usedImports, (∃ b ∈ bindings ls, b.indent = 0 ∧ b.name = word) ↔ word = "json" := by
  intro s roots
  obtain ⟨source, hsource⟩ := exists_source_spokenFiles
  obtain ⟨ls, hls, htext, hlines, hreserved, himported⟩ :=
    spoken_names_iff build_spokenFiles hasIdentifiers_spokenFiles roots_spokenFiles hsource
  have hfactories : ∀ f ∈ s.allFields, f.factory? = none := by decide +kernel
  have htypes : ∀ word ∈ reservedWords, (∃ t ∈ [s.types[1], s.types[0], s.types[2]],
      word ∈ t.localPath ∨ word ∈ t.attributeNames ∨ s.HasPlainScope "a" t.package word) ↔
        word = "None" ∨ word = "True" ∨ word = "from" := by decide +kernel
  have htop : ∀ word ∈ usedImports, (∃ t ∈ [s.types[1], s.types[0], s.types[2]],
      t.package = "a" ∧ t.localPath.head? = some word ∨ s.HasPlainScope "a" t.package word) ↔
        word = "json" := by
    rw [usedImports_eq]
    decide +kernel
  refine ⟨build_spokenFiles, hasIdentifiers_spokenFiles, roots_spokenFiles, source, hsource, ls, hls, htext,
    hlines fun f hf name hname => ?_, fun word hword => ?_, fun word hword => ?_⟩
  · rw [hfactories f hf] at hname
    cases hname
  · rw [hreserved word hword, collect_spokenFiles]
    exact htypes word hword
  · rw [himported word hword, collect_spokenFiles]
    exact htop word hword

/-- A module can bind reserved words, and hide one of its imports. -/
theorem names_taken_twice :
    let s := Schema.ofDescriptors spokenFiles {}
    let roots := s.files.drop 1
    Schema.build spokenFiles {} = .ok s ∧ s.HasIdentifiers ∧ (∀ f ∈ roots, f ∈ s.files) ∧
    ∃ source, s.packageModule .initial "a" roots = .ok source ∧
    ∃ ls, s.packageLines .initial "a" roots = .ok ls ∧ source = Source.text ls ∧
      (∀ b ∈ [⟨0, "None"⟩, ⟨4, "from"⟩, ⟨4, "True"⟩, ⟨0, "json"⟩], b ∈ bindings ls) ∧
      ¬ (∀ b ∈ bindings ls, b.name ∉ reservedWords) ∧
      ¬ ∀ b ∈ bindings ls, b.indent = 0 → b.name ∉ usedImports := by
  intro s roots
  obtain ⟨source, hsource⟩ := exists_source_spokenFiles
  obtain ⟨ls, hls, htext⟩ := map_eq_ok_iff.1 (Schema.packageModule_eq_map_text s _ _ _ ▸ hsource)
  have hcollect : s.collect roots = [s.types[1], s.types[0], s.types[2]] := collect_spokenFiles
  obtain ⟨hkindCollected, hitemCollected, hnoneCollected⟩ : s.types[1] ∈ s.collect roots ∧
      s.types[0] ∈ s.collect roots ∧ s.types[2] ∈ s.collect roots := by
    simp [hcollect]
  have hlocal : ∀ t : TypeDecl, t.package = "a" →
      ((ClassNames.ofPackage s "a").resolve t).segments = t.localPath := by
    intro t ht
    rw [ClassNames.segments_resolve, ht, ClassNames.scope?_target]
    rfl
  have hscope : (ClassNames.ofPackage s "a").scope? "json" = some "json" := by
    rw [ClassNames.scope?_eq_plain_iff (by decide +kernel) (by decide +kernel)]
    exact ⟨by decide, by decide +kernel, by decide +kernel, by decide +kernel⟩
  have hitem : ((ClassNames.ofPackage s "a").resolve s.types[0]).segments = ["json", "Item"] := by
    have hpackage : s.types[0].package = "json" := by decide +kernel
    have hpath : s.types[0].localPath = ["Item"] := by decide +kernel
    rw [ClassNames.segments_resolve, hpackage, hscope, hpath]
    rfl
  have hkind : ((ClassNames.ofPackage s "a").resolve s.types[1]).segments = ["Kind"] :=
    (hlocal _ (by decide +kernel)).trans (by decide +kernel)
  have hnone : ((ClassNames.ofPackage s "a").resolve s.types[2]).segments = ["None"] :=
    (hlocal _ (by decide +kernel)).trans (by decide +kernel)
  have hbound : ∀ b ∈ [⟨0, "None"⟩, ⟨4, "from"⟩, ⟨4, "True"⟩, ⟨0, "json"⟩], b ∈ bindings ls := by
    have hmem := fun b => Schema.mem_bindings_iff (b := b) build_spokenFiles hasIdentifiers_spokenFiles
      roots_spokenFiles hls
    simp only [List.forall_mem_cons, hmem]
    refine ⟨⟨_, hnoneCollected, Or.inl ⟨[], ?_, rfl⟩⟩, ⟨_, hnoneCollected, Or.inr ⟨by decide +kernel, ?_⟩⟩,
      ⟨_, hkindCollected, Or.inr ⟨by decide +kernel, ?_⟩⟩, ⟨_, hitemCollected, Or.inl ⟨[], ?_, rfl⟩⟩,
      by simp⟩
    · rw [hnone]
      exact List.prefix_refl _
    · rw [hnone]
      rfl
    · rw [hkind]
      rfl
    · rw [hitem]
      exact ⟨["Item"], rfl⟩
  refine ⟨build_spokenFiles, hasIdentifiers_spokenFiles, roots_spokenFiles, source, hsource, ls, hls,
    htext.symm, hbound, fun h => ?_, fun h => ?_⟩
  · exact h ⟨0, "None"⟩ (hbound _ (by simp)) (by decide)
  · rw [usedImports_eq] at h
    exact h ⟨0, "json"⟩ (hbound _ (by simp)) rfl (by decide)

end ProtoModels
