import ProtoModels.Proofs.Compile.SinglePackages
import ProtoModels.Proofs.ModuleText.RuleLines
/-!
# Rules stay with their field

Two rule indexes that agree on all fields but one lead to the same files with the same lines, but for
the lines of that field (`compile_rules_local`). What is emitted, and how it is nested and named, comes
from the schema without rules, and the two modules of a package are written from one class tree.
-/
namespace ProtoModels

open Source (Line)

variable {rules rules₁ rules₂ : RuleIndex} {name : String}

namespace Schema

variable {files : List Descriptor.File} {s : Schema} {settings : Settings}

/-! ## Schemas and files -/

/-- Whether a schema can be built does not depend on rules. -/
theorem build_withRules_iff {s' : Schema} : build files rules = .ok s' ↔
    ∃ s, build files {} = .ok s ∧ s' = s.withRules rules := by
  simp only [build_eq_ok_iff]
  constructor
  · rintro ⟨rfl, h⟩
    rw [ofDescriptors_eq, firstUnresolved?_withRules, Option.map_eq_none_iff] at h
    exact ⟨_, ⟨rfl, h⟩, ofDescriptors_eq files rules⟩
  · rintro ⟨s, ⟨rfl, h⟩, rfl⟩
    exact ⟨(ofDescriptors_eq files rules).symm, by rw [firstUnresolved?_withRules, h]; rfl⟩

theorem filterMap_file?_withRules (s : Schema) (paths : List String) :
    paths.filterMap (s.withRules rules).file? =
      (paths.filterMap s.file?).map (File.withRules rules) := by
  rw [List.map_filterMap]
  exact congrArg (List.filterMap · paths) (funext fun path => s.file?_withRules path)

theorem requestedPackages_withRules (requested : List File) :
    requestedPackages (requested.map (File.withRules rules)) = requestedPackages requested := by
  rw [requestedPackages, requestedPackages, List.map_map]
  rfl

/-! ## Packages -/

/-- The class tree of a package is that of the schema without rules, each type with its rules. -/
theorem packageTree_withRules {package : String} {roots : List File} {tree : ClassTree TypeDecl}
    (htree : s.packageTree package roots = .ok tree) :
    (s.withRules rules).packageTree package (roots.map (File.withRules rules)) =
      .ok (tree.map (TypeDecl.withRules rules)) := by
  rw [packageTree, collect_withRules, ofPackage_withRules]
  exact ClassTree.ofTypes_map (fun t => ClassNames.resolve_withRules _ t) htree

/-- Files of one name whose contents have the same lines, but for those of a field. -/
def SameFile (s : Schema) (rules₁ rules₂ : RuleIndex) (name : String) (a b : OutputFile) : Prop :=
  a.name = b.name ∧ List.Forall₂ (fun l₁ l₂ => l₁ = l₂ ∨ s.FieldLines rules₁ rules₂ name l₁ l₂)
    (Text.splitOn '\n' a.content) (Text.splitOn '\n' b.content)

variable (hagree : ∀ n, n ≠ name → rules₁.get? n = rules₂.get? n)
include hagree

/-- The lines of a package's module. -/
theorem forall₂_packageModule (h : build files {} = .ok s) (hs : s.NamesOneLine)
    (hrules₁ : rules₁.FactoriesOneLine) (hrules₂ : rules₂.FactoriesOneLine) {package : String}
    {roots : List File} (hroots : ∀ f ∈ roots, f ∈ s.files) {source₁ source₂ : String}
    (h₁ : (s.withRules rules₁).packageModule settings package (roots.map (File.withRules rules₁)) =
      .ok source₁)
    (h₂ : (s.withRules rules₂).packageModule settings package (roots.map (File.withRules rules₂)) =
      .ok source₂) :
    List.Forall₂ (fun a b => a = b ∨ s.FieldLines rules₁ rules₂ name a b)
      (Text.splitOn '\n' source₁) (Text.splitOn '\n' source₂) := by
  obtain ⟨tree, htree, hholds⟩ := packageTree_holds h hroots package
  rw [packageModule_eq (packageTree_withRules htree), ofPackage_withRules] at h₁ h₂
  obtain ⟨text₁, htext₁, rfl⟩ := map_eq_ok_iff.1 h₁
  obtain ⟨text₂, htext₂, rfl⟩ := map_eq_ok_iff.1 h₂
  let c : ModuleContext := ⟨s, .ofPackage s package, settings⟩
  have hmessages : ∀ e ∈ tree.events, ∀ m, e.node.decl = some (.message m) → .message m ∈ s.types := by
    intro e he m hm
    obtain ⟨path, n, _, hfind, hn⟩ := hholds.mem_events_iff.1 he
    obtain rfl : e.node = n := by rcases hn with rfl | rfl <;> rfl
    have hentry := (hholds.declAt_iff path _).1 (Option.bind_eq_some_iff.2 ⟨e.node, hfind, hm⟩)
    exact mem_types_of_mem_collect hroots (ClassNames.mem_entries.1 hentry).1
  have hlines : c.SameLines rules₁ rules₂ name text₁.writer.lines.toList text₂.writer.lines.toList :=
    ModuleText.forall₂_lines hagree hmessages htext₁ htext₂
  refine (Source.forall₂_splitOn_text (fun l₁ l₂ hl => hl.oneLine h hs hrules₁ hrules₂) hlines).imp ?_
  rintro a b (rfl | ⟨l₁, l₂, hl, rfl, rfl⟩)
  · exact Or.inl rfl
  · exact Or.inr hl.fieldLines

/-- The files of a package. -/
theorem forall₂_compilePackage (h : build files {} = .ok s) (hs : s.NamesOneLine)
    (hrules₁ : rules₁.FactoriesOneLine) (hrules₂ : rules₂.FactoriesOneLine) {package : String}
    {roots : List File} (hroots : ∀ f ∈ roots, f ∈ s.files) {part₁ part₂ : List OutputFile}
    (h₁ : (s.withRules rules₁).compilePackage settings package (roots.map (File.withRules rules₁)) =
      .ok part₁)
    (h₂ : (s.withRules rules₂).compilePackage settings package (roots.map (File.withRules rules₂)) =
      .ok part₂) : List.Forall₂ (s.SameFile rules₁ rules₂ name) part₁ part₂ := by
  obtain ⟨source₁, hsource₁, rfl⟩ := map_eq_ok_iff.1 h₁
  obtain ⟨source₂, hsource₂, rfl⟩ := map_eq_ok_iff.1 h₂
  have hsame : ∀ file : OutputFile, s.SameFile rules₁ rules₂ name file file := fun file =>
    ⟨rfl, List.forall₂_same.2 fun _ _ => Or.inl rfl⟩
  have hmodule := forall₂_packageModule hagree h hs hrules₁ hrules₂ hroots hsource₁ hsource₂
  exact .cons ⟨rfl, hmodule⟩ (.cons (hsame _) (.cons (hsame _) .nil))

/-- The files of the packages of some requested files. -/
theorem forall₂_compileFiles (h : build files {} = .ok s) (hs : s.NamesOneLine)
    (hrules₁ : rules₁.FactoriesOneLine) (hrules₂ : rules₂.FactoriesOneLine) {requested : List File}
    (hrequested : ∀ f ∈ requested, f ∈ s.files) {output₁ output₂ : List OutputFile}
    (h₁ : (s.withRules rules₁).compileFiles settings (requested.map (File.withRules rules₁)) =
      .ok output₁)
    (h₂ : (s.withRules rules₂).compileFiles settings (requested.map (File.withRules rules₂)) =
      .ok output₂) : List.Forall₂ (s.SameFile rules₁ rules₂ name) output₁ output₂ := by
  have hroots : ∀ (rules : RuleIndex) (package : String),
      (requested.map (File.withRules rules)).filter (·.package == package) =
        (requested.filter (·.package == package)).map (File.withRules rules) := fun rules package => by
    rw [List.filter_map]
    rfl
  simp only [compileFiles, requestedPackages_withRules, hroots] at h₁ h₂
  obtain ⟨parts₁, hparts₁, rfl⟩ := map_eq_ok_iff.1 h₁
  obtain ⟨parts₂, hparts₂, rfl⟩ := map_eq_ok_iff.1 h₂
  rw [mapM_eq_ok_iff] at hparts₁ hparts₂
  refine List.rel_flatten ?_
  generalize (requestedPackages requested).filter settings.includes = packages at hparts₁ hparts₂
  clear h₁ h₂
  induction hparts₁ generalizing parts₂ with
  | nil =>
    cases hparts₂
    exact .nil
  | cons hpart₁ _ ih =>
    cases hparts₂ with
    | cons hpart₂ hparts₂ =>
      have hpart := forall₂_compilePackage hagree h hs hrules₁ hrules₂
        (fun f hf => hrequested f (List.mem_of_mem_filter hf)) hpart₁ hpart₂
      exact .cons hpart (ih _ hparts₂)

end Schema

section
variable {r : Descriptor.Request}

/-- What a request is answered by is compiled from the schema without rules, with its rules. -/
theorem Descriptor.Request.exists_compileFiles_of_compile {settings : Settings}
    (hsettings : Settings.ofParameter r.parameter = .ok settings) {output : List OutputFile}
    (h : r.compile rules = .ok output) : ∃ s, Schema.build r.files {} = .ok s ∧
      (s.withRules rules).compileFiles settings
        ((r.filesToGenerate.filterMap s.file?).map (File.withRules rules)) = .ok output := by
  obtain ⟨_, s', _, _, hs', _, _⟩ := compile_eq_ok_iff.1 h
  obtain ⟨s, hs, rfl⟩ := Schema.build_withRules_iff.1 hs'
  rw [compile_eq_compileFiles hsettings hs' (exists_file?_of_compile hs' h),
    Schema.filterMap_file?_withRules] at h
  exact ⟨s, hs, h⟩

/-- Rules for names that no field has are not looked at. -/
theorem Descriptor.Request.compile_congr
    (h : ∀ f ∈ (Schema.ofDescriptors r.files {}).allFields,
      rules₁.get? f.fullName = rules₂.get? f.fullName) : r.compile rules₁ = r.compile rules₂ := by
  have hschema : Schema.ofDescriptors r.files rules₁ = Schema.ofDescriptors r.files rules₂ := by
    rw [Schema.ofDescriptors_eq r.files rules₁, Schema.ofDescriptors_eq r.files rules₂]
    exact Schema.withRules_congr _ h
  simp only [compile, Schema.build, hschema]

end

/-- **Rules stay with their field.** Let two rule indexes agree on all names but one. If no field has this
name, a request gets the same answer for both, be it files or a failure. If it is answered for both, and
names and default factories hold no line feed, the answers are files of the same names in the same order,
with equally many lines, and where two lines differ both are the line of a field with this full name, at
one depth and of one type, each written for its own rules. -/
theorem compile_rules_local {r : Descriptor.Request} {rules₁ rules₂ : RuleIndex} {name : String}
    (hagree : ∀ n, n ≠ name → rules₁.get? n = rules₂.get? n) :
    ((∀ f ∈ (Schema.ofDescriptors r.files {}).allFields, f.fullName ≠ name) →
      r.compile rules₁ = r.compile rules₂) ∧
    ((Schema.ofDescriptors r.files {}).NamesOneLine → rules₁.FactoriesOneLine →
      rules₂.FactoriesOneLine → ∀ output₁ output₂, r.compile rules₁ = .ok output₁ →
        r.compile rules₂ = .ok output₂ →
          List.Forall₂ ((Schema.ofDescriptors r.files {}).SameFile rules₁ rules₂ name)
            output₁ output₂) := by
  refine ⟨fun hname => Descriptor.Request.compile_congr fun f hf => hagree _ (hname f hf), ?_⟩
  intro hs hrules₁ hrules₂ output₁ output₂ h₁ h₂
  obtain ⟨settings, hsettings⟩ := Settings.exists_ofParameter r.parameter
  obtain ⟨s, hbuild, hfiles₁⟩ := Descriptor.Request.exists_compileFiles_of_compile hsettings h₁
  obtain ⟨s', hbuild', hfiles₂⟩ := Descriptor.Request.exists_compileFiles_of_compile hsettings h₂
  obtain rfl : s = s' := Except.ok.inj (hbuild.symm.trans hbuild')
  obtain ⟨rfl, _⟩ := Schema.build_eq_ok_iff.1 hbuild
  refine Schema.forall₂_compileFiles hagree hbuild hs hrules₁ hrules₂ (fun f hf => ?_) hfiles₁ hfiles₂
  obtain ⟨path, _, hf⟩ := List.mem_filterMap.1 hf
  exact List.mem_of_find?_eq_some hf

/-- Rules for the lines of an order. -/
def skuRules : RuleIndex :=
  ⟨[("shop.Order.Line.sku", .string { lengths := { minLength := some 3 } })]⟩

theorem compile_rules_local_orders :
    let s := Schema.ofDescriptors orderFiles {}
    (∀ n, n ≠ "shop.Order.Line.sku" → RuleIndex.get? {} n = skuRules.get? n) ∧
    s.NamesOneLine ∧ RuleIndex.FactoriesOneLine {} ∧ skuRules.FactoriesOneLine ∧
    ∃ output₁ output₂, mixedRequest.compile {} = .ok output₁ ∧
      mixedRequest.compile skuRules = .ok output₂ ∧
      List.Forall₂ (s.SameFile {} skuRules "shop.Order.Line.sku") output₁ output₂ := by
  intro s
  have hagree : ∀ n, n ≠ "shop.Order.Line.sku" → RuleIndex.get? {} n = skuRules.get? n := fun n hn => by
    simp [RuleIndex.get?, skuRules, hn.symm]
  have hnames : s.NamesOneLine := ⟨by decide +kernel, by decide +kernel, by decide +kernel⟩
  have hnone : RuleIndex.FactoriesOneLine {} := fun _ _ _ h => by simp at h
  have hrules : skuRules.FactoriesOneLine := fun field r _ h => by
    by_cases hfield : field = "shop.Order.Line.sku"
    · subst hfield
      cases h
    · rw [← hagree field hfield] at h
      simp at h
  obtain ⟨output₁, h₁⟩ : ∃ output, mixedRequest.compile {} = .ok output :=
    Descriptor.Request.exists_compile_of_supported build_orderFiles exists_file?_mixedRequest
      (by decide +kernel)
  have hbuild : Schema.build mixedRequest.files skuRules = .ok (s.withRules skuRules) :=
    Schema.build_withRules_iff.2 ⟨s, build_orderFiles, rfl⟩
  obtain ⟨output₂, h₂⟩ : ∃ output, mixedRequest.compile skuRules = .ok output := by
    refine Descriptor.Request.exists_compile_of_supported hbuild (fun path hpath => ?_)
      (by decide +kernel)
    rw [Schema.file?_withRules]
    obtain ⟨f, hf⟩ := exists_file?_mixedRequest path hpath
    exact ⟨_, by rw [hf]; rfl⟩
  exact ⟨hagree, hnames, hnone, hrules, output₁, output₂, h₁, h₂,
    (compile_rules_local hagree).2 hnames hnone hrules output₁ output₂ h₁ h₂⟩

end ProtoModels
