import Mathlib.Data.List.Find
import ProtoModels.Proofs.Compile.Basic
import ProtoModels.Proofs.Compile.SameTargets
/-!
# The order of the files

Everything behind the reading of descriptors asks a schema for files by path, for types by full name,
and for which names there are: two schemas that answer alike (`Schema.Alike`) compile alike
(`Schema.Alike.compileFiles_eq`). Where names do not repeat, the order of the files changes no answer
(`Schema.alike_of_perm`), so the order of the descriptors of a request does not show in its output
(`compile_perm`).
-/
namespace ProtoModels

/-- Two schemas that no lookup tells apart. -/
structure Schema.Alike (s s' : Schema) : Prop where
  file? : s'.file? = s.file?
  type? : s'.type? = s.type?
  names : ∀ name, name ∈ s'.names ↔ name ∈ s.names
  topLevelNames : ∀ package name, name ∈ s'.topLevelNames package ↔ name ∈ s.topLevelNames package
  packages : ∀ package, package ∈ s'.files.map (·.package) ↔ package ∈ s.files.map (·.package)

/-! ## Scopes -/

theorem mem_useUp_congr {names names' : List String} (h : ∀ a, a ∈ names' ↔ a ∈ names) (name : String) :
    ∀ a, a ∈ useUp name names' ↔ a ∈ useUp name names := fun a => by
  rw [mem_useUp, mem_useUp, h]

theorem freeName_congr {taken taken' : List String} (h : ∀ a, a ∈ taken' ↔ a ∈ taken) (name : String) :
    freeName taken' name = freeName taken name := by
  fun_induction freeName taken name generalizing taken' with
  | case1 taken name hmem _ ih =>
    rw [freeName, dif_pos ((h name).2 hmem)]
    exact ih (mem_useUp_congr h name)
  | case2 taken name hmem => rw [freeName, dif_neg (mt (h name).1 hmem)]

theorem allotScopes_congr {taken taken' : List String} (h : ∀ a, a ∈ taken' ↔ a ∈ taken)
    (packages : List String) : allotScopes taken' packages = allotScopes taken packages := by
  induction packages generalizing taken taken' with
  | nil => rfl
  | cons package packages ih =>
    rw [allotScopes, allotScopes, freeName_congr h]
    refine congrArg _ (ih fun a => ?_)
    rw [List.mem_cons, List.mem_cons, h]

namespace Schema

/-! ## What follows from the types' names -/

section
variable {s s' : Schema} (h : s'.type? = s.type?)
include h

theorem target?_of_type? (f : Field) : s'.target? f = s.target? f := by
  rw [target?, target?, h]

theorem descends_of_type? : s'.descends = s.descends := by
  funext d
  cases d with
  | field f => exact descends_congr (target?_of_type? h f)
  | _ => rfl

/-- A walk only asks which names are left, and which type a name is for. -/
theorem run_congr (visit : List Decl → Decl → Bool) (unused : List String) (visited : List Decl)
    (tasks : List Task) : ∀ unused' : List String, (∀ a, a ∈ unused' ↔ a ∈ unused) →
      Walk.run s' visit unused' visited tasks = Walk.run s visit unused visited tasks := by
  have henter : ∀ visited d, Walk.enter s' visit visited d = Walk.enter s visit visited d := by
    intro visited d
    cases d <;>
      simp only [Walk.enter, Walk.belowField, target?_of_type? h,
        entryFields?_congr (target?_of_type? h _)]
  fun_induction Walk.run s visit unused visited tasks with
  | case1 unused visited =>
    intro unused' _
    rw [Walk.run]
  | case2 unused visited m tasks ih =>
    intro unused' hunused
    rw [Walk.run]
    exact ih unused' hunused
  | case3 unused visited d tasks hmem _ step ih =>
    intro unused' hunused
    rw [Walk.run, dif_pos ((hunused d.name).2 hmem), henter]
    exact ih _ (mem_useUp_congr hunused d.name)
  | case4 unused visited d tasks hmem ih =>
    intro unused' hunused
    rw [Walk.run, dif_neg (mt (hunused d.name).1 hmem)]
    exact ih unused' hunused

/-- The text of a module is written by the tree and the names, and by the types' names. -/
theorem ofTree_of_type? (names : ClassNames) (settings : Settings) (tree : ClassTree TypeDecl) :
    ModuleText.ofTree ⟨s', names, settings⟩ tree = ModuleText.ofTree ⟨s, names, settings⟩ tree :=
  ModuleText.ofTree_congr fun _ _ _ _ _ f _ =>
    ⟨fieldType_congr (target?_of_type? h f) (target?_of_type? h _) names,
      isMap_congr (target?_of_type? h f)⟩

end

/-! ## Schemas that answer alike -/

namespace Alike

variable {s s' : Schema} (h : s.Alike s')
include h

theorem collect_eq (roots : List File) : s'.collect roots = s.collect roots := by
  rw [collect, collect, walk, walk, descends_of_type? h.type?, run_congr h.type? _ _ _ _ _ h.names]

theorem ofPackage_eq (target : String) : ClassNames.ofPackage s' target = ClassNames.ofPackage s target := by
  have hforeign : s'.foreignPackages target = s.foreignPackages target :=
    sortedNames_congr fun package => by
      rw [List.mem_filter, List.mem_filter, h.packages]
  rw [ClassNames.ofPackage, ClassNames.ofPackage, hforeign, allotScopes_congr (h.topLevelNames target)]

theorem packageModule_eq (settings : Settings) (package : String) (roots : List File) :
    s'.packageModule settings package roots = s.packageModule settings package roots := by
  simp only [packageModule, packageTree, h.collect_eq, h.ofPackage_eq, ofTree_of_type? h.type?]

/-- **Schemas that answer alike compile alike.** -/
theorem compileFiles_eq (settings : Settings) (requested : List File) :
    s'.compileFiles settings requested = s.compileFiles settings requested := by
  simp only [compileFiles, compilePackage, h.packageModule_eq]

theorem requestedFile_eq : s'.requestedFile = s.requestedFile := by
  funext path
  rw [requestedFile, requestedFile, h.file?]

end Alike

/-! ## Files in another order -/

/-- The first entry with a key is the same in every order if keys do not repeat. -/
theorem find?_key_of_perm {α : Type} {key : α → String} {l l' : List α} (hperm : l'.Perm l)
    (hkeys : (l.map key).Nodup) (k : String) : l'.find? (key · == k) = l.find? (key · == k) := by
  refine List.find?_eq_find?_of_perm hperm fun a ha b hb => ?_
  obtain ⟨ha, hka⟩ := ha
  obtain ⟨hb, hkb⟩ := hb
  exact List.inj_on_of_nodup_map hkeys (hperm.mem_iff.1 ha) (hperm.mem_iff.1 hb)
    ((beq_iff_eq.1 hka).trans (beq_iff_eq.1 hkb).symm)

variable {s s' : Schema}

theorem types_perm (hperm : s'.files.Perm s.files) : s'.types.Perm s.types := hperm.flatMap_right _

theorem allFields_perm (hperm : s'.files.Perm s.files) : s'.allFields.Perm s.allFields :=
  hperm.flatMap_right _

theorem type?_of_perm (hperm : s'.files.Perm s.files) (htypes : (s.types.map (·.fullName)).Nodup) :
    s'.type? = s.type? := by
  funext name
  rw [type?, type?, List.findRev?_eq_find?_reverse, List.findRev?_eq_find?_reverse]
  refine find?_key_of_perm ?_ ?_ _
  · exact (List.reverse_perm _).trans ((types_perm hperm).trans (List.reverse_perm _).symm)
  · rw [List.map_reverse]
    exact List.nodup_reverse.2 htypes

/-- **Schemas with the same files in another order answer alike**, if no path and no full name of a
type repeats. -/
theorem alike_of_perm (hperm : s'.files.Perm s.files) (hpaths : (s.files.map (·.path)).Nodup)
    (htypes : (s.types.map (·.fullName)).Nodup) : s.Alike s' where
  file? := funext fun path => find?_key_of_perm hperm hpaths path
  type? := type?_of_perm hperm htypes
  names name := by
    simp only [Schema.names]
    exact (((hperm.map _).append ((types_perm hperm).map _)).append
      ((allFields_perm hperm).map _)).mem_iff
  topLevelNames package name := (((hperm.filter _).flatMap_right _).map _).mem_iff
  packages package := (hperm.map _).mem_iff

/-! ## Descriptors in another order -/

theorem keepFirst_eq_self {seen : List String} {ds : List Descriptor.File}
    (hnodup : (ds.map (·.name)).Nodup) (hseen : ∀ d ∈ ds, d.name ∉ seen) : keepFirst seen ds = ds := by
  induction ds generalizing seen with
  | nil => rfl
  | cons d ds ih =>
    obtain ⟨hd, hnodup⟩ := List.nodup_cons.1 hnodup
    rw [List.forall_mem_cons] at hseen
    rw [keepFirst, if_neg hseen.1]
    refine congrArg _ (ih hnodup fun d' hd' hmem => ?_)
    rcases List.mem_cons.1 hmem with heq | hmem
    · exact hd (List.mem_map.2 ⟨d', hd', heq⟩)
    · exact hseen.2 d' hd' hmem

section
variable {files files' : List Descriptor.File} {rules : RuleIndex}

/-- Descriptors of different names become one file each. -/
theorem files_ofDescriptors (hnames : (files.map (·.name)).Nodup) :
    (ofDescriptors files rules).files = files.map (File.ofDescriptor rules) := by
  rw [ofDescriptors, keepFirst_eq_self hnames (by simp)]

/-- The files of permuted descriptors are the same ones in another order. -/
theorem files_perm_of_perm (rules : RuleIndex) (hperm : files'.Perm files)
    (hnames : (files.map (·.name)).Nodup) :
    (ofDescriptors files' rules).files.Perm (ofDescriptors files rules).files := by
  rw [files_ofDescriptors hnames, files_ofDescriptors ((hperm.map _).nodup_iff.2 hnames)]
  exact hperm.map _

/-- Whether all references have a target does not depend on the order of the descriptors. -/
theorem exists_build_of_perm (hperm : files'.Perm files) (hnames : (files.map (·.name)).Nodup)
    (htypes : ((ofDescriptors files rules).types.map (·.fullName)).Nodup) {s : Schema}
    (h : build files rules = .ok s) : ∃ s', build files' rules = .ok s' ∧ s.Alike s' := by
  obtain ⟨rfl, hresolved⟩ := build_eq_ok_iff.1 h
  have hfiles := files_perm_of_perm rules hperm hnames
  have hpaths : ((ofDescriptors files rules).files.map (·.path)).Nodup := by
    rw [files_ofDescriptors hnames, List.map_map]
    exact hnames
  have halike := alike_of_perm hfiles hpaths htypes
  refine ⟨_, build_eq_ok_iff.2 ⟨rfl, ?_⟩, halike⟩
  rw [firstUnresolved?, List.find?_eq_none] at hresolved ⊢
  intro f hf
  rw [target?_of_type? halike.type?]
  exact hresolved f ((allFields_perm hfiles).mem_iff.1 hf)

end
end Schema

section
variable {r : Descriptor.Request} {rules : RuleIndex} {files' : List Descriptor.File}

theorem compile_of_perm (hperm : files'.Perm r.files) (hnames : (r.files.map (·.name)).Nodup)
    (htypes : ((Schema.ofDescriptors r.files rules).types.map (·.fullName)).Nodup)
    {output : List OutputFile} (h : r.compile rules = .ok output) :
    ({ r with files := files' } : Descriptor.Request).compile rules = .ok output := by
  rw [Descriptor.Request.compile_eq_ok_iff] at h ⊢
  obtain ⟨settings, s, requested, hsettings, hs, hrequested, houtput⟩ := h
  obtain ⟨s', hs', halike⟩ := Schema.exists_build_of_perm hperm hnames htypes hs
  refine ⟨settings, s', requested, hsettings, hs', ?_, ?_⟩
  · rw [halike.requestedFile_eq]
    exact hrequested
  · rw [halike.compileFiles_eq]
    exact houtput

/-- **The order of the descriptors does not show.** If the descriptors of a request have different
names and declare types of different full names, the request with its descriptors in another order is
answered if and only if the request itself is, and by the same files in the same order. -/
theorem compile_perm (hperm : files'.Perm r.files) (hnames : (r.files.map (·.name)).Nodup)
    (htypes : ((Schema.ofDescriptors r.files rules).types.map (·.fullName)).Nodup)
    (output : List OutputFile) :
    ({ r with files := files' } : Descriptor.Request).compile rules = .ok output ↔
      r.compile rules = .ok output := by
  have hfiles := Schema.files_perm_of_perm rules hperm hnames
  refine ⟨fun h => ?_, compile_of_perm hperm hnames htypes⟩
  exact compile_of_perm (r := { r with files := files' }) hperm.symm
    ((hperm.map _).nodup_iff.2 hnames)
    (((Schema.types_perm hfiles).map _).nodup_iff.2 htypes) h

/-- The request for the orders' module, with the file of amounts of money in front. -/
theorem compile_perm_orders :
    let r : Descriptor.Request := { filesToGenerate := ["shop/order.proto"], files := orderFiles }
    orderFiles.reverse.Perm r.files ∧ (r.files.map (·.name)).Nodup ∧
    ((Schema.ofDescriptors r.files {}).types.map (·.fullName)).Nodup ∧
    ∃ output, r.compile {} = .ok output ∧
      ({ r with files := orderFiles.reverse } : Descriptor.Request).compile {} = .ok output := by
  intro r
  have hperm : orderFiles.reverse.Perm orderFiles := List.reverse_perm _
  have hnames : (orderFiles.map (·.name)).Nodup := by decide +kernel
  have htypes : ((Schema.ofDescriptors orderFiles {}).types.map (·.fullName)).Nodup := by
    decide +kernel
  obtain ⟨output, houtput⟩ : ∃ output, r.compile {} = .ok output :=
    Descriptor.Request.exists_compile_of_supported build_orderFiles
      (List.forall_mem_singleton.2 ⟨_, rfl⟩) (by decide +kernel)
  exact ⟨hperm, hnames, htypes, output, houtput, (compile_perm hperm hnames htypes output).2 houtput⟩

end
end ProtoModels
