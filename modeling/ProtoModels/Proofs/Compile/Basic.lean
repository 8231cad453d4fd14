import Mathlib.Data.List.Sort
import ProtoModels.Compile
import ProtoModels.Proofs.Failures
import ProtoModels.Proofs.Parameters
/-!
# Compiling, step by step

What a request must go through to be answered (`Request.compile_eq_ok_iff`), and which packages it is
answered for: those of the requested files, in strictly ascending order (`sortedNames_pairwise`). Names
in order depend only on which names there are (`sortedNames_congr`).
-/
namespace ProtoModels

/-! ## Names in order -/

theorem nodup_eraseDups : ∀ names : List String, names.eraseDups.Nodup
  | [] => by simp
  | name :: names => by
    rw [List.eraseDups_cons, List.nodup_cons]
    refine ⟨fun h => ?_, nodup_eraseDups _⟩
    simp [List.mem_eraseDups] at h
termination_by names => names.length
decreasing_by exact Nat.lt_succ_of_le (List.length_filter_le _ _)

theorem sortedNames_pairwise (names : List String) : (sortedNames names).Pairwise (· < ·) := by
  have hle : (sortedNames names).Pairwise fun a b => decide (a ≤ b) = true :=
    List.pairwise_mergeSort
      (fun a b c hab hbc => by
        simp only [decide_eq_true_eq] at hab hbc ⊢
        exact String.le_trans hab hbc)
      (fun a b => by simpa using String.le_total a b) _
  have hne : (sortedNames names).Nodup :=
    (List.mergeSort_perm _ _).nodup_iff.2 (nodup_eraseDups names)
  exact hle.imp₂ (fun a b hab hne => Std.lt_of_le_of_ne (by simpa using hab) hne) hne

/-- Names that are in order and without repeats are the names in order. -/
theorem sortedNames_eq {names sorted : List String} (hsorted : sorted.Pairwise (· < ·))
    (hmem : ∀ name, name ∈ sorted ↔ name ∈ names) : sortedNames names = sorted :=
  List.Pairwise.eq_of_mem_iff (sortedNames_pairwise names) hsorted fun name => by
    rw [mem_sortedNames, hmem]

/-- Only which names there are counts. -/
theorem sortedNames_congr {names names' : List String} (h : ∀ name, name ∈ names' ↔ name ∈ names) :
    sortedNames names' = sortedNames names :=
  sortedNames_eq (sortedNames_pairwise names) fun name => by rw [mem_sortedNames, h]

/-! ## Requested files -/

theorem mem_requestedPackages {files : List File} {package : String} :
    package ∈ requestedPackages files ↔ ∃ f ∈ files, f.package = package := by
  rw [requestedPackages, mem_sortedNames, List.mem_map]

namespace Schema

variable {s : Schema}

theorem requestedFile_eq_ok_iff {path : String} {f : File} :
    s.requestedFile path = .ok f ↔ s.file? path = some f := by
  unfold requestedFile
  cases s.file? path <;> simp

/-- Requested files are found in order. -/
theorem mapM_requestedFile {paths : List String} (h : ∀ path ∈ paths, ∃ f, s.file? path = some f) :
    paths.mapM s.requestedFile = .ok (paths.filterMap s.file?) := by
  induction paths with
  | nil => rfl
  | cons path paths ih =>
    rw [List.forall_mem_cons] at h
    obtain ⟨⟨f, hf⟩, hpaths⟩ := h
    rw [List.mapM_cons, requestedFile_eq_ok_iff.2 hf, ih hpaths, List.filterMap_cons, hf]
    rfl

/-- What is found has a requested path. -/
theorem mem_of_mapM_requestedFile {paths : List String} {requested : List File}
    (h : paths.mapM s.requestedFile = .ok requested) :
    ∀ f ∈ requested, f ∈ s.files ∧ f.path ∈ paths := by
  intro f hf
  obtain ⟨path, hpath, hfile⟩ := exists_mem_of_mapM h f hf
  rw [requestedFile_eq_ok_iff] at hfile
  have hname : f.path = path := by simpa using List.find?_some hfile
  exact ⟨List.mem_of_find?_eq_some hfile, hname ▸ hpath⟩

/-- Files of one package are compiled as this package, if it passes the filter. -/
theorem compileFiles_eq_compilePackage {settings : Settings} {package : String} {files : List File}
    (hne : files ≠ []) (hpackage : ∀ f ∈ files, f.package = package)
    (hincluded : settings.includes package = true) :
    s.compileFiles settings files = s.compilePackage settings package files := by
  have hpackages : requestedPackages files = [package] := by
    refine sortedNames_eq (List.pairwise_singleton ..) fun name => ?_
    rw [List.mem_map, List.mem_singleton]
    obtain ⟨f, rest, rfl⟩ := List.exists_cons_of_ne_nil hne
    constructor
    · rintro rfl
      exact ⟨f, List.mem_cons_self .., hpackage f (List.mem_cons_self ..)⟩
    · rintro ⟨f, hf, rfl⟩
      exact hpackage f hf
  have hall : files.filter (·.package == package) = files := by
    rw [List.filter_eq_self]
    intro f hf
    rw [hpackage f hf, beq_self_eq_true]
  rw [compileFiles, hpackages, List.filter_cons_of_pos hincluded, List.filter_nil, List.mapM_cons,
    hall]
  cases s.compilePackage settings package files with
  | error e => rfl
  | ok output => simp [pure, Except.pure, bind, Except.bind, Except.map]

end Schema

/-! ## Requests -/

namespace Descriptor.Request

variable {r : Request} {rules : RuleIndex} {s : Schema} {settings : Settings}

/-- A request is answered if its settings can be read, its schema can be built, its files are found,
and they can be compiled. -/
theorem compile_eq_ok_iff {output : List OutputFile} : r.compile rules = .ok output ↔
    ∃ settings s requested, Settings.ofParameter r.parameter = .ok settings ∧
      Schema.build r.files rules = .ok s ∧ r.filesToGenerate.mapM s.requestedFile = .ok requested ∧
      s.compileFiles settings requested = .ok output := by
  simp only [compile, bind_eq_ok_iff]
  constructor
  · rintro ⟨settings, hsettings, s, hs, requested, hrequested, h⟩
    exact ⟨settings, s, requested, hsettings, hs, hrequested, h⟩
  · rintro ⟨settings, s, requested, hsettings, hs, hrequested, h⟩
    exact ⟨settings, hsettings, s, hs, requested, hrequested, h⟩

/-- All requested paths of a request that is answered are found. -/
theorem exists_file?_of_compile (hs : Schema.build r.files rules = .ok s) {output : List OutputFile}
    (h : r.compile rules = .ok output) : ∀ path ∈ r.filesToGenerate, ∃ f, s.file? path = some f := by
  obtain ⟨_, s', requested, _, hs', hrequested, _⟩ := compile_eq_ok_iff.1 h
  obtain rfl : s = s' := Except.ok.inj (hs.symm.trans hs')
  intro path hpath
  obtain ⟨f, _, hf⟩ := exists_result_of_mapM hrequested path hpath
  exact ⟨f, Schema.requestedFile_eq_ok_iff.1 hf⟩

/-- If its schema can be built and its files are found, nothing but compiling them can fail. -/
theorem compile_eq_compileFiles (hsettings : Settings.ofParameter r.parameter = .ok settings)
    (hs : Schema.build r.files rules = .ok s)
    (hpaths : ∀ path ∈ r.filesToGenerate, ∃ f, s.file? path = some f) :
    r.compile rules = s.compileFiles settings (r.filesToGenerate.filterMap s.file?) := by
  rw [compile, hsettings, hs]
  show (r.filesToGenerate.mapM s.requestedFile >>= s.compileFiles settings) = _
  rw [Schema.mapM_requestedFile hpaths]
  rfl

/-- A request all of whose fields are of known kinds and have no conflicting rules is answered. -/
theorem exists_compile_of_supported (hs : Schema.build r.files rules = .ok s)
    (hpaths : ∀ path ∈ r.filesToGenerate, ∃ f, s.file? path = some f)
    (hfields : ∀ f ∈ s.allFields,
      (s.valueField f).kind.isUnsupported = false ∧ ¬ (f.rules.getD .unset).Conflict) :
    ∃ output, r.compile rules = .ok output := by
  obtain ⟨settings, hsettings⟩ := Settings.exists_ofParameter r.parameter
  rw [compile_eq_compileFiles hsettings hs hpaths, Schema.compileFiles, exists_map_eq_ok_iff,
    exists_mapM_eq_ok_iff]
  intro package _
  rw [Schema.compilePackage, exists_map_eq_ok_iff]
  refine Schema.exists_packageModule_of_supported hs (fun f hf => ?_) hfields settings package
  obtain ⟨path, _, hf⟩ := List.mem_filterMap.1 (List.mem_of_mem_filter hf)
  exact List.mem_of_find?_eq_some hf

end Descriptor.Request
end ProtoModels
