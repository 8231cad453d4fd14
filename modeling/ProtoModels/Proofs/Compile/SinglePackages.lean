import Mathlib.Data.List.Induction
import ProtoModels.Proofs.Compile.Basic
/-!
# One package at a time

The packages of a request have nothing to do with each other: what is written for a package is what the
request for the package's files alone would be answered by (`Request.compile_only`), and a request is
answered by putting these answers together (`compile_packages`). A path that is requested twice adds
nothing, since a walk skips a root that it has entered (`Walk.run_eraseDups`).
-/
namespace ProtoModels

/-! ## Roots that are given twice -/

namespace Walk

variable {s : Schema} {visit : List Decl → Decl → Bool}

/-- A declaration that has been entered, or will have been when its turn comes, adds nothing. -/
theorem run_skip (unused : List String) (visited : List Decl) (before after : List Task) {d : Decl}
    (h : d.name ∈ unused → ∃ d', .enter d' ∈ before ∧ d'.name = d.name) :
    run s visit unused visited (before ++ .enter d :: after) =
      run s visit unused visited (before ++ after) := by
  -- the tasks in front are worked off first, and one of them uses up the name
  fun_induction run s visit unused visited before with
  | case1 unused visited =>
    have hused : d.name ∉ unused := fun hmem => by
      obtain ⟨d', hd', _⟩ := h hmem
      cases hd'
    rw [List.nil_append, List.nil_append, run, dif_neg hused]
  | case2 unused visited m tasks ih =>
    rw [List.cons_append, List.cons_append, run, run]
    refine ih fun hmem => ?_
    obtain ⟨d', hd', hname⟩ := h hmem
    exact ⟨d', (List.mem_cons.1 hd').resolve_left (by simp), hname⟩
  | case3 unused visited d₁ tasks hmem _ step ih =>
    rw [List.cons_append, List.cons_append, run, dif_pos hmem, run, dif_pos hmem]
    rw [List.append_assoc, List.append_assoc] at ih
    refine ih fun hunused => ?_
    obtain ⟨hunused, hne⟩ := mem_useUp.1 hunused
    obtain ⟨d', hd', hname⟩ := h hunused
    rcases List.mem_cons.1 hd' with heq | hd'
    · cases heq
      exact absurd hname.symm hne
    · exact ⟨d', List.mem_append_right _ hd', hname⟩
  | case4 unused visited d₁ tasks hmem ih =>
    rw [List.cons_append, List.cons_append, run, dif_neg hmem, run, dif_neg hmem]
    refine ih fun hunused => ?_
    obtain ⟨d', hd', hname⟩ := h hunused
    rcases List.mem_cons.1 hd' with heq | hd'
    · cases heq
      exact absurd (hname ▸ hunused) hmem
    · exact ⟨d', hd', hname⟩

/-- The tasks for the files at some paths. -/
def filesAt (s : Schema) (paths : List String) : List Task :=
  (paths.filterMap s.file?).map (.enter <| .file ·)

/-- A path that is given again adds nothing to a walk. -/
theorem run_eraseDups (s : Schema) (visit : List Decl → Decl → Bool) (unused : List String)
    (visited : List Decl) (paths : List String) (after : List Task) :
    run s visit unused visited (filesAt s paths.eraseDups ++ after) =
      run s visit unused visited (filesAt s paths ++ after) := by
  induction paths using List.reverseRecOn generalizing after with
  | nil => rfl
  | append_singleton paths path ih =>
    have hsplit : filesAt s (paths ++ [path]) = filesAt s paths ++ filesAt s [path] := by
      rw [filesAt, List.filterMap_append, List.map_append, filesAt, filesAt]
    rw [hsplit, List.append_assoc, ← ih, List.eraseDups_append]
    by_cases hpath : path ∈ paths
    · have hnone : List.removeAll [path] paths = [] := by simp [List.removeAll, hpath]
      rw [hnone, List.eraseDups_nil, List.append_nil]
      cases hf : s.file? path with
      | none => simp [filesAt, hf]
      | some f =>
        have hentered : Task.enter (.file f) ∈ filesAt s paths.eraseDups :=
          List.mem_map_of_mem (List.mem_filterMap.2 ⟨path, List.mem_eraseDups.2 hpath, hf⟩)
        have htask : filesAt s [path] = [.enter (.file f)] := by simp [filesAt, hf]
        rw [htask]
        exact (run_skip unused visited _ after fun _ => ⟨_, hentered, rfl⟩).symm
    · have hone : (List.removeAll [path] paths).eraseDups = [path] := by
        simp [List.removeAll, hpath, List.eraseDups_cons]
      rw [hone, filesAt, List.filterMap_append, List.map_append, List.append_assoc, filesAt, filesAt]

end Walk

namespace Schema

/-- What is collected, and so what is written, does not depend on how often a file is given. -/
theorem compilePackage_eraseDups (s : Schema) (settings : Settings) (package : String)
    (paths : List String) :
    s.compilePackage settings package (paths.eraseDups.filterMap s.file?) =
      s.compilePackage settings package (paths.filterMap s.file?) := by
  have hrun := Walk.run_eraseDups s (fun _ d => s.descends d) s.names [] paths []
  rw [List.append_nil, List.append_nil, Walk.filesAt, Walk.filesAt] at hrun
  have hcollect : s.collect (paths.eraseDups.filterMap s.file?) = s.collect (paths.filterMap s.file?) := by
    rw [collect, collect, walk, walk, hrun]
  simp only [compilePackage, packageModule, packageTree, hcollect]

end Schema

/-! ## Requests for one package -/

namespace Descriptor.Request

/-- The requested paths of the files of a package, each once, in the order in which they first occur. -/
def pathsOf (r : Request) (s : Schema) (package : String) : List String :=
  (r.filesToGenerate.filter fun path => (s.file? path).any (·.package == package)).eraseDups

/-- The request for the requested files of one package. -/
def only (r : Request) (s : Schema) (package : String) : Request :=
  { r with filesToGenerate := r.pathsOf s package }

/-- The packages of the requested files that pass the filter, in the order in which they are written. -/
def packages (r : Request) (s : Schema) (settings : Settings) : List String :=
  (requestedPackages (r.filesToGenerate.filterMap s.file?)).filter settings.includes

variable {r : Request} {rules : RuleIndex} {s : Schema} {settings : Settings} {package : String}

theorem packages_pairwise : (r.packages s settings).Pairwise (· < ·) :=
  (sortedNames_pairwise _).filter _

theorem mem_packages : package ∈ r.packages s settings ↔ settings.includes package = true ∧
    ∃ path ∈ r.filesToGenerate, ∃ f, s.file? path = some f ∧ f.package = package := by
  rw [packages, List.mem_filter, mem_requestedPackages, and_comm]
  simp only [List.mem_filterMap]
  constructor
  · rintro ⟨hincluded, f, ⟨path, hpath, hf⟩, hpackage⟩
    exact ⟨hincluded, path, hpath, f, hf, hpackage⟩
  · rintro ⟨hincluded, path, hpath, f, hf, hpackage⟩
    exact ⟨hincluded, f, ⟨path, hpath, hf⟩, hpackage⟩

theorem mem_pathsOf {path : String} : path ∈ r.pathsOf s package ↔
    path ∈ r.filesToGenerate ∧ ∃ f, s.file? path = some f ∧ f.package = package := by
  rw [pathsOf, List.mem_eraseDups, List.mem_filter]
  simp [Option.any_eq_true]

theorem mem_filterMap_pathsOf {f : ProtoModels.File} : f ∈ (r.pathsOf s package).filterMap s.file? ↔
    f.package = package ∧ ∃ path ∈ r.filesToGenerate, s.file? path = some f := by
  simp only [List.mem_filterMap, mem_pathsOf]
  constructor
  · rintro ⟨path, ⟨hpath, f', hf', hpackage⟩, hf⟩
    obtain rfl : f' = f := Option.some_inj.1 (hf'.symm.trans hf)
    exact ⟨hpackage, path, hpath, hf⟩
  · rintro ⟨hpackage, path, hpath, hf⟩
    exact ⟨path, ⟨hpath, f, hf, hpackage⟩, hf⟩

/-- The requested files of a package are those at its requested paths. -/
theorem filter_requested (r : Request) (s : Schema) (package : String) :
    (r.filesToGenerate.filterMap s.file?).filter (·.package == package) =
      (r.filesToGenerate.filter fun path => (s.file? path).any (·.package == package)).filterMap
        s.file? := by
  rw [List.filter_filterMap, List.filterMap_filter]
  refine List.filterMap_congr fun path _ => ?_
  cases s.file? path with
  | none => simp
  | some f => simp [Option.filter]

/-- **The request for one package is answered by what is written for the package**, be there other
packages or not. -/
theorem compile_only (hsettings : Settings.ofParameter r.parameter = .ok settings)
    (hs : Schema.build r.files rules = .ok s) (hpackage : package ∈ r.packages s settings) :
    (r.only s package).compile rules = s.compilePackage settings package
      ((r.filesToGenerate.filterMap s.file?).filter (·.package == package)) := by
  obtain ⟨hincluded, path, hpath, f, hf, hpackage⟩ := mem_packages.1 hpackage
  have hpaths : ∀ path ∈ r.pathsOf s package, ∃ f, s.file? path = some f := fun path hpath => by
    obtain ⟨_, f, hf, _⟩ := mem_pathsOf.1 hpath
    exact ⟨f, hf⟩
  have hne : (r.pathsOf s package).filterMap s.file? ≠ [] :=
    List.ne_nil_of_mem (mem_filterMap_pathsOf.2 ⟨hpackage, path, hpath, hf⟩)
  calc (r.only s package).compile rules
      = s.compileFiles settings ((r.pathsOf s package).filterMap s.file?) :=
        compile_eq_compileFiles (r := r.only s package) hsettings hs hpaths
    _ = s.compilePackage settings package ((r.pathsOf s package).filterMap s.file?) :=
        Schema.compileFiles_eq_compilePackage hne (fun f hf => (mem_filterMap_pathsOf.1 hf).1) hincluded
    _ = s.compilePackage settings package _ := by
        rw [pathsOf, Schema.compilePackage_eraseDups, filter_requested]

/-- The answer to the request for one package holds the files of this package. -/
theorem exists_packageFiles_of_compile_only
    (hsettings : Settings.ofParameter r.parameter = .ok settings)
    (hs : Schema.build r.files rules = .ok s) (hpackage : package ∈ r.packages s settings)
    {part : List OutputFile} (h : (r.only s package).compile rules = .ok part) :
    ∃ source, part = settings.packageFiles package source := by
  rw [compile_only hsettings hs hpackage] at h
  obtain ⟨source, _, rfl⟩ := map_eq_ok_iff.1 h
  exact ⟨source, rfl⟩

/-- A request goes through its packages one by one, and stops at the first that fails. -/
theorem compile_eq_mapM (hsettings : Settings.ofParameter r.parameter = .ok settings)
    (hs : Schema.build r.files rules = .ok s)
    (hpaths : ∀ path ∈ r.filesToGenerate, ∃ f, s.file? path = some f) :
    r.compile rules = ((r.packages s settings).mapM fun package =>
      (r.only s package).compile rules).map List.flatten := by
  rw [compile_eq_compileFiles hsettings hs hpaths, Schema.compileFiles]
  exact congrArg _ (mapM_congr fun package hpackage => (compile_only hsettings hs hpackage).symm)

end Descriptor.Request

/-- **A request for many packages is answered as the packages' own requests are.** If its schema can be
built and all its paths are found, the packages that pass the filter of its parameter are gone through
in ascending order: the request is answered if and only if for each of these packages the request for
the package's paths alone is, and then by the files of those answers, three for each package. -/
theorem compile_packages {r : Descriptor.Request} {rules : RuleIndex} {s : Schema}
    (hs : Schema.build r.files rules = .ok s)
    (hpaths : ∀ path ∈ r.filesToGenerate, ∃ f, s.file? path = some f) :
    ∃ settings packages, Settings.ofParameter r.parameter = .ok settings ∧
      packages.Pairwise (· < ·) ∧
      (∀ package, package ∈ packages ↔ settings.includes package = true ∧
        ∃ path ∈ r.filesToGenerate, ∃ f, s.file? path = some f ∧ f.package = package) ∧
      ((∃ output, r.compile rules = .ok output) ↔
        ∀ package ∈ packages, ∃ part, (r.only s package).compile rules = .ok part) ∧
      (∀ output, r.compile rules = .ok output → ∃ parts,
        List.Forall₂ (fun package part => (r.only s package).compile rules = .ok part)
          packages parts ∧ output = parts.flatten) ∧
      ∀ package ∈ packages, ∀ part, (r.only s package).compile rules = .ok part →
        part.length = 3 := by
  obtain ⟨settings, hsettings⟩ := Settings.exists_ofParameter r.parameter
  have hcompile := Descriptor.Request.compile_eq_mapM hsettings hs hpaths
  refine ⟨settings, r.packages s settings, hsettings, Descriptor.Request.packages_pairwise,
    fun package => Descriptor.Request.mem_packages, ?_, fun output houtput => ?_,
    fun package hpackage part hpart => ?_⟩
  · rw [hcompile, exists_map_eq_ok_iff, exists_mapM_eq_ok_iff]
  · rw [hcompile, map_eq_ok_iff] at houtput
    obtain ⟨parts, hparts, rfl⟩ := houtput
    exact ⟨parts, mapM_eq_ok_iff.1 hparts, rfl⟩
  · obtain ⟨source, rfl⟩ :=
      Descriptor.Request.exists_packageFiles_of_compile_only hsettings hs hpackage hpart
    rfl

/-- A request that names the orders twice and the amounts of money between. -/
def mixedRequest : Descriptor.Request where
  filesToGenerate := ["shop/order.proto", "money.proto", "shop/order.proto"]
  files := orderFiles

theorem exists_file?_mixedRequest : ∀ path ∈ mixedRequest.filesToGenerate,
    ∃ f, (Schema.ofDescriptors orderFiles {}).file? path = some f := by
  have hfound : ∀ path ∈ mixedRequest.filesToGenerate,
      ((Schema.ofDescriptors orderFiles {}).file? path).isSome = true := by decide +kernel
  exact fun path hpath => Option.isSome_iff_exists.1 (hfound path hpath)

theorem packages_mixedRequest :
    mixedRequest.packages (Schema.ofDescriptors orderFiles {}) .initial = ["money", "shop"] := by
  have hrequested : (mixedRequest.filesToGenerate.filterMap
      (Schema.ofDescriptors orderFiles {}).file?).map (·.package) = ["shop", "money", "shop"] := by
    decide +kernel
  have hsorted : sortedNames ["shop", "money", "shop"] = ["money", "shop"] :=
    sortedNames_eq (by decide) (by simp [or_comm])
  rw [Descriptor.Request.packages, requestedPackages, hrequested, hsorted]
  rfl

theorem compile_packages_orders :
    let s := Schema.ofDescriptors orderFiles {}
    Schema.build mixedRequest.files {} = .ok s ∧
    (∀ path ∈ mixedRequest.filesToGenerate, ∃ f, s.file? path = some f) ∧
    ∃ amounts orders, (mixedRequest.only s "money").compile {} = .ok amounts ∧
      (mixedRequest.only s "shop").compile {} = .ok orders ∧
      mixedRequest.compile {} = .ok (amounts ++ orders) ∧
      amounts.map (·.name) = ["money/pb_models.py", "money/__init__.py", "money/py.typed"] ∧
      orders.map (·.name) = ["shop/pb_models.py", "shop/__init__.py", "shop/py.typed"] := by
  intro s
  obtain ⟨output, houtput⟩ : ∃ output, mixedRequest.compile {} = .ok output :=
    Descriptor.Request.exists_compile_of_supported build_orderFiles exists_file?_mixedRequest
      (by decide +kernel)
  have hinitial : Settings.ofParameter mixedRequest.parameter = .ok .initial := rfl
  obtain ⟨settings, packages, hsettings, hsorted, hmem, -, hparts, -⟩ :=
    compile_packages build_orderFiles exists_file?_mixedRequest
  obtain rfl : .initial = settings := Except.ok.inj (hinitial.symm.trans hsettings)
  obtain rfl : packages = ["money", "shop"] :=
    packages_mixedRequest ▸ hsorted.eq_of_mem_iff Descriptor.Request.packages_pairwise fun package =>
      (hmem package).trans Descriptor.Request.mem_packages.symm
  obtain ⟨parts, hanswers, rfl⟩ := hparts output houtput
  obtain ⟨amounts, orders, rfl⟩ : ∃ amounts orders, parts = [amounts, orders] :=
    List.length_eq_two.1 hanswers.length_eq.symm
  simp only [List.forall₂_cons, List.Forall₂.nil, and_true] at hanswers
  rw [List.flatten_cons, List.flatten_singleton] at houtput
  have hmoney : "money" ∈ mixedRequest.packages s .initial := by simp [s, packages_mixedRequest]
  have hshop : "shop" ∈ mixedRequest.packages s .initial := by simp [s, packages_mixedRequest]
  obtain ⟨_, rfl⟩ := Descriptor.Request.exists_packageFiles_of_compile_only hinitial build_orderFiles
    hmoney hanswers.1
  obtain ⟨_, rfl⟩ := Descriptor.Request.exists_packageFiles_of_compile_only hinitial build_orderFiles
    hshop hanswers.2
  exact ⟨build_orderFiles, exists_file?_mixedRequest, _, _, hanswers.1, hanswers.2, houtput, rfl, rfl⟩

end ProtoModels
