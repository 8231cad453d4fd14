import Mathlib.Data.List.Pairwise
import ProtoModels.Proofs.Compile.SinglePackages
import ProtoModels.Proofs.ModuleText.ClassLines
/-!
# Paths of output files

A directory gives its package away, whatever suffix is glued to the names of packages
(`packageOfDirectory_outputDirectory`), so different packages have different directories. Two output
files can then only have one path if one is a module and the other the initializer of a package, and this
takes a module that is itself named like an initializer (`names_nodup_iff`).
-/
namespace ProtoModels

/-! ## Directories -/

/-- The segments of a package name can be the names of directories. -/
def HasDirectory (package : String) : Prop :=
  package = "" ∨ ∀ segment ∈ Text.splitOn '.' package, segment ≠ "" ∧ '/' ∉ segment.toList

/-- A package name: nothing, or identifiers with dots between them. -/
def IsPackageName (package : String) : Prop :=
  package = "" ∨ ∀ segment ∈ Text.splitOn '.' package, IsIdentifier segment

instance : DecidablePred IsPackageName := fun package =>
  inferInstanceAs (Decidable (package = "" ∨ ∀ segment ∈ Text.splitOn '.' package, IsIdentifier segment))

theorem IsPackageName.hasDirectory {package : String} (h : IsPackageName package) :
    HasDirectory package :=
  h.imp_right fun hsegments segment hsegment =>
    ⟨(hsegments segment hsegment).ne_empty, fun hslash =>
      absurd ((hsegments segment hsegment).chars _ hslash) (by decide)⟩

namespace Text

/-- Segments, each behind a slash. -/
def rooted (segments : List (List Char)) : List Char := segments.flatMap ('/' :: ·)

/-- What a suffix adds to a path: its first segment continues the last one of the path, and those behind
that are not empty get slashes in front. -/
def continuation (suffix : List Char) : List Char :=
  (suffix.splitOn '.').headD [] ++ rooted ((suffix.splitOn '.').tail.filter (· ≠ []))

theorem intercalate_eq_tail_rooted (segments : List (List Char)) :
    ['/'].intercalate segments = (rooted segments).tail := by
  cases segments with
  | nil => rfl
  | cons segment segments =>
    rw [intercalate_singleton_cons, rooted, List.flatMap_cons, List.cons_append, List.tail_cons]

/-- The segments of a name with a suffix: those of the name, continued by the suffix. -/
theorem rooted_splitOn_append {segments : List (List Char)} (hne : segments ≠ [])
    (h : ∀ segment ∈ segments, segment ≠ [] ∧ '.' ∉ segment) (suffix : List Char) :
    rooted (((['.'].intercalate segments ++ suffix).splitOn '.').filter (· ≠ [])) =
      rooted segments ++ continuation suffix := by
  induction segments with
  | nil => exact absurd rfl hne
  | cons segment segments ih =>
    obtain ⟨⟨hsegment, hdot⟩, hsegments⟩ := List.forall_mem_cons.1 h
    cases segments with
    | nil =>
      rw [List.intercalate_singleton, splitOn_append_of_not_mem hdot]
      obtain ⟨first, rest, hsplit⟩ := List.exists_cons_of_ne_nil (List.splitOn_ne_nil '.' suffix)
      simp [hsplit, hsegment, rooted, continuation]
    | cons next segments =>
      rw [List.intercalate_cons_cons, List.append_assoc, List.append_assoc, List.singleton_append,
        List.splitOn_append_cons_self_of_not_mem hdot, List.filter_cons_of_pos (by simpa using hsegment)]
      rw [rooted, List.flatMap_cons, ← rooted, ih (by simp) hsegments]
      simp [rooted]

end Text

theorem toList_outputDirectory (package suffix : String) : (outputDirectory package suffix).toList =
    (Text.rooted (((package.toList ++ suffix.toList).splitOn '.').filter (· ≠ []))).tail := by
  have hfilter : ((Text.splitOn '.' (package ++ suffix)).filter (· ≠ "")).map String.toList =
      ((package.toList ++ suffix.toList).splitOn '.').filter (· ≠ []) := by
    rw [Text.splitOn, List.filter_map, List.map_map, String.toList_append]
    simp [Function.comp_def]
  rw [outputDirectory, String.toList_intercalate, hfilter, ← Text.intercalate_eq_tail_rooted]
  rfl

/-- The directory of a package with a name: its segments, continued by the suffix. -/
theorem toList_outputDirectory_segments {package : String}
    (h : ∀ segment ∈ Text.splitOn '.' package, segment ≠ "" ∧ '/' ∉ segment.toList) (suffix : String) :
    (outputDirectory package suffix).toList =
      ['/'].intercalate (package.toList.splitOn '.') ++ Text.continuation suffix.toList := by
  have hsegments : ∀ segment ∈ package.toList.splitOn '.', segment ≠ [] ∧ '.' ∉ segment :=
    fun segment hsegment =>
      ⟨by simpa using (h _ (List.mem_map_of_mem hsegment)).1, not_mem_of_mem_splitOn hsegment⟩
  have hne := List.splitOn_ne_nil '.' package.toList
  have hrooted : Text.rooted (package.toList.splitOn '.') ≠ [] := by
    obtain ⟨first, rest, hsplit⟩ := List.exists_cons_of_ne_nil hne
    simp [hsplit, Text.rooted]
  have happend := Text.rooted_splitOn_append hne hsegments suffix.toList
  rw [List.intercalate_splitOn] at happend
  rw [toList_outputDirectory, happend, List.tail_append_of_ne_nil hrooted,
    Text.intercalate_eq_tail_rooted]

/-- The directory of the package without a name is no longer than what the suffix adds elsewhere. -/
theorem length_outputDirectory_empty (suffix : String) :
    (outputDirectory "" suffix).toList.length ≤ (Text.continuation suffix.toList).length := by
  obtain ⟨first, rest, hsplit⟩ := List.exists_cons_of_ne_nil (List.splitOn_ne_nil '.' suffix.toList)
  have hempty : "".toList = [] := rfl
  rw [toList_outputDirectory, hempty, List.nil_append, hsplit, Text.continuation, hsplit]
  by_cases hfirst : first = []
  · simp [hfirst]
  · simp [hfirst, Text.rooted]

/-- The package that a directory belongs to if a suffix is glued to the names of packages: what the
suffix adds is cut off, and dots take the places of slashes. -/
def packageOfDirectory (suffix directory : String) : String :=
  let added := (Text.continuation suffix.toList).length
  String.ofList (['.'].intercalate ((directory.toList.take (directory.length - added)).splitOn '/'))

example : packageOfDirectory ".v1" "acme/orders/v1" = "acme.orders" ∧
    packageOfDirectory ".v1" "v1" = "" := by decide +kernel

/-- **A directory gives its package away**, if the suffix is known. -/
theorem packageOfDirectory_outputDirectory {package : String} (h : HasDirectory package)
    (suffix : String) : packageOfDirectory suffix (outputDirectory package suffix) = package := by
  unfold packageOfDirectory
  rw [← String.length_toList]
  rcases h with rfl | h
  · -- The suffix alone may come to less than what it adds to a name, never to more.
    have hlength := Nat.sub_eq_zero_of_le (length_outputDirectory_empty suffix)
    simp [hlength]
  · have hslash : ∀ segment ∈ package.toList.splitOn '.', '/' ∉ segment := fun segment hsegment => by
      simpa using (h _ (List.mem_map_of_mem hsegment)).2
    have hsplit := List.splitOn_intercalate '/' hslash (List.splitOn_ne_nil '.' package.toList)
    simp only [toList_outputDirectory_segments h, List.length_append, Nat.add_sub_cancel,
      List.take_left, hsplit, List.intercalate_splitOn, String.ofList_toList]

/-- Packages with the same directory are the same. -/
theorem eq_of_outputDirectory {p q suffix : String} (hp : HasDirectory p) (hq : HasDirectory q)
    (h : outputDirectory p suffix = outputDirectory q suffix) : p = q := by
  rw [← packageOfDirectory_outputDirectory hp suffix, h, packageOfDirectory_outputDirectory hq suffix]

/-- **Different packages have different directories**, whatever text is glued to their names: with the
text a directory gives its package away. -/
theorem outputDirectory_injOn (suffix : String) :
    Set.InjOn (outputDirectory · suffix) {package | HasDirectory package} ∧
      Set.LeftInvOn (packageOfDirectory suffix) (outputDirectory · suffix)
        {package | HasDirectory package} := by
  have hleft : Set.LeftInvOn (packageOfDirectory suffix) (outputDirectory · suffix)
      {package | HasDirectory package} :=
    fun package hpackage => packageOfDirectory_outputDirectory hpackage suffix
  exact ⟨hleft.injOn, hleft⟩

/-! ## Files in directories -/

theorem toList_outputPath (directory name : String) : (outputPath directory name).toList =
    if directory = "" then name.toList else directory.toList ++ '/' :: name.toList := by
  unfold outputPath
  split
  · rfl
  · simp

/-- Files of one name in different directories have different paths. -/
theorem eq_of_outputPath {d e name : String} (h : outputPath d name = outputPath e name) : d = e := by
  have hlist := congrArg String.toList h
  rw [toList_outputPath, toList_outputPath] at hlist
  split at hlist <;> split at hlist
  · simp [*]
  · have := congrArg List.length hlist
    simp at this
    omega
  · have := congrArg List.length hlist
    simp at this
    omega
  · rw [List.append_left_inj] at hlist
    exact String.toList_inj.1 hlist

/-- The text behind the last slash of a path. -/
def lastSegment (path : String) : String :=
  String.ofList (path.toList.reverse.takeWhile (· ≠ '/')).reverse

theorem lastSegment_outputPath (directory name : String) :
    lastSegment (outputPath directory name) = lastSegment name := by
  rw [lastSegment, toList_outputPath]
  split
  · rfl
  · rw [List.reverse_append, List.reverse_cons, List.append_assoc, List.takeWhile_append]
    split
    · rename_i hall
      have hname := (List.takeWhile_prefix _).eq_of_length hall
      rw [lastSegment, hname]
      simp
    · rfl

theorem lastSegment_append_extension (name : String) :
    lastSegment (name ++ ".py") = lastSegment name ++ ".py" := by
  simp [lastSegment, String.toList_append]

namespace Settings

/-! ## The files of a package -/

/-- The path of a package's module. -/
def modulePath (settings : Settings) (package : String) : String :=
  outputPath (outputDirectory package settings.packageSuffix) (settings.filename ++ ".py")

/-- The path of the file that re-exports a package's module. -/
def initializerPath (settings : Settings) (package : String) : String :=
  outputPath (outputDirectory package settings.packageSuffix) "__init__.py"

/-- The path of the file that marks a package as typed. -/
def markerPath (settings : Settings) (package : String) : String :=
  outputPath (outputDirectory package settings.packageSuffix) "py.typed"

/-- The paths of the files of a package. -/
def paths (settings : Settings) (package : String) : List String :=
  [settings.modulePath package, settings.initializerPath package, settings.markerPath package]

theorem map_name_packageFiles (settings : Settings) (package source : String) :
    (settings.packageFiles package source).map (·.name) = settings.paths package := rfl

/-- Marker files have paths of their own. -/
theorem markerPath_ne (settings : Settings) (directory front q : String) :
    outputPath directory (front ++ ".py") ≠ settings.markerPath q := by
  intro heq
  have hlast := congrArg lastSegment heq
  rw [lastSegment_outputPath, lastSegment_append_extension, markerPath, lastSegment_outputPath] at hlast
  have hchars := congrArg (·.toList.getLast?) hlast
  simp [String.toList_append, lastSegment] at hchars

variable {settings : Settings} {p q : String}

/-- Only a module whose name ends like that of an initializer can be in an initializer's place. -/
theorem lastSegment_of_modulePath (h : settings.modulePath p = settings.initializerPath q) :
    lastSegment settings.filename = "__init__" := by
  have hlast := congrArg lastSegment h
  rw [modulePath, initializerPath, lastSegment_outputPath, lastSegment_outputPath,
    lastSegment_append_extension] at hlast
  have hinit : lastSegment "__init__.py" = "__init__" ++ ".py" := by decide +kernel
  rw [hinit] at hlast
  exact (String.append_left_inj _).1 hlast

/-- The files of a package have different paths exactly if its module is not in the initializer's
place. -/
theorem paths_nodup_iff :
    (settings.paths p).Nodup ↔ settings.modulePath p ≠ settings.initializerPath p := by
  have hmodule := settings.markerPath_ne (outputDirectory p settings.packageSuffix) settings.filename p
  have hinit := settings.markerPath_ne (outputDirectory p settings.packageSuffix) "__init__" p
  simp only [paths, List.nodup_cons, List.mem_cons, List.not_mem_nil, not_or, List.nodup_nil, or_false,
    not_false_iff, and_true]
  exact ⟨fun h => h.1.1, fun h => ⟨⟨h, hmodule⟩, hinit⟩⟩

/-- Different packages share a path exactly if the module of one is in the place of the other's
initializer. -/
theorem disjoint_paths_iff (hp : HasDirectory p) (hq : HasDirectory q) (hne : p ≠ q) :
    (settings.paths p).Disjoint (settings.paths q) ↔
      settings.modulePath p ≠ settings.initializerPath q ∧
        settings.modulePath q ≠ settings.initializerPath p := by
  have hsame : ∀ name, outputPath (outputDirectory p settings.packageSuffix) name ≠
      outputPath (outputDirectory q settings.packageSuffix) name :=
    fun name heq => hne (eq_of_outputDirectory hp hq (eq_of_outputPath heq))
  have hmarker : ∀ package other front,
      outputPath (outputDirectory package settings.packageSuffix) (front ++ ".py") ≠
        settings.markerPath other := fun package other front => settings.markerPath_ne _ front other
  constructor
  · intro hdisjoint
    refine ⟨fun heq => ?_, fun heq => ?_⟩
    · exact hdisjoint (List.mem_cons_self ..) (by simp [paths, heq])
    · exact hdisjoint (a := settings.initializerPath p) (by simp [paths]) (by simp [paths, heq])
  · rintro ⟨hpq, hqp⟩ path hpath hpath'
    simp only [paths, List.mem_cons, List.not_mem_nil, or_false] at hpath hpath'
    rcases hpath with rfl | rfl | rfl
    · rcases hpath' with heq | heq | heq
      · exact hsame _ heq
      · exact hpq heq
      · exact hmarker _ _ _ heq
    · rcases hpath' with heq | heq | heq
      · exact hqp heq.symm
      · exact hsame _ heq
      · exact hmarker p q "__init__" heq
    · rcases hpath' with heq | heq | heq
      · exact hmarker _ _ _ heq.symm
      · exact hmarker q p "__init__" heq.symm
      · exact hsame _ heq

/-- The files of some packages have different paths exactly if no module is in the place of an
initializer. -/
theorem flatMap_paths_nodup_iff (settings : Settings) {packages : List String} (hnodup : packages.Nodup)
    (hpackages : ∀ p ∈ packages, HasDirectory p) :
    (packages.flatMap settings.paths).Nodup ↔
      ∀ p ∈ packages, ∀ q ∈ packages, settings.modulePath p ≠ settings.initializerPath q := by
  rw [List.nodup_flatMap]
  constructor
  · rintro ⟨hinside, hacross⟩ p hp q hq
    by_cases hpq : p = q
    · subst hpq
      exact paths_nodup_iff.1 (hinside p hp)
    · have : Std.Symm (Function.onFun List.Disjoint settings.paths) := ⟨fun _ _ h _ hp hq => h hq hp⟩
      have hdisjoint := hacross.forall hp hq hpq
      exact ((disjoint_paths_iff (hpackages p hp) (hpackages q hq) hpq).1 hdisjoint).1
  · intro h
    refine ⟨fun p hp => paths_nodup_iff.2 (h p hp p hp), ?_⟩
    refine hnodup.imp_of_mem fun {p q} hp hq hpq => ?_
    exact (disjoint_paths_iff (hpackages p hp) (hpackages q hq) hpq).2 ⟨h p hp q hq, h q hq p hp⟩

end Settings

/-! ## The files of a response -/

namespace Descriptor.Request

variable {r : Request} {rules : RuleIndex} {s : Schema} {settings : Settings}

/-- A request is answered by the files of its packages. -/
theorem map_name_of_compile (hsettings : Settings.ofParameter r.parameter = .ok settings)
    (hs : Schema.build r.files rules = .ok s) {output : List OutputFile}
    (h : r.compile rules = .ok output) :
    output.map (·.name) = (r.packages s settings).flatMap settings.paths := by
  rw [compile_eq_mapM hsettings hs (exists_file?_of_compile hs h), map_eq_ok_iff] at h
  obtain ⟨parts, hparts, rfl⟩ := h
  rw [List.map_flatten, List.flatMap]
  refine congrArg List.flatten (map_eq_of_mapM hparts fun package hpackage part hpart => ?_)
  obtain ⟨source, rfl⟩ := exists_packageFiles_of_compile_only hsettings hs hpackage hpart
  exact settings.map_name_packageFiles package source

end Descriptor.Request

/-- **When two files of a response share a path.** If the packages of the requested files are made of
identifiers, the paths of a response repeat exactly if the module of a package is in the place of the
initializer of a package, the same or another one; and this takes a module that is itself named
`__init__`, in whichever directory. Neither the suffix nor the number of packages matters. -/
theorem names_nodup_iff {r : Descriptor.Request} {rules : RuleIndex} {s : Schema} {settings : Settings}
    (hsettings : Settings.ofParameter r.parameter = .ok settings)
    (hs : Schema.build r.files rules = .ok s)
    (hpackages : ∀ path ∈ r.filesToGenerate, ∀ f ∈ s.file? path, IsPackageName f.package)
    {output : List OutputFile} (h : r.compile rules = .ok output) :
    ((output.map (·.name)).Nodup ↔
      ∀ p ∈ r.packages s settings, ∀ q ∈ r.packages s settings,
        settings.modulePath p ≠ settings.initializerPath q) ∧
    (lastSegment settings.filename ≠ "__init__" → (output.map (·.name)).Nodup) := by
  have hdirectories : ∀ p ∈ r.packages s settings, HasDirectory p := by
    intro p hp
    obtain ⟨_, path, hpath, f, hf, rfl⟩ := Descriptor.Request.mem_packages.1 hp
    exact (hpackages path hpath f hf).hasDirectory
  have hnodup : (r.packages s settings).Nodup :=
    Descriptor.Request.packages_pairwise.imp fun hlt heq => by simp [heq] at hlt
  rw [Descriptor.Request.map_name_of_compile hsettings hs h]
  have hiff := settings.flatMap_paths_nodup_iff hnodup hdirectories
  exact ⟨hiff, fun hlast => hiff.2 fun p _ q _ heq => hlast (Settings.lastSegment_of_modulePath heq)⟩

/-- A request for two packages that go to directories of their own version. -/
def versionedRequest : Descriptor.Request :=
  { mixedRequest with parameter := "package_suffix=.v1,filename=api/models" }

theorem names_nodup_iff_versioned :
    let s := Schema.ofDescriptors orderFiles {}
    let settings : Settings := { packageSuffix := ".v1", filename := "api/models" }
    Settings.ofParameter versionedRequest.parameter = .ok settings ∧
    Schema.build versionedRequest.files {} = .ok s ∧
    (∀ path ∈ versionedRequest.filesToGenerate, ∀ f ∈ s.file? path, IsPackageName f.package) ∧
    lastSegment settings.filename ≠ "__init__" ∧
    ∃ output, versionedRequest.compile {} = .ok output ∧
      ((output.map (·.name)).Nodup ↔
        ∀ p ∈ versionedRequest.packages s settings, ∀ q ∈ versionedRequest.packages s settings,
          settings.modulePath p ≠ settings.initializerPath q) ∧
      (output.map (·.name)).Nodup := by
  intro s settings
  have hsettings : Settings.ofParameter versionedRequest.parameter = .ok settings := rfl
  have hpackages : ∀ path ∈ versionedRequest.filesToGenerate, ∀ f ∈ s.file? path,
      IsPackageName f.package := by decide +kernel
  have hlast : lastSegment settings.filename ≠ "__init__" := by decide +kernel
  have hfound : ∀ path ∈ versionedRequest.filesToGenerate, (s.file? path).isSome = true := by
    decide +kernel
  obtain ⟨output, houtput⟩ : ∃ output, versionedRequest.compile {} = .ok output :=
    Descriptor.Request.exists_compile_of_supported build_orderFiles
      (fun path hpath => Option.isSome_iff_exists.1 (hfound path hpath)) (by decide +kernel)
  have hnames := names_nodup_iff hsettings build_orderFiles hpackages houtput
  exact ⟨hsettings, build_orderFiles, hpackages, hlast, output, houtput, hnames.1, hnames.2 hlast⟩

/-- A request whose module is to be named like the file that re-exports it. -/
def initializerRequest : Descriptor.Request where
  filesToGenerate := ["shop/order.proto"]
  parameter := "filename=__init__"
  files := orderFiles

/-- No setting is refused, so a module can be written in the place of the initializer of its own
package. -/
theorem module_in_place_of_initializer :
    ∃ output, initializerRequest.compile {} = .ok output ∧ ¬ (output.map (·.name)).Nodup := by
  have hsettings : Settings.ofParameter initializerRequest.parameter =
      .ok { filename := "__init__" } := rfl
  obtain ⟨output, houtput⟩ : ∃ output, initializerRequest.compile {} = .ok output :=
    Descriptor.Request.exists_compile_of_supported build_orderFiles
      (List.forall_mem_singleton.2 ⟨_, rfl⟩) (by decide +kernel)
  have hshop : "shop" ∈ initializerRequest.packages (.ofDescriptors orderFiles {})
      { filename := "__init__" } :=
    Descriptor.Request.mem_packages.2 ⟨rfl, _, List.mem_cons_self .., _, rfl, rfl⟩
  refine ⟨output, houtput, fun hnodup => ?_⟩
  rw [Descriptor.Request.map_name_of_compile hsettings build_orderFiles houtput,
    List.nodup_flatMap] at hnodup
  exact Settings.paths_nodup_iff.1 (hnodup.1 "shop" hshop) (by decide +kernel)

end ProtoModels
