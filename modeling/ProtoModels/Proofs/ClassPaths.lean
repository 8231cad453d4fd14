import Mathlib.Data.List.Nodup
import ProtoModels.Proofs.Schema.Placement
import ProtoModels.Proofs.Source.Reading
/-!
# Class paths tell types apart

No two packages of a module share a scope, and no scope has the name of a class at the module's top
level (`allotScopes_nodup`, `not_mem_of_mem_allotScopes`). So a class path gives away its package, and
with the package the local path: types with one class path have one full name (`fullName_eq_of_resolve`).

A scope holds no dot, so the dotted form of a class path can be cut into its segments again where the
names of types hold none (`splitOn_dotted_resolve`).
-/
namespace ProtoModels

/-! ## Scopes -/

theorem map_fst_allotScopes (taken packages : List String) :
    (allotScopes taken packages).map (·.1) = packages := by
  induction packages generalizing taken with
  | nil => rfl
  | cons package packages ih => simp [allotScopes, ih]

/-- No scope is taken when it is handed out, nor later. -/
theorem not_mem_of_mem_allotScopes {taken packages : List String} :
    ∀ a ∈ allotScopes taken packages, a.2 ∉ taken := by
  induction packages generalizing taken with
  | nil => simp [allotScopes]
  | cons package packages ih =>
    intro a ha
    rw [allotScopes, List.mem_cons] at ha
    rcases ha with rfl | ha
    · exact not_mem_freeName taken _
    · exact fun h => ih a ha (List.mem_cons_of_mem _ h)

theorem allotScopes_nodup (taken packages : List String) :
    ((allotScopes taken packages).map (·.2)).Nodup := by
  induction packages generalizing taken with
  | nil => simp [allotScopes]
  | cons package packages ih =>
    rw [allotScopes, List.map_cons, List.nodup_cons]
    refine ⟨fun h => ?_, ih _⟩
    obtain ⟨a, ha, heq⟩ := List.mem_map.1 h
    exact not_mem_of_mem_allotScopes a ha (heq ▸ List.mem_cons_self ..)

example : allotScopes ["ab", "root"] ["", "a.b", "ab"] =
    [("", "root_"), ("a.b", "ab_"), ("ab", "ab__")] := by cbv

theorem exists_freeName_of_mem_allotScopes {taken packages : List String} {a : String × String}
    (h : a ∈ allotScopes taken packages) : ∃ taken', a.2 = freeName taken' (scopeBase a.1) := by
  induction packages generalizing taken with
  | nil => cases h
  | cons package packages ih =>
    rw [allotScopes, List.mem_cons] at h
    rcases h with rfl | h
    · exact ⟨taken, rfl⟩
    · exact ih h

/-- The search for a free name adds underscores only. -/
theorem exists_toList_freeName (taken : List String) (name : String) :
    ∃ n, (freeName taken name).toList = name.toList ++ List.replicate n '_' := by
  fun_induction freeName taken name with
  | case1 taken name _ _ ih =>
    obtain ⟨n, hn⟩ := ih
    exact ⟨n + 1, by simp [hn, List.replicate_succ]⟩
  | case2 => exact ⟨0, by simp⟩

theorem mem_toList_freeName {taken : List String} {name : String} {c : Char}
    (h : c ∈ (freeName taken name).toList) : c ∈ name.toList ∨ c = '_' := by
  obtain ⟨n, hn⟩ := exists_toList_freeName taken name
  rw [hn, List.mem_append] at h
  exact h.imp_right List.eq_of_mem_replicate

/-- The dots of a package are left out of its scope, and but for `root` nothing is added. -/
theorem mem_toList_scopeBase {package : String} {c : Char} (h : c ∈ (scopeBase package).toList) :
    c ∈ "root".toList ∨ c ∈ package.toList ∧ c ≠ '.' := by
  unfold scopeBase at h
  split at h
  · exact Or.inl h
  · rw [joinedSegments, String.toList_join, List.mem_flatMap] at h
    obtain ⟨segment, hsegment, hc⟩ := h
    obtain ⟨piece, hpiece, rfl⟩ := List.mem_map.1 hsegment
    rw [String.toList_ofList] at hc
    refine Or.inr ⟨subset_of_mem_splitOn hpiece hc, ?_⟩
    rintro rfl
    exact not_mem_of_mem_splitOn hpiece hc

theorem dot_not_mem_of_mem_allotScopes {taken packages : List String} {a : String × String}
    (h : a ∈ allotScopes taken packages) : '.' ∉ a.2.toList := by
  obtain ⟨taken', heq⟩ := exists_freeName_of_mem_allotScopes h
  intro hdot
  rw [heq] at hdot
  rcases mem_toList_freeName hdot with hdot | hdot
  · rcases mem_toList_scopeBase hdot with hroot | hdot
    · exact absurd hroot (by decide)
    · exact hdot.2 rfl
  · cases hdot

@[simp] theorem mem_sortedNames {name : String} {names : List String} :
    name ∈ sortedNames names ↔ name ∈ names := by
  simp [sortedNames, List.mem_eraseDups]

namespace Schema

variable {s : Schema} {target package : String}

theorem mem_foreignPackages : package ∈ s.foreignPackages target ↔
    package ∈ s.files.map (·.package) ∧ package ≠ target := by
  simp [foreignPackages]

end Schema

namespace ClassNames

variable {s : Schema} {target package segment : String}

theorem mem_scopes_of_scope? (h : (ofPackage s target).scope? package = some segment) :
    (package, segment) ∈ (ofPackage s target).scopes := by
  obtain ⟨⟨p, seg⟩, ha, rfl⟩ := Option.map_eq_some_iff.1 h
  have hp := List.find?_some ha
  simp only [beq_iff_eq] at hp
  subst hp
  exact List.mem_of_find?_eq_some ha

/-- The module's own package has no scope. -/
theorem scope?_target (s : Schema) (target : String) : (ofPackage s target).scope? target = none := by
  cases h : (ofPackage s target).scope? target with
  | none => rfl
  | some segment =>
    have := List.mem_map_of_mem (f := (·.1)) (mem_scopes_of_scope? h)
    rw [ofPackage, map_fst_allotScopes, Schema.mem_foreignPackages] at this
    exact absurd rfl this.2

/-- Every other package of the schema has one. -/
theorem exists_scope? (hp : package ∈ s.files.map (·.package)) (hne : package ≠ target) :
    ∃ segment, (ofPackage s target).scope? package = some segment := by
  have hmem : package ∈ (ofPackage s target).scopes.map (·.1) := by
    rw [ofPackage, map_fst_allotScopes, Schema.mem_foreignPackages]
    exact ⟨hp, hne⟩
  obtain ⟨a, ha, rfl⟩ := List.mem_map.1 hmem
  have hfind : ((ofPackage s target).scopes.find? (·.1 == a.1)).isSome := by
    rw [List.find?_isSome]
    exact ⟨a, ha, by simp⟩
  obtain ⟨b, hb⟩ := Option.isSome_iff_exists.1 hfind
  exact ⟨b.2, by rw [scope?, hb]; rfl⟩

theorem scope?_not_topLevel (h : (ofPackage s target).scope? package = some segment) :
    segment ∉ s.topLevelNames target :=
  not_mem_of_mem_allotScopes _ (mem_scopes_of_scope? h)

theorem package_eq_of_scope? {package' : String}
    (h : (ofPackage s target).scope? package = some segment)
    (h' : (ofPackage s target).scope? package' = some segment) : package = package' :=
  (Prod.mk.inj (List.inj_on_of_nodup_map (allotScopes_nodup _ _) (mem_scopes_of_scope? h)
    (mem_scopes_of_scope? h') rfl)).1

/-! ## Resolved types -/

theorem segments_resolve (names : ClassNames) (t : TypeDecl) :
    (names.resolve t).segments = (names.scope? t.package).toList ++ t.localPath := by
  simp [resolve, TypeDecl.localPath]

theorem segments_resolve_ne_nil (names : ClassNames) (t : TypeDecl) :
    (names.resolve t).segments ≠ [] := by
  simp [resolve]

variable {files : List Descriptor.File} {rules : RuleIndex}

/-- The scope in front of a class path is no class of the module's own package. -/
theorem localPath_ne_scope (h : Schema.build files rules = .ok s) {t : TypeDecl} (ht : t ∈ s.types)
    (hpackage : t.package = target) {rest : List String}
    (hscope : (ofPackage s target).scope? package = some segment) : t.localPath ≠ segment :: rest := by
  intro heq
  obtain ⟨name, hname, hhead⟩ := Schema.head_localPath_mem h t ht
  rw [heq, List.head?_cons, Option.some_inj] at hhead
  exact scope?_not_topLevel hscope (hhead ▸ hpackage ▸ hname)

/-- A class path that goes on to another one belongs to the same package, and the local path goes on as
the class path does. -/
theorem localPath_append_of_resolve (h : Schema.build files rules = .ok s) {t u : TypeDecl}
    (ht : t ∈ s.types) (hu : u ∈ s.types) {rest : List String}
    (heq : ((ofPackage s target).resolve t).segments ++ rest =
      ((ofPackage s target).resolve u).segments) :
    t.package = u.package ∧ t.localPath ++ rest = u.localPath := by
  simp only [segments_resolve] at heq
  by_cases htt : t.package = target <;> by_cases hut : u.package = target
  · rw [htt, hut, scope?_target] at heq
    exact ⟨htt.trans hut.symm, heq⟩
  · obtain ⟨segment, hseg⟩ := exists_scope? (Schema.package_mem_of_mem_types h u hu) hut
    rw [htt, scope?_target, hseg] at heq
    obtain ⟨name, names, hlocal⟩ := List.exists_cons_of_ne_nil t.localPath_ne_nil
    rw [hlocal] at heq
    exact absurd ((List.cons.inj heq).1 ▸ hlocal) (localPath_ne_scope h ht htt hseg)
  · obtain ⟨segment, hseg⟩ := exists_scope? (Schema.package_mem_of_mem_types h t ht) htt
    rw [hut, scope?_target, hseg] at heq
    exact absurd heq.symm (localPath_ne_scope h hu hut hseg)
  · obtain ⟨segment, hseg⟩ := exists_scope? (Schema.package_mem_of_mem_types h t ht) htt
    obtain ⟨segment', hseg'⟩ := exists_scope? (Schema.package_mem_of_mem_types h u hu) hut
    rw [hseg, hseg'] at heq
    obtain ⟨hsegs, hpath⟩ := List.cons.inj heq
    exact ⟨package_eq_of_scope? hseg (hsegs ▸ hseg'), hpath⟩

/-- **A class path gives away the package and the local path.** -/
theorem localPath_eq_of_resolve (h : Schema.build files rules = .ok s) {t u : TypeDecl}
    (ht : t ∈ s.types) (hu : u ∈ s.types)
    (heq : ((ofPackage s target).resolve t).segments = ((ofPackage s target).resolve u).segments) :
    t.package = u.package ∧ t.localPath = u.localPath := by
  rw [← List.append_nil t.localPath]
  exact localPath_append_of_resolve h ht hu (by rw [List.append_nil, heq])

theorem fullName_eq_of_resolve (h : Schema.build files rules = .ok s) {t u : TypeDecl}
    (ht : t ∈ s.types) (hu : u ∈ s.types)
    (heq : ((ofPackage s target).resolve t).segments = ((ofPackage s target).resolve u).segments) :
    t.fullName = u.fullName := by
  obtain ⟨hpackage, hpath⟩ := localPath_eq_of_resolve h ht hu heq
  rw [Schema.fullName_eq_foldl h t ht, Schema.fullName_eq_foldl h u hu, hpackage, hpath]

end ClassNames

/-! ## Dotted class paths -/

/-- **The dotted form of a path can be cut into its segments again**, if none of them holds a dot. -/
theorem ClassPath.splitOn_dotted {p : ClassPath} (hne : p.segments ≠ [])
    (hdots : ∀ segment ∈ p.segments, '.' ∉ segment.toList) :
    Text.splitOn '.' p.dotted = p.segments := by
  have hpieces : ∀ piece ∈ p.segments.map String.toList, '.' ∉ piece := by
    simpa using hdots
  have hdotted : p.dotted.toList = ['.'].intercalate (p.segments.map String.toList) := by
    rw [ClassPath.dotted, String.toList_intercalate]
    rfl
  rw [Text.splitOn, hdotted, List.splitOn_intercalate '.' hpieces (by simpa using hne)]
  simp

namespace ClassNames

variable {files : List Descriptor.File} {rules : RuleIndex} {s : Schema} {target : String}

theorem splitOn_dotted_resolve {t : TypeDecl} (hnames : ∀ name ∈ t.localPath, '.' ∉ name.toList) :
    Text.splitOn '.' ((ofPackage s target).resolve t).dotted =
      ((ofPackage s target).resolve t).segments := by
  refine ClassPath.splitOn_dotted (segments_resolve_ne_nil _ t) fun segment hsegment => ?_
  rw [segments_resolve, List.mem_append, Option.mem_toList] at hsegment
  rcases hsegment with hscope | hlocal
  · exact dot_not_mem_of_mem_allotScopes (mem_scopes_of_scope? hscope)
  · exact hnames segment hlocal

/-- **Class paths are injective.** In the module of any package, types with the same class path have
the same package and the same full name. The dotted forms tell class paths apart as soon as no dot
stands in the two types' own names and those of the messages around them: scopes hold none, whatever
the packages. -/
theorem resolve_injective (h : Schema.build files rules = .ok s) (target : String) {t u : TypeDecl}
    (ht : t ∈ s.types) (hu : u ∈ s.types) :
    (((ofPackage s target).resolve t).segments = ((ofPackage s target).resolve u).segments →
      t.package = u.package ∧ t.fullName = u.fullName) ∧
    ((∀ name ∈ t.localPath ++ u.localPath, '.' ∉ name.toList) →
      ((ofPackage s target).resolve t).dotted = ((ofPackage s target).resolve u).dotted →
      ((ofPackage s target).resolve t).segments = ((ofPackage s target).resolve u).segments) := by
  refine ⟨fun heq => ⟨(localPath_eq_of_resolve h ht hu heq).1, fullName_eq_of_resolve h ht hu heq⟩,
    fun hnames heq => ?_⟩
  rw [List.forall_mem_append] at hnames
  rw [← splitOn_dotted_resolve hnames.1, ← splitOn_dotted_resolve hnames.2, heq]

/-- Packages that all ask for the scope `ab`, which is a class of the shop, and one without a name. -/
def clashingFiles : List Descriptor.File := [
  { name := "x.proto", package := "a.b", messages := [{ name := "Money" }] },
  { name := "y.proto", package := "a.b", messages := [{ name := "Money" }] },
  { name := "z.proto", package := "ab", messages := [{ name := "Money" }] },
  { name := "money.proto", messages := [{ name := "Money" }] },
  { name := "shop.proto", package := "shop", messages := [{ name := "ab" }, { name := "root" }] }]

/-- Two files declare one full name: their types share a class path. -/
theorem resolve_injective_clashing :
    let s := Schema.ofDescriptors clashingFiles {}
    let path := (ofPackage s "shop").resolve
    Schema.build clashingFiles {} = .ok s ∧ ∃ t ∈ s.types, ∃ u ∈ s.types,
      t.place.file ≠ u.place.file ∧ (∀ name ∈ t.localPath ++ u.localPath, '.' ∉ name.toList) ∧
      (path t).dotted = (path u).dotted ∧ (path t).segments = (path u).segments ∧
      t.package = u.package ∧ t.fullName = u.fullName := by
  intro s path
  have hbuild : Schema.build clashingFiles {} = .ok s :=
    Schema.build_eq_ok_iff.2 ⟨rfl, by decide +kernel⟩
  have ht : s.types[0] ∈ s.types := List.getElem_mem _
  have hu : s.types[1] ∈ s.types := List.getElem_mem _
  have hnames : ∀ name ∈ s.types[0].localPath ++ s.types[1].localPath, '.' ∉ name.toList := by
    decide +kernel
  have hdotted : (path s.types[0]).dotted = (path s.types[1]).dotted := rfl
  obtain ⟨hsame, hdots⟩ := resolve_injective hbuild "shop" ht hu
  have hsegments := hdots hnames hdotted
  exact ⟨hbuild, _, ht, _, hu, by decide +kernel, hnames, hdotted, hsegments, hsame hsegments⟩

end ClassNames
end ProtoModels
