import ProtoModels.Names
import ProtoModels.Schema.Basic
import ProtoModels.Text.Lines
/-!
# Class paths

Where the class of a type stands in a generated module. A type's path is the chain of the messages
around it and its own name; types of other packages stand in a scope class of their package.

Scopes are handed out so that no two packages share one and none has the name of a class of the
target package: `not_mem_freeName` says that a scope is free when it is handed out.
-/
namespace ProtoModels

/-- The names of the classes around a class, outermost first, and its own name (`ResolvedName`). -/
structure ClassPath where
  segments : List String
deriving DecidableEq, Repr

namespace ClassPath

/-- The path as one identifier (`flat`). -/
def flat (p : ClassPath) : String := "_".intercalate p.segments

/-- The path as an expression that names the class (`dotted`). -/
def dotted (p : ClassPath) : String := ".".intercalate p.segments

end ClassPath

/-! ## Scopes of packages -/

/-- The segments of a package name, put together (`package_prefix`). -/
def joinedSegments (package : String) : String := String.join (Text.splitOn '.' package)

/-- The scope that a package gets if it is free: its prefix, or `ROOT_SCOPE`. -/
def scopeBase (package : String) : String :=
  if joinedSegments package = "" then "root" else joinedSegments package

/-- The first text among `name`, `name_`, `name__`, … that is not taken, as a `NameResolver` looks
for it. A text that is taken is never tried again, so it can be left out of the taken ones, and the
search ends. -/
def freeName (taken : List String) (name : String) : String :=
  if h : name ∈ taken then
    have := length_useUp_lt h
    freeName (useUp name taken) (name ++ "_")
  else name
termination_by taken.length

/-- The names that are tried behind a name are longer than it. -/
theorem length_le_freeName (taken : List String) (name : String) :
    name.length ≤ (freeName taken name).length := by
  fun_induction freeName taken name with
  | case1 taken name h _ ih => simp at ih; omega
  | case2 taken name h => exact Nat.le_refl _

theorem not_mem_freeName (taken : List String) (name : String) : freeName taken name ∉ taken := by
  fun_induction freeName taken name with
  | case1 taken name h _ ih =>
    intro hmem
    have hlen := length_le_freeName (useUp name taken) (name ++ "_")
    refine ih (mem_useUp.2 ⟨hmem, fun heq => ?_⟩)
    rw [heq, String.length_append] at hlen
    have : "_".length = 1 := rfl
    omega
  | case2 taken name h => exact h

/-- The scopes of some packages, in this order, none of which is taken or that of an earlier one:
the loop by which a `NameResolver` is made. -/
def allotScopes (taken : List String) : List String → List (String × String)
  | [] => []
  | package :: packages =>
    let segment := freeName taken (scopeBase package)
    (package, segment) :: allotScopes (segment :: taken) packages

namespace Schema

/-- The names of the classes that stand on their own in the module of a package. -/
def topLevelNames (s : Schema) (package : String) : List String :=
  ((s.files.filter (·.package == package)).flatMap File.topLevel).map TypeDecl.name

/-- The packages other than the target, each once, in the order of their names. -/
def foreignPackages (s : Schema) (target : String) : List String :=
  sortedNames ((s.files.map (·.package)).filter (· ≠ target))

end Schema

/-! ## Resolving types -/

/-- The class paths of a module (`NameResolver`): which scope each package has that is not the
module's own. -/
structure ClassNames where
  scopes : List (String × String)
deriving Repr

namespace ClassNames

/-- The class paths in the module of a package. -/
def ofPackage (s : Schema) (target : String) : ClassNames :=
  ⟨allotScopes (s.topLevelNames target) (s.foreignPackages target)⟩

/-- The scope of a package, if it has one. -/
def scope? (names : ClassNames) (package : String) : Option String :=
  (names.scopes.find? (·.1 == package)).map (·.2)

/-- The class path of a type (`resolve`). -/
def resolve (names : ClassNames) (t : TypeDecl) : ClassPath :=
  ⟨(names.scope? t.package).toList ++ t.place.enclosing ++ [t.name]⟩

end ClassNames

end ProtoModels
