import ProtoModels.ModuleText
import ProtoModels.Schema.Walk
/-!
# Package modules

The module of one package: the classes of all types that are reachable from the package's requested
files, nested by their class paths.
-/
namespace ProtoModels

namespace ClassTree

/-- Puts a type at a class path, as `insert` does in a `NamespaceTree` of types. Two types at one
path collide. -/
def insertType (t : ClassTree TypeDecl) (path : ClassPath) (d : TypeDecl) :
    Except CompileError (ClassTree TypeDecl) :=
  match t.insert path.segments d with
  | .ok t => .ok t
  | .error there => .error (.nameCollision path.flat there.fullName d.fullName)

/-- The class tree of some types, put at their class paths one after another: the loop of
`compile_package`. -/
def ofTypes (names : ClassNames) (types : List TypeDecl) :
    Except CompileError (ClassTree TypeDecl) :=
  types.foldlM (fun t d => t.insertType (names.resolve d) d) empty

end ClassTree

namespace Schema

/-- The class tree of a package with some requested files, which `compile_package` makes first. -/
def packageTree (s : Schema) (package : String) (roots : List File) :
    Except CompileError (ClassTree TypeDecl) :=
  ClassTree.ofTypes (.ofPackage s package) (s.collect roots)

/-- The source of a package's module (`compile_package`). -/
def packageModule (s : Schema) (settings : Settings) (package : String) (roots : List File) :
    Except CompileError String := do
  let tree ← s.packageTree package roots
  let module ← ModuleText.ofTree ⟨s, .ofPackage s package, settings⟩ tree
  return module.source

end Schema
end ProtoModels
