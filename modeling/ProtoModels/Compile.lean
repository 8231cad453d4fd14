import ProtoModels.OutputFile
import ProtoModels.PackageModule
import ProtoModels.Schema.Build
/-!
# Compiling a request

The requested files are put together by package, and every package that passes the filter gets its
files, in the order of the packages' names. The first failure is the answer: the parameter's, the
schema's, that of the requested paths, then those of the packages in order.
-/
namespace ProtoModels

namespace Schema

/-- The file with a requested path, as `generate_with_rules` looks it up. -/
def requestedFile (s : Schema) (path : String) : Except CompileError File :=
  match s.file? path with
  | some f => .ok f
  | none => .error (.fileNotFound path)

/-- The output of one package with some requested files: one round of `generate_with_rules`. -/
def compilePackage (s : Schema) (settings : Settings) (package : String) (roots : List File) :
    Except CompileError (List OutputFile) :=
  (s.packageModule settings package roots).map (settings.packageFiles package)

end Schema

/-- The packages of some files, each once, in the order of their names, which is that of the rounds
in `generate_with_rules`. -/
def requestedPackages (files : List File) : List String := sortedNames (files.map (·.package))

namespace Schema

/-- The output of some requested files: that of each of their packages that passes the filter. -/
def compileFiles (s : Schema) (settings : Settings) (requested : List File) :
    Except CompileError (List OutputFile) :=
  (((requestedPackages requested).filter settings.includes).mapM fun package =>
    s.compilePackage settings package (requested.filter (·.package == package))).map List.flatten

end Schema

/-- The output of a request, with the rules of its fields (`generate_with_rules`). -/
def Descriptor.Request.compile (r : Descriptor.Request) (rules : RuleIndex) :
    Except CompileError (List OutputFile) := do
  let settings ← Settings.ofParameter r.parameter
  let schema ← Schema.build r.files rules
  let requested ← r.filesToGenerate.mapM schema.requestedFile
  schema.compileFiles settings requested

end ProtoModels
