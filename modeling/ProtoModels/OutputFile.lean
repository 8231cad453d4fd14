import ProtoModels.Settings
/-!
# Output files

Where the files of a package go. A package becomes a directory, its module one of three files there:
the others re-export the module and mark the package as typed.
-/
namespace ProtoModels

/-- A file of the output (`generated_file`). -/
structure OutputFile where
  name : String
  content : String
deriving DecidableEq, Repr

/-- The directory of a package (`output_dir`): the segments of its name with the suffix glued to it.
Empty segments are left out. -/
def outputDirectory (package suffix : String) : String :=
  "/".intercalate ((Text.splitOn '.' (package ++ suffix)).filter (· ≠ ""))

/-- The path of a file in a directory (`output_path`). The empty text is the directory in which all
output lies. -/
def outputPath (directory name : String) : String :=
  if directory = "" then name else directory ++ "/" ++ name

/-- The files of a package whose module has some source, as `generate_with_rules` lays them out. -/
def Settings.packageFiles (settings : Settings) (package source : String) : List OutputFile :=
  let directory := outputDirectory package settings.packageSuffix
  [⟨outputPath directory (settings.filename ++ ".py"), source⟩,
   ⟨outputPath directory "__init__.py", "from ." ++ settings.filename ++ " import *\n"⟩,
   ⟨outputPath directory "py.typed", ""⟩]

example : outputDirectory "acme.orders" "_v1" = "acme/orders_v1" ∧ outputDirectory "" "" = "" := by
  decide +kernel

end ProtoModels
