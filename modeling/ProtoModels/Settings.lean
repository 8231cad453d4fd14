import ProtoModels.Failure
import ProtoModels.Text.Lines
/-!
# Settings

What the user chooses about the output: where the modules go, what they import, which packages are
written. Settings come as the plugin's parameter text `key=value,key=value`, or as a document with
the same keys.
-/
namespace ProtoModels

/-- The settings of a run (`GenerateOptions`). -/
structure Settings where
  /-- Glued to each package name before it becomes a directory. -/
  packageSuffix : String := ""
  /-- Name of the generated module, without its extension. -/
  filename : String := "pb_models"
  /-- Module from which `BaseModel` is imported instead of `pydantic`. -/
  basePath : Option String := none
  /-- Only packages whose name starts with this text are written. -/
  includePath : Option String := none
  /-- The serialization context in which maps are dumped as JSON text. -/
  serializeContext : String := "bigquery"
deriving DecidableEq, Repr

namespace Settings

/-- The settings of a user who says nothing. -/
def initial : Settings := {}

/-- Whether a package passes the filter (`includes_package`). -/
def includes (s : Settings) (package : String) : Bool :=
  match s.includePath with
  | none => true
  | some start => start.toList.isPrefixOf package.toList

/-! ## Setting one thing -/

/-- What can be set. -/
inductive Key where
  | packageSuffix
  | filename
  | basePath
  | includePath
  | serializeContext
deriving DecidableEq, Repr

/-- The settings with one of them set to a text, which may be empty. -/
def set (s : Settings) (key : Key) (value : String) : Settings :=
  match key with
  | .packageSuffix => { s with packageSuffix := value }
  | .filename => { s with filename := value }
  | .basePath => { s with basePath := some value }
  | .includePath => { s with includePath := some value }
  | .serializeContext => { s with serializeContext := value }

/-! ## Documents -/

/-- A document from which settings are read. -/
inductive Document where
  | text (value : String)
  | null
  | object (entries : List (String × Document))
  | other
deriving Inhabited

/-- The value of a key; of several the last one. -/
def Document.get? (entries : List (String × Document)) (key : String) : Option Document :=
  (entries.findRev? (·.1 == key)).map (·.2)

/-- A text that must be given as one if it is given at all. -/
def textEntry? (entries : List (String × Document)) (key default : String) : Option String :=
  match Document.get? entries key with
  | none => some default
  | some (.text value) => some value
  | some _ => none

/-- A text that may be missing or null. -/
def optionalEntry? (entries : List (String × Document)) (key : String) : Option (Option String) :=
  match Document.get? entries key with
  | none | some .null => some none
  | some (.text value) => some (some value)
  | some _ => none

/-- The settings of a document, as `GenerateOptions` are deserialized: an object whose known keys
hold texts. Unknown keys are ignored and missing ones have their default. -/
def ofDocument? : Document → Option Settings
  | .object entries => do
    let packageSuffix ← textEntry? entries "package_suffix" initial.packageSuffix
    let filename ← textEntry? entries "filename" initial.filename
    let basePath ← optionalEntry? entries "pydantic_base_path"
    let includePath ← optionalEntry? entries "include_path"
    let serializeContext ← textEntry? entries "serialize_context" initial.serializeContext
    some { packageSuffix, filename, basePath, includePath, serializeContext }
  | _ => none

/-! ## Parameter texts -/

def nonempty (s : String) : Bool := s ≠ ""

/-- Empty texts mean that nothing was said (`normalized`). -/
def normalized (s : Settings) : Settings where
  packageSuffix := s.packageSuffix
  filename := if s.filename = "" then initial.filename else s.filename
  basePath := s.basePath.filter nonempty
  includePath := s.includePath.filter nonempty
  serializeContext := if s.serializeContext = "" then initial.serializeContext else s.serializeContext

/-- An entry of a parameter text: a key, and behind the first equals sign its value. A key alone has
the empty value. -/
def parameterEntry (entry : String) : String × Document :=
  let (key, value) := Text.cutAtFirst '=' entry
  (key, .text (value.getD ""))

/-- The entries of a parameter text (`parse_parameters`). Nothing between two commas is no entry. -/
def parameterEntries (parameter : String) : List (String × Document) :=
  ((Text.splitOn ',' parameter).filter nonempty).map parameterEntry

/-- The settings of a parameter text (`from_parameter`). -/
def ofParameter (parameter : String) : Except CompileError Settings :=
  match ofDocument? (.object (parameterEntries parameter)) with
  | some settings => .ok settings.normalized
  | none => .error (.invalidParameter "the parameter does not hold settings")

end Settings
end ProtoModels
