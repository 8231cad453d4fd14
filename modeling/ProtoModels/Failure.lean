/-!
# Failures

Why a compilation or a plugin run stops, what is said about it, and the exit code that goes with it.
-/
namespace ProtoModels

/-- Two rules of one field that ask for different things. -/
inductive RuleConflict where
  /-- A named factory and an empty instance as the default. -/
  | factoryAndEmpty (factory : String)
  /-- An exact length and a bound of the length. -/
  | exactAndBounded
deriving DecidableEq, Repr

def RuleConflict.message : RuleConflict → String
  | factoryAndEmpty factory => "default_factory " ++ factory ++ " conflicts with default_empty"
  | exactAndBounded => "len cannot be combined with min_length or max_length"

/-- Why a schema cannot be compiled (`GenerateError`). -/
inductive CompileError where
  /-- A requested path is the path of no file. -/
  | fileNotFound (path : String)
  /-- A field refers to a type that no file declares. -/
  | unresolvedType (field typeName : String)
  /-- A field has a kind for which there is no Python type. -/
  | unsupportedKind (field : String) (kind : Int)
  | conflictingRules (field : String) (conflict : RuleConflict)
  /-- Two declarations ask for one class. -/
  | nameCollision (name first second : String)
  | invalidParameter (detail : String)
deriving DecidableEq, Repr

namespace CompileError

def message : CompileError → String
  | fileNotFound path => "find file " ++ path ++ ": not present in the request's proto files"
  | unresolvedType field typeName => "field " ++ field ++ " references unknown type " ++ typeName
  | unsupportedKind field kind => "field " ++ field ++ " has unsupported kind " ++ toString kind
  | conflictingRules field conflict =>
    "conflicting rules on field " ++ field ++ ": " ++ conflict.message
  | nameCollision name first second =>
    "name collision: " ++ name ++ " resolves from both " ++ first ++ " and " ++ second
  | invalidParameter detail => "invalid parameter: " ++ detail

/-- A parameter that cannot be read is malformed input; all else is a failed compilation
(`exit_code`). -/
def exitCode : CompileError → Nat
  | invalidParameter _ => 2
  | _ => 1

end CompileError

/-- Why a plugin run stops without a response. -/
inductive PluginError where
  /-- The request could not be read to its end. -/
  | read (cause : String)
  /-- The request, or the rules in it, are not well-formed. -/
  | decode
  /-- The files of the request contradict each other or the rules of schemas. -/
  | descriptors
  /-- The response could not be encoded. -/
  | encode
  /-- The response could not be written. -/
  | write (cause : String)
  | compile (error : CompileError)
deriving DecidableEq, Repr

namespace PluginError

def message : PluginError → String
  | read cause => "cannot read request: " ++ cause
  | decode => "invalid request"
  | descriptors => "invalid descriptors"
  | encode => "cannot encode response"
  | write cause => "cannot write response: " ++ cause
  | compile error => error.message

/-- Failed transport is 3, malformed input 2 (`exit_code`). -/
def exitCode : PluginError → Nat
  | read _ | write _ => 3
  | decode | descriptors | encode => 2
  | compile error => error.exitCode

end PluginError
end ProtoModels
