import ProtoModels.ClassPath
import ProtoModels.Failure
/-!
# Field types

The Python type of each field: scalars by kind, messages and enums by the class path of their
declaration or as a standard type, repeated fields as lists, and map fields as dictionaries with
text keys whatever the kind of the key.
-/
namespace ProtoModels

inductive Scalar where
  | str
  | bool
  | int
  | float
deriving DecidableEq, Repr

/-- How a scalar type is written (`python`). -/
def Scalar.python : Scalar → String
  | str => "str"
  | bool => "bool"
  | int => "int"
  | float => "float"

/-- The Python type of a field. The two kinds of a `NamedType` stand beside the others. -/
inductive FieldType where
  | scalar (type : Scalar)
  /-- A class of the module. -/
  | declared (path : ClassPath)
  | standard (type : StandardType)
  | list (items : FieldType)
  /-- A dictionary with text keys. -/
  | map (values : FieldType)
deriving DecidableEq, Repr

namespace FieldType

/-- The type expression (`reference`). With `uuid` the innermost type is `UUID` whatever it would
be. -/
def expression (uuid : Bool) : FieldType → String
  | map values => "dict[str, " ++ values.expression uuid ++ "]"
  | list items => "list[" ++ items.expression uuid ++ "]"
  | scalar type => if uuid then "UUID" else type.python
  | declared path => if uuid then "UUID" else path.dotted
  | standard type => if uuid then "UUID" else type.python

/-- The field holds a list (`is_list`). -/
def isList : FieldType → Bool
  | list _ => true
  | _ => false

/-- The field holds a dictionary (`is_map`). -/
def isMap : FieldType → Bool
  | map _ => true
  | _ => false

end FieldType

/-- The type of a single value of a kind that refers to no declaration: the scalar cases of
`map_singular`. -/
def FieldKind.scalar? : FieldKind → Option Scalar
  | .string | .bytes => some .str
  | .bool => some .bool
  | .int32 | .int64 | .uint32 | .uint64 | .fixed32 | .fixed64 | .sfixed32 | .sfixed64 | .sint32
  | .sint64 => some .int
  | .float | .double => some .float
  | .message | .enum | .group | .unknown _ => none

namespace Schema

/-- How a field names the type that it refers to: the message and enum case of `map_singular`. -/
def namedType (names : ClassNames) (t : TypeDecl) : FieldType :=
  match StandardType.find? t.fullName with
  | some standard => .standard standard
  | none => .declared (names.resolve t)

/-- The type of one value of a field (`map_singular`). Groups and unknown kinds have none. -/
def singularType (s : Schema) (names : ClassNames) (f : Field) : Except CompileError FieldType :=
  match f.kind with
  | .message | .enum =>
    match s.target? f with
    | some t => .ok (namedType names t)
    | none => .error (.unresolvedType f.fullName (f.typeName.getD ""))
  | kind =>
    match kind.scalar? with
    | some scalar => .ok (.scalar scalar)
    | none => .error (.unsupportedKind f.fullName kind.number)

/-- The type of a field (`map_field`). -/
def fieldType (s : Schema) (names : ClassNames) (f : Field) : Except CompileError FieldType :=
  match s.entryFields? f with
  | some (_, value) => (s.singularType names value).map .map
  | none =>
    (s.singularType names f).map fun type => if f.isRepeated then .list type else type

end Schema
end ProtoModels
