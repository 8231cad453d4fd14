/-!
# Standard types

Message and enum types of `google.protobuf` for which Python has a type of its own. They are named
by a type expression wherever a field refers to them and never become classes.
-/
namespace ProtoModels

/-- A schema type that stands for a Python type expression (`WellKnownType`). -/
structure StandardType where
  fullName : String
  python : String
deriving DecidableEq, Repr

namespace StandardType

/-- The standard types (`TABLE`). -/
def table : List StandardType := [
  ⟨"google.protobuf.Timestamp", "datetime.datetime"⟩,
  ⟨"google.protobuf.Duration", "datetime.timedelta"⟩,
  ⟨"google.protobuf.Struct", "dict[str, Any]"⟩,
  ⟨"google.protobuf.Value", "Any"⟩,
  ⟨"google.protobuf.ListValue", "list[Any]"⟩,
  ⟨"google.protobuf.NullValue", "None"⟩,
  ⟨"google.protobuf.DoubleValue", "float"⟩,
  ⟨"google.protobuf.FloatValue", "float"⟩,
  ⟨"google.protobuf.Int64Value", "int"⟩,
  ⟨"google.protobuf.UInt64Value", "int"⟩,
  ⟨"google.protobuf.Int32Value", "int"⟩,
  ⟨"google.protobuf.UInt32Value", "int"⟩,
  ⟨"google.protobuf.BoolValue", "bool"⟩,
  ⟨"google.protobuf.StringValue", "str"⟩,
  ⟨"google.protobuf.BytesValue", "str"⟩]

end StandardType

/-- A full name without the one dot that may stand in front of it. -/
def dropLeadingDot (name : String) : String :=
  match name.toList with
  | '.' :: rest => String.ofList rest
  | _ => name

/-- The standard type of a full name, with or without a leading dot (`well_known_type`). -/
def StandardType.find? (name : String) : Option StandardType :=
  table.find? (·.fullName == dropLeadingDot name)

/-- There is a standard type of this full name (`is_well_known`). -/
def StandardType.isStandard (name : String) : Bool := (find? name).isSome

example : (StandardType.find? ".google.protobuf.Duration").map (·.python) =
    some "datetime.timedelta" := by decide +kernel
example : StandardType.isStandard "google.protobuf.Any" = false := by decide +kernel

end ProtoModels
