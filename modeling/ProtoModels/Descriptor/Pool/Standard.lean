import ProtoModels.Descriptor.Pool.Basic
/-!
# Standard option types

The messages by which options are read in a pool that does not declare these messages itself.
-/
namespace ProtoModels.Descriptor.Pool

namespace Standard

/-- A single field of a scalar kind. -/
def scalar (kind : Int) (number : Int) (name : String) : Field :=
  { name, number, label := some 1, kind := some kind }

def double := scalar 1
def int64 := scalar 3
def uint64 := scalar 4
def bool := scalar 8
def text := scalar 9
def bytes := scalar 12

/-- A single field whose type is named in full. -/
def named (typeName : String) (number : Int) (name : String) : Field :=
  { name, number, label := some 1, kind := some 11, typeName := some typeName }

/-- A repeated field whose type is named in full. -/
def list (typeName : String) (number : Int) (name : String) : Field :=
  { named typeName number name with label := some 3 }

/-- Names with their numbers. -/
def enum (name : String) (values : List (String × Int)) : Enum :=
  { name, values := values.map fun (name, number) => { name, number } }

/-- A message for options: its fields, and those options that have not been read yet. Extensions may
add to it. -/
def options (name : String) (fields : List Field) (enums : List Enum) : Message :=
  { name, enums
    fields := fields ++ [list ".google.protobuf.UninterpretedOption" 999 "uninterpreted_option"]
    extensionRanges := [⟨⟨1000, 536870912⟩, []⟩] }

def deprecated (number : Int) : Field := bool number "deprecated"

def fileOptions : Message :=
  options "FileOptions"
    [text 1 "java_package", text 8 "java_outer_classname", bool 10 "java_multiple_files",
      bool 20 "java_generate_equals_and_hash", bool 27 "java_string_check_utf8",
      named ".google.protobuf.FileOptions.OptimizeMode" 9 "optimize_for", text 11 "go_package",
      bool 16 "cc_generic_services", bool 17 "java_generic_services", bool 18 "py_generic_services",
      bool 42 "php_generic_services", deprecated 23, bool 31 "cc_enable_arenas",
      text 36 "objc_class_prefix", text 37 "csharp_namespace", text 39 "swift_prefix",
      text 40 "php_class_prefix", text 41 "php_namespace", text 44 "php_metadata_namespace",
      text 45 "ruby_package"]
    [enum "OptimizeMode" [("SPEED", 1), ("CODE_SIZE", 2), ("LITE_RUNTIME", 3)]]

def messageOptions : Message :=
  options "MessageOptions"
    [bool 1 "message_set_wire_format", bool 2 "no_standard_descriptor_accessor", deprecated 3,
      bool 7 "map_entry"] []

def fieldOptions : Message :=
  options "FieldOptions"
    [named ".google.protobuf.FieldOptions.CType" 1 "ctype", bool 2 "packed",
      named ".google.protobuf.FieldOptions.JSType" 6 "jstype", bool 5 "lazy",
      bool 15 "unverified_lazy", deprecated 3, bool 10 "weak"]
    [enum "CType" [("STRING", 0), ("CORD", 1), ("STRING_PIECE", 2)],
      enum "JSType" [("JS_NORMAL", 0), ("JS_STRING", 1), ("JS_NUMBER", 2)]]

def methodOptions : Message :=
  options "MethodOptions"
    [deprecated 33, named ".google.protobuf.MethodOptions.IdempotencyLevel" 34 "idempotency_level"]
    [enum "IdempotencyLevel" [("IDEMPOTENCY_UNKNOWN", 0), ("NO_SIDE_EFFECTS", 1), ("IDEMPOTENT", 2)]]

/-- An option as it is written: the parts of its name, and its value. -/
def uninterpretedOption : Message :=
  { name := "UninterpretedOption"
    fields :=
      [list ".google.protobuf.UninterpretedOption.NamePart" 2 "name", text 3 "identifier_value",
        uint64 4 "positive_int_value", int64 5 "negative_int_value", double 6 "double_value",
        bytes 7 "string_value", text 8 "aggregate_value"]
    nested := [{ name := "NamePart", fields := [text 1 "name_part", bool 2 "is_extension"] }] }

/-- The file that declares the types of all options. -/
def file : File :=
  { name := "google/protobuf/descriptor.proto"
    package := "google.protobuf"
    messages :=
      [fileOptions, messageOptions, fieldOptions, options "OneofOptions" [] [],
        options "EnumOptions" [bool 2 "allow_alias", deprecated 3] [],
        options "EnumValueOptions" [deprecated 1] [], options "ServiceOptions" [deprecated 33] [],
        methodOptions, options "ExtensionRangeOptions" [] [], uninterpretedOption]
    dialect := some "proto2" }

end Standard

/-- The pool of the standard option types. -/
def standard : Pool := ofFiles [Standard.file]

end ProtoModels.Descriptor.Pool
