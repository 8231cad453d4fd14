import ProtoModels.Wire.Record
/-!
# Descriptors

Schemas as they are handed over: one descriptor per file, with its messages and enums, nested as
they were declared. Nothing in a descriptor is checked: names may repeat, numbers may be out of
range and types may be missing.
-/
namespace ProtoModels.Descriptor

/-- A half-open range of field numbers. -/
structure NumberRange where
  first : Int := 0
  stop : Int := 0
deriving DecidableEq

/-- Numbers that extensions of a message may have. -/
structure ExtensionRange where
  numbers : NumberRange := {}
  options : Wire.Bytes := []

/-- An enum value. The `options` of a declaration are an encoded message. -/
structure EnumValue where
  name : String := ""
  number : Int := 0
  options : Wire.Bytes := []

/-- An enum as a file declares it (`EnumDescriptorProto`). -/
structure Enum where
  name : String := ""
  values : List EnumValue := []
  /-- Numbers that no value may have, both ends included. -/
  reserved : List NumberRange := []
  /-- Values may share a number. -/
  allowAlias : Bool := false
  options : Wire.Bytes := []

/-- A field or an extension as a file declares it (`FieldDescriptorProto`). -/
structure Field where
  name : String := ""
  number : Int := 0
  /-- One for optional, two for required, three for repeated. -/
  label : Option Int := none
  /-- The number of the field's type. -/
  kind : Option Int := none
  typeName : Option String := none
  /-- The message that an extension extends. -/
  extendee : Option String := none
  defaultValue : Option String := none
  oneofIndex : Option Int := none
  jsonName : Option String := none
  proto3Optional : Bool := false
  /-- Whether repeated values are packed, if the field has options at all. -/
  packed : Option Bool := none
  options : Wire.Bytes := []

structure Oneof where
  name : String := ""
  options : Wire.Bytes := []

/-- A message as a file declares it (`DescriptorProto`). -/
structure Message where
  name : String := ""
  fields : List Field := []
  extensions : List Field := []
  nested : List Message := []
  enums : List Enum := []
  oneofs : List Oneof := []
  extensionRanges : List ExtensionRange := []
  reservedRanges : List NumberRange := []
  /-- The message is the entry of a map: its fields are a key and a value. -/
  mapEntry : Bool := false
  options : Wire.Bytes := []
deriving Inhabited

structure Method where
  name : String := ""
  inputType : String := ""
  outputType : String := ""
  options : Wire.Bytes := []

structure Service where
  name : String := ""
  methods : List Method := []
  options : Wire.Bytes := []

/-- A place in the source (an entry of `SourceCodeInfo`): the path of a declaration in its file's
descriptor, and the comment in front of it. -/
structure Location where
  path : List Int := []
  leadingComments : Option String := none

/-- A file and all that it declares (`FileDescriptorProto`). -/
structure File where
  name : String := ""
  package : String := ""
  imports : List String := []
  /-- Which imports are passed on to files that import this one, as indices. -/
  publicImports : List Int := []
  /-- Which imports a compiler may go without, as indices. -/
  weakImports : List Int := []
  messages : List Message := []
  enums : List Enum := []
  services : List Service := []
  extensions : List Field := []
  /-- The version of the schema language, as it is written. -/
  dialect : Option String := none
  locations : List Location := []
  options : Wire.Bytes := []

/-- What is to be generated (`CodeGeneratorRequest`): the paths of the requested files, the settings,
and all files that the requested ones refer to. -/
structure Request where
  filesToGenerate : List String := []
  parameter : String := ""
  files : List File := []

/-- The version of the schema language (`Syntax`). -/
inductive Dialect where
  | proto2
  | proto3
  | editions
deriving DecidableEq, Repr

/-- The version that a file names (`parse`): the first one if the name is missing or unknown. -/
def Dialect.ofText : Option String → Dialect
  | some "proto3" => proto3
  | some "editions" => editions
  | _ => proto2

end ProtoModels.Descriptor
