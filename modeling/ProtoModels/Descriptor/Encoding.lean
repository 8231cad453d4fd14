import ProtoModels.Descriptor.Basic
import ProtoModels.Descriptor.WrittenOption
/-!
# Encoded descriptors

How requests and descriptors are encoded: the known fields of each message, and the reading of
descriptors whose fields fit. `Request.decode?` reads a whole request; `Request.encodedFiles?` only
splits it and leaves its files encoded.
-/
namespace ProtoModels.Descriptor

open Wire (FieldShape ShapeTable)

/-- The messages that occur in an encoded request. -/
inductive Shape where
  | request | version | file | message | extensionRange | range | field | oneof | enum | enumValue
  | service | method | fileOptions | messageOptions | fieldOptions | enumOptions | enumValueOptions
  | serviceOptions | methodOptions | plainOptions | uninterpretedOption | namePart | sourceInfo
  | location
deriving DecidableEq

/-- Options that a compiler has not read yet may stand in all options. -/
def uninterpreted : Nat → Option (FieldShape Shape)
  | 999 => some (.message .uninterpretedOption)
  | _ => none

def fileOptions : Nat → Option (FieldShape Shape)
  | 1 | 8 | 11 | 36 | 37 | 39 | 40 | 41 | 44 | 45 => some .text
  | 9 | 10 | 16 | 17 | 18 | 20 | 23 | 27 | 31 | 42 => some .number
  | n => uninterpreted n

/-- The known fields of each message in an encoded request. -/
def shapes : ShapeTable Shape
  | .request, 1 | .request, 2 => some .text
  | .request, 3 => some (.message .version)
  | .request, 15 => some (.message .file)
  | .version, 1 | .version, 2 | .version, 3 => some .number
  | .version, 4 => some .text
  | .file, 1 | .file, 2 | .file, 3 | .file, 12 => some .text
  | .file, 4 => some (.message .message)
  | .file, 5 => some (.message .enum)
  | .file, 6 => some (.message .service)
  | .file, 7 => some (.message .field)
  | .file, 8 => some (.message .fileOptions)
  | .file, 9 => some (.message .sourceInfo)
  | .file, 10 | .file, 11 => some .numbers
  | .message, 1 | .message, 10 => some .text
  | .message, 2 | .message, 6 => some (.message .field)
  | .message, 3 => some (.message .message)
  | .message, 4 => some (.message .enum)
  | .message, 5 => some (.message .extensionRange)
  | .message, 7 => some (.message .messageOptions)
  | .message, 8 => some (.message .oneof)
  | .message, 9 => some (.message .range)
  | .extensionRange, 1 | .extensionRange, 2 => some .number
  | .extensionRange, 3 => some (.message .plainOptions)
  | .range, 1 | .range, 2 => some .number
  | .field, 1 | .field, 2 | .field, 6 | .field, 7 | .field, 10 => some .text
  | .field, 3 | .field, 4 | .field, 5 | .field, 9 | .field, 17 => some .number
  | .field, 8 => some (.message .fieldOptions)
  | .oneof, 1 => some .text
  | .oneof, 2 => some (.message .plainOptions)
  | .enum, 1 | .enum, 5 => some .text
  | .enum, 2 => some (.message .enumValue)
  | .enum, 3 => some (.message .enumOptions)
  | .enum, 4 => some (.message .range)
  | .enumValue, 1 => some .text
  | .enumValue, 2 => some .number
  | .enumValue, 3 => some (.message .enumValueOptions)
  | .service, 1 => some .text
  | .service, 2 => some (.message .method)
  | .service, 3 => some (.message .serviceOptions)
  | .method, 1 | .method, 2 | .method, 3 => some .text
  | .method, 4 => some (.message .methodOptions)
  | .method, 5 | .method, 6 => some .number
  | .fileOptions, n => fileOptions n
  | .messageOptions, 1 | .messageOptions, 2 | .messageOptions, 3 | .messageOptions, 7 => some .number
  | .messageOptions, n => uninterpreted n
  | .fieldOptions, 1 | .fieldOptions, 2 | .fieldOptions, 3 | .fieldOptions, 5 | .fieldOptions, 6
  | .fieldOptions, 10 => some .number
  | .fieldOptions, n => uninterpreted n
  | .enumOptions, 2 | .enumOptions, 3 => some .number
  | .enumOptions, n => uninterpreted n
  | .enumValueOptions, 1 => some .number
  | .enumValueOptions, n => uninterpreted n
  | .serviceOptions, 33 => some .number
  | .serviceOptions, n => uninterpreted n
  | .methodOptions, 33 | .methodOptions, 34 => some .number
  | .methodOptions, n => uninterpreted n
  | .plainOptions, n => uninterpreted n
  | .uninterpretedOption, 2 => some (.message .namePart)
  | .uninterpretedOption, 3 | .uninterpretedOption, 8 => some .text
  | .uninterpretedOption, 4 | .uninterpretedOption, 5 => some .number
  | .uninterpretedOption, 6 => some .double
  | .uninterpretedOption, 7 => some .bytes
  | .namePart, 1 => some .text
  | .namePart, 2 => some .number
  | .sourceInfo, 1 => some (.message .location)
  | .location, 1 | .location, 2 => some .numbers
  | .location, 3 | .location, 4 | .location, 6 => some .text
  | _, _ => none

/-! ## Reading -/

abbrev Fields := List Wire.Field

def nameOf (fs : Fields) : String := (Wire.lastText? 1 fs).getD ""

def int32? (number : Nat) (fs : Fields) : Option Int := (Wire.number? number fs).map Wire.toInt32

def flag (number : Nat) (fs : Fields) : Bool := (Wire.number? number fs).any (· ≠ 0)

/-- The options of a declaration. Several are one after another. -/
def optionsOf (number : Nat) (fs : Fields) : Wire.Bytes :=
  ((Wire.payloads number fs).filterMap Wire.shortenKeys).flatten

/-- A flag among the options of a declaration. -/
def optionFlag (number : Nat) (options : Wire.Bytes) : Bool :=
  flag number ((Wire.parse options).getD [])

def NumberRange.read (fs : Fields) : NumberRange :=
  ⟨(int32? 1 fs).getD 0, (int32? 2 fs).getD 0⟩

def ExtensionRange.read (fs : Fields) : ExtensionRange := ⟨NumberRange.read fs, optionsOf 3 fs⟩

/-- Whether the values of an enum may share a number: the option is set as it is encoded, or given by
name. -/
def allowsAlias (options : Wire.Bytes) : Bool :=
  optionFlag 2 options ||
    (namedOptions ((Wire.parse options).getD [])).any (·.isWord "allow_alias" "true")

def EnumValue.read (fs : Fields) : EnumValue where
  name := nameOf fs
  number := (int32? 2 fs).getD 0
  options := optionsOf 3 fs

def Enum.read (fs : Fields) : Enum where
  name := nameOf fs
  values := (Wire.messages 2 fs).map EnumValue.read
  reserved := (Wire.messages 4 fs).map NumberRange.read
  allowAlias := allowsAlias (optionsOf 3 fs)
  options := optionsOf 3 fs

def Field.read (fs : Fields) : Field where
  name := nameOf fs
  number := (int32? 3 fs).getD 0
  label := int32? 4 fs
  kind := int32? 5 fs
  typeName := Wire.lastText? 6 fs
  extendee := Wire.lastText? 2 fs
  defaultValue := Wire.lastText? 7 fs
  oneofIndex := int32? 9 fs
  jsonName := Wire.lastText? 10 fs
  proto3Optional := flag 17 fs
  packed := (Wire.message? 8 fs).map (flag 2)
  options := optionsOf 8 fs

def Oneof.read (fs : Fields) : Oneof where
  name := nameOf fs
  options := optionsOf 2 fs

/-- A message with at most `depth` levels of messages in it. -/
def Message.read : Nat → Fields → Message
  | 0, _ => {}
  | depth + 1, fs => {
      name := nameOf fs
      fields := (Wire.messages 2 fs).map Field.read
      extensions := (Wire.messages 6 fs).map Field.read
      nested := (Wire.messages 3 fs).map (Message.read depth)
      enums := (Wire.messages 4 fs).map Enum.read
      oneofs := (Wire.messages 8 fs).map Oneof.read
      extensionRanges := (Wire.messages 5 fs).map ExtensionRange.read
      reservedRanges := (Wire.messages 9 fs).map NumberRange.read
      mapEntry := optionFlag 7 (optionsOf 7 fs)
      options := optionsOf 7 fs }

def Method.read (fs : Fields) : Method where
  name := nameOf fs
  inputType := (Wire.lastText? 2 fs).getD ""
  outputType := (Wire.lastText? 3 fs).getD ""
  options := optionsOf 4 fs

def Service.read (fs : Fields) : Service where
  name := nameOf fs
  methods := (Wire.messages 2 fs).map Method.read
  options := optionsOf 3 fs

def Location.read (fs : Fields) : Location where
  path := (Wire.numbers 1 fs).map Wire.toInt32
  leadingComments := Wire.lastText? 3 fs

def File.read (fs : Fields) : File where
  name := nameOf fs
  package := (Wire.lastText? 2 fs).getD ""
  imports := Wire.texts 3 fs
  publicImports := (Wire.numbers 10 fs).map Wire.toInt32
  weakImports := (Wire.numbers 11 fs).map Wire.toInt32
  messages := (Wire.messages 4 fs).map (Message.read Wire.depthLimit)
  enums := (Wire.messages 5 fs).map Enum.read
  services := (Wire.messages 6 fs).map Service.read
  extensions := (Wire.messages 7 fs).map Field.read
  dialect := Wire.lastText? 12 fs
  locations := (Wire.messages 1 ((Wire.message? 9 fs).getD [])).map Location.read
  options := optionsOf 8 fs

/-- The known fields where options are passed over: none of these. -/
def shapesAroundOptions : ShapeTable Shape
  | .fileOptions, _ | .messageOptions, _ | .fieldOptions, _ | .enumOptions, _
  | .enumValueOptions, _ | .serviceOptions, _ | .methodOptions, _ | .plainOptions, _ => none
  | shape, number => shapes shape number

/-- A file that stands in a request, one level below it. Its options are passed over before they are
read, and both must succeed. -/
def File.decode? (payload : Wire.Bytes) : Option File :=
  let fits (table : ShapeTable Shape) := Wire.conforms table (Wire.depthLimit - 1) .file
  ((Wire.parse payload).filter fun fs => fits shapes fs && fits shapesAroundOptions fs).map File.read

def Request.read (fs : Fields) : Request where
  filesToGenerate := Wire.texts 1 fs
  parameter := (Wire.lastText? 2 fs).getD ""
  files := (Wire.messages 15 fs).map File.read

/-- A whole request. -/
def Request.decode? (request : Wire.Bytes) : Option Request :=
  (Wire.parseShaped? shapes .request request).map Request.read

/-- Only the files of a request matter here, and they stay encoded (`RawRequest`). -/
def enclosingShapes : ShapeTable Unit
  | (), 15 => some .bytes
  | (), _ => none

/-- The files of a request, each as it is encoded. -/
def Request.encodedFiles? (request : Wire.Bytes) : Option (List Wire.Bytes) :=
  (Wire.parseShaped? enclosingShapes () request).map (Wire.payloads 15)

end ProtoModels.Descriptor
