import ProtoModels.Descriptor.Encoding
import ProtoModels.Descriptor.Pool.NamedOption
/-!
# Interpretation of options

A pool in which the options that are given by name are set. All options are read by the types that
the pool had before; which messages are entries of maps is known anew afterwards.
-/
namespace ProtoModels.Descriptor

/-- Reads options, given their type, the full name of the declaration that has them, and their
encoding. -/
abbrev OptionReader := String → String → Wire.Bytes → Option Wire.Bytes

/-! ## Declarations

`outer` is the full name of what a declaration stands in. -/

def Field.mapOptions (read : OptionReader) (outer : String) (x : Field) : Option Field :=
  (read "FieldOptions" (qualify outer x.name) x.options).map fun options => { x with options }

def ExtensionRange.mapOptions (read : OptionReader) (outer : String) (r : ExtensionRange) :
    Option ExtensionRange :=
  (read "ExtensionRangeOptions" outer r.options).map fun options => { r with options }

def Oneof.mapOptions (read : OptionReader) (outer : String) (o : Oneof) : Option Oneof :=
  (read "OneofOptions" (qualify outer o.name) o.options).map fun options => { o with options }

def EnumValue.mapOptions (read : OptionReader) (outer : String) (v : EnumValue) :
    Option EnumValue :=
  (read "EnumValueOptions" (qualify outer v.name) v.options).map fun options => { v with options }

def Enum.mapOptions (read : OptionReader) (outer : String) (e : Enum) : Option Enum := do
  let values ← e.values.mapM (EnumValue.mapOptions read outer)
  let options ← read "EnumOptions" (qualify outer e.name) e.options
  some { e with values, options }

mutual
def Message.mapOptions (read : OptionReader) (outer : String) : Message → Option Message
  | ⟨name, fields, extensions, nested, enums, oneofs, ranges, reserved, _, options⟩ => do
    let full := qualify outer name
    let fields ← fields.mapM (Field.mapOptions read full)
    let extensions ← extensions.mapM (Field.mapOptions read full)
    let nested ← mapOptionsList read full nested
    let enums ← enums.mapM (Enum.mapOptions read full)
    let oneofs ← oneofs.mapM (Oneof.mapOptions read full)
    let ranges ← ranges.mapM (ExtensionRange.mapOptions read full)
    let options ← read "MessageOptions" full options
    some ⟨name, fields, extensions, nested, enums, oneofs, ranges, reserved,
      optionFlag 7 options, options⟩

def Message.mapOptionsList (read : OptionReader) (outer : String) :
    List Message → Option (List Message)
  | [] => some []
  | m :: ms => do
    let m ← Message.mapOptions read outer m
    let ms ← mapOptionsList read outer ms
    some (m :: ms)
end

def Method.mapOptions (read : OptionReader) (outer : String) (m : Method) : Option Method :=
  (read "MethodOptions" (qualify outer m.name) m.options).map fun options => { m with options }

def Service.mapOptions (read : OptionReader) (outer : String) (s : Service) : Option Service := do
  let full := qualify outer s.name
  let methods ← s.methods.mapM (Method.mapOptions read full)
  let options ← read "ServiceOptions" full s.options
  some { s with methods, options }

/-- A file with all options in it as they are read. The options of the file itself stand in its
package. -/
def File.mapOptions (read : OptionReader) (f : File) : Option File := do
  let messages ← Message.mapOptionsList read f.package f.messages
  let enums ← f.enums.mapM (Enum.mapOptions read f.package)
  let services ← f.services.mapM (Service.mapOptions read f.package)
  let extensions ← f.extensions.mapM (Field.mapOptions read f.package)
  let options ← read "FileOptions" f.package f.options
  some { f with messages, enums, services, extensions, options }

/-! ## Pools -/

/-- The options of a declaration in a file as they are read by the types of a pool. -/
def Pool.optionReader (p : Pool) (file : File) : OptionReader := fun type scope options =>
  if options.isEmpty then some [] else p.interpretOptions? file type scope options

/-- A pool with all options that are given by name set. -/
def Pool.interpret? (p : Pool) : Option Pool :=
  (p.files.mapM fun file => File.mapOptions (p.optionReader file) file).map Pool.ofFiles

end ProtoModels.Descriptor
