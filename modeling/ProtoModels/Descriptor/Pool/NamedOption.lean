import ProtoModels.Descriptor.Pool.Standard
import ProtoModels.Descriptor.Pool.Value
import ProtoModels.Descriptor.WrittenOption
/-!
# Options by name

Setting the options that are given as they are written in a schema. Each name on the path is that of
a field, or of an extension and then resolved in the scope of the declaration. A value that is not
repeated may not be set twice. Where several extensions have one number, a value that is there counts
for all of them. `interpretOptions?` sets all options of a declaration that are given so.
-/
namespace ProtoModels.Descriptor

namespace WrittenValue

/-- The integer that is written. -/
def integer? (v : WrittenValue) : Option Int := (v.natural.map Int.ofNat).or v.negative

/-- The number that is written. Integers are rounded to 64 bits before they are rounded further. -/
def number? (v : WrittenValue) : Option Binary64 :=
  v.real.or <| v.integer?.map fun n => ⟨UInt64.ofNat (BinaryFormat.double.round (.ofInt n))⟩

/-- The written value as a value of a type that is no message. -/
def scalar? (v : WrittenValue) : Pool.ValueType → Option Pool.Scalar
  | .message _ _ => none
  | .enum e => v.identifier.bind (Pool.enumValue? e)
  | .scalar .string => (v.text.filter fun bs => (Wire.text? bs).isSome).map .bytes
  | .scalar .bytes => v.text.map .bytes
  | .scalar .bool =>
    match v.identifier with
    | some "true" => some (.ofBool true)
    | some "false" => some (.ofBool false)
    | _ => none
  | .scalar kind =>
    match Pool.binaryFormat? kind with
    | some format => v.number?.map fun x => .real (UInt64.ofNat (format.round (.ofBinary64 x)))
    | none => v.integer?.bind (Pool.integerOf? kind)

/-- The written value as a value of a type. The text of a message is not read: the message is
empty. -/
def value? (v : WrittenValue) : Pool.ValueType → Option Pool.Value
  | .message m _ => v.aggregate.map fun _ => .message m []
  | type => (v.scalar? type).map .scalar

end WrittenValue

namespace Pool

/-! ## Setting an option -/

/-- What the messages of options are, and where an option is written. -/
structure OptionSite where
  types : Pool
  file : File
  scope : String

/-- The number and the meaning of a name in a message. -/
def partSlot? (p : Pool) (site : OptionSite) (m : Sited Message) (part : NamePart) :
    Option (Nat × Slot) :=
  if part.isExtension then do
    let x ← p.resolve site.file Definition.extension? site.scope part.text
    let slot ← p.extensionSlot? x
    if p.isExtensionOf m x then some (x.decl.number.toNat, slot) else none
  else do
    let f ← m.decl.fields.find? (·.name == part.text)
    let slot ← site.types.slotOf? ⟨m.file, messageName m, f⟩
    some (f.number.toNat, slot)

/-- What a slot holds before anything is set in it. -/
def Slot.initial (s : Slot) : Value :=
  if s.isMap then .map []
  else if s.repeated then .list []
  else match s.type with
    | .message m _ => .message m []
    | _ => .scalar s.default

/-- Whether a value may not be set again. -/
def Slot.occupied (s : Slot) : Value → Bool
  | .scalar value => !s.repeated && s.keeps value
  | _ => !s.repeated

/-- The entry of a map that gives neither its key nor its value. Not all types can be keys. -/
def emptyEntry? (p : Pool) (m : Sited Message) : Option (Scalar × Value) := do
  let key ← p.fieldSlot? m 1
  let value ← p.fieldSlot? m 2
  if key.repeated || !isKeyKind key.type.kind then none else some (key.default, value.initial)

/-- A value after another one has been set in its place: a list gets one more element and a map one
more entry, and all else is replaced. -/
def Value.set? (p : Pool) (new : Value) : Value → Option Value
  | .list elements => some (.list (elements ++ [new]))
  | .map entries =>
    match new with
    | .message m _ => (p.emptyEntry? m).map fun e => .map (latestEntries (entries ++ [e]))
    | _ => none
  | _ => some new

/-- The fields of a message with one of them replaced. Other members of its oneof are left out. -/
def putField (p : Pool) (m : Sited Message) (fields : List (Nat × Value)) (number : Nat)
    (value : Value) : List (Nat × Value) :=
  fields.filter (fun f => f.1 != number && !p.replaces m number f.1) ++ [(number, value)]

/-- A message after a value at the end of a path has been set. Messages on the way are made where
there is nothing. -/
def setOption (p : Pool) (site : OptionSite) (written : WrittenValue) :
    List NamePart → Value → Option Value
  | [], target => some target
  | part :: parts, target => do
    let .message m fields := target | none
    let (number, slot) ← p.partSlot? site m part
    let here := fields.lookup number
    let before := here.getD slot.initial
    let after ←
      if parts.isEmpty then
        if here.any slot.occupied then none
        else (written.value? slot.type).bind fun new => new.set? site.types before
      else p.setOption site written parts before
    some (.message m (site.types.putField m fields number after))

/-! ## Options of declarations -/

/-- The message by which options of a type are read, and the pool that declares it. -/
def optionType? (p : Pool) (type : String) : Option (Pool × Sited Message) :=
  let name := "google.protobuf." ++ type
  ((p.message? name).map (p, ·)).or ((standard.message? name).map (standard, ·))

/-- Encoded options as the message that they are by their type. -/
def optionMessage? (p : Pool) (type : String) (options : Wire.Bytes) : Option Value := do
  let (types, m) ← p.optionType? type
  let fields ← types.parse? ⟨.whole, m⟩ options
  if types.conforms Wire.depthLimit ⟨.whole, m⟩ fields then some (types.readMessage m fields)
  else none

/-- A message without the field of the options by name, if its type declares that field. -/
def dropNamedOptions (p : Pool) : Value → Value
  | .message m fields =>
    .message m (if (p.fieldSlot? m namedOptionsNumber).isSome then
      fields.filter (·.1 != namedOptionsNumber) else fields)
  | value => value

/-- The options of a declaration in a file, with those given by name set. -/
def interpretOptions? (p : Pool) (file : File) (type scope : String) (options : Wire.Bytes) :
    Option Wire.Bytes := do
  let (types, _) ← p.optionType? type
  let read ← p.optionMessage? type options
  let named := namedOptions ((Wire.parse options).getD [])
  let set ← named.foldlM
    (fun target option => p.setOption ⟨types, file, scope⟩ option.value option.path target) read
  ((types.dropNamedOptions set).message? types).map Wire.print

end Pool
end ProtoModels.Descriptor
