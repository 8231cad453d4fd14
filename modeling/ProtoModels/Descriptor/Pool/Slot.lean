import ProtoModels.Descriptor.Pool.DefaultValue
import ProtoModels.Wire.Shape
/-!
# Slots

What the numbers of a message's fields mean in encoded messages. A number belongs to a field that the
message declares, or else to an extension of the message, the one that is declared first.
-/
namespace ProtoModels.Descriptor.Pool

/-- What the number of a field means in a message. -/
structure Slot where
  type : ValueType
  repeated : Bool
  /-- Repeated values are written into one payload. -/
  packed : Bool
  /-- A value that is given is kept even if it is the default. -/
  explicit : Bool
  oneof : Option Int
  /-- What the absence of a single value means. -/
  default : Scalar

/-- Whether the values are the entries of a map. -/
def Slot.isMap (s : Slot) : Bool :=
  s.repeated && match s.type with
    | .message m _ => m.decl.mapEntry
    | _ => false

/-- Whether the values are messages that are encoded as groups. -/
def Slot.isGroup (s : Slot) : Bool :=
  !s.isMap && match s.type with
    | .message _ isGroup => isGroup
    | _ => false

/-- Whether a value is kept where the absence of one means the default. -/
def Slot.keeps (s : Slot) (value : Scalar) : Bool := s.explicit || !s.type.same s.default value

/-- Whether a file is written in the older dialect. -/
def isProto2 (f : File) : Bool := Dialect.ofText f.dialect == .proto2

/-- What a declared field means. Numbers of a field without options are packed outside the older
dialect. There, too, single values are only kept if they are no default, messages and members of
oneofs excepted. -/
def slotOf? (p : Pool) (x : Sited Field) : Option Slot :=
  (p.valueType? x).map fun type =>
    let repeated := Label.ofNumber x.decl.label == .repeated
    { type
      repeated
      packed := repeated && type.isPackable && x.decl.packed.getD !(isProto2 x.file)
      explicit := x.decl.proto3Optional || x.decl.oneofIndex.isSome ||
        (!repeated && (type.kind == .message || isProto2 x.file))
      oneof := x.decl.oneofIndex
      default := (x.decl.defaultValue.bind type.ofText?).getD type.zero }

/-- What a field of a message means. -/
def fieldSlot? (p : Pool) (m : Sited Message) (number : Nat) : Option Slot :=
  (m.decl.fields.find? (·.number == (number : Int))).bind fun f =>
    p.slotOf? ⟨m.file, messageName m, f⟩

/-- What an extension means. It is in no oneof, and its single values are kept. -/
def extensionSlot? (p : Pool) (x : Sited Field) : Option Slot :=
  (p.slotOf? x).map fun s => { s with explicit := !s.repeated, oneof := none }

/-- Whether an extension extends a message. -/
def isExtensionOf (p : Pool) (m : Sited Message) (x : Sited Field) : Bool :=
  ((p.extended? x).map messageName) == some (messageName m)

/-- The extension of a message with a number. -/
def extensionWith? (p : Pool) (m : Sited Message) (number : Nat) : Option (Sited Field) :=
  p.extensions.find? fun x => x.decl.number == (number : Int) && p.isExtensionOf m x

def slot? (p : Pool) (m : Sited Message) (number : Nat) : Option Slot :=
  (p.fieldSlot? m number).or ((p.extensionWith? m number).bind p.extensionSlot?)

end ProtoModels.Descriptor.Pool
