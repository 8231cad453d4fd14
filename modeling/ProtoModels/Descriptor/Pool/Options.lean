import ProtoModels.Descriptor.Pool.Slot
/-!
# Messages of declared types

Options are messages whose types the files themselves declare, extensions included. `parse?` splits
an encoded message of a type into fields, and `conforms` decides whether these can be read by the
type.
-/
namespace ProtoModels.Descriptor.Pool

/-! ## Fields that hold messages -/

/-- What a message is read for: all of its fields, or key and value as in the entry of a map. -/
inductive Role where
  | whole
  | entry

/-- A type of messages with what they are read for. -/
structure MessageForm where
  role : Role
  type : Sited Message

/-- What a number means in the entry of a map. The key is single, and where none is given it is
zero. -/
def entrySlot? (p : Pool) (m : Sited Message) : Nat → Option Slot
  | 1 => (p.fieldSlot? m 1).map fun s =>
    { s with repeated := false, packed := false, default := s.type.zero }
  | 2 => p.fieldSlot? m 2
  | _ => none

/-- What a number means in a message. -/
def slotIn? (p : Pool) (form : MessageForm) (number : Nat) : Option Slot :=
  match form.role with
  | .whole => p.slot? form.type number
  | .entry => p.entrySlot? form.type number

/-- What the messages in a field are. -/
def Slot.form? (s : Slot) : Option MessageForm :=
  match s.type with
  | .message m _ => some ⟨if s.isMap then .entry else .whole, m⟩
  | _ => none

/-- The values in a field of a type without parts. -/
def Slot.scalars? (s : Slot) (f : Wire.Field) : Option (List Scalar) :=
  Scalar.read? s.type.kind (s.repeated && s.type.isPackable) f

/-- How the fields of a message are framed, if the message has a type. Entries of maps are payloads
whichever wire type they name. -/
def framing (p : Pool) (form : Option MessageForm) (number : Nat) :
    Wire.Framing (Option MessageForm) :=
  let slot := form.bind (p.slotIn? · number)
  ⟨slot.any Slot.isMap, slot.bind Slot.form?⟩

/-- The fields of an encoded message of a type. -/
def parse? (p : Pool) (form : MessageForm) (bs : Wire.Bytes) : Option (List Wire.Field) :=
  Wire.parseAs p.framing (some form) bs

/-- The fields of a message that stands in a field. -/
def embedded? (p : Pool) (form : MessageForm) (isGroup : Bool) :
    Wire.Field → Option (List Wire.Field)
  | .bytes _ payload => if isGroup then none else p.parse? form payload
  | .group _ fields => if isGroup then some fields else none
  | _ => none

/-- Every message that stands in another one is shorter, so that this bounds how deep messages stand
in each other. -/
def nestingBound (fields : List Wire.Field) : Nat := (Wire.print fields).length

/-! ## Reading -/

/-- Whether a field that no type knows can be kept where `depth` levels are left. -/
def keepable : Nat → Wire.Field → Bool
  | 0, .group _ _ => false
  | depth + 1, .group _ fields => fields.all (keepable depth)
  | _, _ => true

/-- Whether a field holds what its slot asks for where `depth` levels are left. A message takes a
level, the entry of a map takes none. `inner` decides about the fields of both. -/
def Slot.admits (p : Pool) (inner : Nat → MessageForm → List Wire.Field → Bool) (depth : Nat)
    (s : Slot) (f : Wire.Field) : Bool :=
  match s.form? with
  | some form =>
    (p.embedded? form s.isGroup f).any fun fields =>
      match form.role, depth with
      | .entry, depth => inner depth form fields
      | .whole, 0 => false
      | .whole, depth + 1 => inner depth form fields
  | none => (s.scalars? f).isSome

/-- Whether all fields of a message hold what their slots ask for, where `depth` levels are left. -/
def conformsWith (p : Pool) (inner : Nat → MessageForm → List Wire.Field → Bool) (depth : Nat)
    (form : MessageForm) (fields : List Wire.Field) : Bool :=
  fields.all fun f =>
    match p.slotIn? form f.number, form.role with
    | some slot, _ => slot.admits p inner depth f
    | none, .whole => keepable depth f
    | none, .entry => f.skippable depth

/-- `conforms` for messages that stand in each other at most `bound` deep. -/
def conformsWithin (p : Pool) : Nat → Nat → MessageForm → List Wire.Field → Bool
  | 0 => p.conformsWith fun _ _ _ => false
  | bound + 1 => p.conformsWith (p.conformsWithin bound)

/-- Whether fields can be read as a message where `depth` levels of messages are left. -/
def conforms (p : Pool) (depth : Nat) (form : MessageForm) (fields : List Wire.Field) : Bool :=
  p.conformsWithin (nestingBound fields) depth form fields

end ProtoModels.Descriptor.Pool
