import ProtoModels.Descriptor.Pool.Options
/-!
# Values of declared types

What the fields of a message mean by its type: scalars, messages, lists and maps. Every message keeps
its own type. `readMessage` reads the fields of an encoded message that conform to a type, and
`Value.message?` writes them again: those that the type declares in front, extensions and unknown
fields behind, and both in the order of their numbers.
-/
namespace ProtoModels.Descriptor.Pool

/-- The value of a field. Unknown fields stand as they were encoded. -/
inductive Value where
  | scalar (value : Scalar)
  | message (type : Sited Message) (fields : List (Nat × Value))
  | list (elements : List Value)
  | map (entries : List (Scalar × Value))
  | unknown (fields : List Wire.Field)

namespace Value

def scalar? : Value → Option Scalar
  | scalar value => some value
  | _ => none

def entries : Value → List (Scalar × Value)
  | map entries => entries
  | _ => []

def unknownFields : Value → List Wire.Field
  | unknown fields => fields
  | _ => []

end Value

/-! ## Reading -/

/-- The fields that are not replaced by a later one. -/
def dropReplaced (replaces : Nat → Nat → Bool) : List Wire.Field → List Wire.Field
  | [] => []
  | f :: fs =>
    if fs.any (replaces ·.number f.number) then dropReplaced replaces fs
    else f :: dropReplaced replaces fs

/-- A member of a oneof replaces the other ones. -/
def replaces (p : Pool) (m : Sited Message) (later earlier : Nat) : Bool :=
  later != earlier &&
    match (p.fieldSlot? m later).bind (·.oneof), (p.fieldSlot? m earlier).bind (·.oneof) with
    | some i, some j => i == j
    | _, _ => false

/-- The entries of a map that no later entry with the same key replaces. -/
def latestEntries : List (Scalar × Value) → List (Scalar × Value)
  | [] => []
  | e :: es => if es.any (·.1 == e.1) then latestEntries es else e :: latestEntries es

/-- The value of a slot in the fields with its number. Of several single values the last one counts,
and several single messages are merged. -/
def Slot.value (p : Pool) (inner : MessageForm → List Wire.Field → Value) (s : Slot)
    (fields : List Wire.Field) : Value :=
  match s.form? with
  | some form =>
    let parts := fields.map fun f => (p.embedded? form s.isGroup f).getD []
    if s.isMap then .map (latestEntries (parts.flatMap fun part => (inner form part).entries))
    else if s.repeated then .list (parts.map (inner form))
    else inner form parts.flatten
  | none =>
    let values := fields.flatMap fun f => (s.scalars? f).getD []
    if s.repeated then .list (values.map .scalar) else .scalar (values.getLast?.getD s.default)

/-- The numbers of fields, each once. -/
def numbersOf (fields : List Wire.Field) : List Nat := (fields.map (·.number)).eraseDups

/-- The fields of a message, read by its type. The entry of a map is read as a map of its own.
`inner` reads messages in it. -/
def readWith (p : Pool) (inner : MessageForm → List Wire.Field → Value) (form : MessageForm)
    (fields : List Wire.Field) : Value :=
  let among (fields : List Wire.Field) (number : Nat) := fields.filter (·.number == number)
  match form.role with
  | .entry =>
    let part (number : Nat) :=
      (p.slotIn? form number).map fun slot => slot.value p inner (among fields number)
    match (part 1).bind Value.scalar?, part 2 with
    | some key, some value => .map [(key, value)]
    | _, _ => .map []
  | .whole =>
    let kept := dropReplaced (p.replaces form.type) fields
    .message form.type ((numbersOf kept).map fun number =>
      (number, match p.slotIn? form number with
        | some slot => slot.value p inner (among kept number)
        | none => .unknown (among kept number)))

/-- Reads messages that stand in each other at most `bound` deep. -/
def readWithin (p : Pool) : Nat → MessageForm → List Wire.Field → Value
  | 0 => p.readWith fun form _ => .message form.type []
  | bound + 1 => p.readWith (p.readWithin bound)

/-- The message that some fields hold by its type. -/
def readMessage (p : Pool) (m : Sited Message) (fields : List Wire.Field) : Value :=
  p.readWithin (nestingBound fields) ⟨.whole, m⟩ fields

/-! ## Writing -/

/-- A field in which a message stands. -/
def embed (isGroup : Bool) (number : Nat) (fields : List Wire.Field) : Wire.Field :=
  if isGroup then .group number fields else .bytes number (Wire.print fields)

/-- The numbered parts of a message in the order in which they are written. -/
def arrange (p : Pool) (m : Sited Message) (parts : List (Nat × List Wire.Field)) :
    List Wire.Field :=
  let sorted := parts.mergeSort fun a b => decide (a.1 ≤ b.1)
  let (declared, others) := sorted.partition fun part => (p.fieldSlot? m part.1).isSome
  (declared ++ others).flatMap (·.2)

mutual
/-- The fields that hold a value of a slot. A single value that its absence would mean as well is left
out where that is allowed. -/
def Value.write (p : Pool) (slot : Slot) (number : Nat) : Value → List Wire.Field
  | .scalar s => if slot.keeps s then [s.field slot.type.kind number] else []
  | .message type fields => [embed slot.isGroup number (p.arrange type (writeFields p type fields))]
  | .list elements =>
    if slot.packed then
      if elements.isEmpty && !slot.explicit then []
      else
        let packed (v : Value) := (v.scalar?.map (Scalar.packed slot.type.kind)).getD []
        [.bytes number (elements.flatMap packed)]
    else writeElements p slot number elements
  | .map entries =>
    match slot.type with
    | .message m _ => writeEntries p m number entries
    | _ => []
  | .unknown fields => fields

/-- The fields of a message with their numbers. -/
def writeFields (p : Pool) (m : Sited Message) : List (Nat × Value) → List (Nat × List Wire.Field)
  | [] => []
  | (number, value) :: rest =>
    (number, match p.slot? m number with
      | some slot => value.write p slot number
      | none => value.unknownFields) :: writeFields p m rest

/-- The elements of a list, each in a field of its own. -/
def writeElements (p : Pool) (slot : Slot) (number : Nat) : List Value → List Wire.Field
  | [] => []
  | value :: rest =>
    value.write p { slot with repeated := false, explicit := true } number ++
      writeElements p slot number rest

/-- The entries of a map, each a message with a key and a value. -/
def writeEntries (p : Pool) (m : Sited Message) (number : Nat) :
    List (Scalar × Value) → List Wire.Field
  | [] => []
  | (key, value) :: rest =>
    let keyFields := (p.entrySlot? m 1).map fun slot =>
      if slot.keeps key then [key.field slot.type.kind 1] else []
    let valueFields := (p.entrySlot? m 2).map fun slot => value.write p slot 2
    embed false number (keyFields.getD [] ++ valueFields.getD []) :: writeEntries p m number rest
end

/-- The fields of a message, if the value is one. -/
def Value.message? (p : Pool) : Value → Option (List Wire.Field)
  | .message type fields => some (p.arrange type (writeFields p type fields))
  | _ => none

end ProtoModels.Descriptor.Pool
