import ProtoModels.Wire.Record
/-!
# Shapes

Which fields a message may have, and how deep messages may be nested. `conforms` decides whether the
fields of an encoded message fit its shape; on fields that fit, the readers below are total.
-/
namespace ProtoModels.Wire

/-- What a field holds, for messages named by `σ`. -/
inductive FieldShape (σ : Type) where
  | number
  /-- Any number of numbers, each on its own or several packed into one payload. -/
  | numbers
  | double
  | text
  | bytes
  | message (shape : σ)

/-- The known fields of each message. -/
abbrev ShapeTable (σ : Type) := σ → Nat → Option (FieldShape σ)

/-- Messages are nested at most this deep. -/
def depthLimit : Nat := 100

/-- Whether an unknown field may be skipped where `depth` levels are left: passing over a field needs
one level, and a group one more for each level of its own. -/
def Field.skippable : Nat → Field → Bool
  | 0, _ => false
  | depth + 1, .group _ fields => fields.all (skippable depth)
  | _ + 1, _ => true

/-- Whether a field has the wire type that its shape asks for. `inner` decides about messages. -/
def FieldShape.admits {σ : Type} (inner : σ → Bytes → Bool) : FieldShape σ → Field → Bool
  | number, .varint _ _ => true
  | numbers, .varint _ _ => true
  | numbers, .bytes _ payload => (packedVarints? payload).isSome
  | double, .fixed64 _ _ => true
  | text, .bytes _ payload => (text? payload).isSome
  | bytes, .bytes _ _ => true
  | message shape, .bytes _ payload => inner shape payload
  | _, _ => false

/-- Whether fields fit a shape where `depth` levels are left. -/
def conforms {σ : Type} (table : ShapeTable σ) : Nat → σ → List Field → Bool
  | 0, shape, fields => fields.all fun f =>
    match table shape f.number with
    | some known => known.admits (fun _ _ => false) f
    | none => false
  | depth + 1, shape, fields => fields.all fun f =>
    match table shape f.number with
    | some known =>
      known.admits (fun shape payload => ((parse payload).map (conforms table depth shape)).getD false) f
    | none => f.skippable (depth + 1)

/-- The fields of an encoded message that fits its shape. -/
def parseShaped? {σ : Type} (table : ShapeTable σ) (shape : σ) (bs : Bytes) : Option (List Field) :=
  (parse bs).filter (conforms table depthLimit shape)

/-! ## Readers -/

/-- The values of a number field, packed or not. -/
def numbers (number : Nat) (fields : List Field) : List UInt64 :=
  fields.flatMap fun
    | .varint n value => if n = number then [value] else []
    | .bytes n payload => if n = number then (packedVarints? payload).getD [] else []
    | _ => []

/-- The value of a number field that may stand there once: the last one. -/
def number? (number : Nat) (fields : List Field) : Option UInt64 :=
  (fields.filterMap fun
    | .varint n value => if n = number then some value else none
    | _ => none).getLast?

def double? (number : Nat) (fields : List Field) : Option UInt64 :=
  (fields.filterMap fun
    | .fixed64 n value => if n = number then some value else none
    | _ => none).getLast?

/-- The payloads of a field, in order. -/
def payloads (number : Nat) (fields : List Field) : List Bytes :=
  fields.filterMap fun
    | .bytes n payload => if n = number then some payload else none
    | _ => none

def texts (number : Nat) (fields : List Field) : List String :=
  (payloads number fields).filterMap text?

def lastText? (number : Nat) (fields : List Field) : Option String := (texts number fields).getLast?

/-- The fields of each message in a field. -/
def messages (number : Nat) (fields : List Field) : List (List Field) :=
  (payloads number fields).filterMap parse

/-- The fields of a message that may stand there once. Several are merged, and the merged message is
what their fields are one after another. -/
def message? (number : Nat) (fields : List Field) : Option (List Field) :=
  match messages number fields with
  | [] => none
  | ms => some ms.flatten

end ProtoModels.Wire
