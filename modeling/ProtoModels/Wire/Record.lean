import ProtoModels.Wire.Varint
/-!
# Wire records

An encoded message is a sequence of numbered fields. The bytes say of which of six wire types each
field is and where it ends, but not what it means. `parse` splits bytes into fields, `print` writes
them. `parseAs` also splits messages of which some fields end where their meaning says and not their
wire type.
-/
namespace ProtoModels.Wire

/-- A field as it stands in encoded bytes: its number, and its value by wire type. -/
inductive Field where
  | varint (number : Nat) (value : UInt64)
  | fixed64 (number : Nat) (value : UInt64)
  | bytes (number : Nat) (payload : Bytes)
  | group (number : Nat) (fields : List Field)
  | fixed32 (number : Nat) (value : UInt32)
deriving Inhabited

def Field.number : Field → Nat
  | varint n _ | fixed64 n _ | bytes n _ | group n _ | fixed32 n _ => n

/-! ## Reading -/

/-- What stands next in the bytes: a whole field, or the start or the end of a group. -/
inductive Token where
  | field (f : Field)
  | opening (number : Nat)
  | closing (number : Nat)

/-- The number of `n` bytes, least significant byte first. -/
def littleEndian : Bytes → Nat
  | [] => 0
  | b :: rest => b.toNat + 256 * littleEndian rest

/-- Splits off the first `n` bytes, if there are as many. -/
def splitBytes (n : Nat) (bs : Bytes) : Option (Bytes × Bytes) :=
  if n ≤ bs.length then some (bs.take n, bs.drop n) else none

/-- The number and the wire type of a field: a key below `2 ^ 32` whose number is not zero. -/
def readKey (bs : Bytes) : Option (Nat × Nat × Bytes) := do
  let (key, rest) ← readVarint bs
  let key := key.toNat
  if key < 0x100000000 ∧ key / 8 ≠ 0 then some (key / 8, key % 8, rest) else none

/-- What the key of a field does not say. A field with some number in a message of some shape is
framed by both. -/
structure Framing (σ : Type) where
  /-- The field holds a payload, whichever wire type its key names. -/
  delimited : Bool
  /-- The shape of the message in a group. -/
  inside : σ

/-- The wire type by which a value is read. In a group, the key that closes the group stays one. -/
def Framing.wireType {σ : Type} (frame : Framing σ) (inGroup : Bool) (named : Nat) : Nat :=
  if frame.delimited && named < 6 && !(inGroup && named == 4) then 2 else named

/-- Reads what stands next. The wire type comes from the number and what the key names. -/
def readToken (wireType : Nat → Nat → Nat) (bs : Bytes) : Option (Token × Bytes) := do
  let (number, named, rest) ← readKey bs
  match wireType number named with
  | 0 => do
    let (value, rest) ← readVarint rest
    some (.field (.varint number value), rest)
  | 1 => do
    let (payload, rest) ← splitBytes 8 rest
    some (.field (.fixed64 number (UInt64.ofNat (littleEndian payload))), rest)
  | 2 => do
    let (length, rest) ← readVarint rest
    let (payload, rest) ← splitBytes length.toNat rest
    some (.field (.bytes number payload), rest)
  | 3 => some (.opening number, rest)
  | 4 => some (.closing number, rest)
  | 5 => do
    let (payload, rest) ← splitBytes 4 rest
    some (.field (.fixed32 number (UInt32.ofNat (littleEndian payload))), rest)
  | _ => none

/-- A group that is open: its number, the shape of the message around it, and the fields of that
message in front of it, latest first. -/
structure OpenGroup (σ : Type) where
  number : Nat
  around : σ
  before : List Field

/-- Reads the fields of a message of a shape, up to the end of the bytes. `outer` holds the open
groups, innermost first, and `done` the fields of the innermost one, latest first. `fuel` bounds the
number of tokens. -/
def parseFields {σ : Type} (framing : σ → Nat → Framing σ) :
    Nat → List (OpenGroup σ) → σ → List Field → Bytes → Option (List Field)
  | _, [], _, done, [] => some done.reverse
  | _, _ :: _, _, _, [] => none
  | 0, _, _, _, _ :: _ => none
  | fuel + 1, outer, shape, done, b :: bs =>
    match readToken (fun n => (framing shape n).wireType !outer.isEmpty) (b :: bs) with
    | none => none
    | some (.field f, rest) => parseFields framing fuel outer shape (f :: done) rest
    | some (.opening number, rest) =>
      parseFields framing fuel (⟨number, shape, done⟩ :: outer) (framing shape number).inside [] rest
    | some (.closing number, rest) =>
      match outer with
      | [] => none
      | opened :: outer =>
        if opened.number = number then
          parseFields framing fuel outer opened.around (.group number done.reverse :: opened.before)
            rest
        else none

/-- The fields of an encoded message of a shape. A token has at least one byte, so there are at most
as many tokens as bytes. -/
def parseAs {σ : Type} (framing : σ → Nat → Framing σ) (shape : σ) (bs : Bytes) :
    Option (List Field) :=
  parseFields framing bs.length [] shape [] bs

/-- The fields of an encoded message by what the keys say. -/
def parse (bs : Bytes) : Option (List Field) := parseAs (fun _ _ => ⟨false, ()⟩) () bs

/-! ## Writing -/

/-- The lowest `n` bytes of a number, least significant first. -/
def toLittleEndian : Nat → Nat → Bytes
  | 0, _ => []
  | n + 1, v => UInt8.ofNat (v % 256) :: toLittleEndian n (v / 256)

def printKey (number wireType : Nat) : Bytes :=
  encodeVarint (UInt64.ofNat (8 * number + wireType))

/-- The bytes behind some open groups, whose numbers are given innermost first. `fuel` bounds the
number of tokens. -/
def closeGroups : Nat → List Nat → Bytes → Option Bytes
  | _, [], bs => some bs
  | 0, _ :: _, _ => none
  | fuel + 1, opened :: outer, bs =>
    match readToken (fun _ named => named) bs with
    | none => none
    | some (.field _, rest) => closeGroups fuel (opened :: outer) rest
    | some (.opening number, rest) => closeGroups fuel (number :: opened :: outer) rest
    | some (.closing number, rest) => if number = opened then closeGroups fuel outer rest else none

/-- The bytes behind the first field. -/
def skipField (bs : Bytes) : Option Bytes :=
  match readToken (fun _ named => named) bs with
  | some (.field _, rest) => some rest
  | some (.opening number, rest) => closeGroups rest.length [number] rest
  | _ => none

/-- Encoded fields with their keys in the shortest form; what stands behind a key is kept as it is.
`fuel` bounds the number of fields. -/
def shortenKeysWith : Nat → Bytes → Option Bytes
  | _, [] => some []
  | 0, _ :: _ => none
  | fuel + 1, b :: bs => do
    let (number, wireType, value) ← readKey (b :: bs)
    let rest ← skipField (b :: bs)
    let shortened ← shortenKeysWith fuel rest
    some (printKey number wireType ++ value.take (value.length - rest.length) ++ shortened)

/-- An encoded message with the keys of its fields in the shortest form. -/
def shortenKeys (bs : Bytes) : Option Bytes := shortenKeysWith bs.length bs

mutual
/-- A field as it stands in encoded bytes. -/
def Field.print : Field → Bytes
  | .varint number value => printKey number 0 ++ encodeVarint value
  | .fixed64 number value => printKey number 1 ++ toLittleEndian 8 value.toNat
  | .bytes number payload =>
    printKey number 2 ++ encodeVarint (UInt64.ofNat payload.length) ++ payload
  | .group number fields => printKey number 3 ++ print fields ++ printKey number 4
  | .fixed32 number value => printKey number 5 ++ toLittleEndian 4 value.toNat

/-- The encoding of some fields. -/
def print : List Field → Bytes
  | [] => []
  | f :: fs => f.print ++ print fs
end

/-! ## Text -/

/-- The text that bytes encode in UTF-8, if they encode one. -/
def text? (bs : Bytes) : Option String := String.fromUTF8? ⟨bs.toArray⟩

/-- The UTF-8 encoding of a text. -/
def utf8 (s : String) : Bytes := s.toByteArray.data.toList

theorem text?_utf8 (s : String) : text? (utf8 s) = some s := by
  simp only [text?, utf8, String.fromUTF8?, Array.toArray_toList]
  exact dif_pos s.isValidUTF8

/-- A field that holds a text. -/
def Field.text (number : Nat) (s : String) : Field := .bytes number (utf8 s)

example : (parse [0x08, 0x96, 0x01, 0x12, 0x01, 0x61]).map print =
    some [0x08, 0x96, 0x01, 0x12, 0x01, 0x61] := by decide +kernel
example : (parse [0x0b, 0x10, 0x01, 0x0c]).isSome = true ∧ (parse [0x0b, 0x10, 0x01]).isNone = true ∧
    (parse [0x0b, 0x14]).isNone = true ∧ (parse [0x0c]).isNone = true := by decide +kernel
example : shortenKeys [0x88, 0x00, 0x81, 0x00, 0x13, 0x88, 0x00, 0x01, 0x14] =
    some [0x08, 0x81, 0x00, 0x13, 0x88, 0x00, 0x01, 0x14] := by decide +kernel
example : (parseAs (fun _ n => ⟨n == 1, ()⟩) () [0x09, 0x01, 0x61, 0x10, 0x01]).map print =
    some [0x0a, 0x01, 0x61, 0x10, 0x01] := by decide +kernel

end ProtoModels.Wire
