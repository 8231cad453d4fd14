import ProtoModels.Decimal.Nearest
import ProtoModels.Descriptor.Pool.Resolve
/-!
# Scalar values

Values without parts: integers, floating point numbers, bytes. The encoding holds numbers as words; a
kind says which word stands for which number, and which wire type holds the word.
-/
namespace ProtoModels.Descriptor.Pool

/-- A value without parts. Truth values and values of enums are integers, a text is its bytes, and a
floating point number is its bit pattern. -/
inductive Scalar where
  | integer (n : Int)
  | real (bits : UInt64)
  | bytes (payload : Wire.Bytes)
deriving DecidableEq

def Scalar.ofBool (b : Bool) : Scalar := .integer (if b then 1 else 0)

/-- The integers of a kind, from the first up to but not including the second. -/
def integerRange? : FieldKind → Option (Int × Int)
  | .int32 | .sint32 | .sfixed32 => some (-0x80000000, 0x80000000)
  | .int64 | .sint64 | .sfixed64 => some (-0x8000000000000000, 0x8000000000000000)
  | .uint32 | .fixed32 => some (0, 0x100000000)
  | .uint64 | .fixed64 => some (0, 0x10000000000000000)
  | _ => none

/-- An integer as a value of a kind, if the kind has it. -/
def integerOf? (kind : FieldKind) (n : Int) : Option Scalar :=
  (integerRange? kind).bind fun (low, stop) =>
    if low ≤ n ∧ n < stop then some (.integer n) else none

/-- The format of a kind of floating point numbers. -/
def binaryFormat? : FieldKind → Option BinaryFormat
  | .double => some .double
  | .float => some .single
  | _ => none

/-! ## Types -/

/-- The kind of values that are no messages. The values of an enum are numbers. -/
def ValueType.kind : ValueType → FieldKind
  | scalar kind => kind
  | enum _ => .enum
  | message _ _ => .message

/-- The kinds whose repeated values can be packed. -/
def ValueType.isPackable : ValueType → Bool
  | scalar .string | scalar .bytes | message _ _ => false
  | _ => true

/-- The kinds of the keys of maps. -/
def isKeyKind : FieldKind → Bool
  | .bool | .string => true
  | kind => (integerRange? kind).isSome

/-- The value of an enum with a name. -/
def enumValue? (e : Sited Enum) (name : String) : Option Scalar :=
  (e.decl.values.find? (·.name == name)).map (.integer ·.number)

/-- What the absence of a value means: zero, nothing, or the first value of an enum. -/
def ValueType.zero : ValueType → Scalar
  | scalar .string | scalar .bytes | message _ _ => .bytes []
  | scalar .double | scalar .float => .real 0
  | scalar _ => .integer 0
  | enum e => .integer ((e.decl.values.head?.map (·.number)).getD 0)

/-- Whether two values of a type are the same. -/
def ValueType.same (type : ValueType) (a b : Scalar) : Bool :=
  match binaryFormat? type.kind, a, b with
  | some format, .real a, .real b => format.same a.toNat b.toNat
  | _, a, b => a == b

/-! ## Words -/

/-- An integer as a word of 64 bits. -/
def wordOfInt (n : Int) : UInt64 := UInt64.ofNat (n % 0x10000000000000000).toNat

/-- An integer as a natural number that is small if the integer is near to zero. -/
def zigzag (n : Int) : Int := if n < 0 then -2 * n - 1 else 2 * n

/-- The integer that `zigzag` makes a number from. -/
def unzigzag (n : Nat) : Int := if n % 2 = 0 then n / 2 else -((n : Int) + 1) / 2

/-- The value that a word stands for. Kinds of 32 bits lose what is above. -/
def Scalar.ofWord (kind : FieldKind) (v : UInt64) : Scalar :=
  let low := v.toNat % 0x100000000
  match kind with
  | .double | .float => .real v
  | .bool => .ofBool (v != 0)
  | .int32 | .sfixed32 | .enum => .integer (Wire.toInt32 v)
  | .uint32 | .fixed32 => .integer low
  | .sint32 => .integer (unzigzag low)
  | .int64 | .sfixed64 => .integer (Wire.toInt64 v).toInt
  | .sint64 => .integer (unzigzag v.toNat)
  | _ => .integer v.toNat

/-- The word for a value. -/
def Scalar.toWord (kind : FieldKind) : Scalar → UInt64
  | integer n => wordOfInt (if kind = .sint32 ∨ kind = .sint64 then zigzag n else n)
  | real bits => bits
  | bytes _ => 0

/-! ## Encoding -/

/-- How the encoding holds a value. -/
inductive Carrier where
  | varint
  | fixed64
  | fixed32
  | text
  | bytes

def carrier : FieldKind → Carrier
  | .double | .fixed64 | .sfixed64 => .fixed64
  | .float | .fixed32 | .sfixed32 => .fixed32
  | .string => .text
  | .bytes => .bytes
  | _ => .varint

namespace Carrier

/-- A payload in pieces of `n` bytes, as words. -/
def pieces? (n : Nat) : Nat → Wire.Bytes → Option (List UInt64)
  | _, [] => some []
  | 0, _ :: _ => none
  | fuel + 1, bs => do
    let (piece, rest) ← Wire.splitBytes n bs
    let more ← pieces? n fuel rest
    some (UInt64.ofNat (Wire.littleEndian piece) :: more)

/-- The words in a packed payload. -/
def unpack? (payload : Wire.Bytes) : Carrier → Option (List UInt64)
  | varint => Wire.packedVarints? payload
  | fixed64 => pieces? 8 payload.length payload
  | fixed32 => pieces? 4 payload.length payload
  | text | bytes => none

/-- A word inside of a packed payload. -/
def pack (v : UInt64) : Carrier → Wire.Bytes
  | fixed64 => Wire.toLittleEndian 8 v.toNat
  | fixed32 => Wire.toLittleEndian 4 v.toNat
  | _ => Wire.encodeVarint v

end Carrier

namespace Scalar

/-- The values of a kind in a field as it is encoded: one, or any number of packed ones where these
are allowed. -/
def read? (kind : FieldKind) (packable : Bool) (f : Wire.Field) : Option (List Scalar) :=
  match carrier kind, f with
  | .varint, .varint _ v | .fixed64, .fixed64 _ v => some [ofWord kind v]
  | .fixed32, .fixed32 _ v => some [ofWord kind (UInt64.ofNat v.toNat)]
  | .text, .bytes _ payload => if (Wire.text? payload).isSome then some [bytes payload] else none
  | .bytes, .bytes _ payload => some [bytes payload]
  | c, .bytes _ payload =>
    if packable then (c.unpack? payload).map (·.map (ofWord kind)) else none
  | _, _ => none

/-- The field that holds a value of a kind. -/
def field (kind : FieldKind) (number : Nat) : Scalar → Wire.Field
  | bytes payload => .bytes number payload
  | s =>
    let v := s.toWord kind
    match carrier kind with
    | .fixed64 => .fixed64 number v
    | .fixed32 => .fixed32 number (UInt32.ofNat v.toNat)
    | _ => .varint number v

/-- A value of a kind inside of a packed payload. -/
def packed (kind : FieldKind) (s : Scalar) : Wire.Bytes := (carrier kind).pack (s.toWord kind)

end Scalar

end ProtoModels.Descriptor.Pool
