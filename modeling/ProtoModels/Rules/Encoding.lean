import ProtoModels.Rules.Basic
import ProtoModels.Wire.Shape
/-!
# Encoded field rules

The wire form of field rules: one member per family, each a message of its own, whose fields are the
rules that are given. `FieldRules.encode` writes the fields in the order of their numbers;
`FieldRules.decode?` reads any order, takes the last of several values, and of several families the
last one.
-/
namespace ProtoModels

open Wire (FieldShape ShapeTable)

/-- The messages that field rules consist of. -/
inductive RulesShape where
  | rules | float | int | string | message | repeated
deriving DecidableEq

def rulesShapes : ShapeTable RulesShape
  | .rules, 1 => some (.message .float)
  | .rules, 3 => some (.message .int)
  | .rules, 14 => some (.message .string)
  | .rules, 17 => some (.message .message)
  | .rules, 18 => some (.message .repeated)
  | .float, 1 | .float, 2 | .float, 3 | .float, 4 | .float, 5 => some .double
  | .int, 1 | .int, 2 | .int, 3 | .int, 4 | .int, 5 => some .number
  | .string, 1 => some .text
  | .string, 2 | .string, 3 | .string, 4 | .string, 5 => some .number
  | .message, 1 => some .text
  | .message, 2 => some .number
  | .repeated, 1 | .repeated, 2 | .repeated, 3 => some .number
  | .repeated, 4 => some (.message .rules)
  | _, _ => none

/-! ## Reading -/

namespace FieldRules

abbrev Fields := List Wire.Field

def readFloat (fs : Fields) : NumberRules Binary64 where
  default := (Wire.double? 1 fs).map Binary64.mk
  lt := (Wire.double? 2 fs).map Binary64.mk
  lte := (Wire.double? 3 fs).map Binary64.mk
  gt := (Wire.double? 4 fs).map Binary64.mk
  gte := (Wire.double? 5 fs).map Binary64.mk

def readInt (fs : Fields) : NumberRules Int64 where
  default := (Wire.number? 1 fs).map Wire.toInt64
  lt := (Wire.number? 2 fs).map Wire.toInt64
  lte := (Wire.number? 3 fs).map Wire.toInt64
  gt := (Wire.number? 4 fs).map Wire.toInt64
  gte := (Wire.number? 5 fs).map Wire.toInt64

def readFlag (number : Nat) (fs : Fields) : Option Bool := (Wire.number? number fs).map (· != 0)

def readString (fs : Fields) : StringRules where
  default := Wire.lastText? 1 fs
  lengths := ⟨Wire.number? 2 fs, Wire.number? 3 fs, Wire.number? 4 fs⟩
  uuid := readFlag 5 fs

def readMessage (fs : Fields) : MessageRules where
  defaultFactory := Wire.lastText? 1 fs
  defaultEmpty := readFlag 2 fs

def readLengths (fs : Fields) : LengthRules :=
  ⟨Wire.number? 1 fs, Wire.number? 2 fs, Wire.number? 3 fs⟩

/-- The numbers of the families. -/
def families : List Nat := [1, 3, 14, 17, 18]

/-- One more field of a rules message: a family replaces another one and is merged with itself. -/
def selectFamily (chosen : Option (Nat × Fields)) : Wire.Field → Option (Nat × Fields)
  | .bytes n payload =>
    if n ∈ families then
      let fields := (Wire.parse payload).getD []
      match chosen with
      | some (m, before) => if m = n then some (n, before ++ fields) else some (n, fields)
      | none => some (n, fields)
    else chosen
  | _ => chosen

/-- The rules in some fields, with at most `depth` levels of rules for items. -/
def read : Nat → Fields → FieldRules
  | 0, _ => unset
  | depth + 1, fs =>
    match fs.foldl selectFamily none with
    | some (1, inner) => float (readFloat inner)
    | some (3, inner) => int (readInt inner)
    | some (14, inner) => string (readString inner)
    | some (17, inner) => message (readMessage inner)
    | some (18, inner) =>
      match Wire.message? 4 inner with
      | some items => repeatedOf (readLengths inner) (read depth items)
      | none => repeated (readLengths inner)
    | _ => unset

/-- The rules that are given by some fields, if these fit. -/
def ofFields? (fs : Fields) : Option FieldRules :=
  if Wire.conforms rulesShapes Wire.depthLimit .rules fs then some (read Wire.depthLimit fs)
  else none

def decode? (bs : Wire.Bytes) : Option FieldRules := (Wire.parse bs).bind ofFields?

/-! ## Writing -/

def optional {α : Type} (field : α → Wire.Field) (value : Option α) : Fields :=
  (value.map field).toList

def flagField (number : Nat) (value : Bool) : Wire.Field :=
  .varint number (if value then 1 else 0)

def floatFields (r : NumberRules Binary64) : Fields :=
  optional (.fixed64 1 ·.bits) r.default ++ optional (.fixed64 2 ·.bits) r.lt ++
    optional (.fixed64 3 ·.bits) r.lte ++ optional (.fixed64 4 ·.bits) r.gt ++
    optional (.fixed64 5 ·.bits) r.gte

def intFields (r : NumberRules Int64) : Fields :=
  optional (.varint 1 ·.toUInt64) r.default ++ optional (.varint 2 ·.toUInt64) r.lt ++
    optional (.varint 3 ·.toUInt64) r.lte ++ optional (.varint 4 ·.toUInt64) r.gt ++
    optional (.varint 5 ·.toUInt64) r.gte

/-- The three length rules from some field number on. -/
def lengthFields (first : Nat) (r : LengthRules) : Fields :=
  optional (.varint first ·) r.len ++ optional (.varint (first + 1) ·) r.minLength ++
    optional (.varint (first + 2) ·) r.maxLength

def stringFields (r : StringRules) : Fields :=
  optional (Wire.Field.text 1) r.default ++ lengthFields 2 r.lengths ++ optional (flagField 5) r.uuid

def messageFields (r : MessageRules) : Fields :=
  optional (Wire.Field.text 1) r.defaultFactory ++ optional (flagField 2) r.defaultEmpty

/-- The fields of a rules message. -/
def fields : FieldRules → Fields
  | unset => []
  | float r => [.bytes 1 (Wire.print (floatFields r))]
  | int r => [.bytes 3 (Wire.print (intFields r))]
  | string r => [.bytes 14 (Wire.print (stringFields r))]
  | message r => [.bytes 17 (Wire.print (messageFields r))]
  | repeated lengths => [.bytes 18 (Wire.print (lengthFields 1 lengths))]
  | repeatedOf lengths items =>
    [.bytes 18 (Wire.print (lengthFields 1 lengths ++ [.bytes 4 (Wire.print items.fields)]))]

def encode (r : FieldRules) : Wire.Bytes := Wire.print r.fields

example : decode? (encode (.repeatedOf ⟨some 0, none, some 300⟩ (.string ⟨some "é", {}, some false⟩))) =
    some (.repeatedOf ⟨some 0, none, some 300⟩ (.string ⟨some "é", {}, some false⟩)) := by
  decide +kernel
example : decode? [0x0a, 0x00, 0x1a, 0x02, 0x20, 0x03, 0x1a, 0x02, 0x28, 0x01] =
    some (.int { gt := some 3, gte := some 1 }) := by decide +kernel

end FieldRules
end ProtoModels
