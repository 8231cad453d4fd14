/-!
# Kinds of fields

The kinds of values that a field may be declared with, by the numbers that stand for them, and how
often a field occurs.
-/
namespace ProtoModels

/-- The declared kind of a field. -/
inductive FieldKind where
  | double | float | int64 | uint64 | int32 | fixed64 | fixed32 | bool | string | group | message
  | bytes | uint32 | enum | sfixed32 | sfixed64 | sint32 | sint64
  | unknown (number : Int)
deriving DecidableEq, Repr

namespace FieldKind

/-- The kind with a number; a number that stands for none is kept (`from_raw`). -/
def ofNumber : Int → FieldKind
  | 1 => double
  | 2 => float
  | 3 => int64
  | 4 => uint64
  | 5 => int32
  | 6 => fixed64
  | 7 => fixed32
  | 8 => bool
  | 9 => string
  | 10 => group
  | 11 => message
  | 12 => bytes
  | 13 => uint32
  | 14 => enum
  | 15 => sfixed32
  | 16 => sfixed64
  | 17 => sint32
  | 18 => sint64
  | n => unknown n

/-- The number that stands for a kind (`raw`). -/
def number : FieldKind → Int
  | double => 1
  | float => 2
  | int64 => 3
  | uint64 => 4
  | int32 => 5
  | fixed64 => 6
  | fixed32 => 7
  | bool => 8
  | string => 9
  | group => 10
  | message => 11
  | bytes => 12
  | uint32 => 13
  | enum => 14
  | sfixed32 => 15
  | sfixed64 => 16
  | sint32 => 17
  | sint64 => 18
  | unknown n => n

/-- Kinds whose fields refer to a declared type (`is_reference`). -/
def isReference : FieldKind → Bool
  | message | enum | group => true
  | _ => false

theorem isReference_iff {k : FieldKind} : k.isReference = true ↔ k ∈ [message, enum, group] := by
  cases k <;> simp [isReference]

end FieldKind

/-- How often a field occurs. -/
inductive Label where
  | optional
  | required
  | repeated
deriving DecidableEq, Repr

/-- The label with a number (`from_raw`). What is neither required nor repeated is optional. -/
def Label.ofNumber : Option Int → Label
  | some 2 => required
  | some 3 => repeated
  | _ => optional

end ProtoModels
