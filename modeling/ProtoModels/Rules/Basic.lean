import ProtoModels.Decimal.Binary64
/-!
# Field rules

What the author of a schema demands of a field's values, and the default that stands for a missing
value. A rule that is not given demands nothing; a rule that is given as zero or as an empty text is
given.
-/
namespace ProtoModels

/-- Rules for numbers. -/
structure NumberRules (α : Type) where
  default : Option α := none
  lt : Option α := none
  lte : Option α := none
  gt : Option α := none
  gte : Option α := none
deriving DecidableEq, Repr

/-- Rules for the length of a text or a list. -/
structure LengthRules where
  len : Option UInt64 := none
  minLength : Option UInt64 := none
  maxLength : Option UInt64 := none
deriving DecidableEq, Repr

structure StringRules where
  default : Option String := none
  lengths : LengthRules := {}
  uuid : Option Bool := none
deriving DecidableEq, Repr

structure MessageRules where
  /-- The name of a function that makes the default. -/
  defaultFactory : Option String := none
  /-- The default is an empty instance of the field's type. -/
  defaultEmpty : Option Bool := none
deriving DecidableEq, Repr

/-- The rules of one field, by the family of its type. Rules for lists may hold rules for their
items. -/
inductive FieldRules where
  | unset
  | float (rules : NumberRules Binary64)
  | int (rules : NumberRules Int64)
  | string (rules : StringRules)
  | message (rules : MessageRules)
  | repeated (lengths : LengthRules)
  | repeatedOf (lengths : LengthRules) (items : FieldRules)
deriving DecidableEq, Repr

/-- Whether these are rules for texts that are UUIDs, as `items_are_uuid` asks of the items of a
list. -/
def FieldRules.isUuid : FieldRules → Bool
  | string rules => rules.uuid == some true
  | _ => false

end ProtoModels
