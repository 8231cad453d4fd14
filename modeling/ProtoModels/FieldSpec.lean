import ProtoModels.FieldType
import ProtoModels.Literal
/-!
# Field specifications

What stands in the `Field(...)` call of a field: at most one default, then the bounds that its rules
set. Oneof groups and map fields of a message are found here as well, since they follow from the same
declarations.
-/
namespace ProtoModels

/-- One bound of a field's values, as a keyword argument. -/
structure Constraint where
  keyword : String
  value : Literal
deriving DecidableEq, Repr

/-- A keyword argument as it is written. -/
def keywordArgument (keyword value : String) : String := keyword ++ "=" ++ value

/-- The bound as it is written in the call (`directive`). -/
def Constraint.directive (c : Constraint) : String := keywordArgument c.keyword c.value.text

/-- What a field is if it is not given. A field without default must be given. -/
inductive FieldDefault where
  | value (literal : Literal)
  /-- `None`, which makes the type optional. -/
  | absent
  | emptyList
  | emptyDict
  /-- What a function with this name returns. -/
  | factory (name : String)
  /-- An instance without arguments of a type. -/
  | emptyInstance (type : String)
deriving DecidableEq, Repr

/-- The default as it is written in the call (`directive`). -/
def FieldDefault.directive : FieldDefault → String
  | value literal => keywordArgument "default" literal.text
  | absent => keywordArgument "default" "None"
  | emptyList => keywordArgument "default_factory" "list"
  | emptyDict => keywordArgument "default_factory" "dict"
  | factory name => keywordArgument "default_factory" name
  | emptyInstance type => keywordArgument "default_factory" ("lambda: " ++ type ++ "()")

/-- What is said in the call of a field: its default and its bounds, and how its type is written. -/
structure FieldSpec where
  default : Option FieldDefault := none
  constraints : List Constraint := []
  /-- The innermost type is written as `UUID`. -/
  uuid : Bool := false
deriving DecidableEq, Repr

namespace FieldSpec

/-- Whether `None` may be given (`nullable`). -/
def isNullable (s : FieldSpec) : Bool := s.default == some .absent

/-- The arguments of the call, the default in front (`directives`). -/
def directives (s : FieldSpec) : List String :=
  (s.default.map (·.directive)).toList ++ s.constraints.map (·.directive)

end FieldSpec

/-! ## From rules to constraints -/

/-- A bound that is given, as a constraint. -/
def bound {α : Type} (literal : α → Literal) (keyword : String) (value : Option α) :
    List Constraint :=
  (value.map fun v => ⟨keyword, literal v⟩).toList

/-- The bounds that number rules give (`bounds`). -/
def NumberRules.constraints {α : Type} (literal : α → Literal) (r : NumberRules α) :
    List Constraint :=
  bound literal "lt" r.lt ++ bound literal "gt" r.gt ++ bound literal "ge" r.gte ++
    bound literal "le" r.lte

/-- The bounds that length rules give (`lengths`). An exact length is both bounds, and excludes
other ones. -/
def LengthRules.constraints (r : LengthRules) : Except RuleConflict (List Constraint) :=
  match r.len with
  | some len =>
    if r.minLength.isSome || r.maxLength.isSome then .error .exactAndBounded
    else .ok (bound .uint "min_length" (some len) ++ bound .uint "max_length" (some len))
  | none => .ok (bound .uint "min_length" r.minLength ++ bound .uint "max_length" r.maxLength)

/-- The default that message rules give for a field of some type, as in `translate`. -/
def MessageRules.default (r : MessageRules) (type : FieldType) :
    Except RuleConflict (Option FieldDefault) :=
  match r.defaultFactory, r.defaultEmpty == some true with
  | some name, true => .error (.factoryAndEmpty name)
  | some name, false => .ok (some (.factory name))
  | none, true => .ok (some (.emptyInstance (type.expression false)))
  | none, false => .ok none

/-- What rules alone say about a field of some type: the cases of `translate`. -/
def FieldRules.spec (type : FieldType) : FieldRules → Except RuleConflict FieldSpec
  | unset => .ok {}
  | float r =>
    .ok { default := r.default.map (.value <| .float ·), constraints := r.constraints .float }
  | int r => .ok { default := r.default.map (.value <| .int ·), constraints := r.constraints .int }
  | string r => r.lengths.constraints.map fun constraints =>
    { default := r.default.map (.value <| .str ·), constraints, uuid := r.uuid == some true }
  | message r => (r.default type).map fun default => { default }
  | repeated lengths => lengths.constraints.map fun constraints => { constraints }
  | repeatedOf lengths items => lengths.constraints.map fun constraints =>
    { constraints, uuid := items.isUuid }

namespace Field

/-- The default of a field whose rules give none (`implied_default`). -/
def impliedDefault (f : Field) (type : FieldType) : Option FieldDefault :=
  if f.optionalKeyword || f.inOneofGroup then some .absent
  else if type.isList then some .emptyList
  else if type.isMap then some .emptyDict
  else none

/-- The specification of a field of some type (`translate`). -/
def spec (f : Field) (type : FieldType) : Except CompileError FieldSpec :=
  match (f.rules.getD .unset).spec type with
  | .ok spec => .ok { spec with default := spec.default.or (f.impliedDefault type) }
  | .error conflict => .error (.conflictingRules f.fullName conflict)

end Field

/-! ## Oneofs and maps of a message -/

/-- A oneof of which exactly one member must be given. -/
structure OneofGroup where
  name : String
  members : List String
deriving DecidableEq, Repr

namespace Message

/-- The members of the oneof at a position. -/
def oneofMembers (m : Message) (index : Nat) : List Field :=
  m.fields.filter fun f => f.oneof == some index && !f.optionalKeyword

/-- The oneofs with at least two members (`oneof_groups`). Fields with the keyword `optional` are no
members. -/
def oneofGroups (m : Message) : List OneofGroup :=
  (m.oneofs.mapIdx fun i name => OneofGroup.mk name ((m.oneofMembers i).map (·.name))).filter
    (2 ≤ ·.members.length)

end Message

/-- The names of a message's map fields (`map_fields`). -/
def Schema.mapFields (s : Schema) (m : Message) : List String :=
  (m.fields.filter s.isMap).map (·.name)

end ProtoModels
