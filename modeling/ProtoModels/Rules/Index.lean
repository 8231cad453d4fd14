import ProtoModels.Rules.Basic
/-!
# Rule indexes

The rules of all fields of a schema, by the fields' full names.
-/
namespace ProtoModels

/-- Field rules by full name, without a leading dot. Of several entries of a name the last counts. -/
structure RuleIndex where
  entries : List (String × FieldRules) := []
deriving Repr

namespace RuleIndex

/-- The rules of the field with a full name (`get`). -/
def get? (index : RuleIndex) (field : String) : Option FieldRules :=
  (index.entries.findRev? (·.1 == field)).map (·.2)

def isEmpty (index : RuleIndex) : Bool := index.entries.isEmpty

@[simp] theorem get?_empty (field : String) : get? {} field = none := rfl

end RuleIndex
end ProtoModels
