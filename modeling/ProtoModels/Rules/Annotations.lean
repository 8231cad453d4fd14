import ProtoModels.Descriptor.Encoding
import ProtoModels.Descriptor.Pool.Interpretation
import ProtoModels.Descriptor.Pool.Validity
import ProtoModels.Failure
import ProtoModels.Rules.Encoding
import ProtoModels.Rules.Index
/-!
# Rules in a request

Rules are given as an option of fields, the extension `validate.rules`. A request that declares the
extension must hold a valid pool; the option of every field is then read by the type that the
request itself declares for it, and what comes out is read again as field rules.
-/
namespace ProtoModels

open Descriptor (Pool)

/-- Whether a file declares the extension (`declares_rules`). -/
def declaresRules (f : Descriptor.File) : Bool :=
  f.package == "validate" && f.extensions.any (·.name == "rules")

namespace Descriptor.Pool

/-- The rules of a field as the fields of a message, if the field has rules: what stands in its
options under the number of the extension, if that is a message. `from_pool` asks for it field by
field. -/
def annotation? (p : Pool) (rules x : Sited Field) : Option (List Wire.Field) := do
  let (types, _) ← p.optionType? "FieldOptions"
  let .message _ fields ← p.optionMessage? "FieldOptions" x.decl.options | none
  (← fields.lookup rules.decl.number.toNat).message? types

end Descriptor.Pool

namespace RuleIndex

/-- The rules of the fields of a pool (`from_pool`); none if some of them cannot be read. -/
def ofPool? (p : Pool) : Option RuleIndex :=
  match p.extension? "validate.rules" with
  | none => some {}
  | some rules => do
    let fields := p.files.flatMap fun f => Pool.partsOf f Descriptor.Message.fields
    let entries ← fields.filterMapM fun x =>
      match p.annotation? rules x with
      | none => some none
      | some annotation =>
        (FieldRules.ofFields? annotation).map fun r => some (qualify x.outer x.decl.name, r)
    some ⟨entries⟩

/-- The rules in an encoded request with some files (`from_request_bytes`). The request is read once
more, since only its bytes hold the options. -/
def ofRequest (request : Wire.Bytes) (files : List Descriptor.File) :
    Except PluginError RuleIndex :=
  if files.any declaresRules then
    match Descriptor.Request.encodedFiles? request with
    | none => .error .decode
    | some payloads =>
      match payloads.mapM Descriptor.File.decode? with
      | none => .error .descriptors
      | some files =>
        match (Pool.ofFiles files).interpret?.filter Pool.isValid with
        | none => .error .descriptors
        | some p =>
          match ofPool? p with
          | some index => .ok index
          | none => .error .decode
  else .ok {}

end RuleIndex
end ProtoModels
