import ProtoModels.ClassTree
import ProtoModels.FieldSpec
import ProtoModels.Settings
import ProtoModels.Source.Line
/-!
# Module text

The source of one generated module: the imports, then every class of a class tree with its inner
classes in front of its fields. What a class consists of is a block of lines of its own, and
`ModuleText.step` puts the blocks at their depths and separates the classes.
-/
namespace ProtoModels

open Source (Line Writer)

/-- A text between double quotes as it stands, as the names of a schema are. -/
def inQuotes (name : String) : String := "\"" ++ name ++ "\""

def commaSeparated (items : List String) : String := ", ".intercalate items

/-! ## The head of a module -/

/-- The first and the third line of a module (`BANNER`). -/
def banner : String := String.ofList (List.replicate 68 '#')

/-- What is imported from `pydantic` besides the base class (`PYDANTIC_HELPERS`). -/
def pydanticHelpers : String := "Field, field_serializer, model_validator, SerializationInfo"

/-- Where the base class comes from, and the helpers. -/
def Settings.pydanticImports (settings : Settings) : List Line :=
  match settings.basePath with
  | some base =>
    [⟨0, "from " ++ base ++ " import BaseModel"⟩, ⟨0, "from pydantic import " ++ pydanticHelpers⟩]
  | none => [⟨0, "from pydantic import BaseModel, " ++ pydanticHelpers⟩]

/-- The lines that every module starts with (`write_module_header`). -/
def Settings.moduleHead (settings : Settings) : List Line :=
  [⟨0, banner⟩,
   ⟨0, "### This is an automatically generated file.        DO NOT EDIT  ###"⟩,
   ⟨0, banner⟩, .blank,
   ⟨0, "from __future__ import annotations"⟩, .blank,
   ⟨0, "import datetime"⟩, ⟨0, "import json"⟩, .blank,
   ⟨0, "from enum import StrEnum"⟩] ++
  settings.pydanticImports ++
  [⟨0, "from typing import Any, Optional, Self"⟩, ⟨0, "from uuid import UUID"⟩]

/-! ## Enums -/

def commentLines (comment : Option String) : List Line := (comment.map Line.ofComment).getD []

/-- A member of an enum behind its comment: one round of `enum_body`. -/
def EnumValue.block (v : EnumValue) : List Line :=
  commentLines v.comment ++ [⟨0, v.name ++ " = " ++ inQuotes v.name⟩]

/-- The members of an enum (`enum_body`). -/
def Enum.body (e : Enum) : List Line :=
  if e.values.isEmpty then [⟨0, "pass"⟩] else e.values.flatMap EnumValue.block

/-! ## Messages -/

/-- The line of a field in `message_body`: its name, its type, and what is said about its values. -/
def fieldLine (name : String) (type : FieldType) (spec : FieldSpec) : Line :=
  let expression := type.expression spec.uuid
  let declared := if spec.isNullable then "Optional[" ++ expression ++ "]" else expression
  ⟨0, name ++ ": " ++ declared ++ " = Field(" ++ commaSeparated spec.directives ++ ")"⟩

/-- The serializer of the map fields with some names, as `message_body` writes it: in the given
context maps become JSON text. -/
def serializerBlock (serializeContext : String) : List String → List Line
  | [] => []
  | names =>
    [.blank,
     ⟨0, "@field_serializer(" ++ commaSeparated (names.map inQuotes) ++ ")"⟩,
     ⟨0, "def json_dump(self, v: dict, info: SerializationInfo):"⟩,
     ⟨1, "if info.context == '" ++ serializeContext ++ "':"⟩,
     ⟨2, "return json.dumps(v)"⟩,
     ⟨1, "return v"⟩]

/-- The check that exactly one member of a oneof is given: one round of the validator in
`message_body`. -/
def OneofGroup.check (g : OneofGroup) : List Line :=
  [⟨1, "if sum(v is not None for v in (" ++ commaSeparated (g.members.map ("self." ++ ·)) ++
      ",)) != 1:"⟩,
   ⟨2, "raise ValueError(\"oneof " ++ g.name ++ ": exactly one of " ++ commaSeparated g.members ++
      " must be set\")"⟩]

/-- The validator of the oneofs of a message, as `message_body` writes it. -/
def validatorBlock : List OneofGroup → List Line
  | [] => []
  | groups =>
    [.blank,
     ⟨0, "@model_validator(mode=\"after\")"⟩,
     ⟨0, "def validate_one_ofs(self) -> Self:"⟩] ++
    groups.flatMap OneofGroup.check ++ [⟨1, "return self"⟩]

/-- What a `Renderer` is given to write classes by: the schema, where its classes stand, and the
settings. -/
structure ModuleContext where
  schema : Schema
  names : ClassNames
  settings : Settings

namespace ModuleContext

/-- The type and the specification of a field, `map_field` in front of `translate`. -/
def typeAndSpec (c : ModuleContext) (f : Field) : Except CompileError (FieldType × FieldSpec) := do
  let type ← c.schema.fieldType c.names f
  let spec ← f.spec type
  return (type, spec)

/-- The line of a field behind its comment: one round of `message_body`. -/
def fieldBlock (c : ModuleContext) (f : Field) : Except CompileError (List Line) :=
  (c.typeAndSpec f).map fun (type, spec) => commentLines f.comment ++ [fieldLine f.name type spec]

/-- The fields of a class, its serializer and its validator (`message_body`). `nested` tells that
inner classes stand in front of them; a class of nothing but inner classes needs no body. -/
def messageBody (c : ModuleContext) (m : Message) (nested : Bool) :
    Except CompileError (List Line) :=
  if m.fields.isEmpty then .ok (if nested then [] else [⟨0, "pass"⟩])
  else
    (m.fields.mapM c.fieldBlock).map fun blocks =>
      (if nested then [.blank] else []) ++ blocks.flatten ++
        serializerBlock c.settings.serializeContext (c.schema.mapFields m) ++
        validatorBlock m.oneofGroups

end ModuleContext

/-! ## Classes -/

/-- The lines that open a class (`message_header`, `enum_header`). -/
def ClassNode.opening (n : ClassNode TypeDecl) : List Line :=
  match n.decl with
  | some (.message m) => commentLines m.comment ++ [⟨0, "class " ++ n.name ++ "(BaseModel):"⟩]
  | some (.enum e) => commentLines e.comment ++ [⟨0, "class " ++ n.name ++ "(StrEnum):"⟩]
  | none => [⟨0, "class " ++ n.name ++ ":"⟩]

/-- The lines behind the inner classes of a class: `message_body`, `enum_body`, or what keeps a
scope from being empty. -/
def ClassNode.closing (c : ModuleContext) (n : ClassNode TypeDecl) :
    Except CompileError (List Line) :=
  let nested := !n.children.isEmpty
  match n.decl with
  | some (.message m) => c.messageBody m nested
  | some (.enum e) => .ok e.body
  | none => .ok (if nested then [] else [⟨0, "pass"⟩])

/-- The text of a module as far as it is written (`Renderer`). `opened` tells that nothing has been
written since a class was opened (`fresh_scope`). -/
structure ModuleText where
  writer : Writer
  opened : Bool := false

namespace ModuleText

/-- The blank lines in front of a class (`separate`): two between classes of the module, one between
inner classes, none in front of the first inner class. -/
def separation (opened : Bool) (depth : Nat) : List Line :=
  if depth = 0 then [.blank, .blank] else if opened then [] else [.blank]

/-- Writes the opening or the closing of a class (`header`, `body`). -/
def step (c : ModuleContext) (m : ModuleText) :
    ClassEvent TypeDecl → Except CompileError ModuleText
  | .header n depth =>
    .ok ⟨(m.writer.atDepth depth).put (separation m.opened depth ++ n.opening), true⟩
  | .body n depth => (n.closing c).map fun block => ⟨(m.writer.atDepth (depth + 1)).put block, false⟩

/-- A module without classes. -/
def head (settings : Settings) : ModuleText := ⟨({} : Writer).put settings.moduleHead, false⟩

/-- The module of a class tree: `emit`, with a `Renderer` as the emitter. -/
def ofTree (c : ModuleContext) (t : ClassTree TypeDecl) : Except CompileError ModuleText :=
  t.foldEvents (step c) (head c.settings)

/-- The source of the module (`finish`). -/
def source (m : ModuleText) : String := m.writer.text

end ModuleText
end ProtoModels
