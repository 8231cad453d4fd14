import ProtoModels.Descriptor.Basic
import ProtoModels.FieldKind
import ProtoModels.Rules.Basic
import ProtoModels.StandardType
/-!
# Schemas

The declarations of all files together. A message holds the messages, enums and fields declared in
it, and every declaration knows its full name and where it stands. Fields refer to types by name:
`Schema.target?` finds the declaration, which may stand in any file.
-/
namespace ProtoModels

/-! ## Fields -/

structure Field where
  name : String
  fullName : String
  /-- The full name of the message that owns the field. -/
  owner : String
  kind : FieldKind
  label : Label
  /-- The name of the field's type, as it was written. -/
  typeName : Option String
  /-- The position of the field's oneof among those of its message. -/
  oneof : Option Nat
  /-- The field was declared with the keyword `optional`. -/
  optionalKeyword : Bool
  rules : Option FieldRules
  comment : Option String
deriving DecidableEq, Repr

namespace Field

/-- The field may occur more than once (`is_repeated`). -/
def isRepeated (f : Field) : Bool := f.label == .repeated

/-- Member of a oneof that the author wrote (`in_oneof_group`). The keyword `optional` is encoded as
a oneof with one member, which is none. -/
def inOneofGroup (f : Field) : Bool := f.oneof.isSome && !f.optionalKeyword

end Field

/-! ## Messages, enums and files -/

/-- What a type is declared in: a file, or the message with a full name. -/
inductive Parent where
  | file (path : String)
  | message (fullName : String)
deriving DecidableEq, Repr

/-- Where a type stands: its file, the package of the file, the names of the messages around it,
outermost first, and its path in the file's descriptor. -/
structure Place where
  file : String
  package : String
  enclosing : List String
  path : List Int
deriving DecidableEq, Repr, Inhabited

structure EnumValue where
  name : String
  comment : Option String
deriving DecidableEq, Repr

structure Enum where
  name : String
  fullName : String
  place : Place
  parent : Parent
  values : List EnumValue
  comment : Option String
deriving DecidableEq, Repr

structure Message where
  name : String
  fullName : String
  place : Place
  parent : Parent
  enums : List Enum
  messages : List Message
  fields : List Field
  /-- The names of the oneofs. -/
  oneofs : List String
  /-- The entry of a map, made for a map field. -/
  mapEntry : Bool
  comment : Option String
deriving Repr

structure File where
  path : String
  package : String
  dialect : Descriptor.Dialect
  enums : List Enum
  messages : List Message
deriving Repr

mutual
/-- Whether two messages are the same, with all that is declared in them. -/
def Message.decEq : (a b : Message) → Decidable (a = b)
  | ⟨n, fn, p, pa, es, ms, fs, os, me, c⟩, ⟨n', fn', p', pa', es', ms', fs', os', me', c'⟩ =>
    match Message.decEqList ms ms' with
    | isFalse h => isFalse fun e => h (Message.mk.inj e).2.2.2.2.2.1
    | isTrue h =>
      if rest : n = n' ∧ fn = fn' ∧ p = p' ∧ pa = pa' ∧ es = es' ∧ fs = fs' ∧ os = os' ∧ me = me' ∧
          c = c' then
        isTrue (by
          obtain ⟨rfl, rfl, rfl, rfl, rfl, rfl, rfl, rfl, rfl⟩ := rest
          exact congrArg (Message.mk n fn p pa es · fs os me c) h)
      else
        isFalse fun e => rest (by
          have e := Message.mk.inj e
          exact ⟨e.1, e.2.1, e.2.2.1, e.2.2.2.1, e.2.2.2.2.1, e.2.2.2.2.2.2.1, e.2.2.2.2.2.2.2.1,
            e.2.2.2.2.2.2.2.2.1, e.2.2.2.2.2.2.2.2.2⟩)

def Message.decEqList : (as bs : List Message) → Decidable (as = bs)
  | [], [] => isTrue rfl
  | [], _ :: _ => isFalse fun e => nomatch e
  | _ :: _, [] => isFalse fun e => nomatch e
  | a :: as, b :: bs =>
    match Message.decEq a b, Message.decEqList as bs with
    | isTrue h, isTrue hs => isTrue (h ▸ hs ▸ rfl)
    | isFalse h, _ => isFalse fun e => h (List.cons.inj e).1
    | _, isFalse hs => isFalse fun e => hs (List.cons.inj e).2
end

instance : DecidableEq Message := Message.decEq

/-- A declared type (`TypeId`). -/
inductive TypeDecl where
  | message (m : Message)
  | enum (e : Enum)
deriving DecidableEq, Repr

namespace TypeDecl

/-- The local name of a type (`type_name`). -/
def name : TypeDecl → String
  | message m => m.name
  | enum e => e.name

/-- The full name of a type (`type_full_name`). -/
def fullName : TypeDecl → String
  | message m => m.fullName
  | enum e => e.fullName

/-- What a type is declared in (`type_parent`). -/
def parent : TypeDecl → Parent
  | message m => m.parent
  | enum e => e.parent

def place : TypeDecl → Place
  | message m => m.place
  | enum e => e.place

/-- The package of the file that declares the type (`type_package`). -/
def package (t : TypeDecl) : String := t.place.package

/-- The type has a Python type of its own (`is_well_known`). -/
def isStandard (t : TypeDecl) : Bool := StandardType.isStandard t.fullName

end TypeDecl

/-! ## All declarations of a schema -/

mutual
/-- A message and all types declared in it: the message, its enums, then its messages in turn. -/
def Message.types : Message → List TypeDecl
  | ⟨n, fn, p, pa, es, ms, fs, os, me, c⟩ =>
    .message ⟨n, fn, p, pa, es, ms, fs, os, me, c⟩ :: (es.map .enum ++ Message.typesOfList ms)

def Message.typesOfList : List Message → List TypeDecl
  | [] => []
  | m :: ms => m.types ++ Message.typesOfList ms
end

mutual
/-- All fields in a message: those of the messages declared in it, then its own. -/
def Message.allFields : Message → List Field
  | ⟨_, _, _, _, _, ms, fs, _, _, _⟩ => Message.allFieldsOfList ms ++ fs

def Message.allFieldsOfList : List Message → List Field
  | [] => []
  | m :: ms => m.allFields ++ Message.allFieldsOfList ms
end

namespace File

/-- The types of a file, in the order in which they are registered. -/
def types (f : File) : List TypeDecl := f.enums.map .enum ++ Message.typesOfList f.messages

def allFields (f : File) : List Field := Message.allFieldsOfList f.messages

/-- The types that are not declared in another one. -/
def topLevel (f : File) : List TypeDecl := f.messages.map .message ++ f.enums.map .enum

end File

/-- All files with their declarations (`Graph`). -/
structure Schema where
  files : List File
deriving Repr

namespace Schema

def types (s : Schema) : List TypeDecl := s.files.flatMap File.types

def allFields (s : Schema) : List Field := s.files.flatMap File.allFields

/-- The file with a path (`file_by_path`). -/
def file? (s : Schema) (path : String) : Option File := s.files.find? (·.path == path)

/-- The type with a full name, which may have a dot in front (`lookup`). Of several declarations of
a name the one registered last counts. -/
def type? (s : Schema) (name : String) : Option TypeDecl :=
  s.types.findRev? (·.fullName == dropLeadingDot name)

/-- The type that a field refers to, which `resolve_targets` looks up. -/
def target? (s : Schema) (f : Field) : Option TypeDecl :=
  if f.kind.isReference then s.type? (f.typeName.getD "") else none

/-! ### Maps and lists -/

/-- The entry message of a map field (`map_entry`). -/
def mapEntry? (s : Schema) (f : Field) : Option Message :=
  if f.isRepeated then
    match s.target? f with
    | some (.message m) => if m.mapEntry then some m else none
    | _ => none
  else none

/-- The field is a map (`is_map`). -/
def isMap (s : Schema) (f : Field) : Bool := (s.mapEntry? f).isSome

/-- The field is repeated and no map (`is_list`). -/
def isList (s : Schema) (f : Field) : Bool := f.isRepeated && !s.isMap f

/-- The key and the value field of a map field's entry, if it declares both (`map_entry_fields`). -/
def entryFields? (s : Schema) (f : Field) : Option (Field × Field) := do
  let entry ← s.mapEntry? f
  let key ← entry.fields.find? (·.name == "key")
  let value ← entry.fields.find? (·.name == "value")
  some (key, value)

end Schema
end ProtoModels
