import ProtoModels.Failure
import ProtoModels.Names
import ProtoModels.Rules.Index
import ProtoModels.Schema.Basic
import ProtoModels.Text.Blank
/-!
# Schemas from descriptors

Every file descriptor becomes a file of the schema, unless its path has occurred before. Names are
completed to full names, comments and field rules are attached, and every field that refers to a
type must refer to one that some file declares.
-/
namespace ProtoModels

/-! ## Reading the declarations of one file -/

/-- What all declarations of one file share. -/
structure FileContext where
  file : String
  package : String
  dialect : Descriptor.Dialect
  locations : List Descriptor.Location
  rules : RuleIndex

/-- The comment in front of the declaration with a path (`leading_comments`): that of the last
location with the path whose comment is not blank. -/
def FileContext.comment? (c : FileContext) (path : List Int) : Option String :=
  (c.locations.findRev? fun l => l.path == path && l.leadingComments.any (!Text.isBlankText ·)).bind
    (·.leadingComments)

/-- What the declarations in one file or message share: the full name in front of theirs, the names
of the messages around them, and what they are declared in. -/
structure Scope where
  outer : String
  enclosing : List String
  parent : Parent

/-- The scope of the declarations in a message. -/
def Scope.enter (s : Scope) (name : String) : Scope where
  outer := qualify s.outer name
  enclosing := s.enclosing ++ [name]
  parent := .message (qualify s.outer name)

def FileContext.scope (c : FileContext) : Scope := ⟨c.package, [], .file c.file⟩

def FileContext.place (c : FileContext) (s : Scope) (path : List Int) : Place :=
  ⟨c.file, c.package, s.enclosing, path⟩

/-- An enum at a path (`register_enum`). Its values have the paths behind it with the number 2. -/
def Enum.ofDescriptor (c : FileContext) (s : Scope) (path : List Int) (d : Descriptor.Enum) :
    Enum where
  name := d.name
  fullName := qualify s.outer d.name
  place := c.place s path
  parent := s.parent
  values := d.values.mapIdx fun i v => ⟨v.name, c.comment? (path ++ [2, (i : Int)])⟩
  comment := c.comment? path

/-- A position in a list, if it is not negative. -/
def position? (i : Int) : Option Nat := if i < 0 then none else some i.toNat

/-- A field of the message with the scope `s` (`register_field`). In proto2 the keyword `optional`
is the label of a field outside all oneofs. -/
def Field.ofDescriptor (c : FileContext) (s : Scope) (path : List Int) (d : Descriptor.Field) :
    Field :=
  let fullName := qualify s.outer d.name
  let label := Label.ofNumber d.label
  let oneof := d.oneofIndex.bind position?
  { name := d.name
    fullName
    owner := s.outer
    kind := .ofNumber (d.kind.getD 0)
    label
    typeName := d.typeName
    oneof
    optionalKeyword :=
      d.proto3Optional || (c.dialect == .proto2 && label == .optional && oneof.isNone)
    rules := c.rules.get? fullName
    comment := c.comment? path }

mutual
/-- The message at a path (`register_message`). Its enums, messages and fields have the paths behind
it with the numbers 4, 3 and 2. -/
def Message.ofDescriptor (c : FileContext) (s : Scope) (path : List Int) :
    Descriptor.Message → Message
  | { name, fields, nested, enums, oneofs, mapEntry, .. } =>
    let inner := s.enter name
    { name
      fullName := qualify s.outer name
      place := c.place s path
      parent := s.parent
      enums := enums.mapIdx fun i e => Enum.ofDescriptor c inner (path ++ [4, (i : Int)]) e
      messages := Message.ofDescriptors c inner (path ++ [3]) 0 nested
      fields := fields.mapIdx fun i f => Field.ofDescriptor c inner (path ++ [2, (i : Int)]) f
      oneofs := oneofs.map (·.name)
      mapEntry
      comment := c.comment? path }

/-- The messages at the positions from `i` on behind a path. -/
def Message.ofDescriptors (c : FileContext) (s : Scope) (path : List Int) (i : Nat) :
    List Descriptor.Message → List Message
  | [] => []
  | d :: ds =>
    Message.ofDescriptor c s (path ++ [(i : Int)]) d :: Message.ofDescriptors c s path (i + 1) ds
end

/-- A file with all that is declared in it (`register_file`). Its enums and messages have the paths
with the numbers 5 and 4. -/
def File.ofDescriptor (rules : RuleIndex) (d : Descriptor.File) : File :=
  let c : FileContext := ⟨d.name, d.package, .ofText d.dialect, d.locations, rules⟩
  { path := d.name
    package := d.package
    dialect := c.dialect
    enums := d.enums.mapIdx fun i e => Enum.ofDescriptor c c.scope [5, (i : Int)] e
    messages := Message.ofDescriptors c c.scope [4] 0 d.messages }

/-! ## Reading all files -/

/-- The files without those whose name is among `seen` or that of an earlier one: `register_file`
passes over them. -/
def keepFirst (seen : List String) : List Descriptor.File → List Descriptor.File
  | [] => []
  | d :: ds => if d.name ∈ seen then keepFirst seen ds else d :: keepFirst (d.name :: seen) ds

namespace Schema

/-- The schema of some files, whether or not all references can be resolved. -/
def ofDescriptors (files : List Descriptor.File) (rules : RuleIndex) : Schema :=
  ⟨(keepFirst [] files).map (File.ofDescriptor rules)⟩

/-- The first field, in the order in which fields are registered, that refers to a type that no file
declares. There `resolve_targets` stops. -/
def firstUnresolved? (s : Schema) : Option Field :=
  s.allFields.find? fun f => f.kind.isReference && (s.target? f).isNone

/-- The schema of some files, all of whose references can be resolved (`build`). -/
def build (files : List Descriptor.File) (rules : RuleIndex) : Except CompileError Schema :=
  let s := ofDescriptors files rules
  match s.firstUnresolved? with
  | some f => .error (.unresolvedType f.fullName (f.typeName.getD ""))
  | none => .ok s

end Schema
end ProtoModels
