import ProtoModels.Schema.Build
/-!
# Numbered declarations

The declarations of all files in flat lists, one for each kind. A declaration is known by its number,
the position in its list, and gets it when it is registered: a message before everything that is declared
in it, so its own lists stay empty until all of that is registered too (`Graph.setMembers`). What fields
refer to is looked up when all files are registered (`Graph.resolveTargets`).

A schema has the same declarations inside one another, without numbers. `Graph.build` and `Schema.build`
read the same descriptors, and `Graph.build_eq` says that they agree.
-/
namespace ProtoModels

/-- The number of a type among the messages or the enums. -/
inductive TypeId where
  | message (i : Nat)
  | enum (i : Nat)
deriving DecidableEq, Repr

/-- What a type or a field is listed in: the file or the message with a number. -/
inductive Owner where
  | file (i : Nat)
  | message (i : Nat)
deriving DecidableEq, Repr

structure FileEntry where
  path : String
  package : String
  dialect : Descriptor.Dialect
  enums : List Nat := []
  messages : List Nat := []

structure EnumEntry where
  name : String
  fullName : String
  file : Nat
  parent : Owner
  values : List EnumValue
  comment : Option String

structure MessageEntry where
  name : String
  fullName : String
  file : Nat
  parent : Owner
  enums : List Nat := []
  messages : List Nat := []
  fields : List Nat := []
  oneofs : List String
  mapEntry : Bool
  comment : Option String

structure FieldEntry where
  name : String
  fullName : String
  /-- The number of the message that owns the field. -/
  message : Nat
  kind : FieldKind
  label : Label
  typeName : Option String
  target : Option TypeId := none
  oneof : Option Nat
  optionalKeyword : Bool
  rules : Option FieldRules
  comment : Option String

def Enum.entry (file : Nat) (parent : Owner) (e : Enum) : EnumEntry :=
  ⟨e.name, e.fullName, file, parent, e.values, e.comment⟩

/-- A field before its target is known. -/
def Field.entry (message : Nat) (f : Field) : FieldEntry :=
  { name := f.name, fullName := f.fullName, message, kind := f.kind, label := f.label
    typeName := f.typeName, oneof := f.oneof, optionalKeyword := f.optionalKeyword
    rules := f.rules, comment := f.comment }

/-- All declarations by number, and the numbers of files and types by path and by full name, in the
order of registration. -/
@[ext] structure Graph where
  files : List FileEntry := []
  messages : List MessageEntry := []
  enums : List EnumEntry := []
  fields : List FieldEntry := []
  filesByPath : List (String × Nat) := []
  typesByName : List (String × TypeId) := []

namespace Graph

/-- One graph behind another. -/
instance : Append Graph where
  append g h :=
    { files := g.files ++ h.files
      messages := g.messages ++ h.messages
      enums := g.enums ++ h.enums
      fields := g.fields ++ h.fields
      filesByPath := g.filesByPath ++ h.filesByPath
      typesByName := g.typesByName ++ h.typesByName }

/-- The number of the file with a path (`file_by_path`). -/
def file? (g : Graph) (path : String) : Option Nat :=
  (g.filesByPath.findRev? (·.1 == path)).map (·.2)

/-- The type with a full name, which may have a dot in front (`lookup`). Of several types of a name
the one registered last counts. -/
def type? (g : Graph) (name : String) : Option TypeId :=
  (g.typesByName.findRev? (·.1 == dropLeadingDot name)).map (·.2)

/-! ## Registration -/

/-- A file before anything in it is registered. -/
def ofFile (id : Nat) (f : FileEntry) : Graph := { files := [f], filesByPath := [(f.path, id)] }

/-- A message before anything in it is registered. -/
def ofMessage (id : Nat) (m : MessageEntry) : Graph :=
  { messages := [m], typesByName := [(m.fullName, .message id)] }

/-- Lists in a message what is declared in it. -/
def setMembers (g : Graph) (id : Nat) (enums messages fields : List Nat) : Graph :=
  { g with messages := g.messages.modify id ({ · with enums, messages, fields }) }

/-- Lists in a file what is at its top level. -/
def setTopLevel (g : Graph) (id : Nat) (enums messages : List Nat) : Graph :=
  { g with files := g.files.modify id ({ · with enums, messages }) }

/-- Registers an enum (`register_enum`). -/
def registerEnum (c : FileContext) (sc : Scope) (file : Nat) (parent : Owner) (path : List Int)
    (d : Descriptor.Enum) : StateM Graph Nat := do
  let id := (← get).enums.length
  let entry := (Enum.ofDescriptor c sc path d).entry file parent
  modify (· ++ { enums := [entry], typesByName := [(entry.fullName, .enum id)] })
  return id

/-- Registers the enums behind a path. -/
def registerEnums (c : FileContext) (sc : Scope) (file : Nat) (parent : Owner) (path : List Int)
    (ds : List Descriptor.Enum) : StateM Graph (List Nat) :=
  ds.zipIdx.mapM fun (d, i) => registerEnum c sc file parent (path ++ [(i : Int)]) d

/-- Registers a field of the message with the number `message` (`register_field`). -/
def registerField (c : FileContext) (sc : Scope) (message : Nat) (path : List Int)
    (d : Descriptor.Field) : StateM Graph Nat := do
  let id := (← get).fields.length
  modify (· ++ { fields := [(Field.ofDescriptor c sc path d).entry message] })
  return id

/-- Registers the fields behind a path, in the message with the number `message`. -/
def registerFields (c : FileContext) (sc : Scope) (message : Nat) (path : List Int)
    (ds : List Descriptor.Field) : StateM Graph (List Nat) :=
  ds.zipIdx.mapM fun (d, i) => registerField c sc message (path ++ [(i : Int)]) d

mutual
/-- Registers a message, then its enums, the messages in it and its fields (`register_message`). -/
def registerMessage (c : FileContext) (sc : Scope) (file : Nat) (parent : Owner) (path : List Int) :
    Descriptor.Message → StateM Graph Nat
  | { name, fields, nested, enums, oneofs, mapEntry, .. } => do
    let id := (← get).messages.length
    modify (· ++ ofMessage id
      { name, fullName := qualify sc.outer name, file, parent, oneofs := oneofs.map (·.name), mapEntry
        comment := c.comment? path })
    let inner := sc.enter name
    let enumIds ← registerEnums c inner file (.message id) (path ++ [4]) enums
    let messageIds ← registerMessages c inner file (.message id) (path ++ [3]) 0 nested
    let fieldIds ← registerFields c inner id (path ++ [2]) fields
    modify (·.setMembers id enumIds messageIds fieldIds)
    return id

/-- Registers the messages at the positions from `i` on behind a path. -/
def registerMessages (c : FileContext) (sc : Scope) (file : Nat) (parent : Owner) (path : List Int)
    (i : Nat) : List Descriptor.Message → StateM Graph (List Nat)
  | [] => return []
  | d :: ds => do
    let id ← registerMessage c sc file parent (path ++ [(i : Int)]) d
    let ids ← registerMessages c sc file parent path (i + 1) ds
    return id :: ids
end

/-- Registers a file, unless its path is that of an earlier one (`register_file`). -/
def registerFile (rules : RuleIndex) (d : Descriptor.File) : StateM Graph Unit := do
  let g ← get
  if (g.file? d.name).isNone then
    let id := g.files.length
    let c : FileContext := ⟨d.name, d.package, .ofText d.dialect, d.locations, rules⟩
    modify (· ++ ofFile id { path := d.name, package := d.package, dialect := c.dialect })
    let enumIds ← registerEnums c c.scope id (.file id) [5] d.enums
    let messageIds ← registerMessages c c.scope id (.file id) [4] 0 d.messages
    modify (·.setTopLevel id enumIds messageIds)

/-! ## Targets -/

/-- A field with what it refers to: one round of `resolve_targets`. -/
def resolveTarget (g : Graph) (f : FieldEntry) : Except CompileError FieldEntry :=
  if f.kind.isReference then
    match g.type? (f.typeName.getD "") with
    | some t => .ok { f with target := some t }
    | none => .error (.unresolvedType f.fullName (f.typeName.getD ""))
  else .ok f

/-- All fields with what they refer to (`resolve_targets`). -/
def resolveTargets (g : Graph) : Except CompileError Graph := do
  let fields ← g.fields.mapM g.resolveTarget
  return { g with fields }

/-- The graph of some files, all of whose references can be resolved (`build`). -/
def build (files : List Descriptor.File) (rules : RuleIndex) : Except CompileError Graph :=
  ((files.forM (registerFile rules)).run {}).2.resolveTargets

end Graph
end ProtoModels
