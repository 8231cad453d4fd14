import ProtoModels.Descriptor.Basic
import ProtoModels.Names
import ProtoModels.Text.Lines
/-!
# Definition pools

All that has a full name in a set of files: packages, types and their parts, services, extensions.
Unlike a schema, a pool is only made to be checked as a whole and to read options: names are
resolved in it by the scoping rules of the schema language.
-/
namespace ProtoModels.Descriptor

namespace Pool

/-- A declaration with the file that it stands in and the full name of what it is declared in. -/
structure Sited (α : Type) where
  file : File
  outer : String
  decl : α

/-- The full name of a message. -/
def messageName (m : Sited Message) : String := qualify m.outer m.decl.name

/-- The full name of a field or an extension. -/
def fieldName (x : Sited Field) : String := qualify x.outer x.decl.name

/-- What a full name stands for. -/
inductive Definition where
  | package
  | message (m : Sited Message)
  | enum (e : Sited Enum)
  | extension (x : Sited Field)
  | service
  | field
  | oneof
  | enumValue
  | method

namespace Definition

/-- Whether names can be declared in what a name stands for. -/
def isNamespace : Definition → Bool
  | package | message _ | enum _ | service => true
  | _ => false

def message? : Definition → Option (Sited Message)
  | message m => some m
  | _ => none

def extension? : Definition → Option (Sited Field)
  | extension x => some x
  | _ => none

end Definition

/-- A full name, the file that gives it, and what it stands for. -/
structure Entry where
  name : String
  file : String
  definition : Definition

/-! ## The declarations of a file -/

mutual
/-- A message behind all messages in it, each with the full name of what it is declared in. -/
def flatten (outer : String) : Message → List (String × Message)
  | ⟨name, fields, extensions, nested, enums, oneofs, ranges, reserved, mapEntry, options⟩ =>
    flattenList (qualify outer name) nested ++
      [(outer,
        ⟨name, fields, extensions, nested, enums, oneofs, ranges, reserved, mapEntry, options⟩)]

def flattenList (outer : String) : List Message → List (String × Message)
  | [] => []
  | m :: ms => flatten outer m ++ flattenList outer ms
end

/-- All messages of a file. -/
def messagesOf (f : File) : List (Sited Message) :=
  (flattenList f.package f.messages).map fun (outer, m) => ⟨f, outer, m⟩

/-- The parts of all messages of a file. -/
def partsOf {α : Type} (f : File) (parts : Message → List α) : List (Sited α) :=
  (messagesOf f).flatMap fun m => (parts m.decl).map (⟨f, messageName m, ·⟩)

def enumsOf (f : File) : List (Sited Enum) :=
  f.enums.map (⟨f, f.package, ·⟩) ++ partsOf f Message.enums

/-- All extensions that a file declares, those in messages first. -/
def extensionsOf (f : File) : List (Sited Field) :=
  partsOf f Message.extensions ++ f.extensions.map (⟨f, f.package, ·⟩)

/-- A dotted name cut off at each of its dots, and the whole name. -/
def dottedPrefixes (name : String) : List String :=
  let segments := Text.splitOn '.' name
  (List.range segments.length).map fun i => ".".intercalate (segments.take (i + 1))

/-- The package of a file and the packages around it. -/
def packagesOf (f : File) : List String := if f.package = "" then [] else dottedPrefixes f.package

/-- All that has a name in a file. The values of an enum stand beside it, not in it. -/
def entriesOf (f : File) : List Entry :=
  (packagesOf f).map (⟨·, f.name, .package⟩) ++
  (messagesOf f).map (fun m => ⟨messageName m, f.name, .message m⟩) ++
  (partsOf f Message.fields).map (fun x => ⟨fieldName x, f.name, .field⟩) ++
  (partsOf f Message.oneofs).map (fun o => ⟨qualify o.outer o.decl.name, f.name, .oneof⟩) ++
  (enumsOf f).map (fun e => ⟨qualify e.outer e.decl.name, f.name, .enum e⟩) ++
  (enumsOf f).flatMap (fun e =>
    e.decl.values.map fun v => ⟨qualify e.outer v.name, f.name, .enumValue⟩) ++
  (extensionsOf f).map (fun x => ⟨fieldName x, f.name, .extension x⟩) ++
  f.services.map (fun s => ⟨qualify f.package s.name, f.name, .service⟩) ++
  f.services.flatMap fun s =>
    s.methods.map fun m => ⟨qualify (qualify f.package s.name) m.name, f.name, .method⟩

end Pool

/-- Some files with all that has a name in them (`DescriptorPool`). -/
structure Pool where
  files : List File
  entries : List Pool.Entry

namespace Pool

def ofFiles (files : List File) : Pool := ⟨files, files.flatMap entriesOf⟩

/-- What a full name stands for. -/
def find? (p : Pool) (name : String) : Option Entry := p.entries.find? (·.name == name)

def file? (p : Pool) (path : String) : Option File := p.files.find? (·.name == path)

def messages (p : Pool) : List (Sited Message) := p.files.flatMap messagesOf

def enums (p : Pool) : List (Sited Enum) := p.files.flatMap enumsOf

def extensions (p : Pool) : List (Sited Field) := p.files.flatMap extensionsOf

/-- The message with a full name. -/
def message? (p : Pool) (name : String) : Option (Sited Message) :=
  (p.find? name).bind (·.definition.message?)

/-- The extension with a full name (`get_extension_by_name`). -/
def extension? (p : Pool) (name : String) : Option (Sited Field) :=
  (p.find? name).bind (·.definition.extension?)

end Pool
end ProtoModels.Descriptor
