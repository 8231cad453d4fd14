import ProtoModels.Names
import ProtoModels.Schema.Basic
/-!
# Walking a schema

A walk enters the given files and everything that is reachable from them, each declaration once. A
file is visited before its enums and its messages; a message after its enums, its messages and its
fields; a field before the fields of its map entry and the type it refers to. The visitor may stop
the walk below a file or a field, and may decide by what it has seen so far.

Declarations are told apart by their names: paths for files, full names for all else. The walk ends
because every entered declaration uses up a name.
-/
namespace ProtoModels

/-- What a walk enters and visits: a file or a declaration. -/
inductive Decl where
  | file (f : File)
  | enum (e : Enum)
  | message (m : Message)
  | field (f : Field)

/-- The name by which a walk tells a declaration apart. -/
def Decl.name : Decl → String
  | file f => f.path
  | enum e => e.fullName
  | message m => m.fullName
  | field f => f.fullName

def Decl.ofType : TypeDecl → Decl
  | .message m => message m
  | .enum e => enum e

namespace Schema

/-- All names in a schema. -/
def names (s : Schema) : List String :=
  s.files.map (·.path) ++ s.types.map (·.fullName) ++ s.allFields.map (·.fullName)

end Schema

/-- What is left to do in a walk. -/
inductive Task where
  /-- Enter a declaration, unless its name is used up. -/
  | enter (d : Decl)
  /-- Visit a message, everything in which has been entered. -/
  | leave (m : Message)

namespace Walk

/-- Tasks for the types of a file (`walk_file`). -/
def belowFile (f : File) : List Task :=
  f.enums.map (.enter <| .enum ·) ++ f.messages.map (.enter <| .message ·)

/-- Tasks for the declarations in a message, and then for the message (`walk_message`). -/
def belowMessage (m : Message) : List Task :=
  m.enums.map (.enter <| .enum ·) ++ m.messages.map (.enter <| .message ·) ++
    m.fields.map (.enter <| .field ·) ++ [.leave m]

/-- Tasks for what a field refers to (`walk_field`). -/
def belowField (s : Schema) (f : Field) : List Task :=
  (match s.entryFields? f with
    | some (key, value) => [.enter (.field key), .enter (.field value)]
    | none => []) ++
  (s.target? f).toList.map (.enter <| .ofType ·)

/-- What entering a declaration adds, as `walk_file`, `walk_enum`, `walk_message` and `walk_field`
do: what is visited at once, in front of what was visited before, and the tasks below. Of a message
nothing is visited yet. -/
def enter (s : Schema) (visit : List Decl → Decl → Bool) (visited : List Decl) :
    Decl → List Decl × List Task
  | .message m => (visited, belowMessage m)
  | .enum e => (.enum e :: visited, [])
  | .file f => (.file f :: visited, if visit visited (.file f) then belowFile f else [])
  | .field f => (.field f :: visited, if visit visited (.field f) then belowField s f else [])

/-- Works off the tasks; the tasks that are left stand for the calls that have not returned.
`unused` holds the names of the declarations that have not been entered, and `visited` what has been
visited, latest first. -/
def run (s : Schema) (visit : List Decl → Decl → Bool) (unused : List String)
    (visited : List Decl) : List Task → List Decl
  | [] => visited
  | .leave m :: tasks => run s visit unused (.message m :: visited) tasks
  | .enter d :: tasks =>
    if h : d.name ∈ unused then
      have := length_useUp_lt h
      let step := enter s visit visited d
      run s visit (useUp d.name unused) step.1 (step.2 ++ tasks)
    else run s visit unused visited tasks
termination_by tasks => (unused.length, tasks.length)

end Walk

/-- The declarations that a walk from some files visits, in order (`walk_files`). The visitor is
asked at every file and field whether to go on below it, and is told what has been visited before,
latest first. -/
def Schema.walk (s : Schema) (roots : List File) (visit : List Decl → Decl → Bool) : List Decl :=
  (Walk.run s visit s.names [] (roots.map (.enter <| .file ·))).reverse

/-! ## The declarations of a unit -/

/-- The types that become classes in `collect_declarations`: not the entries of maps, and not the
standard types. -/
def Decl.classType? : Decl → Option TypeDecl
  | .message m =>
    if m.mapEntry || StandardType.isStandard m.fullName then none else some (.message m)
  | .enum e => if StandardType.isStandard e.fullName then none else some (.enum e)
  | _ => none

/-- The walk of `collect_declarations` goes on below everything but fields of a standard type. -/
def Schema.descends (s : Schema) : Decl → Bool
  | .field f => (s.target? f).all fun t => !t.isStandard
  | _ => true

/-- The types that are reachable from some files and become classes, in the order of the walk
(`collect_declarations`). -/
def Schema.collect (s : Schema) (roots : List File) : List TypeDecl :=
  (s.walk roots fun _ d => s.descends d).filterMap Decl.classType?

end ProtoModels
