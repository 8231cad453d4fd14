import ProtoModels.Descriptor.Pool.Basic
import ProtoModels.FieldKind
/-!
# Resolving names

A name with a dot in front is a full name. Another name is looked for in the scope in which it is
written, then in the scopes around it. Only what stands in the same file, in an imported one, or in
one that an imported file passes on can be found. What has the name but is of another kind than the
wanted one hides nothing, unless the name has several segments: then the innermost namespace with
the first segment decides.
-/
namespace ProtoModels.Descriptor.Pool

/-! ## Visible files -/

/-- The elements of a list whose indices are among the given ones, each once. -/
def atIndices {α : Type} (xs : List α) (indices : List Int) : List α :=
  (xs.zipIdx.filter fun (_, i) => indices.contains (i : Int)).map (·.1)

/-- The imports that a file passes on, in the order in which it imports them. -/
def passedOn (p : Pool) (path : String) : List String :=
  ((p.file? path).map fun f => atIndices f.imports f.publicImports).getD []

/-- Adds the files that a file passes on. What it passes on in turn is only added for a file that was
visible before. `fuel` bounds the length of such a chain. -/
def addPassedOn (p : Pool) : Nat → List String → String → List String
  | 0, visible, _ => visible
  | fuel + 1, visible, path =>
    (p.passedOn path).foldl (fun visible next =>
      if next ∈ visible then p.addPassedOn fuel visible next else next :: visible) visible

/-- The files whose definitions can be used in a file. -/
def visible (p : Pool) (f : File) : List String :=
  f.imports.foldl (fun visible path => p.addPassedOn p.files.length (path :: visible) path) [f.name]

/-! ## Scopes -/

/-- A scope and those around it, innermost first. The last one has the empty name. -/
def scopesAround (scope : String) : List String := (dottedPrefixes scope).reverse ++ [""]

/-- What a full name stands for in a file, if it is wanted. -/
def resolveFull {α : Type} (p : Pool) (f : File) (want : Definition → Option α) (name : String) :
    Option α :=
  ((p.find? name).filter fun e => (p.visible f).contains e.file).bind (want ·.definition)

/-- Looks for a name with more than one segment: the innermost scope that declares the first segment
as a namespace decides. -/
def resolveQualified {α : Type} (p : Pool) (f : File) (want : Definition → Option α)
    (first name : String) : List String → Option α
  | [] => none
  | scope :: scopes =>
    if (p.find? (qualify scope first)).any (·.definition.isNamespace) then
      p.resolveFull f want (qualify scope name)
    else p.resolveQualified f want first name scopes

/-- What a name stands for that is written in a scope of a file. Outside of all scopes, every name is
a full name. -/
def resolve {α : Type} (p : Pool) (f : File) (want : Definition → Option α) (scope name : String) :
    Option α :=
  match name.toList with
  | '.' :: rest => p.resolveFull f want (String.ofList rest)
  | _ =>
    if scope = "" then p.resolveFull f want name
    else match Text.cutAtFirst '.' name with
      | (_, none) => (scopesAround scope).findSome? fun s => p.resolveFull f want (qualify s name)
      | (first, some _) => p.resolveQualified f want first name (scopesAround scope)

/-- The message that a name stands for. -/
def resolveMessage (p : Pool) (f : File) (scope name : String) : Option (Sited Message) :=
  p.resolve f Definition.message? scope name

/-! ## Types of fields -/

/-- What a value of a field is. A group is a message that is encoded in another way. -/
inductive ValueType where
  | scalar (kind : FieldKind)
  | message (m : Sited Message) (isGroup : Bool)
  | enum (e : Sited Enum)

/-- The type that a declared name gives to a field's values. -/
def Definition.valueType? (isGroup : Bool) : Definition → Option ValueType
  | .message m => some (.message m isGroup)
  | .enum e => some (.enum e)
  | _ => none

/-- The type of a field's values. A name counts more than a kind; of a field that gives a name, the
kind only tells a group. A field with neither is taken for a number. An empty name is none. The scope
of the name is the field itself. -/
def valueType? (p : Pool) (x : Sited Field) : Option ValueType :=
  let kind := FieldKind.ofNumber (x.decl.kind.getD 1)
  match x.decl.typeName.filter (· ≠ ""), kind with
  | some name, _ => p.resolve x.file (Definition.valueType? (kind == .group)) (fieldName x) name
  | none, .unknown _ => some (.scalar .double)
  | none, kind => if kind.isReference then none else some (.scalar kind)

/-- The message that an extension extends. Where no name is given, it is the one without a name. -/
def extended? (p : Pool) (x : Sited Field) : Option (Sited Message) :=
  p.resolveMessage x.file (fieldName x) (x.decl.extendee.getD "")

end ProtoModels.Descriptor.Pool
