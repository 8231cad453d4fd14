import ProtoModels.Descriptor.Pool.DefaultValue
/-!
# Validity of a pool

What files must fulfil together: imports lead to files, names are distinct, references lead to types,
numbers and defaults are in their ranges. Each rule is one definition; `Pool.isValid` asks for all of
them, the rules of options excepted.
-/
namespace ProtoModels.Descriptor.Pool

/-- Whether no element occurs twice. -/
def allDistinct {α : Type} [DecidableEq α] (xs : List α) : Bool := decide xs.Nodup

/-! ## Files and names -/

/-- An index of an import. -/
def isImportIndex (f : File) (i : Int) : Bool := 0 ≤ i && i < f.imports.length

/-- Every import is a file of the pool, and passed on imports are imports. -/
def importsValid (p : Pool) (f : File) : Bool :=
  f.imports.all (fun path => (p.file? path).isSome) &&
    (f.publicImports ++ f.weakImports).all (isImportIndex f)

/-- The dialect is a known one. -/
def dialectValid (f : File) : Bool :=
  f.dialect.all fun d => d == "proto2" || d == "proto3"

/-- Only packages may share a name, and only with packages. -/
def namesValid (p : Pool) : Bool :=
  let isPackage (e : Entry) : Bool := match e.definition with
    | .package => true
    | _ => false
  let packages := ((p.entries.filter isPackage).map (·.name)).eraseDups
  allDistinct (packages ++ (p.entries.filter (!isPackage ·)).map (·.name))

/-! ## Enums -/

/-- An enum has a value, the first one is zero unless the dialect is the older one, and numbers are
distinct and not reserved. -/
def enumValid (e : Sited Enum) : Bool :=
  let numbers := e.decl.values.map (·.number)
  (match numbers with
    | [] => false
    | first :: _ => first == 0 || Dialect.ofText e.file.dialect == .proto2) &&
  (e.decl.allowAlias || allDistinct numbers) &&
  numbers.all fun n => e.decl.reserved.all fun r => n < r.first || r.stop < n

/-! ## Fields -/

/-- Field numbers have 29 bits, and some of them are set aside. -/
def isFieldNumber (n : Int) : Bool := 1 ≤ n && n ≤ 536870911 && !(19000 ≤ n && n ≤ 19999)

def inRange (n : Int) (r : NumberRange) : Bool := r.first ≤ n && n < r.stop

/-- The number of a field is not reserved in the message. What extends a message needs a number that
is set aside for extensions, and nothing else may have one. -/
def numberFits (m : Message) (f : Field) : Bool :=
  isFieldNumber f.number && !m.reservedRanges.any (inRange f.number) &&
    (m.extensionRanges.any (inRange f.number ·.numbers) == f.extendee.isSome)

/-- A name without underscores, each letter behind one in upper case. -/
def lowerCamel : List Char → List Char
  | [] => []
  | '_' :: '_' :: rest => lowerCamel ('_' :: rest)
  | '_' :: c :: rest => c.toUpper :: lowerCamel rest
  | ['_'] => []
  | c :: rest => c :: lowerCamel rest

/-- The name of a field in JSON. -/
def jsonName (f : Field) : String :=
  f.jsonName.getD (String.ofList (lowerCamel f.name.toList))

/-- A name as the later dialect compares it: without underscores and in lower case. -/
def foldedName (f : Field) : List Char := (f.name.toList.filter (· ≠ '_')).map Char.toLower

/-- The fields of a message have distinct fitting numbers, distinct names, and positions of oneofs
that exist. -/
def messageValid (m : Sited Message) : Bool :=
  let fields := m.decl.fields
  fields.all (numberFits m.decl) &&
  allDistinct (fields.map (·.number)) &&
  allDistinct (fields.map jsonName) &&
  (Dialect.ofText m.file.dialect == .proto2 || allDistinct (fields.map foldedName)) &&
  fields.all fun f => f.oneofIndex.all fun (i : Int) => 0 ≤ i && i < m.decl.oneofs.length

/-- A field has a type, and its default is a value of the type. -/
def fieldValid (p : Pool) (x : Sited Field) : Bool :=
  (p.valueType? x).any fun type => x.decl.defaultValue.all fun text => (type.ofText? text).isSome

/-- An extension extends a message that its number fits. -/
def extensionValid (p : Pool) (x : Sited Field) : Bool :=
  (p.extended? x).any fun m => numberFits m.decl x.decl

/-- The methods of services take and give messages. -/
def servicesValid (p : Pool) (f : File) : Bool :=
  f.services.all fun s => s.methods.all fun m =>
    [m.inputType, m.outputType].all fun name =>
      (p.resolveMessage f (qualify (qualify f.package s.name) m.name) name).isSome

/-! ## All rules -/

def isValid (p : Pool) : Bool :=
  allDistinct (p.files.map (·.name)) &&
  p.files.all (fun f => dialectValid f && p.importsValid f) &&
  p.namesValid &&
  p.enums.all enumValid &&
  p.messages.all messageValid &&
  p.files.all (fun f => (partsOf f Message.fields).all p.fieldValid) &&
  p.extensions.all (fun x => p.fieldValid x && p.extensionValid x) &&
  p.files.all p.servicesValid

end ProtoModels.Descriptor.Pool
