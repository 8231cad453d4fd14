import ProtoModels.Decimal.Binary64
import ProtoModels.Wire.Shape
/-!
# Written options

Options that a compiler has not read yet: a path of names and a value, as they are written in a
schema.
-/
namespace ProtoModels.Descriptor

/-- One name of the path to an option. -/
structure NamePart where
  text : String
  isExtension : Bool

/-- The value of an option by the way in which it is written. -/
structure WrittenValue where
  identifier : Option String
  natural : Option Nat
  negative : Option Int
  real : Option Binary64
  text : Option Wire.Bytes
  /-- A message in text form. -/
  aggregate : Option String

structure NamedOption where
  path : List NamePart
  value : WrittenValue

def NamePart.read (fs : List Wire.Field) : NamePart :=
  ⟨(Wire.lastText? 1 fs).getD "", (Wire.number? 2 fs).any (· ≠ 0)⟩

def WrittenValue.read (fs : List Wire.Field) : WrittenValue where
  identifier := Wire.lastText? 3 fs
  natural := (Wire.number? 4 fs).map (·.toNat)
  negative := (Wire.number? 5 fs).map (Wire.toInt64 · |>.toInt)
  real := (Wire.double? 6 fs).map Binary64.mk
  text := (Wire.payloads 7 fs).getLast?
  aggregate := Wire.lastText? 8 fs

/-- The number of the field that holds the options that are given by name. -/
def namedOptionsNumber : Nat := 999

/-- The options that are given by name among the options of a declaration. -/
def namedOptions (options : List Wire.Field) : List NamedOption :=
  (Wire.messages namedOptionsNumber options).map fun fs =>
    ⟨(Wire.messages 2 fs).map NamePart.read, WrittenValue.read fs⟩

/-- An option with one name, the name of a field, and a word for its value. -/
def NamedOption.isWord (o : NamedOption) (name word : String) : Bool :=
  match o.path with
  | [part] => !part.isExtension && part.text == name && o.value.identifier == some word
  | _ => false

end ProtoModels.Descriptor
