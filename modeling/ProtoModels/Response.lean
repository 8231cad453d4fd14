import ProtoModels.OutputFile
import ProtoModels.Wire.Record
/-!
# Responses

What a plugin run answers: the files it has generated, or why it has not, and the features that the
plugin knows.
-/
namespace ProtoModels

/-- The answer of a run (`CodeGeneratorResponse`). -/
structure Response where
  error : Option String := none
  files : List OutputFile := []
deriving DecidableEq, Repr

namespace Response

/-- The set of known features, as a number with one bit a feature (`SUPPORTED_FEATURES`): only the
keyword `optional` of proto3. -/
def supportedFeatures : UInt64 := 1

/-- The response to a request that was compiled, or that could not be. -/
def ofCompile : Except CompileError (List OutputFile) → Response
  | .ok files => { files }
  | .error e => { error := some e.message }

/-- A generated file as a message. -/
def fileFields (f : OutputFile) : List Wire.Field := [.text 1 f.name, .text 15 f.content]

/-- The fields of a response, in the order of their numbers. -/
def fields (r : Response) : List Wire.Field :=
  (r.error.map (.text 1)).toList ++ [.varint 2 supportedFeatures] ++
    r.files.map fun f => .bytes 15 (Wire.print (fileFields f))

def encode (r : Response) : Wire.Bytes := Wire.print r.fields

end Response
end ProtoModels
