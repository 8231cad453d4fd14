import ProtoModels.Plugin
/-!
# The plugin

Reads a request from the standard input and writes the response to the standard output. A run that
ends without response says why on the standard error and ends with the failure's exit code.
-/
namespace ProtoModels.Plugin

/-- The bytes of a stream up to its end. -/
partial def readToEnd (stream : IO.FS.Stream) (done : ByteArray) : IO ByteArray := do
  let chunk ← stream.read 65536
  if chunk.isEmpty then return done else readToEnd stream (done ++ chunk)

/-- The result of an action, or the text of its failure. -/
def attempt {α : Type} (action : IO α) : IO (Except String α) := do
  try return .ok (← action) catch e => return .error (toString e)

/-- The standard input and output. -/
def standardChannel : IO (Channel IO) := do
  let input ← IO.getStdin
  let output ← IO.getStdout
  return {
    read := attempt do return (← readToEnd input .empty).toList
    write := fun bytes => attempt (output.write ⟨bytes.toArray⟩)
    flush := attempt output.flush }

end ProtoModels.Plugin

def main : IO UInt32 := do
  match ← ProtoModels.Plugin.run (← ProtoModels.Plugin.standardChannel) with
  | .ok () => return 0
  | .error e =>
    IO.eprintln ("Error: " ++ e.message)
    return UInt32.ofNat e.exitCode
