import ProtoModels.Compile
import ProtoModels.Response
import ProtoModels.Rules.Annotations
/-!
# Plugin runs

A run reads one encoded request to its end and writes one encoded response. A request that cannot be
compiled has a response, too: it says why. Only a request that is not well-formed and a failing
channel end a run without response.

A name such as `run_plugin` in a docstring, here and in the other modules, is that of the function or
type of the plugin which the definition models.
-/
namespace ProtoModels.Plugin

/-- The request in some bytes, and the rules of its fields, as `generate_from_bytes` reads them. -/
def readRequest (bytes : Wire.Bytes) : Except PluginError (Descriptor.Request × RuleIndex) :=
  match Descriptor.Request.decode? bytes with
  | none => .error .decode
  | some request => (RuleIndex.ofRequest bytes request.files).map (request, ·)

/-- The files that an encoded request asks for (`generate_from_bytes`). -/
def generate (bytes : Wire.Bytes) : Except PluginError (List OutputFile) := do
  let (request, rules) ← readRequest bytes
  (request.compile rules).mapError .compile

/-- The response to an encoded request. A failed compilation has one, too (`run_plugin`). -/
def respond (bytes : Wire.Bytes) : Except PluginError Response :=
  (readRequest bytes).map fun (request, rules) => .ofCompile (request.compile rules)

/-- What a run reads from and writes to. A failure is told by its text. -/
structure Channel (m : Type → Type) where
  /-- All bytes up to the end. -/
  read : m (Except String Wire.Bytes)
  write : Wire.Bytes → m (Except String Unit)
  /-- Makes sure that what was written arrives. -/
  flush : m (Except String Unit)

variable {m : Type → Type} [Monad m]

/-- Writes a response and flushes it: the end of `run_plugin`. -/
def deliver (c : Channel m) (r : Response) : m (Except PluginError Unit) := do
  match ← c.write r.encode with
  | .error cause => return .error (.write cause)
  | .ok () =>
    match ← c.flush with
    | .error cause => return .error (.write cause)
    | .ok () => return .ok ()

/-- One run (`run_plugin`). Nothing is written before the response is complete. -/
def run (c : Channel m) : m (Except PluginError Unit) := do
  match ← c.read with
  | .error cause => return .error (.read cause)
  | .ok bytes =>
    match respond bytes with
    | .error e => return .error e
    | .ok r => deliver c r

end ProtoModels.Plugin
