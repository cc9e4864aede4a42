import ContractKit.Codec.Decode
import ContractKit.Contract.Host
import ContractKit.Contract.Spec

/-!
# `Contract/Context.lean`: what a function is told about its call

The first argument of an entry point is a record with the circumstances of the call. It also gives
access to the parameter, which can be read as a value of some type: bytes that are not such a value are
an answer, and not a fault.
-/

set_option autoImplicit false

namespace ContractKit

namespace RecordClass

/-- A class of the runtime whose instances cannot be changed. -/
def runtime (name : String) (fields : List String) : RecordClass :=
  ⟨⟨.native name, name, "concordium_derive.runtime.context"⟩, fields, .named true none, []⟩

/-- What is known about the chain. -/
def chainMetadata : RecordClass := runtime "ChainMetadata" ["slot_time"]

/-- The context of a function that sets up a contract. -/
def initContext : RecordClass :=
  runtime "InitContext" ["metadata", "init_origin", "parameter"]

/-- The context of a function that receives messages. -/
def receiveContext : RecordClass :=
  runtime "ReceiveContext"
    ["metadata", "invoker", "self_address", "self_balance", "sender", "owner", "parameter"]

end RecordClass

namespace Host

/-- What the host tells about the chain. -/
def metadata (h : Host) : Value := .record .chainMetadata [.int h.slotTime]

/-- The context of a call. -/
def context (h : Host) : EntryKind → Value
  | .init => .record .initContext [h.metadata, .bytes h.invoker, .bytes h.parameter]
  | .receive =>
    .record .receiveContext
      [h.metadata, .bytes h.invoker, .contractAddress h.selfAddress.1 h.selfAddress.2,
       .int h.selfBalance, h.sender.value, .bytes h.owner, .bytes h.parameter]

/-- The parameter as a codec reads it. -/
def parseParameter (h : Host) (c : Codec) : Except Fault Value :=
  match c.decode h.parameter with
  | .ok v => .ok (.ok v)
  | .error f => if f.isWire then .ok (.err (.fault f)) else .error f

end Host

end ContractKit
