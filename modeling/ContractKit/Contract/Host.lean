import ContractKit.Text.Quoted
import ContractKit.Value.Basic

/-!
# `Contract/Host.lean`: what a call can see and change

The host holds the circumstances of a call, the bytes of the contract's state, the events that were
logged and the actions that were registered. A call answers with a status: the handle of its action,
zero after setting a contract up, or a negative number when the call is rejected. When a call is
rejected or aborted the host is put back: its state as it was, and no more events and actions than
there were.
-/

set_option autoImplicit false

namespace ContractKit

/-- Who sends a message. -/
inductive Sender
  | account (address : Bytes)
  | contract (index subindex : Int)
  deriving DecidableEq, Repr

def Sender.value : Sender → Value
  | account address => .bytes address
  | contract index subindex => .contractAddress index subindex

/-- The address of no account. -/
def zeroAccount : Bytes := Bytes.zeros 32

/-- What a call can see and change. The first fields are its circumstances, which it can only look at; the
state, the events and the actions are what it leaves. Events and actions are those of all calls on the
host, oldest first. -/
structure Host where
  parameter : Bytes := []
  state : Bytes := []
  slotTime : Int := 0
  invoker : Bytes := zeroAccount
  /-- Who sent the message: the invoker, unless a contract passed it on. -/
  sender : Sender := .account invoker
  owner : Bytes := zeroAccount
  selfAddress : Int × Int := (0, 0)
  selfBalance : Int := 0
  events : List Bytes := []
  actions : List Action := []
  deriving DecidableEq, Repr

namespace Host

/-- The status of a rejected call. -/
def rejected : Int := -1

/-- Keep an action. Its handle is its place among the actions. -/
def register (h : Host) (a : Action) : Int × Host :=
  (h.actions.length, { h with actions := h.actions ++ [a] })

/-- Keep the action that a value is. -/
def registerValue (h : Host) (v : Value) : Except Fault Int × Host :=
  match v with
  | .action a =>
    let (handle, h) := h.register a
    (.ok handle, h)
  | v => (.error (.refused (.expectedAction v.className)), h)

/-- The host after a failed call: the state of before, and the events and actions of before. -/
def rollback (before after : Host) : Host :=
  { after with
    state := before.state
    events := after.events.take before.events.length
    actions := after.actions.take before.actions.length }

/-- The host after a call with a status. A rejected or aborted call is undone; one that was left by a fault
of another kind is not, and the host is as the fault found it. -/
def settled (before after : Host) : Except Fault Int → Host
  | .ok status => if status < 0 then before.rollback after else after
  | .error f => if f.isTrap then before.rollback after else after

/-- The host as messages show it. -/
def shown (h : Host) : String :=
  s!"Host(state={Text.quoted h.state.hex}, events={h.events.length}, actions={h.actions.length})"

/-! ## Logging -/

/-- The most bytes that an event may have. -/
def maxEventSize : Nat := 512

/-- The number of events at which the log is full. -/
def maxEvents : Nat := 64

/-- The class of what is wrong with an event. -/
def logError : ClassRef := ⟨.native "LogError", "LogError", "concordium_derive.runtime.logger"⟩

/-- Log an event. An event that is too large is refused, and so is any event when the log is full. -/
def log (h : Host) (event : Bytes) : Value × Host :=
  if maxEventSize < event.length then (.err (.member logError "MALFORMED" none), h)
  else if maxEvents ≤ h.events.length then (.err (.member logError "FULL" none), h)
  else (.ok .none, { h with events := h.events ++ [event] })

/-- Log an event a number of times. The answer is the last one. -/
def logTimes (h : Host) (event : Bytes) : Nat → Value × Host
  | 0 => (.none, h)
  | 1 => h.log event
  | n + 1 => (h.log event).2.logTimes event n

end Host

end ContractKit
