import ContractKit.Module.Body
import ContractKit.Schema.Binary
import ContractKit.Schema.OfType

/-!
# `Module/EntryPoint.lean`: calling an exported function

An entry point runs in steps. The context is opened. A call with an amount is rejected unless the
function takes one. The state is read, for a function that receives messages and declares its state.
The function runs, and a fault that escapes from it aborts the call. Its result is checked: an error
rejects the call, anything that is no result aborts it, and so does a result that holds no action where
one is due. The state is written back, as a whole and only after it has been encoded, and last the
action is registered.

`Call.invoke` makes a call through the host, which undoes it when it does not succeed.
-/

set_option autoImplicit false

namespace ContractKit

/-- What a call leaves: its status, or the fault that it ended with, the host, and what the function
observed. A status below zero says that the call was rejected. -/
structure Call where
  status : Except Fault Int
  host : Host
  /-- What the function observed, latest first. -/
  trace : List Observation := []

namespace Call

/-- The call as the host makes it. -/
def invoke (before : Host) (call : Call) : Call :=
  { call with host := before.settled call.host call.status }

end Call

namespace EntryPoint

/-- The fault that leaves a function: an ordinary one as the cause of an aborted call, any other as it
is. -/
def escaped (fn : FunctionEntry) (f : Fault) : Fault :=
  if f.isOrdinary then .trap (.unhandled f.kind fn.name) (some f) else f

/-- The state that a store holds, all of it. A bad value aborts the call with that as its cause; any
other fault passes through. -/
def readState (plan : StatePlan) (data : Bytes) : Except Fault Value :=
  let (outcome, store) := Store.run ⟨data, 0⟩ plan.codec.read
  let outcome := do
    let v ← outcome
    store.finalize
    pure v
  match outcome with
  | .ok v => .ok v
  | .error f => .error (if f.isBadValue then .trap .unreadableState (some f) else f)

/-- The bytes of a state. They are made in full before any of them is stored, so a state that cannot be
written leaves the one before it in place. -/
def encodeState (plan : StatePlan) (v : Value) : Except Fault Bytes :=
  match plan.codec.encode v with
  | .ok data => .ok data
  | .error f => .error (if f.isBadValue then .trap .unwritableState (some f) else f)

/-- The host with its state overwritten from the start and cut after it. -/
def commit (h : Host) (data : Bytes) : Host :=
  let store := ((⟨h.state, 0⟩ : Store).write data).truncate none
  { h with state := store.bytes }

/-- What a function returned, as a result that succeeded with a value or failed. -/
def resultOf (fn : FunctionEntry) (v : Value) : Except Fault (Option Value) :=
  match v with
  | .ok v => .ok (some v)
  | .err _ => .ok none
  | v => .error (.trap (.notAResult fn.name v.className) none)

/-- The action that a value is. -/
def actionOf (fn : FunctionEntry) (v : Value) : Except Fault Action :=
  match v with
  | .action a => .ok a
  | v => .error (.trap (.notAnAction fn.name v.className) none)

/-- The arguments before the state, and whether a logger is among them. -/
def leadingArguments (spec : Spec) (amount : Value) (h : Host) : List Value :=
  [h.context spec.kind]
  ++ (if spec.payable then [amount] else [])
  ++ (if spec.enableLogger then [.handle "Logger"] else [])

/-- The frame in which a function starts. -/
def frame (spec : Spec) (fn : FunctionEntry) (amount : Value) (state : HeldState) (h : Host) :
    Frame :=
  let arguments := leadingArguments spec amount h ++
    (match state with
      | .raw _ => [.handle "ContractState"]
      | _ => [])
  { host := h
    locals := (fn.params.map (·.1)).zip arguments
    state
    logs := spec.enableLogger }

/-- Register the action of a successful call. -/
def finish (spec : Spec) (fn : FunctionEntry) (v : Value) (h : Host) : Except Fault Int × Host :=
  match spec.kind with
  | .init => (.ok 0, h)
  | .receive =>
    match actionOf fn v with
    | .error f => (.error f, h)
    | .ok a =>
      let (handle, h) := h.register a
      (.ok handle, h)

/-- The status of a function that works on the bytes of the state. -/
def settleRaw (spec : Spec) (fn : FunctionEntry) (v : Value) (h : Host) : Except Fault Int × Host :=
  match resultOf fn v with
  | .error f => (.error f, h)
  | .ok none => (.ok Host.rejected, h)
  | .ok (some v) => finish spec fn v h

/-- The status of a function that gives the first state. -/
def settleInit (fn : FunctionEntry) (plan : StatePlan) (v : Value) (h : Host) :
    Except Fault Int × Host :=
  match resultOf fn v with
  | .error f => (.error f, h)
  | .ok none => (.ok Host.rejected, h)
  | .ok (some v) =>
    match encodeState plan v with
    | .error f => (.error f, h)
    | .ok data => (.ok 0, { h with state := data })

/-- The status of a function that was handed a state, given what the state is in the end. The result and
its action are checked before the state is encoded, and it is stored last of all. -/
def settleReceive (fn : FunctionEntry) (plan : StatePlan) (state : Value) (v : Value) (h : Host) :
    Except Fault Int × Host :=
  match resultOf fn v with
  | .error f => (.error f, h)
  | .ok none => (.ok Host.rejected, h)
  | .ok (some v) =>
    match actionOf fn v with
    | .error f => (.error f, h)
    | .ok a =>
      match encodeState plan state with
      | .error f => (.error f, h)
      | .ok data =>
        let (handle, h) := (commit h data).register a
        (.ok handle, h)

/-- The call of a function with a state, settled by what it returns and the state it leaves. -/
def run (m : Module) (spec : Spec) (fn : FunctionEntry) (amount : Value) (state : HeldState)
    (settle : Value → HeldState → Host → Except Fault Int × Host) (h : Host) : Call :=
  match fn.run m (frame spec fn amount state h) with
  | (.error f, left) => ⟨.error (escaped fn f), left.host, left.trace⟩
  | (.ok v, left) =>
    let (status, host) := settle v left.state left.host
    ⟨status, host, left.trace⟩

def lastParam (fn : FunctionEntry) : String := ((fn.params.map (·.1)).getLast?).getD ""

/-- The call of an entry point by itself. Nothing is undone here: a call that does not succeed leaves
the host as the function left it, and `Call.invoke` is what undoes it. -/
def call (m : Module) (spec : Spec) (fn : FunctionEntry) (plan? : Option StatePlan) (amount : Value)
    (h : Host) : Call :=
  if !spec.payable && !amount.beq (.int 0) then ⟨.ok Host.rejected, h, []⟩
  else
    match spec.kind, plan? with
    | _, none => run m spec fn amount (.raw 0) (fun v _ h => settleRaw spec fn v h) h
    | .init, some plan =>
      run m spec fn amount .nothing (fun v _ h => settleInit fn plan v h) h
    | .receive, some plan =>
      match readState plan h.state with
      | .error f => ⟨.error f, h, []⟩
      | .ok state =>
        run m spec fn amount (.typed (lastParam fn) plan.byRef state)
          (fun v held h =>
            let state := match held with
              | .typed _ _ state => state
              | _ => state
            settleReceive fn plan state v h) h

end EntryPoint

namespace Module

/-- The type of a parameter, a name being looked up now. -/
def parameterType (m : Module) : ParameterType → Except Fault Ty
  | .given t => .ok t
  | .named name =>
    match m.names.lookup name with
    | some b => .ok (annotationOf (m.valueOf b))
    | none =>
      .error (.raised .unboundName
        s!"parameter type {Text.quoted name} is not defined in contract")

/-- The fault of more arguments in a call than a function takes. -/
def excessArguments (callee : String) (taken given : Nat) : Fault :=
  .raised .type (s!"{callee}() takes {taken} positional argument"
    ++ (if taken = 1 then "" else "s") ++ s!" but {given} were given")

/-- The number that a value is when it is taken for a status. -/
def statusOf (v : Value) : Except Fault Int :=
  match v.number? with
  | some n => .ok n
  | none => .error .unordered

/-- Call a function by itself, with the host and an amount. -/
def callPlain (m : Module) (fn : FunctionEntry) (amount : Value) (h : Host) : Call :=
  match fn.params.map (·.1) with
  | [first, second] =>
    let locals := [(first, .handle "Host"), (second, amount)]
    let (outcome, left) := fn.run m ⟨h, locals, .nothing, false, []⟩
    ⟨outcome.bind statusOf, left.host, left.trace⟩
  | _ :: _ :: missing => ⟨.error (missingArguments (fn.name ++ "()") missing), h, []⟩
  | params => ⟨.error (excessArguments fn.name params.length 2), h, []⟩

def stateSchemaName : String := "contract_state.<locals>.decorator.<locals>.state_schema"

def parameterSchemaName : String := "_make_parameter_schema_export.<locals>.parameter_schema"

/-- The value that an export gives when it is called with a host, and what the call leaves. Exports of
schemas take no arguments, so for them this is a fault. -/
def callExport (m : Module) (e : Export) (amount : Value) (h : Host) : Call :=
  match e.body with
  | .entryPoint spec function plan =>
    match m.functions[function]? with
    | some fn => EntryPoint.call m spec fn plan amount h
    | none => ⟨.ok Host.rejected, h, []⟩
  | .stateSchema _ => ⟨.error (excessArguments stateSchemaName 0 2), h, []⟩
  | .parameterSchema _ => ⟨.error (excessArguments parameterSchemaName 0 2), h, []⟩
  | .test function =>
    match m.functions[function]? with
    | some fn => m.callPlain fn amount h
    | none => ⟨.ok Host.rejected, h, []⟩

/-- The value that an export gives when it is called with nothing, and what it observes. -/
def runExport (m : Module) (e : Export) (h : Host) : Except Fault Value × List Observation :=
  match e.body with
  | .entryPoint .. => (.error (missingArguments (e.name ++ "()") ["host", "amount"]), [])
  | .stateSchema data => (.ok (.bytes data), [])
  | .parameterSchema parameter =>
    ((do
      let t ← m.parameterType parameter
      let s ← Schema.ofType m.facts t
      let data ← s.encode
      pure (.bytes data)), [])
  | .test function =>
    match m.functions[function]? with
    | some fn =>
      match fn.params.map (·.1) with
      | [] =>
        let (outcome, frame) := fn.run m ⟨h, [], .nothing, false, []⟩
        (outcome, frame.trace)
      | params => (.error (missingArguments (fn.name ++ "()") params), [])
    | none => (.ok .none, [])

/-- The schema that an export gives when it is called with nothing. -/
def schemaGiven (m : Module) (e : Export) (h : Host) : Except Fault Schema := do
  match ← (m.runExport e h).1 with
  | .bytes data => Schema.decode data
  | v => throw (.raised .type s!"memoryview: a bytes-like object is required, not '{v.className}'")

/-- The name of the function behind an export. -/
def functionName (m : Module) (e : Export) : String :=
  match e.body with
  | .entryPoint .. => e.name
  | .stateSchema _ => "state_schema"
  | .parameterSchema _ => "parameter_schema"
  | .test function => ((m.functions[function]?).map (·.name)).getD ""

end Module

end ContractKit
