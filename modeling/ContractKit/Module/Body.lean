import ContractKit.Codec.OfType
import ContractKit.Contract.Context
import ContractKit.Contract.Store
import ContractKit.Module.Eval
import ContractKit.Value.Result

/-!
# `Module/Body.lean`: running the body of a function

A body runs statement by statement in a frame: the host, the variables and the state that the function
was handed, and the trace of what it observed. A statement that raises a fault ends the body unless an
`attempt` around it holds the fault back, which it does with ordinary faults only. What the frame held
when the fault was raised is kept.
-/

set_option autoImplicit false

namespace ContractKit

open Source

/-- Something that a body observed: a value, the answers of a stream, or a fault that an `attempt` held
back. Observations are for whoever watches the run; no result depends on them. -/
inductive Observation
  | value (v : Value)
  | answers (steps : List (Except Fault StreamResult))
  | fault (f : Fault)

/-- The state that a function was handed: a value, which is written back as a whole when the call
succeeds, or the bytes themselves, which it changes in place. -/
inductive HeldState
  | nothing
  /-- A value under the name of a variable, or a reference to it. -/
  | typed (name : String) (byRef : Bool) (v : Value)
  /-- The bytes of the host's state with a cursor. -/
  | raw (cursor : Int)

/-- Where a body runs, and what it leaves when it ends, with a result or with a fault. What it observed is
kept for whoever watches the run; nothing that the body does depends on it. -/
structure Frame where
  host : Host
  /-- Latest first. -/
  locals : List (String × Value)
  state : HeldState
  /-- Whether the function was handed a logger. -/
  logs : Bool
  /-- Latest first. -/
  trace : List Observation := []

/-- A run of statements in a frame. -/
abbrev Body := ExceptT Fault (StateM Frame)

namespace Frame

/-- Where values in the body are evaluated. -/
def scope (m : Module) (frame : Frame) : Scope :=
  { module := m
    locals :=
      match frame.state with
      | .typed name _ v => frame.locals ++ [(name, v)]
      | _ => frame.locals }

/-- What contract code sees of the frame. -/
def view (frame : Frame) : View :=
  { locals := frame.locals
    parameter := frame.host.parameter
    state :=
      match frame.state with
      | .typed _ _ v => some v
      | _ => none }

end Frame

namespace Body

def observe (o : Observation) : Body Unit :=
  modify fun frame => { frame with trace := o :: frame.trace }

def bind (name : String) (v : Value) : Body Unit :=
  modify fun frame => { frame with locals := (name, v) :: frame.locals }

def ofExcept {α : Type} (outcome : Except Fault α) : Body α :=
  match outcome with
  | .ok a => pure a
  | .error f => throw f

def value (m : Module) (e : Expr) : Body Value := do
  ofExcept ((← get).scope m |>.value e)

def codec (m : Module) (t : TypeExpr) : Body Codec := do
  let ty ← ofExcept ((← get).scope m |>.type t)
  ofExcept (Codec.ofType m.facts ty)

/-- The last answer to an event that is logged a number of times. -/
def logged (event : Bytes) (times : Nat) : Body Value := do
  let frame ← get
  let (answer, host) := frame.host.logTimes event times
  set { frame with host }
  pure answer

/-- Log an event a number of times and observe the last answer. -/
def log (event : Bytes) (times : Nat) : Body Unit := do
  observe (.value (← logged event times))

/-- Refuse to log without a logger. -/
def ensureLogs : Body Unit := do
  unless (← get).logs do throw (.raised .key "logger")

/-- What reading the parameter as a type gives. -/
def parameter (m : Module) (t : TypeExpr) : Body Value := do
  let c ← codec m t
  ofExcept ((← get).host.parseParameter c)

/-! ## The state -/

/-- The value with a field changed. -/
def withField (field : String) (v : Value) (state : Value) : Except Fault Value :=
  match state with
  | .record cls _ =>
    match cls.form with
    | .named true _ =>
      .error (.raised (.other "FrozenInstanceError") s!"cannot assign to field '{field}'")
    | .named false _ => .ok ((Value.setField? field v state).getD state)
    | .positional => .error (.raised .missingMember field)
  | _ => .error (.raised .missingMember field)

def withItem (v : Value) : Value → Except Fault Value
  | .list items => .ok (.list (items ++ [v]))
  | _ => .error (.raised .missingMember "append")

def withEntry (key v : Value) : Value → Except Fault Value
  | .dict entries =>
    if key.isHashable then .ok (.dict (Value.insertEntry entries key v)) else .error .unhashable
  | state =>
    .error (.raised .type s!"'{state.className}' object does not support item assignment")

def change (f : Value → Except Fault Value) : Body Unit := do
  let frame ← get
  match frame.state with
  | .typed name byRef v =>
    let v ← ofExcept (f v)
    set { frame with state := .typed name byRef v }
  | _ => throw (.raised .missingMember "state")

/-- Replace the value of the state, which takes a reference to it. -/
def replace (v : Value) : Body Unit := do
  match (← get).state with
  | .typed _ true _ => change fun _ => .ok v
  | _ => change (withField "value" v)

/-- Operate on the bytes of the state. They are the host's own, so the change is made at once, and a
call that fails later has to be undone by the host. -/
def store {α : Type} (operation : Store → α × Store) : Body α := do
  let frame ← get
  match frame.state with
  | .raw cursor =>
    let (answer, store) := operation ⟨frame.host.state, cursor⟩
    set { frame with host := { frame.host with state := store.bytes }, state := .raw store.cursor }
    pure answer
  | _ => throw (.raised .missingMember "state")

/-- Operate on the bytes of the state step by step, and observe the answers. -/
def raw (steps : List (Except Fault (StreamStep Value))) : Body Unit := do
  observe (.answers (← store fun s => runSteps Store.step s steps))

/-- Operations with the values that are written evaluated. -/
def steps (m : Module) (operations : List (StreamStep Expr)) :
    Body (List (Except Fault (StreamStep Value))) := do
  let scope := (← get).scope m
  pure (operations.map fun operation => operation.mapM scope.value)

/-! ## Statements -/

/-- Whether two values compare as asked. -/
def holds (comparison : Comparison) (a b : Value) : Except Fault Bool :=
  match comparison with
  | .equal => .ok (a.beq b)
  | .greater =>
    match Value.lt? b a with
    | some r => .ok r
    | none => .error .unordered

/-- Run contract code of any kind. Each operation is the one that the statements for it use, so what is
shown of them is shown of all code. -/
def interact : Interaction → Body (Option Value)
  | .done result => pure result
  | .fail kind text => throw (.ofKind kind text)
  | .look next => do interact (next (← get).view)
  | .log event next => do
    ensureLogs
    interact (next (← logged event 1))
  | .operate step next => do interact (next (← store fun s => s.step step))
  | .change v next => do
    change fun _ => .ok v
    interact next

mutual

/-- Run a statement. A value is what the body returns with, and ends it; without one the body goes on
with the next statement. -/
def stmt (m : Module) : Stmt → Body (Option Value)
  | .observe e => do
    observe (.value (← value m e))
    pure none
  | .log e as => do
    ensureLogs
    let v ← value m e
    let c ← match as with
      | some t => codec m t
      | none => ofExcept (Codec.ofType m.facts v.ownType)
    let event ← ofExcept (c.encode v)
    log event 1
    pure none
  | .logBytes e times => do
    ensureLogs
    match ← value m e with
    | .bytes event => log event times
    | .text _ => throw (.raised .type "string argument without an encoding")
    | v => throw v.sizeFault
    pure none
  | .parse t => do
    observe (.value (← parameter m t))
    pure none
  | .parseOrReject t => do
    match ← parameter m t with
    | .ok v =>
      bind "param" v
      pure none
    | outcome =>
      observe (.value outcome)
      pure (some (.err (.text "malformed parameter")))
  | .parseOrFail t message => do
    match Result.ofValue? (← parameter m t) with
    | some result =>
      bind "param" (← ofExcept (match message with
        | some text => result.expect text
        | none => result.unwrap))
    | none => pure ()
    pure none
  | .showState => do
    match (← get).state with
    | .typed _ true v => observe (.value (.text ("StateRef(" ++ v.shown ++ ")")))
    | .typed _ false v => observe (.value (.text v.shown))
    | _ => throw (.raised .key "state")
    pure none
  | .cursor operations => do
    let operations ← steps m operations
    let (answers, _) := runSteps Reader.step ⟨(← get).host.parameter⟩ operations
    observe (.answers answers)
    pure none
  | .raw operations => do
    raw (← steps m operations)
    pure none
  | .set field e => do
    let v ← value m e
    change (withField field v)
    pure none
  | .replace e => do
    replace (← value m e)
    pure none
  | .push e => do
    let v ← value m e
    change (withItem v)
    pure none
  | .put key e => do
    let k ← value m key
    let v ← value m e
    change (withEntry k v)
    pure none
  | .onlyIf comparison left right body => do
    let a ← value m left
    let b ← value m right
    if ← ofExcept (holds comparison a b) then stmts m body else pure none
  | .attempt body => fun frame =>
    match (stmts m body).run frame with
    | (.ok result, frame) => (.ok result, frame)
    | (.error f, frame) =>
      if f.isOrdinary then (.ok none, { frame with trace := .fault f :: frame.trace })
      else (.error f, frame)
  | .raise kind message => throw (.ofCode kind message)
  | .trap reason => throw (.trap (.byContract reason) none)
  | .act code => interact code
  | .ret e => do
    pure (some (← value m e))

def stmts (m : Module) : List Stmt → Body (Option Value)
  | [] => pure none
  | s :: rest => do
    match ← stmt m s with
    | some v => pure (some v)
    | none => stmts m rest

end

end Body

/-- What a body returns, and the frame that it leaves. -/
def FunctionEntry.run (m : Module) (fn : FunctionEntry) (frame : Frame) :
    Except Fault Value × Frame :=
  match (Body.stmts m fn.body).run frame with
  | (.ok result, frame) => (.ok (result.getD .none), frame)
  | (.error f, frame) => (.error f, frame)

end ContractKit
