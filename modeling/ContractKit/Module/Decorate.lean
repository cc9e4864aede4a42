import ContractKit.Module.Eval
import ContractKit.Schema.Binary
import ContractKit.Settings
import ContractKit.Shape.Derived
import ContractKit.Shape.OfClass

/-!
# `Module/Decorate.lean`: deriving and exporting

A decorator derives a codec or a schema for a class, or records an export on a class or a function. It
works with what is known when it is applied: the names bound so far, and what was derived so far. The
shape of a class is found once and kept. With schemas switched off the decorators for schemas change
nothing, and what is derived and exported beside them is the same.

Settings that could not be loaded are a fault of the first decorator that asks for them, and of no
other one.
-/

set_option autoImplicit false

namespace ContractKit

open Source

/-- Something that decorators are applied to. They stand one above the other, the nearest applied first, so
what one of them gives is what the next is applied to. -/
inductive Decorated
  | cls (place : Nat)
  | function (place : Nat)
  /-- A function that is none of the module's own. -/
  | foreign (name : String)

namespace Decorated

/-- What a name is bound to that stands for it. -/
def binding : Decorated → Binding
  | cls place => .cls place
  | function place => .function place
  | foreign name => .value (.type (.object name))

/-- Its name in reports. -/
def name (m : Module) : Decorated → String
  | cls place => ((m.classes[place]?).map (·.ref.name)).getD ""
  | function place => ((m.functions[place]?).map (·.name)).getD ""
  | foreign name => name

/-- Its place in reports. -/
def span (m : Module) (d : Decorated) : Span := { item := d.name m }

end Decorated

/-- A report of one problem as a fault. -/
def problem {α : Type} (message : String) (span : Span) : Except Fault α :=
  .error (.derive (.single message span))

/-- An outcome whose report is a fault. -/
def reported {α : Type} : Except Report α → Except Fault α
  | .ok a => .ok a
  | .error report => .error (.derive report)

namespace Module

/-! ## Codecs and schemas -/

/-- The shape of a class, as it was found before or as it is found now. -/
def shapeOf (m : Module) (entry : ClassEntry) : Except Fault Shape :=
  match entry.shape with
  | some shape => .ok shape
  | none => Shape.ofClass m.chars m.typeNamed entry.ref entry.form

def notAClass {α : Type} (m : Module) (d : Decorated) : Except Fault α :=
  problem "only classes can be derived" (d.span m)

/-- The class at a place, which decorators are applied to. -/
def classAt (m : Module) (d : Decorated) : Except Fault (Nat × ClassEntry) :=
  match d with
  | .cls place =>
    match m.classes[place]? with
    | some entry => .ok (place, entry)
    | none => notAClass m d
  | _ => notAClass m d

/-- Derive a codec for the given directions. The class is changed only when all of its fields have a
codec that can be used in them; otherwise the module is as it was. -/
def deriveCodec (m : Module) (directions : Directions) (d : Decorated) : Except Fault Module := do
  let (place, entry) ← m.classAt d
  let shape ← m.shapeOf entry
  let codec ← shape.codec m.facts directions
  pure (m.modifyClass place fun e =>
    { e with shape := some shape, facts := { e.facts with codec := some codec } })

/-- Derive a schema, unless schemas are switched off. What is wrong with the class for a schema alone
goes unnoticed then. -/
def deriveSchema (m : Module) (settings : LoadedSettings) (d : Decorated) : Except Fault Module := do
  if !(← settings).buildSchema then return m
  let (place, entry) ← m.classAt d
  let shape ← m.shapeOf entry
  let schema ← shape.schema m.facts
  pure (m.modifyClass place fun e =>
    { e with shape := some shape, facts := { e.facts with schema := some schema } })

/-! ## Exports -/

def attach (m : Module) (d : Decorated) (e : Export) : Module :=
  match d with
  | .cls place => m.modifyClass place fun c => { c with exports := c.exports ++ [e] }
  | .function place => m.modifyFunction place fun f => { f with exports := f.exports ++ [e] }
  | .foreign _ => m

/-- The arguments of a decorator, evaluated. -/
def arguments (m : Module) (a : Arguments) :
    Except Fault (List Value × List (String × Value)) := do
  let scope : Scope := { module := m }
  let items ← scope.values a.items
  let options ← scope.namedValues a.options
  pure (items, Scope.collapse options)

/-- The texts among the items of a decorator, all of which have to be texts. -/
def textItems (refusal : Value → Fault) : List Value → Except Fault (List String)
  | [] => .ok []
  | .text s :: rest => (textItems refusal rest).map (s :: ·)
  | v :: _ => .error (refusal v)

/-- Export the schema of a state, unless schemas are switched off. -/
def exportStateSchema (m : Module) (settings : LoadedSettings) (a : Arguments) (d : Decorated) :
    Except Fault Module := do
  let span := d.span m
  let (items, options) ← m.arguments a
  let texts ← textItems (fun v => .raised .type
    s!"expected string or bytes-like object, got '{v.className}'") items
  let attrs ← Attribute.collect m.chars span texts options
  reported (Attribute.checkSite .contractState attrs)
  match ← reported (Attribute.findText? "contract" attrs) with
  | none =>
    problem "A name for the contract must be provided, using the contract attribute. For example, @contract_state(contract=\"my-contract\")"
      span
  | some contract =>
    if !(← settings).buildSchema then return m
    let (_, entry) ← m.classAt d
    let schema ← match entry.facts.schema with
      | some schema => pure schema
      | none => do (← m.shapeOf entry).schema m.facts
    let data ← schema.encode
    pure (m.attach d
      ⟨"concordium_schema_state_" ++ contract, .schema, .stateSchema data, d.name m⟩)

/-- Export a function as a test, if tests are exported. -/
def exportTest (m : Module) (settings : LoadedSettings) (d : Decorated) : Except Fault Module := do
  match d with
  | .function place =>
    if (← settings).wasmTest then
      pure (m.attach d ⟨"concordium test " ++ d.name m, .test, .test place, d.name m⟩)
    else pure m
  | .foreign _ => pure m
  | .cls _ => problem "@concordium_test can only be applied to functions." (d.span m)

/-! ## Entry points -/

/-- The annotations of the arguments and the result of a function, with their names looked up and
without metadata. The result goes under the name `return`. -/
def hints (m : Module) (fn : FunctionEntry) (span : Span) : Except Fault (List (String × Ty)) :=
  let annotated := fn.params.filterMap (fun p => p.2.map fun t => (p.1, t))
    ++ (fn.returns.map fun t => ("return", t)).toList
  let resolved := annotated.mapM fun (name, t) => do
    let t ← t.resolveHint m.typeNamed
    pure (name, t.withoutMetadata)
  match resolved with
  | .ok hints => .ok hints
  | .error f => problem ("cannot resolve the state type: " ++ f.text) span

/-- The type of the value that a result annotation promises. -/
def okType? (t : Ty) : Option Ty :=
  let candidates := match t with
    | .union _ members => members
    | t => [t]
  candidates.findSome? fun
    | .ok value => some value
    | _ => none

/-- The codec of a state, which has to be readable and writable. -/
def stateCodec (m : Module) (t : Ty) (span : Span) : Except Fault Codec := do
  let codec ← locate span (Codec.ofType m.facts t)
  if codec.canWrite && codec.canRead then pure codec
  else problem s!"the contract state {t.shown} must derive @serialize" span

/-- How the state of a function that sets up a contract is written. -/
def initState (m : Module) (fn : FunctionEntry) (span : Span) : Except Fault StatePlan := do
  let hints ← m.hints fn span
  let refuse : Except Fault StatePlan :=
    problem "the return type of an init function must be annotated as `Ok[State] | Err[...]`" span
  match (hints.lookup "return").bind okType? with
  | none => refuse
  | some .noneType => refuse
  | some t => do
    let codec ← m.stateCodec t span
    pure ⟨codec, false⟩

/-- How the state of a function that receives messages is read and written. -/
def receiveState (m : Module) (fn : FunctionEntry) (span : Span) : Except Fault StatePlan := do
  let hints ← m.hints fn span
  let argument := ((fn.params.map (·.1)).getLast?).getD ""
  match hints.lookup argument with
  | none =>
    problem s!"the `{argument}` argument must be annotated with the type of the contract state" span
  | some (.stateRef t) => do
    let codec ← m.stateCodec t span
    pure ⟨codec, true⟩
  | some t =>
    if t.isImmutable m.facts then
      problem
        s!"the contract state {t.shown} cannot be changed in place, annotate the `{argument}` argument as StateRef[{t.shown}]"
        span
    else do
      let codec ← m.stateCodec t span
      pure ⟨codec, false⟩

/-- How the state of an entry point is read and written; there is no plan for the bytes of it. -/
def statePlan (m : Module) (spec : Spec) (fn : FunctionEntry) (span : Span) :
    Except Fault (Option StatePlan) :=
  if spec.lowLevel then .ok none
  else
    match spec.kind with
    | .init => (m.initState fn span).map some
    | .receive => (m.receiveState fn span).map some

/-- Export a function as an entry point, with the schema of its parameter beside it. The attributes are
looked up first, then the arguments are counted, and only then the state is planned. -/
def exportEntryPoint (m : Module) (settings : LoadedSettings) (kind : EntryKind) (items : List Value)
    (options : List (String × Value)) (d : Decorated) : Except Fault Module := do
  let span := d.span m
  let refuse : Except Fault Module :=
    problem s!"@{kind.word} can only be applied to functions." span
  match d with
  | .function place =>
    match m.functions[place]? with
    | none => refuse
    | some fn =>
      let texts ← textItems (fun v => .derive (.single
        s!"@{kind.word} items must be strings, got {v.shown}" span)) items
      let attrs ← Attribute.collect m.chars span texts options
      let spec ← reported (Spec.ofAttributes kind attrs span)
      if fn.params.length ≠ spec.requiredArgs.length then
        let expected := ", ".intercalate spec.requiredArgs
        problem
          s!"Incorrect number of function arguments, the expected arguments are ({expected})" span
      else
        let plan ← m.statePlan spec fn span
        let exported := match kind with
          | .init => ExportKind.init
          | .receive => ExportKind.receive
        let m := m.attach d
          ⟨spec.exportName, exported, .entryPoint spec place plan, fn.name⟩
        match spec.parameter with
        | none => pure m
        | some parameter =>
          if (← settings).buildSchema then
            pure (m.attach d
              ⟨"concordium_schema_function_" ++ spec.exportName, .schema,
                .parameterSchema parameter, fn.name⟩)
          else pure m
  | _ => refuse

/-- The name of what an entry point decorator without arguments makes of a class. -/
def pendingDecorator : String := "_entry_point_decorator.<locals>.decorator"

/-- Apply a decorator. What stands for the item afterwards is another thing in one case: a decorator
of entry points that is given no arguments takes a class for the first of them. -/
def decorate (m : Module) (settings : LoadedSettings) (d : Decorated) :
    Decorator → Except Fault (Module × Decorated)
  | .codec directions => do pure (← m.deriveCodec directions d, d)
  | .schema => do pure (← m.deriveSchema settings d, d)
  | .test => do pure (← m.exportTest settings d, d)
  | .contractState a => do pure (← m.exportStateSchema settings a d, d)
  | .entryPoint kind none =>
    match d with
    | .cls _ => .ok (m, .foreign pendingDecorator)
    | d => do pure (← m.exportEntryPoint settings kind [] [] d, d)
  | .entryPoint kind (some a) => do
    let (items, options) ← m.arguments a
    pure (← m.exportEntryPoint settings kind items options d, d)

def decorateAll (settings : LoadedSettings) :
    Module → Decorated → List Decorator → Except Fault (Module × Decorated)
  | m, d, [] => .ok (m, d)
  | m, d, decorator :: rest => do
    let (m, d) ← m.decorate settings d decorator
    decorateAll settings m d rest

/-! ## The table -/

/-- The exports recorded on what names are bound to, each thing visited at its first name. A thing is
known again by its place, so another name for it adds nothing. -/
def exports (m : Module) : List Export :=
  let rec visit (seen : List (Bool × Nat)) : Names → List Export
    | [] => []
    | (_, .cls place) :: rest =>
      if seen.contains (true, place) then visit seen rest
      else ((m.classes[place]?).map (·.exports)).getD [] ++ visit ((true, place) :: seen) rest
    | (_, .function place) :: rest =>
      if seen.contains (false, place) then visit seen rest
      else ((m.functions[place]?).map (·.exports)).getD [] ++ visit ((false, place) :: seen) rest
    | (_, .value _) :: rest => visit seen rest
  visit [] m.names

def exportTable (m : Module) : Except Report ExportTable := ExportTable.ofExports m.exports

end Module

end ContractKit
