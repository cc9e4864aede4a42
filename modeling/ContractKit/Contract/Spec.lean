import ContractKit.Attribute.Basic

/-!
# `Contract/Spec.lean`: the options of an entry point

The attributes of an entry point say which contract it belongs to, under which name it is received,
what it takes beside its context, and of what type its parameter is. `Spec.ofAttributes` accepts the
lists that say each of these as it has to be said, in any order; everything wrong with the others is
reported together, after the names that an entry point does not have.
-/

set_option autoImplicit false

namespace ContractKit

/-- The two kinds of entry point. -/
inductive EntryKind
  /-- Sets up a contract and its first state. -/
  | init
  /-- Handles a message to a contract. -/
  | receive
  deriving DecidableEq, Repr

namespace EntryKind

def word : EntryKind → String
  | init => "init"
  | receive => "receive"

/-- The place of the attributes of a kind. -/
def site : EntryKind → Attribute.Site
  | init => .init
  | receive => .receive

end EntryKind

/-- The type of the parameter of an entry point, as its attributes give it. A name is resolved when the
schema is asked for and no sooner, so that the class may be declared after the function. -/
inductive ParameterType
  /-- The name of a class, which may be declared after the entry point. -/
  | named (name : String)
  | given (type : Ty)

/-- The options of an entry point: what it belongs to, what it is called by, and what it is handed beside
its context. They are complete when there is a spec at all, since whatever is missing was reported. -/
structure Spec where
  kind : EntryKind
  contract : String
  /-- The name under which messages are received. -/
  receiveName : Option String
  payable : Bool
  enableLogger : Bool
  /-- Whether the function works on the bytes of the state. -/
  lowLevel : Bool
  parameter : Option ParameterType

namespace Spec

/-- The name under which the entry point is exported. -/
def exportName (spec : Spec) : String :=
  match spec.kind with
  | .init => "init_" ++ spec.contract
  | .receive => spec.contract ++ "." ++ spec.receiveName.getD ""

/-- The arguments that the function has to take, in order. -/
def requiredArgs (spec : Spec) : List String :=
  [match spec.kind with
    | .init => "ctx: InitContext"
    | .receive => "ctx: ReceiveContext"]
  ++ (if spec.payable then ["amount: Amount"] else [])
  ++ (if spec.enableLogger then ["logger: Logger"] else [])
  ++ (if spec.lowLevel then ["state: ContractState"]
      else match spec.kind with
        | .receive => ["state: State"]
        | .init => [])

/-- The text about a missing contract name. -/
def missingContract : EntryKind → String
  | .init =>
    "A name for the contract must be provided, using the contract attribute. For example, @init(contract=\"my-contract\")"
  | .receive =>
    "The name of the associated contract must be provided, using the 'contract' attribute.\n\nFor example, @receive(contract=\"my-contract\")"

/-- The text about a missing name of a receive function. -/
def missingReceiveName : String :=
  "A name for the receive function must be provided, using the 'name' attribute.\n\nFor example, @receive(name=\"func-name\", ...)"

/-- The text of an attribute that has to be given. -/
def requiredText (name : String) (attrs : List Attribute) (missing : String) (span : Span) :
    Except Report String :=
  match Attribute.findText? name attrs with
  | .ok (some s) => .ok s
  | .ok none => .error (.single missing span)
  | .error report => .error report

/-- The name under which messages are received, which a receive function has to give. -/
def receiveNameOf (kind : EntryKind) (attrs : List Attribute) (span : Span) :
    Except Report (Option String) :=
  match kind with
  | .init => .ok none
  | .receive => (requiredText "name" attrs missingReceiveName span).map some

/-- The type of the parameter, if it is given. -/
def parameterOf (attrs : List Attribute) (span : Span) : Except Report (Option ParameterType) :=
  match Attribute.findValue? "parameter" attrs with
  | .error report => .error report
  | .ok none => .ok none
  | .ok (some (.text name)) => .ok (some (.named name))
  | .ok (some v) =>
    match v, v.isClass with
    | .type t, true => .ok (some (.given t))
    | _, _ => .error (.single "The `parameter` attribute must be a class or the name of a class."
        (span.atAttribute "parameter"))

/-- The options that some attributes stand for. Names that are unknown at the site are reported by
themselves. After that every look-up is made, whatever became of those before it, and what they find
wrong is reported together. -/
def ofAttributes (kind : EntryKind) (attrs : List Attribute) (span : Span) : Except Report Spec := do
  Attribute.checkSite kind.site attrs
  let flag := fun name => Attribute.hasFlag name attrs
  let ((contract, receiveName), parameter, payable, enableLogger, lowLevel) ←
    Report.both
      (Report.both (requiredText "contract" attrs (missingContract kind) span)
        (receiveNameOf kind attrs span))
      (Report.both (parameterOf attrs span)
        (Report.both (flag "payable") (Report.both (flag "enable_logger") (flag "low_level"))))
  pure { kind, contract, receiveName, payable, enableLogger, lowLevel, parameter }

end Spec

end ContractKit
