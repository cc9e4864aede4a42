import ContractKit.Diagnostic
import ContractKit.Wire.Error

/-!
# `Fault.lean`: everything that can go wrong

A fault is a cause. Its `kind` is the word under which it is reported and by which other parts of
the library decide whether they handle it; its `message` is the text shown with it.

The causes come in groups: bytes that cannot be read or written (`WireError`), values that a codec
refuses (`Refusal`), type annotations without a codec or schema (`TypeIssue`), reports about
declarations (`Report`), settings that cannot be loaded (`SettingsIssue`), aborted calls (`trap`), and
faults raised by contract code under a kind of its own choice (`raised`).
-/

set_option autoImplicit false

namespace ContractKit

/-- What a kind of fault is a case of. Handlers that do not name the kind itself go by this. -/
inductive Lineage
  /-- A way to leave the program or the call, which handlers of ordinary faults do not hold back. -/
  | exit
  | ordinary
  /-- A value of the wrong type. -/
  | type
  /-- A value out of range. -/
  | value
  deriving DecidableEq, Repr

/-- The word under which a fault is reported. Kinds that no part of the library raises are known by
their name and by what they are a case of. -/
inductive FaultKind
  | derive
  | wire (family : WireFamily)
  | trap
  | type
  | value
  | assertion
  | key
  | unboundName
  | overflow
  | syntaxError
  | missingMember
  | unicode
  | recursion
  | missingModule
  | unwrap
  | validation
  | other (name : String) (lineage : Lineage := .ordinary)
  deriving DecidableEq, Repr

namespace FaultKind

/-- The kinds with a fixed word, each beside its word. -/
def words : List (FaultKind × String) :=
  [(.derive, "DeriveError"), (.wire .general, "SerializationError"),
   (.wire .unsupported, "UnsupportedTypeError"), (.wire .tooLong, "TooLongError"),
   (.wire .outOfData, "OutOfDataError"), (.wire .badData, "BadDataError"), (.trap, "ContractTrap"),
   (.type, "TypeError"), (.value, "ValueError"), (.assertion, "AssertionError"), (.key, "KeyError"),
   (.unboundName, "NameError"), (.overflow, "OverflowError"), (.syntaxError, "SyntaxError"),
   (.missingMember, "AttributeError"), (.unicode, "UnicodeError"), (.recursion, "RecursionError"),
   (.missingModule, "ModuleNotFoundError"), (.unwrap, "UnwrapError"),
   (.validation, "ValidationError")]

/-- The names of other kinds that are no ordinary ones. -/
def lineages : List (String × Lineage) :=
  [("BaseException", .exit), ("BaseExceptionGroup", .exit), ("SystemExit", .exit),
   ("KeyboardInterrupt", .exit), ("GeneratorExit", .exit), ("UnicodeDecodeError", .value),
   ("UnicodeEncodeError", .value), ("UnicodeTranslateError", .value), ("JSONDecodeError", .value)]

def word : FaultKind → String
  | .other word _ => word
  | kind => ((words.find? fun entry => entry.1 == kind).map (·.2)).getD ""

def ofWord (word : String) : FaultKind :=
  ((words.find? fun entry => entry.2 == word).map (·.1)).getD
    (.other word ((lineages.lookup word).getD .ordinary))

/-- Whether a kind is a wire error of some family. -/
def isWire : FaultKind → Bool
  | .wire _ => true
  | _ => false

/-- Whether a kind is the library's own, so that contract code knows no name for it. -/
def isOwn : FaultKind → Bool
  | .derive | .wire _ | .trap | .unwrap | .validation => true
  | _ => false

/-- What a kind is a case of. Wire errors, undecodable texts and refused settings are values out of
range; an aborted call is no ordinary fault. -/
def lineage : FaultKind → Lineage
  | .trap => .exit
  | .type => .type
  | .value | .unicode | .validation | .wire _ => .value
  | .other _ lineage => lineage
  | _ => .ordinary

/-- Whether handlers of ordinary faults hold back the faults of a kind. -/
def isOrdinary (kind : FaultKind) : Bool := kind.lineage != .exit

/-- Whether a kind says that a value is of the wrong type or out of range, itself or as what it is a
case of. -/
def isBadValue (kind : FaultKind) : Bool :=
  kind.lineage == .type || kind.lineage == .value

end FaultKind

/-- A reason for which a codec refuses a value. -/
inductive Refusal
  | expectedInteger
  | aboveUpperBound
  | belowLowerBound
  | expectedBoolean
  | expectedBytes
  | addressSize (size : Nat)
  | expectedContractAddress
  | addressParts
  | expectedText
  | expectedList
  | expectedTuple
  | expectedSet
  | expectedMap
  | tupleSize
  | expectedClass (target got : String)
  | expectedVariant (target got : String)
  | fieldCount (expected got : Nat)
  | expectedAction (got : String)
  deriving DecidableEq, Repr

namespace Refusal

/-- Whether the value is of the right type, but outside the range. -/
def isRange : Refusal → Bool
  | aboveUpperBound | belowLowerBound | addressSize _ | addressParts => true
  | _ => false

def message : Refusal → String
  | expectedInteger => "expected integer"
  | aboveUpperBound => "above upper bound"
  | belowLowerBound => "below lower bound"
  | expectedBoolean => "expected boolean"
  | expectedBytes => "expected bytes"
  | addressSize size => s!"an account address has 32 bytes, got {size}"
  | expectedContractAddress => "expected ContractAddress"
  | addressParts => "contract address parts must be u64 values"
  | expectedText => "expected str"
  | expectedList => "expected list"
  | expectedTuple => "expected tuple"
  | expectedSet => "expected set"
  | expectedMap => "expected dict"
  | tupleSize => "wrong tuple size"
  | expectedClass target got => s!"expected {target}, got {got}"
  | expectedVariant target got => s!"expected a variant of {target}, got {got}"
  | fieldCount expected got => s!"expected {expected} fields, got {got}"
  | expectedAction got => s!"expected an Action, got {got}"

end Refusal

/-- A reason for which a type annotation has no codec, no schema or not the kind asked for. The
texts name types as they are printed. -/
inductive TypeIssue
  | unresolved (reference : String)
  | unsizedInteger
  | noCodec (type : String)
  | noSchema (type : String)
  | oneArgument (container : String)
  | mapArguments
  | tupleArguments
  | misplacedEllipsis
  | notOptional
  | notHashable (type : String)
  | tupleArity (size : Nat)
  | lengthAttribute (attr expected got : String)
  | markerItem (item : String)
  | badWidth (width : Int)
  | tooManyVariants
  | badReference (shown : String)
  | unionOperand (left right : String)
  /-- A subtree of a schema is missing. -/
  | missingSchema
  /-- The fields of a struct or a variant are missing in a schema. -/
  | missingFields
  deriving DecidableEq, Repr

namespace TypeIssue

/-- Whether the issue is a number out of range, and not a type out of place. -/
def isRange : TypeIssue → Bool
  | badWidth _ | tooManyVariants => true
  | _ => false

def message : TypeIssue → String
  | unresolved reference => s!"unresolved forward reference: {reference}"
  | unsizedInteger => "type int is not supported, use a sized integer such as U32 or I64"
  | noCodec type => s!"type {type} is not supported by any codec"
  | noSchema type => s!"type {type} has no schema"
  | oneArgument container => s!"expected {container}[<type>]"
  | mapArguments => "expected dict[<key type>, <value type>]"
  | tupleArguments => "expected tuple[<args...>]"
  | misplacedEllipsis => "ellipsis only allowed with one type: tuple[T, ...]"
  | notOptional => "type must be either `None | T` or `T | None`"
  | notHashable type => s!"{type} is not hashable"
  | tupleArity size => s!"tuples of {size} items have no schema, use a derived NamedTuple"
  | lengthAttribute attr expected got => s!"`{attr}` requires {expected}, got {got}"
  | markerItem item => s!"concordium() items must be strings, got {item}"
  | badWidth width => s!"invalid length width: {width}"
  | tooManyVariants => "Too many variants. Maximum 65536 are supported."
  | badReference shown => s!"Forward references must evaluate to types. Got {shown}."
  | unionOperand left right => s!"unsupported operand type(s) for |: '{left}' and '{right}'"
  | missingSchema => "not a schema type: None"
  | missingFields => "not a schema fields value: None"

end TypeIssue

/-- A reason for which a call was aborted: by the contract itself, by a fault that escaped from it, by a
state that cannot be read or written, or by a result that is none. -/
inductive TrapReason
  /-- Contract code aborted the call with this text. -/
  | byContract (text : String)
  /-- A fault of this kind escaped from the named function. -/
  | unhandled (kind : FaultKind) (function : String)
  | unreadableState
  | unwritableState
  | notAResult (function got : String)
  | notAnAction (function got : String)
  deriving DecidableEq, Repr

def TrapReason.message : TrapReason → String
  | .byContract text => text
  | .unhandled kind function => s!"unhandled {kind.word} in {function}"
  | .unreadableState => "could not fully read the contract state"
  | .unwritableState => "could not serialize the contract state"
  | .notAResult function got => s!"{function} must return Ok or Err, got {got}"
  | .notAnAction function got => s!"{function} must return an Action, got {got}"

/-- A reason for which settings cannot be loaded. All but two are issues with a value; the limit to the
number of files is one of the program, and an unknown setting is a matter of validation. -/
inductive SettingsIssue
  | notAFile (path : String)
  | notAnObject (path : String)
  | extendsItself (path : String)
  /-- More files extend one another than are followed. -/
  | tooManyFiles
  /-- A path that no file can have. -/
  | badPath
  | notATruthValue (name text : String)
  /-- A setting is unknown, or its value is no truth value. -/
  | invalid
  deriving DecidableEq, Repr

def SettingsIssue.message : SettingsIssue → String
  | .notAFile path => s!"'{path}' is not a file"
  | .notAnObject path => s!"'{path}' cannot be parsed as a dictionary"
  | .extendsItself path => s!"'{path}' cannot extend itself"
  | .tooManyFiles | .invalid => ""
  | .badPath => "lstat: embedded null character in path"
  | .notATruthValue name text => s!"{name}: expected a boolean, got {text}"

/-- The kind under which an issue is reported. -/
def SettingsIssue.kind : SettingsIssue → FaultKind
  | .tooManyFiles => .recursion
  | .invalid => .validation
  | _ => .value

/-- A cause of failure. The library's own faults are kept as what they are about, so that a text is made
of one only where it is shown; contract code raises faults of a kind of its choice. A call that is
aborted holds what aborted it, if that was a fault. -/
inductive Fault
  | wire (error : WireError)
  | refused (reason : Refusal)
  | typeIssue (issue : TypeIssue)
  | derive (report : Report)
  | settings (issue : SettingsIssue)
  /-- Two values that have no order were compared. -/
  | unordered
  /-- A mutable value was used as a member of a set or a key of a map. -/
  | unhashable
  /-- A condition that callers must meet does not hold. -/
  | assertion (text : String)
  /-- A quoted token is no valid string literal. -/
  | badLiteral
  /-- A literal has code points that are no characters, which a text here is made of. Nothing is wrong
  with it, but what is done with it is not said here. -/
  | surrogates (codes : List Nat)
  /-- A number is too long for the digits that a literal may have, or for a byte. -/
  | overflow
  | raised (kind : FaultKind) (text : String)
  | trap (reason : TrapReason) (cause : Option Fault)

namespace Fault

/-- The kind under which a fault is reported. -/
def kind : Fault → FaultKind
  | wire error => .wire error.family
  | refused reason => if reason.isRange then .value else .type
  | typeIssue issue => if issue.isRange then .value else .type
  | derive _ => .derive
  | settings issue => issue.kind
  | unordered | unhashable => .type
  | assertion _ => .assertion
  | badLiteral => .syntaxError
  | surrogates _ => .other "Surrogates"
  | overflow => .overflow
  | raised kind _ => kind
  | trap _ _ => .trap

def message : Fault → String
  | wire error => error.message
  | refused reason => reason.message
  | typeIssue issue => issue.message
  | derive report => report.text
  | settings issue => issue.message
  | unordered | unhashable | badLiteral | surrogates _ | overflow => ""
  | assertion text => text
  | raised _ text => text
  | trap reason _ => reason.message

/-- Whether the text of a fault is part of its report. Kinds whose text comes from elsewhere, and
the two faults about comparing and hashing, are reported by their kind alone. -/
def hasMessage (f : Fault) : Bool :=
  match f with
  | unordered | unhashable => false
  | _ => match f.kind with
    | .syntaxError | .missingMember | .overflow | .unicode | .recursion | .missingModule | .key
    | .validation => false
    | kind => !(["ImportError", "UnicodeEncodeError", "UnicodeDecodeError"].contains kind.word)

/-- The fault behind an aborted call. -/
def cause? : Fault → Option Fault
  | trap _ cause => cause
  | _ => none

/-- Whether the fault aborts a call for good, so that no code of the contract can hold it back. -/
def isTrap : Fault → Bool
  | trap _ _ => true
  | _ => false

def isWire (f : Fault) : Bool := f.kind.isWire

/-- Whether handlers of ordinary faults hold the fault back. -/
def isOrdinary (f : Fault) : Bool := f.kind.isOrdinary

/-- Whether the fault says that a value is of the wrong type or out of range. -/
def isBadValue (f : Fault) : Bool := f.kind.isBadValue

/-- The fault of a kind. An aborted call is one without a cause. -/
def ofKind (kind : FaultKind) (text : String) : Fault :=
  if kind == .trap then .trap (.byContract text) none else .raised kind text

/-- The fault that contract code raises by the word for a kind. It does not know the words of the
library's own kinds, and looking one up is a fault of its own. -/
def ofCode (kind : FaultKind) (text : String) : Fault :=
  if kind.isOwn then .raised .key kind.word else .raised kind text

end Fault

end ContractKit
