import ContractKit.Module.Instance
import ContractKit.Value.Arithmetic

/-!
# `Module/Eval.lean`: the meaning of written types and values

Types and values are evaluated in a scope: a module, the names of the class body they stand in, and the
variables of a running function. A type that is only named stays a name (`Ty.forward`); one that is
declared is looked up at once.
-/

set_option autoImplicit false

namespace ContractKit

open Source

/-- Where types and values are evaluated: in a module, inside some enclosing classes, and with variables
that hide the names of both. -/
structure Scope where
  module : Module
  /-- The names of the class bodies around. -/
  inner : Names := []
  /-- The variables of a running function, latest first. -/
  locals : List (String × Value) := []

namespace Scope

/-! ## Unions -/

/-- What kind of thing a type is where it is an operand of a bar. -/
def operandKind (scope : Scope) : Ty → String
  | .cls ref =>
    match ref.id with
    | .declared i =>
      match scope.module.classes[i]? with
      | some entry => if entry.form matches .enum _ then "EnumType" else "type"
      | none => "type"
    | .native _ => "type"
  | .any => "_AnyMeta"
  | .none => "NoneType"
  | .forward _ => "str"
  | .dots => "ellipsis"
  | .object _ => "function"
  | .list _ | .set _ | .frozenset _ | .dict _ _ | .tuple _ => "types.GenericAlias"
  | .union .bar _ => "types.UnionType"
  | _ => "type"

/-- Whether a type can be an operand of a bar beside a plain type. -/
def isOperand : Ty → Bool
  | .forward _ | .dots | .object _ => false
  | _ => true

/-- The union of two types written with a bar. -/
def bar (scope : Scope) (left right : Ty) : Except Fault Ty :=
  let bothNone := match left, right with
    | .none, .none => true
    | _, _ => false
  if left.makesNamedUnion || right.makesNamedUnion then .ok (Ty.barOf left right)
  else if isOperand left && isOperand right && !bothNone then .ok (Ty.barOf left right)
  else .error (.typeIssue (.unionOperand (scope.operandKind left) (scope.operandKind right)))

/-! ## Values -/

/-- The set of some values, which all have to be hashable. -/
def setOf (frozen : Bool) (vs : List Value) : Except Fault Value :=
  if Value.allHashable vs then
    .ok (if frozen then .frozenset (Value.membersOf vs) else .set (Value.membersOf vs))
  else .error .unhashable

/-- The map of some entries, whose keys all have to be hashable. -/
def dictOf (es : List (Value × Value)) : Except Fault Value :=
  if Value.allHashable (es.map (·.1)) then .ok (.dict (Value.entriesOf es))
  else .error .unhashable

def numbers (start stop : Int) : List Value :=
  (List.range (stop - start).toNat).map fun (i : Nat) => .int (start + i)

/-- Options given by keyword: of several of one name the last counts, at the place of the first. -/
def collapse (options : List (String × Value)) : List (String × Value) :=
  (options.map (·.1)).eraseDups.map fun name =>
    (name, ((options.reverse.lookup name).getD .none))

/-- The texts of a marker. -/
def markerTexts : List Value → Except Fault (List String)
  | [] => .ok []
  | .text s :: rest => (markerTexts rest).map (s :: ·)
  | v :: _ => .error (.typeIssue (.markerItem v.shown))

mutual

/-- The type that is written, without metadata around it, and that metadata. -/
def hint (scope : Scope) : TypeExpr → Except Fault TypeHint
  | .annotated base metadata => do
    let a ← hint scope base
    let more ← metadataOf scope metadata
    pure ⟨a.type.asArgument, a.metadata ++ more⟩
  | .type t => .ok ⟨t, []⟩
  | .named path =>
    match scope.module.lookupIn scope.inner path with
    | some b => .ok ⟨Module.annotationOf (scope.module.valueOf b), []⟩
    | none => .error (.raised .key path)
  | .forward name => .ok ⟨.forward name, []⟩
  | .list item => do pure ⟨.list (← hint scope item).toTy, []⟩
  | .set member => do pure ⟨.set (← hint scope member).toTy, []⟩
  | .frozenset member => do pure ⟨.frozenset (← hint scope member).toTy, []⟩
  | .varTuple item => do pure ⟨.varTuple (← hint scope item).toTy, []⟩
  | .tuple args => do pure ⟨.tuple (← types scope args), []⟩
  | .dict key value => do
    let k ← hint scope key
    let v ← hint scope value
    pure ⟨.dict k.toTy v.toTy, []⟩
  | .optional item => do pure ⟨.optional (← hint scope item).toTy, []⟩
  | .union members => do pure ⟨.unionOf (← types scope members), []⟩
  | .bar left right => do
    let a ← hint scope left
    let b ← hint scope right
    pure ⟨← scope.bar a.toTy b.toTy, []⟩
  | .ok value => do pure ⟨.ok (← hint scope value).toTy.asArgument, []⟩
  | .err error => do pure ⟨.err (← hint scope error).toTy.asArgument, []⟩
  | .result value error => do
    let a ← hint scope value
    let b ← hint scope error
    pure ⟨.unionOf [.ok a.toTy.asArgument, .err b.toTy.asArgument], []⟩
  | .stateRef state => do pure ⟨.stateRef (← hint scope state).toTy.asArgument, []⟩

def types (scope : Scope) : List TypeExpr → Except Fault (List Ty)
  | [] => .ok []
  | t :: ts => do
    let a ← hint scope t
    let rest ← types scope ts
    pure (a.toTy :: rest)

def metadataOf (scope : Scope) : List MetadataExpr → Except Fault (List Metadata)
  | [] => .ok []
  | .text s :: rest => do
    let more ← metadataOf scope rest
    pure (.text s :: more)
  | .marker items options :: rest => do
    let items ← values scope items
    let options ← namedValues scope options
    let texts ← markerTexts items
    let more ← metadataOf scope rest
    pure (.marker ⟨texts, collapse options⟩ :: more)

def value (scope : Scope) : Expr → Except Fault Value
  | .none => .ok .none
  | .bool b => .ok (.bool b)
  | .int n => .ok (.int n)
  | .text s => .ok (.text s)
  | .bytes data => .ok (.bytes data)
  | .list items => do pure (.list (← values scope items))
  | .tuple items => do pure (.tuple (← values scope items))
  | .set members => do setOf false (← values scope members)
  | .frozenset members => do setOf true (← values scope members)
  | .dict entries => do dictOf (← pairs scope entries)
  | .repeated item count => do pure (.list (List.replicate count (← value scope item)))
  | .intSet start stop => .ok (.set (numbers start stop))
  | .intDict start stop v => do
    let v ← value scope v
    pure (.dict ((numbers start stop).map fun n => (n, v)))
  | .record path raw fields => do
    scope.module.build scope.inner path raw (← namedValues scope fields)
  | .member path => scope.module.memberNamed scope.inner path
  | .ok v => do pure (.ok (← value scope v))
  | .err v => do pure (.err (← value scope v))
  | .action a => .ok (.action a)
  | .type t => do
    match (← hint scope t).toTy with
    | .none => pure .none
    | .forward name => pure (.text name)
    | t => pure (.type t)
  | .variable name =>
    match scope.locals.lookup name with
    | some v => .ok v
    | none => .error (.raised .key name)
  | .field of name => do
    match (← value scope of).field? name with
    | some v => pure v
    | none => throw (.raised .missingMember name)
  | .add left right => do
    let a ← value scope left
    let b ← value scope right
    a.add b
  | .size of => do
    let v ← value scope of
    match v.size? with
    | some n => pure (.int n)
    | none => throw v.sizeFault

def values (scope : Scope) : List Expr → Except Fault (List Value)
  | [] => .ok []
  | e :: es => do
    let v ← value scope e
    let vs ← values scope es
    pure (v :: vs)

def namedValues (scope : Scope) : List (String × Expr) → Except Fault (List (String × Value))
  | [] => .ok []
  | (name, e) :: es => do
    let v ← value scope e
    let vs ← namedValues scope es
    pure ((name, v) :: vs)

def pairs (scope : Scope) : List (Expr × Expr) → Except Fault (List (Value × Value))
  | [] => .ok []
  | (k, v) :: es => do
    let k ← value scope k
    let v ← value scope v
    let rest ← pairs scope es
    pure ((k, v) :: rest)

end

/-- The type that is written, its metadata printed. -/
def type (scope : Scope) (t : TypeExpr) : Except Fault Ty := do pure (← hint scope t).toTy

end Scope

end ContractKit
