import ContractKit.Classes
import ContractKit.Contract.Export
import ContractKit.Shape.Basic
import ContractKit.Source.Syntax
import ContractKit.Ty.Printed
import ContractKit.Value.Shown
import Std.Data.HashMap
import Std.Data.HashSet

/-!
# `Module/Basic.lean`: what has been declared

A module is the result of executing declarations: its classes with all that was derived for them, its
functions, and its names, each bound to a class, a function or a value. Several names can be bound to
one class or function. Classes and functions are referred to by their place, so a name that is bound
anew does not change what others stand for.
-/

set_option autoImplicit false

namespace ContractKit

/-- What a name is bound to. Two names can be bound to one class or function, which is then gone through
once when exports are collected. -/
inductive Binding
  | cls (place : Nat)
  | function (place : Nat)
  | value (v : Value)

/-- Names with what they are bound to, in the order in which they were first bound. -/
abbrev Names := List (String × Binding)

namespace Names

/-- The names with one bound to something, in its old place if it was bound before. -/
def bind (names : Names) (name : String) (b : Binding) : Names :=
  if names.any fun entry => entry.1 == name then
    names.map fun entry => if entry.1 == name then (name, b) else entry
  else names ++ [(name, b)]

/-- Names that were bound one after the other, each at its first place with what it was bound to
last. -/
def distinct (names : Names) : Names :=
  let last : Std.HashMap String Binding := names.foldl (fun acc entry => acc.insert entry.1 entry.2) {}
  let step := fun (acc : Names × Std.HashSet String) (entry : String × Binding) =>
    if acc.2.contains entry.1 then acc
    else ((entry.1, (last.get? entry.1).getD entry.2) :: acc.1, acc.2.insert entry.1)
  (names.foldl step ([], {})).1.reverse

end Names

/-- A declared class, with what was derived for it so far. Decorators add to `facts` and `exports` one
after the other; `shape` is kept by the first that needs it, and the later ones use the same. -/
structure ClassEntry where
  ref : ClassRef
  form : ClassForm
  /-- The values of the fields that need not be given. -/
  defaults : List (String × Value) := []
  /-- What the names declared in the body of a sum, or those of the members of an enumeration that
  repeat another one, are bound to. -/
  scope : Names := []
  facts : ClassFacts
  shape : Option Shape := none
  exports : List Export := []

/-- A declared function. -/
structure FunctionEntry where
  name : String
  params : List (String × Option Ty)
  returns : Option Ty
  body : List Source.Stmt
  exports : List Export := []

/-- The result of executing declarations. Classes and functions stay at the place at which they were
declared, and decorators change them there; names come and go. -/
structure Module where
  classes : List ClassEntry := []
  functions : List FunctionEntry := []
  names : Names := []
  /-- The names by which literals in annotations can call characters. -/
  chars : Text.CharNames := .none

namespace Module

/-! ## Classes -/

/-- The classes of the runtime whose instances cannot be changed. -/
def immutableNatives : List String :=
  ["ContractAddress", "ChainMetadata", "InitContext", "ReceiveContext"]

/-- What annotations need to know about the classes. -/
def facts (m : Module) : Classes
  | .declared i => ((m.classes[i]?).map (·.facts)).getD {}
  | .native name => { immutable := immutableNatives.contains name }

/-- The module with the class at a place changed. -/
def modifyClass (m : Module) (place : Nat) (f : ClassEntry → ClassEntry) : Module :=
  { m with classes := m.classes.modify place f }

/-- The module with the function at a place changed. -/
def modifyFunction (m : Module) (place : Nat) (f : FunctionEntry → FunctionEntry) : Module :=
  { m with functions := m.functions.modify place f }

/-! ## Names -/

def pathParts (path : String) : List String := (path.toList.splitOn '.').map String.ofList

/-- What the further parts of a path stand for, from what the first one does. -/
def follow (m : Module) : Binding → List String → Option Binding
  | b, [] => some b
  | .cls place, part :: rest => do
    let entry ← m.classes[place]?
    let b ← entry.scope.lookup part
    m.follow b rest
  | _, _ :: _ => none

/-- What a path stands for, with names that come before those of the module. -/
def lookupIn (m : Module) (inner : Names) (path : String) : Option Binding :=
  match pathParts path with
  | [] => none
  | first :: rest => do
    let b ← (inner.lookup first).or (m.names.lookup first)
    m.follow b rest

def lookup (m : Module) (path : String) : Option Binding := m.lookupIn [] path

/-- What a name is bound to, as a value. -/
def valueOf (m : Module) : Binding → Value
  | .cls place =>
    match m.classes[place]? with
    | some entry => .type (.cls entry.ref)
    | none => .none
  | .function place =>
    match m.functions[place]? with
    | some entry => .type (.object entry.name)
    | none => .none
  | .value v => v

/-- A value as an annotation. -/
def annotationOf (v : Value) : Ty :=
  match v with
  | .type t => t
  | .none => .none
  | .text s => .forward s
  | v => .object v.shown

/-- The types that have a name without being declared. -/
def knownTypes : List (String × Ty) :=
  [("bool", .bool), ("str", .text), ("bytes", .bytes), ("int", .int), ("float", .float),
   ("list", .bare .list), ("set", .bare .set), ("frozenset", .bare .frozenset),
   ("dict", .bare .dict), ("tuple", .bare .tuple), ("None", .none)]

/-- The fault of a name that is bound to nothing. -/
def unboundName (name : String) : Fault :=
  .raised .unboundName s!"name '{name}' is not defined"

/-- The type that a name in an annotation stands for. A name bound to a text stands for what that
text names in turn; a chain of more than `fuel` texts leads nowhere. -/
def typeNamedWithin (m : Module) : (fuel : Nat) → String → Except Fault Ty
  | 0, name => .ok (.forwardRef name)
  | fuel + 1, name =>
    match m.lookup name with
    | none =>
      match knownTypes.lookup name with
      | some .none => .ok .noneType
      | some t => .ok t
      | none => .error (unboundName ((pathParts name).headD name))
    | some b =>
      match m.valueOf b with
      | .none => .ok .noneType
      | .text other => m.typeNamedWithin fuel other
      | .tuple items =>
        .error (.typeIssue (.badReference
          (String.ofList ((Value.tuple items).shown.toList.take 100))))
      | v => .ok (annotationOf v)

/-- The type that a name in an annotation stands for. -/
def typeNamed (m : Module) (name : String) : Except Fault Ty :=
  m.typeNamedWithin (m.names.length + 1) name

end Module

end ContractKit
