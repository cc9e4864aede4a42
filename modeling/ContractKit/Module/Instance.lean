import ContractKit.Module.Basic

/-!
# `Module/Instance.lean`: building instances of declared classes

An instance is built from values for its fields by name. Fields that are not given take their default;
a field without one has to be given, and a name that is no field is refused. A class may refuse the
values themselves (`Target.build`).
-/

set_option autoImplicit false

namespace ContractKit

namespace ClassEntry

def fieldless (ref : ClassRef) : Target := ⟨⟨ref, [], .named true none, []⟩, none⟩

/-- The class as instances of it are built, if it has instances that are not members. -/
def target? (entry : ClassEntry) : Option Target :=
  match entry.form with
  | .record decl => some decl.target
  | .sum _ | .plain => some (fieldless entry.ref)
  | .enum _ => none

end ClassEntry

namespace Module

/-- The name under which a class takes the values of its fields. -/
def builderName (cls : RecordClass) : String :=
  if cls.isPositional then cls.ref.shortName ++ ".__new__()" else cls.ref.name ++ ".__init__()"

/-- Some names as a list in a sentence. -/
def listed : List String → String
  | [] => ""
  | [a] => a
  | [a, b] => a ++ " and " ++ b
  | names => ", ".intercalate names.dropLast ++ ", and " ++ names.getLastD ""

/-- The fault of arguments that are missing in a call. -/
def missingArguments (callee : String) (names : List String) : Fault :=
  .raised .type (callee ++ s!" missing {names.length} required positional argument"
    ++ (if names.length = 1 then ": " else "s: ") ++ listed (names.map Text.quoted))

/-- The items of an instance, by the names of the fields. -/
def itemsOf (cls : RecordClass) (defaults : List (String × Value)) (optional : List String)
    (given : List (String × Value)) : Except Fault (List Value) :=
  match given.find? fun entry => !cls.fields.contains entry.1 with
  | some entry =>
    .error (.raised .type
      (builderName cls ++ s!" got an unexpected keyword argument {Text.quoted entry.1}"))
  | none =>
    let value := fun f => (given.lookup f).or (defaults.lookup f)
    match cls.fields.filter fun f => (value f).isNone && !optional.contains f with
    | [] => .ok (cls.fields.map fun f => (value f).getD .none)
    | missing => .error (missingArguments (builderName cls) missing)

/-- The fields of a class that instances are not built with. -/
def ungiven (entry : ClassEntry) : List String :=
  match entry.form with
  | .record decl => (decl.fields.filter fun f => !f.given).map (·.name)
  | _ => []

/-- The class that a path names, as instances of it are built. -/
def targetNamed? (m : Module) (inner : Names) (path : String) :
    Option (Target × List (String × Value) × List String) :=
  match m.lookupIn inner path with
  | some (.cls place) => do
    let entry ← m.classes[place]?
    let target ← entry.target?
    pure (target, entry.defaults, ungiven entry)
  | some (.value (.type (.cls ref))) =>
    if ref.id == ClassRef.contractAddress.id then some (⟨.contractAddress, none⟩, [], []) else none
  | some _ => none
  | none => if path == "ContractAddress" then some (⟨.contractAddress, none⟩, [], []) else none

/-- An instance of the class that a path names, with values for its fields. A raw one holds exactly
those values. -/
def build (m : Module) (inner : Names) (path : String) (raw : Bool)
    (given : List (String × Value)) : Except Fault Value :=
  match m.targetNamed? inner path with
  | none => .error (.raised .missingMember path)
  | some (target, defaults, optional) =>
    if raw then .ok (.record target.cls (given.map (·.2)))
    else do
      let items ← itemsOf target.cls defaults optional given
      target.build items

/-- The member of an enumeration that a path names. -/
def memberNamed (m : Module) (inner : Names) (path : String) : Except Fault Value :=
  let parts := pathParts path
  let missing : Except Fault Value := .error (.raised .missingMember path)
  match m.lookupIn inner (".".intercalate parts.dropLast) with
  | some (.cls place) =>
    match m.classes[place]? with
    | some entry =>
      let name := parts.getLastD ""
      match entry.form with
      | .enum members =>
        match members.find? fun member => member.name == name with
        | some member => .ok (member.value entry.ref)
        | none =>
          match entry.scope.lookup name with
          | some (.value v) => .ok v
          | _ => missing
      | _ => missing
    | none => missing
  | _ => missing

end Module

end ContractKit
