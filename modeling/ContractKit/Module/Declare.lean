import ContractKit.Module.Decorate

/-!
# `Module/Declare.lean`: executing declarations

Declarations are executed in order. Each makes a class or a function, binds its name, applies its
decorators and binds the name once more, so a decorator can already refer to what it is applied to. The
declarations in the body of a sum come first and are bound there; those that are classes with fields
are the variants, in order, under however many names.
-/

set_option autoImplicit false

namespace ContractKit

open Source

namespace Module

/-- The place whose name stands before those of declared classes where they are printed in full. -/
def home : String := "contract"

/-- The module with one more class, and the place of that class. -/
def addClass (m : Module) (entry : ClassEntry) : Module × Nat :=
  ({ m with classes := m.classes ++ [entry] }, m.classes.length)

/-- The identity of the next class. -/
def nextRef (m : Module) (name : String) : ClassRef :=
  ⟨.declared m.classes.length, name, home⟩

/-! ## Classes with fields -/

/-- A field that is declared with its default, evaluated. -/
def field (scope : Scope) (f : Field) : Except Fault (FieldDecl × Option Value) := do
  let hint ← scope.hint f.type
  let initial ← f.initial.mapM scope.value
  pure (⟨f.name, hint, f.given⟩, initial)

/-- The fields with one more. A field that is declared again keeps its place. -/
def insertField (fields : List FieldDecl) (f : FieldDecl) : List FieldDecl :=
  if fields.any fun g => g.name == f.name then
    fields.map fun g => if g.name == f.name then f else g
  else fields ++ [f]

/-- Refuse a field that has to be given after one that need not be. -/
def checkDefaults (refusal : String → String → String) (defaults : List (String × Value)) :
    (earlier : Option String) → List FieldDecl → Except Fault Unit
  | _, [] => .ok ()
  | earlier, f :: rest =>
    if !f.given then checkDefaults refusal defaults earlier rest
    else if (defaults.lookup f.name).isSome then checkDefaults refusal defaults (some f.name) rest
    else
      match earlier with
      | some e => .error (.raised .type (refusal f.name e))
      | none => checkDefaults refusal defaults none rest

/-- Refuse a default that could be changed. -/
def checkMutable (f : FieldDecl × Option Value) : Except Fault Unit :=
  match f.2 with
  | none => .ok ()
  | some v =>
    let fixed := match v with
      | .list _ | .dict _ | .set _ => false
      | .record cls _ => cls.isHashable
      | _ => true
    if fixed then .ok ()
    else .error (.raised .value
      s!"mutable default {v.ownType.shownAsValue} for field {f.1.name} is not allowed: use default_factory")

/-- The class that another one extends. -/
def baseOf (m : Module) (scope : Scope) : Option String → Except Fault (Option ClassEntry)
  | none => .ok none
  | some path =>
    match m.lookupIn scope.inner path with
    | some (.cls place) => .ok m.classes[place]?
    | _ => .error (.raised .key path)

/-- What a class takes over from the one that it extends: its fields, their defaults, the number of
fields that its order compares, what it rejects, and its line of classes. -/
structure Inherited where
  fields : List FieldDecl := []
  defaults : List (String × Value) := []
  frozen : Option Bool := none
  ordered : Option Nat := none
  rejection : Option Rejection := none
  ancestors : List ClassId := []

/-- What a class takes over from another one. -/
def Inherited.of (entry : ClassEntry) : Inherited :=
  match entry.form with
  | .record decl =>
    let (frozen, ordered) := match decl.target.cls.form with
      | .named frozen ordered => (some frozen, ordered)
      | .positional => (none, none)
    { fields := decl.fields
      defaults := entry.defaults
      frozen
      ordered
      rejection := decl.target.rejection
      ancestors := entry.ref.id :: decl.target.cls.ancestors }
  | _ => { ancestors := [entry.ref.id] }

/-- Refuse a class that can be changed when the one that it extends cannot, and the other way round. -/
def checkFrozen : (inherited : Option Bool) → (frozen : Bool) → Except Fault Unit
  | some true, false =>
    .error (.raised .type "cannot inherit non-frozen dataclass from a frozen one")
  | some false, true =>
    .error (.raised .type "cannot inherit frozen dataclass from a non-frozen one")
  | _, _ => .ok ()

def dataclass (m : Module) (scope : Scope) (name : String) (fields : List Field)
    (frozen ordered : Bool) (base : Option String) (reject : Option Reject) :
    Except Fault (Module × Nat) := do
  let base ← m.baseOf scope base
  let inherited := (base.map Inherited.of).getD {}
  let own ← fields.mapM (field scope)
  checkFrozen inherited.frozen frozen
  own.forM checkMutable
  let all := own.foldl (fun acc f => insertField acc f.1) inherited.fields
  let defaults := own.filterMap (fun f => f.2.map fun v => (f.1.name, v)) ++
    inherited.defaults.filter fun d => !(own.any fun f => f.1.name == d.1 && f.2.isSome)
  checkDefaults (fun f _ => s!"non-default argument {Text.quoted f} follows default argument")
    defaults none all
  let rejection ← reject.mapM fun r => do
    let value ← scope.value r.equals
    pure (⟨r.field, value, r.kind, r.message⟩ : Rejection)
  let ref := m.nextRef name
  let cls : RecordClass :=
    ⟨ref, all.map (·.name),
      .named frozen (if ordered then some all.length else inherited.ordered), inherited.ancestors⟩
  pure (m.addClass
    { ref
      form := .record ⟨⟨cls, rejection.or inherited.rejection⟩, all⟩
      defaults
      facts := { hashable := frozen, immutable := frozen } })

/-- A class whose instances are tuples with names for their items. -/
def namedTuple (m : Module) (scope : Scope) (name : String) (fields : List Field) :
    Except Fault (Module × Nat) := do
  let own ← fields.mapM (field scope)
  let defaults := own.filterMap fun f => f.2.map fun v => (f.1.name, v)
  let all := own.map (·.1)
  checkDefaults (fun f e => s!"Non-default namedtuple field {f} cannot follow default field {e}")
    defaults none all
  let ref := m.nextRef name
  let cls : RecordClass := ⟨ref, all.map (·.name), .positional, []⟩
  pure (m.addClass
    { ref
      form := .record ⟨⟨cls, none⟩, all⟩
      defaults
      facts := { hashable := true, immutable := true } })

/-! ## Other classes -/

/-- The members of an enumeration, those that repeat an earlier value apart: each of those is
another name for the earlier member. -/
def distinctMembers (numeric : Bool) :
    (seen : List (Value × Member)) → List (String × Value) → List Member × List (String × Member)
  | _, [] => ([], [])
  | seen, (name, v) :: rest =>
    match seen.find? fun entry => entry.1.beq v with
    | some (_, member) =>
      let (members, others) := distinctMembers numeric seen rest
      (members, (name, member) :: others)
    | none =>
      let member : Member := ⟨name, if numeric then v.number? else none⟩
      let (members, others) := distinctMembers numeric (seen ++ [(v, member)]) rest
      (member :: members, others)

/-- The members of an enumeration that are numbered from zero. -/
def numberedMembers (numeric : Bool) (count : Nat) : List Member :=
  (List.range count).map fun (i : Nat) => ⟨s!"M{i}", if numeric then some (i : Int) else none⟩

/-- Refuse a name that is given to two members. -/
def checkNames : (earlier : List (String × Value)) → List (String × Value) → Except Fault Unit
  | _, [] => .ok ()
  | earlier, (name, v) :: rest =>
    match earlier.lookup name with
    | some old => .error (.raised .type s!"{Text.quoted name} already defined as {old.shown}")
    | none => checkNames ((name, v) :: earlier) rest

/-- A class with a fixed list of members. -/
def enumeration (m : Module) (scope : Scope) (name : String) (numeric : Bool)
    (members : List (String × Expr) ⊕ Nat) : Except Fault (Module × Nat) := do
  let (members, others) ← match members with
    | .inl members => do
      let members ← scope.namedValues members
      checkNames [] members
      pure (distinctMembers numeric [] members)
    | .inr count => pure (numberedMembers numeric count, [])
  let ref := m.nextRef name
  pure (m.addClass
    { ref
      form := .enum members
      scope := others.map fun o => (o.1, .value (o.2.value ref))
      facts := { hashable := true, immutable := true } })

/-- The variants among what the names of a body are bound to. -/
def variants (m : Module) (body : Names) : List RecordDecl :=
  body.filterMap fun
    | (_, .cls place) =>
      match m.classes[place]? with
      | some entry =>
        match entry.form with
        | .record decl => some decl
        | _ => none
      | none => none
    | _ => none

/-- A class whose values are instances of the classes in its body. -/
def sumClass (m : Module) (name : String) (body : Names) : Module × Nat :=
  m.addClass
    { ref := m.nextRef name
      form := .sum (m.variants body)
      scope := body
      facts := { hashable := true, immutable := true } }

def plainClass (m : Module) (name : String) : Module × Nat :=
  m.addClass { ref := m.nextRef name, form := .plain, facts := {} }

/-! ## Functions, constants and other names -/

def function (m : Module) (scope : Scope) (name : String) (params : List (String × Option TypeExpr))
    (returns : Option TypeExpr) (body : List Stmt) : Except Fault (Module × Nat) := do
  let params ← params.mapM fun (name, t) => do
    let t ← t.mapM scope.type
    pure (name, t)
  let returns ← returns.mapM scope.type
  pure ({ m with functions := m.functions ++ [⟨name, params, returns, body, []⟩] },
    m.functions.length)

/-- What a value is bound as: a class as that class. -/
def bindingOf (v : Value) : Binding :=
  match v with
  | .type (.cls ref) =>
    match ref.id with
    | .declared place => .cls place
    | .native _ => .value v
  | v => .value v

/-- The names under which another name is bound. -/
def aliasNames (name : String) : Option Nat → List String
  | none => [name]
  | some count => (List.range count).map fun i => s!"{name}{i}"

/-! ## Declarations -/

/-- Apply decorators to something that has been bound. -/
def decorated (settings : LoadedSettings) (bind : Module → Binding → Module) (m : Module) (d : Decorated)
    (decorators : List Decorator) : Except Fault (Module × Binding) := do
  let m := bind m d.binding
  let (m, d) ← decorateAll settings m d decorators
  pure (bind m d.binding, d.binding)

/-- The module with a name bound, unless names are bound in the body of a class. -/
def bindHere (atTop : Bool) (name : String) (m : Module) (b : Binding) : Module :=
  if atTop then { m with names := m.names.bind name b } else m

mutual

/-- Execute a declaration in a body, whose names are given with the path that stands before them. The
names that it binds are the answer. -/
def declare (settings : LoadedSettings) (path : String) (inner : Names) (m : Module) :
    Decl → Except Fault (Module × Names)
  | .dataclass name fields frozen ordered base reject decorators => do
    let scope : Scope := { module := m, inner }
    let (m, place) ← m.dataclass scope (path ++ name) fields frozen ordered base reject
    let (m, b) ← decorated settings (bindHere path.isEmpty name) m (.cls place) decorators
    pure (m, [(name, b)])
  | .namedTuple name fields decorators => do
    let scope : Scope := { module := m, inner }
    let (m, place) ← m.namedTuple scope (path ++ name) fields
    let (m, b) ← decorated settings (bindHere path.isEmpty name) m (.cls place) decorators
    pure (m, [(name, b)])
  | .enum name numeric members decorators => do
    let scope : Scope := { module := m, inner }
    let (m, place) ← m.enumeration scope (path ++ name) numeric members
    let (m, b) ← decorated settings (bindHere path.isEmpty name) m (.cls place) decorators
    pure (m, [(name, b)])
  | .sum name body decorators => do
    let (m, names) ← declareBody settings (path ++ name ++ ".") inner [] m body
    let (m, place) := m.sumClass (path ++ name) names.distinct
    let (m, b) ← decorated settings (bindHere path.isEmpty name) m (.cls place) decorators
    pure (m, [(name, b)])
  | .plain name decorators => do
    let (m, place) := m.plainClass (path ++ name)
    let (m, b) ← decorated settings (bindHere path.isEmpty name) m (.cls place) decorators
    pure (m, [(name, b)])
  | .function name params returns body decorators => do
    let scope : Scope := { module := m, inner }
    let (m, place) ← m.function scope (path ++ name) params returns body
    let (m, b) ← decorated settings (bindHere path.isEmpty name) m (.function place) decorators
    pure (m, [(name, b)])
  | .const name value => do
    let scope : Scope := { module := m, inner }
    let b := bindingOf (← scope.value value)
    pure (bindHere path.isEmpty name m b, [(name, b)])
  | .alias name of count => do
    match m.lookupIn inner of with
    | none => throw (.raised .key of)
    | some b =>
      let names := aliasNames name count
      let m := if path.isEmpty then
          { m with names := names.foldl (fun acc name => acc.bind name b) m.names }
        else m
      pure (m, names.map fun name => (name, b))

/-- Execute the declarations in the body of a class. The names that they bind, in order, are the
answer; those that were bound before are given latest first. -/
def declareBody (settings : LoadedSettings) (path : String) (outer : Names) (bound : Names) (m : Module) :
    List Decl → Except Fault (Module × Names)
  | [] => .ok (m, bound.reverse)
  | d :: rest => do
    let (m, names) ← declare settings path (bound ++ outer) m d
    declareBody settings path outer (names.reverse ++ bound) m rest

end

def declareAll (settings : LoadedSettings) : Module → List Decl → Except Fault Module
  | m, [] => .ok m
  | m, d :: rest => do
    let (m, _) ← declare settings "" [] m d
    declareAll settings m rest

/-- The module that some declarations make. The literals in their annotations can call characters by
the names that are given. -/
def ofDecls (settings : LoadedSettings) (decls : List Decl) (chars : Text.CharNames := .none) :
    Except Fault Module :=
  declareAll settings { chars } decls

end Module

end ContractKit
