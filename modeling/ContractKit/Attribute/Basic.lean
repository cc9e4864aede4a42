import ContractKit.Value.Basic

/-!
# `Attribute/Basic.lean`: attributes

Attributes steer what is derived for a field, a class or a function. An attribute is a flag, a name
with a value, or a name with a list of arguments, and it knows where it was written. Each place where
attributes can stand (`Site`) accepts a closed set of names.

The `find…` functions look up an attribute that may be given once and in one form; any other use is
reported at the place of the attribute.
-/

set_option autoImplicit false

namespace ContractKit

/-- The form in which an attribute was given. The forms are kept apart for as long as attributes are
looked up: `payable` and `payable = true` are different attributes, and a look-up that finds the wrong
form reports that. -/
inductive AttributeForm
  | flag
  | value (value : Value)
  | list (args : List Value)

/-- An attribute: its name, the form in which it was given, and where it stands. How it was given, as a
text or by keyword, makes no difference but for the column. -/
structure Attribute where
  name : String
  form : AttributeForm
  span : Span

namespace Attribute

/-! ## Places -/

/-- Where attributes stand. Each site has its own list of names that are known there, and any other name
is reported. -/
inductive Site
  | field
  | init
  | receive
  | contractState
  deriving DecidableEq, Repr

namespace Site

def word : Site → String
  | field => "field"
  | init => "init"
  | receive => "receive"
  | contractState => "contract_state"

def ofWord? (word : String) : Option Site :=
  [field, init, receive, contractState].find? fun site => site.word == word

/-- The attributes of every entry point. -/
def entryPointNames : List String :=
  ["contract", "payable", "enable_logger", "low_level", "parameter"]

/-- The attributes that a place accepts. -/
def names : Site → List String
  | field =>
    ["size_length", "map_size_length", "set_size_length", "string_size_length", "ensure_ordered"]
  | init => entryPointNames
  | receive => entryPointNames ++ ["name"]
  | contractState => ["contract"]

/-- The text about an attribute that a place does not accept. -/
def refusal (site : Site) (name : String) : String :=
  match site with
  | field => s!"The attribute '{name}' is not supported as a concordium field attribute."
  | site => s!"The attribute '{name}' is not supported by @{site.word}."

end Site

/-- The problems with the names of some attributes at a place, one for each attribute that it does
not accept. -/
def misplaced (site : Site) (attrs : List Attribute) : List Diagnostic :=
  (attrs.filter fun a => !site.names.contains a.name).map fun a => ⟨site.refusal a.name, a.span⟩

/-- Refuse attributes that a place does not accept, all of them in one report. -/
def checkSite (site : Site) (attrs : List Attribute) : Except Report Unit :=
  match Report.ofList? (misplaced site attrs) with
  | some report => .error report
  | none => .ok ()

/-! ## Collecting -/

/-- The attributes with each one's occurrence among those of its name, given the names before. -/
def numberFrom : (before : List String) → List Attribute → List Attribute
  | _, [] => []
  | before, a :: rest =>
    { a with span := { a.span with index := some (before.count a.name) } } ::
      numberFrom (a.name :: before) rest

/-- The attributes with each one's occurrence among those of its name. -/
def number (attrs : List Attribute) : List Attribute := numberFrom [] attrs

/-- The attribute of an option given by keyword. A true option is a flag; one that is false or
absent is left out. -/
def ofOption? (span : Span) (name : String) (value : Value) : Option Attribute :=
  match value with
  | .bool true => some ⟨name, .flag, span.atAttribute name⟩
  | .bool false | .none => none
  | value => some ⟨name, .value value, span.atAttribute name⟩

/-- The attributes of options given by keyword. -/
def ofOptions (span : Span) (options : List (String × Value)) : List Attribute :=
  options.filterMap fun option => ofOption? span option.1 option.2

/-! ## Looking up -/

/-- The one attribute of a name, if it is given. -/
def find? (name : String) (attrs : List Attribute) : Except Report (Option Attribute) :=
  match attrs.filter fun a => a.name == name with
  | [] => .ok none
  | [a] => .ok (some a)
  | a :: more =>
    let problem := fun (a : Attribute) =>
      (⟨s!"Attribute '{name}' should only be specified once.", a.span⟩ : Diagnostic)
    .error ⟨problem a, more.map problem⟩

/-- The value of an attribute, if it is given. -/
def findValue? (name : String) (attrs : List Attribute) : Except Report (Option Value) := do
  match ← find? name attrs with
  | none => return none
  | some a =>
    match a.form with
    | .value v => return some v
    | _ => throw (.single s!"The `{name}` attribute must have a literal value." a.span)

/-- The text of an attribute, if it is given. -/
def findText? (name : String) (attrs : List Attribute) : Except Report (Option String) := do
  match ← find? name attrs with
  | none => return none
  | some a =>
    match a.form with
    | .value (.text s) => return some s
    | .value _ => throw (.single s!"The `{name}` attribute must be a string literal." a.span)
    | _ => throw (.single s!"The `{name}` attribute must have a string literal value." a.span)

/-- Whether a flag is given, however often. -/
def hasFlag (name : String) (attrs : List Attribute) : Except Report Bool :=
  let given := attrs.filter fun a => a.name == name
  match given.find? fun a => !(a.form matches .flag) with
  | some a =>
    .error (.single s!"The `{name}` attribute is a flag and takes no value." a.span)
  | none => .ok (!given.isEmpty)

/-- The width that a length attribute chooses, if it is given. -/
def findLength? (name : String) (attrs : List Attribute) : Except Report (Option PrefixWidth) := do
  match ← find? name attrs with
  | none => return none
  | some a =>
    match a.form with
    | .value v =>
      match v.integer? with
      | none => throw (.single "Length attribute value must be an integer." a.span)
      | some n =>
        match PrefixWidth.ofInt? n with
        | none => throw (.single "Length info must be either 1, 2, 4, or 8." a.span)
        | some w => return some w
    | _ => throw (.single s!"The `{name}` attribute must have a literal value." a.span)

end Attribute

end ContractKit
