import ContractKit.Codec.Basic
import ContractKit.Contract.Spec

/-!
# `Contract/Export.lean`: exported functions

Everything that a host can call by name is an export. Exports are recorded on the function or class
that they come from, and the exports of all objects of a module are gathered into a table. Two
exports of one name are a mistake that is reported with every occurrence.
-/

set_option autoImplicit false

namespace ContractKit

/-- What an export is for. Hosts list exports by their kind, which the name alone does not tell. -/
inductive ExportKind
  | init
  | receive
  | schema
  | test
  deriving DecidableEq, Repr

def ExportKind.word : ExportKind → String
  | init => "init"
  | receive => "receive"
  | schema => "schema"
  | test => "test"

/-- How the state of an entry point is read and written. The codec is that of the declared type at the
moment of the declaration. -/
structure StatePlan where
  codec : Codec
  /-- Whether the function is handed a reference through which the state is replaced. -/
  byRef : Bool

/-- What an export does when it is called. Functions are given by their place in the module: they are
looked up in the module when the export is called, and never copied. -/
inductive ExportBody
  /-- Run a function as an entry point. There is no plan for the state of a low-level one. -/
  | entryPoint (spec : Spec) (function : Nat) (state : Option StatePlan)
  /-- Give the bytes of the schema of a state. -/
  | stateSchema (data : Bytes)
  /-- Give the bytes of the schema of a parameter. -/
  | parameterSchema (parameter : ParameterType)
  /-- Run a function by itself. -/
  | test (function : Nat)

/-- A function that a host can call by name. It is recorded on the function or the class that was
decorated, and found there again when the exports of a module are collected. -/
structure Export where
  name : String
  kind : ExportKind
  body : ExportBody
  /-- The name of the function or class that it comes from. -/
  origin : String

/-- The exports of a module, in the order in which they were found. A table that was made of exports has
no two of one name (`ExportTable.ofExports`), so a name leads to one function. -/
structure ExportTable where
  exports : List Export

namespace ExportTable

def find? (t : ExportTable) (name : String) : Option Export :=
  t.exports.find? fun e => e.name == name

def names (t : ExportTable) : List String := t.exports.map (·.name)

/-- The exports of one kind, in the order of the table. -/
def ofKind (t : ExportTable) (kind : ExportKind) : List Export :=
  t.exports.filter fun e => e.kind == kind

/-- The problem with one of several exports of one name. -/
def duplicate (e : Export) : Diagnostic :=
  ⟨s!"Export '{e.name}' is defined more than once.", { item := e.origin }⟩

/-- The table with one more export, whose name has to be new. -/
def add (t : ExportTable) (e : Export) : Except Report ExportTable :=
  match t.find? e.name with
  | some first => .error ⟨duplicate first, [duplicate e]⟩
  | none => .ok ⟨t.exports ++ [e]⟩

/-- The exports in groups of one name, in the order in which the names first occur. -/
def groups (exports : List Export) : List (List Export) :=
  ((exports.map (·.name)).eraseDups).map fun name => exports.filter fun e => e.name == name

/-- The problems with the groups of more than one export. -/
def clashes (exports : List Export) : List Diagnostic :=
  (groups exports).flatMap fun group =>
    if group.length > 1 then group.map duplicate else []

/-- The table of some exports, or a report about every name that occurs more than once. -/
def ofExports (exports : List Export) : Except Report ExportTable :=
  match Report.ofList? (clashes exports) with
  | some report => .error report
  | none => .ok ⟨exports⟩

end ExportTable

end ContractKit
