import ContractKit.Module.Declare
import ContractKit.Module.EntryPoint

/-!
# `CommandLine/Exports.lean`: listing the exports of a contract

One line for each export: its kind and its name, and for a schema the bytes that it gives, if they are
asked for. A contract whose declarations do not derive is reported instead, one line for each problem.
A fault of any other kind ends the listing where it arises.
-/

set_option autoImplicit false

namespace ContractKit.CommandLine

/-- What a run of a command leaves: what it printed, and its exit code or the fault that ended it. -/
structure Outcome where
  code : Except Fault Int
  out : String := ""
  err : String := ""

namespace Exports

def line (e : Export) : String :=
  let kind := e.kind.word
  kind ++ String.ofList (List.replicate (8 - kind.length) ' ') ++ " " ++ e.name ++ "\n"

/-- The line of the bytes of a schema. -/
def schemaLine (m : Module) (e : Export) : Except Fault String := do
  match (m.runExport e {}).1 with
  | .ok (.bytes data) => pure ("         " ++ data.hex ++ "\n")
  | .ok _ => pure "\n"
  | .error f => throw f

/-- The lines of some exports, up to one whose schema cannot be given. -/
def lines (m : Module) (showSchemas : Bool) : List Export → String × Option Fault
  | [] => ("", none)
  | e :: rest =>
    let own := line e
    if showSchemas && e.kind == .schema then
      match schemaLine m e with
      | .ok schema =>
        let (text, fault) := lines m showSchemas rest
        (own ++ schema ++ text, fault)
      | .error f => (own, some f)
    else
      let (text, fault) := lines m showSchemas rest
      (own ++ text, fault)

/-- A report, one line for each problem. -/
def reportText (report : Report) : String :=
  String.join (report.toList.map fun d => "error: " ++ d.text ++ "\n")

/-- The outcome of a contract that does not derive. -/
def reported (report : Report) : Outcome := { code := .ok 1, err := reportText report }

/-- List the exports of a module. -/
def ofModule (m : Module) (showSchemas : Bool) : Outcome :=
  match m.exportTable with
  | .error report => reported report
  | .ok table =>
    match lines m showSchemas table.exports with
    | (out, none) => { code := .ok 0, out }
    | (out, some f) => { code := .error f, out }

/-- List the exports of a contract. -/
def run (chars : Text.CharNames) (settings : LoadedSettings) (decls : List Source.Decl)
    (showSchemas : Bool) : Outcome :=
  match Module.ofDecls settings decls chars with
  | .error (.derive report) => reported report
  | .error f => { code := .error f }
  | .ok m => ofModule m showSchemas

end Exports

end ContractKit.CommandLine
