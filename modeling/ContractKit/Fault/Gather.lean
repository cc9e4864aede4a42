import ContractKit.Fault
import ContractKit.Text.Quoted

/-!
# `Fault/Gather.lean`: the problems of independent parts

The parts of a declaration are looked at one by one, and a problem in one does not keep the others from
being looked at: all the reports are joined into one. A fault that is no report stops everything at
once. `Fault.located` turns such a fault into a report where that is wanted.
-/

set_option autoImplicit false

namespace ContractKit

namespace Fault

/-- The text of a fault inside a report. A missing key is shown between quotes. -/
def text (f : Fault) : String :=
  match f with
  | raised .key text => Text.quoted text
  | f => f.message

/-- The fault as a report about a place. Reports stay what they are, and so do faults that are not
ordinary, which nothing holds back. -/
def located (span : Span) (f : Fault) : Fault :=
  match f with
  | derive report => derive report
  | f => if f.isOrdinary then derive (.single f.text span) else f

end Fault

/-- The outcome with its fault, if any, as a report about a place. -/
def locate {α : Type} (span : Span) (outcome : Except Fault α) : Except Fault α :=
  outcome.mapError (Fault.located span)

/-- The results of the parts that have one, and the problems of the others, in order. -/
def gather {α : Type} : List (Except Fault α) → Except Fault (List α × List Diagnostic)
  | [] => .ok ([], [])
  | .ok a :: rest => (gather rest).map fun (as, ds) => (a :: as, ds)
  | .error (.derive report) :: rest =>
    (gather rest).map fun (as, ds) => (as, report.toList ++ ds)
  | .error f :: _ => .error f

/-- A result, unless there were problems. -/
def settle {α : Type} (a : α) (problems : List Diagnostic) : Except Fault α :=
  match Report.ofList? problems with
  | some report => .error (.derive report)
  | none => .ok a

/-- The results of all parts, or the report of everything that is wrong with them. -/
def gatherAll {α : Type} (parts : List (Except Fault α)) : Except Fault (List α) :=
  match gather parts with
  | .ok (as, problems) => settle as problems
  | .error f => .error f

end ContractKit
