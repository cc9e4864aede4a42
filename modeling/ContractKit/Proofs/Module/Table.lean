import ContractKit.Proofs.Contract.Export
import ContractKit.Proofs.Module.Things

/-!
# `Proofs/Module/Table.lean`: the table of a module

Whether the exports of a module make up a table is a matter of their names alone. If they do, a name
leads to the one export that has it, and if not, all the clashes are reported
(`Module.exportTable_outcome`). What the exports of a module are is said in `Proofs/Module/Things.lean`.
-/

set_option autoImplicit false

namespace ContractKit.Module

/-- **Exports are gathered without loss.** The exports of a module are those of the classes and functions
that are bound in it, each taken once, at its first name. They make up a table exactly if no two of them
have one name; it then holds them in that order, and a name leads to the one export that has it.
Otherwise every place of an export whose name occurs again is reported, and nothing else. -/
theorem exportTable_outcome (m : Module) :
    ((∃ table, m.exportTable = .ok table) ↔
      ((m.things.flatMap m.recorded).map Export.name).Nodup) ∧
    (∀ table, m.exportTable = .ok table →
      table.exports = m.things.flatMap m.recorded ∧
      ∀ name e, table.find? name = some e ↔ e ∈ m.things.flatMap m.recorded ∧ e.name = name) ∧
    ∀ report, m.exportTable = .error report →
      ExportTable.Reports (m.things.flatMap m.recorded) report.toList := by
  rw [exportTable, exports_eq]
  refine ⟨?_, ?_, fun report h => ExportTable.reports_of_ofExports h⟩
  · constructor
    · rintro ⟨table, h⟩
      exact (ExportTable.ofExports_eq_ok.mp h).1
    · intro h
      exact ⟨_, ExportTable.ofExports_eq_ok.mpr ⟨h, rfl⟩⟩
  · intro table h
    obtain ⟨-, htable⟩ := ExportTable.ofExports_eq_ok.mp h
    exact ⟨by rw [htable], fun name e => ExportTable.find?_eq_some_iff h⟩

section Counted

open Source

/-- Receive messages of the contract under a name, with the bytes of the state. -/
def receiving (name : String) : Decorator :=
  .entryPoint .receive
    (some ⟨[], [("contract", .text "c"), ("name", .text name), ("low_level", .bool true)]⟩)

/-- A function that receives messages under two names and has two names itself, and one that receives
them under one. -/
def countedDecls (name : String) : List Decl :=
  [.function "bump" [("ctx", none), ("state", none)] none [] [receiving "bump", receiving "raise"],
   .alias "again" "bump" none,
   .function "other" [("ctx", none), ("state", none)] none [] [receiving name]]

/-- The export of the function at a place. -/
def countedExport (name : String) (place : Nat) (origin : String) : Export :=
  ⟨"c." ++ name, .receive,
    .entryPoint ⟨.receive, "c", some name, false, false, true, none⟩ place none, origin⟩

/-- With a name of its own for the other function there is a table, and with one that is taken both
places of it are reported. -/
theorem exportTable_outcome_counted :
    (∃ m table, ofDecls (.ok {}) (countedDecls "lower") = .ok m ∧ m.exportTable = .ok table ∧
      table.exports =
        [countedExport "bump" 0 "bump", countedExport "raise" 0 "bump",
          countedExport "lower" 1 "other"] ∧
      table.find? "c.raise" = some (countedExport "raise" 0 "bump")) ∧
    ∃ m report, ofDecls (.ok {}) (countedDecls "raise") = .ok m ∧ m.exportTable = .error report ∧
      ExportTable.Reports (m.things.flatMap m.recorded) report.toList ∧
      report.toList = [⟨"Export 'c.raise' is defined more than once.", { item := "bump" }⟩,
        ⟨"Export 'c.raise' is defined more than once.", { item := "other" }⟩] := by
  constructor
  · obtain ⟨m, table, hm, htable, hrecorded⟩ : ∃ m table,
        ofDecls (.ok {}) (countedDecls "lower") = .ok m ∧ m.exportTable = .ok table ∧
        m.things.flatMap m.recorded =
          [countedExport "bump" 0 "bump", countedExport "raise" 0 "bump",
            countedExport "lower" 1 "other"] := ⟨_, _, rfl, rfl, rfl⟩
    obtain ⟨hexports, hfind⟩ := (exportTable_outcome m).2.1 table htable
    refine ⟨m, table, hm, htable, hexports.trans hrecorded, (hfind _ _).mpr ⟨?_, rfl⟩⟩
    rw [hrecorded]
    exact .tail _ (.head _)
  · obtain ⟨m, report, hm, hreport, hproblems⟩ : ∃ m report,
        ofDecls (.ok {}) (countedDecls "raise") = .ok m ∧ m.exportTable = .error report ∧
        report.toList = [⟨"Export 'c.raise' is defined more than once.", { item := "bump" }⟩,
          ⟨"Export 'c.raise' is defined more than once.", { item := "other" }⟩] :=
      ⟨_, _, rfl, rfl, rfl⟩
    exact ⟨m, report, hm, hreport, (exportTable_outcome m).2.2 report hreport, hproblems⟩

end Counted

end ContractKit.Module
