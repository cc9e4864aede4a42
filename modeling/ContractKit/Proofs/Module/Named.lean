import ContractKit.Proofs.Contract.Export
import ContractKit.Proofs.Contract.ExportName
import ContractKit.Proofs.Module.Exported

/-!
# `Proofs/Module/Named.lean`: the names of the exports of a module

Every export of a declared module is for something, and has the name of it
(`Module.exists_keyed_exports`). So the exports that clash are those whose names have the readings of
`ExportKey.Coincides`, and with plain contracts those that are for the same
(`Module.exportTable_keyed`).
-/

set_option autoImplicit false

namespace ContractKit.Module

variable {m : Module} {settings : LoadedSettings} {decls : List Source.Decl} {chars : Text.CharNames}

/-- A recorded export is for something. -/
theorem keyed_recorded {d : Decorated} {e : Export} (hnamed : m.NamedOn d e)
    (h : ∃ keys, Keyed (m.recorded d) keys) : ∃ keys, Keyed (m.recorded d ++ [e]) keys := by
  obtain ⟨keys, h⟩ := h
  unfold NamedOn at hnamed
  cases hbody : e.body with
  | entryPoint spec place plan? =>
    simp only [hbody] at hnamed
    exact ⟨_, h.entry hbody hnamed⟩
  | stateSchema data =>
    simp only [hbody] at hnamed
    obtain ⟨contract, hname⟩ := hnamed
    exact ⟨_, h.state hbody hname⟩
  | parameterSchema p =>
    simp only [hbody] at hnamed
    obtain ⟨before, spec, place, plan?, hbefore, hentry, hparameter, hname⟩ := hnamed
    exact ⟨_, h.parameter hbefore hentry hparameter hbody hname⟩
  | test place =>
    simp only [hbody] at hnamed
    exact ⟨_, h.test hbody hnamed⟩

/-- **Every export of a declared module is for something.** -/
theorem exists_keyed_exports (hm : ofDecls settings decls chars = .ok m) :
    ∃ keys, Keyed m.exports keys := by
  refine of_exports (R := fun es => ∃ keys, Keyed es keys) ⟨[], .nil⟩ ?_ ?_ hm
  · rintro es fs ⟨ks, hes⟩ ⟨ls, hfs⟩
    exact ⟨ks ++ ls, hes.append hfs⟩
  · intro m d e _ _ hnamed h
    exact keyed_recorded hnamed h

/-- What stands at the place is related to what stands at another one. -/
def SharedAt (R : ExportKey → ExportKey → Prop) (keys : List ExportKey) (place : Nat) : Prop :=
  ∃ k, keys[place]? = some k ∧ ∃ other l, other ≠ place ∧ keys[other]? = some l ∧ R k l

/-- An export clashes with others exactly if its name has the readings of what they are for. -/
theorem clashesAt_iff {es : List Export} {keys : List ExportKey} (h : Keyed es keys) {e : Export}
    {place : Nat} : ExportTable.ClashesAt es e place ↔
      es[place]? = some e ∧ SharedAt ExportKey.Alike keys place := by
  constructor
  · rintro ⟨he, other, f, hother, hf, hname⟩
    obtain ⟨k, hk, hkname⟩ := h.exists_key he
    obtain ⟨l, hl, hlname⟩ := h.exists_key hf
    refine ⟨he, k, hk, other, l, hother, hl, ExportKey.name_eq_iff.mp ?_⟩
    rw [hkname, hlname, hname]
  · rintro ⟨he, k, hk, other, l, hother, hl, halike⟩
    obtain ⟨f, hf, hfname⟩ := h.exists_export hl
    obtain ⟨k', hk', hkname⟩ := h.exists_key he
    obtain rfl := Option.some.inj (hk.symm.trans hk')
    exact ⟨he, other, f, hother, hf, by rw [hfname, ← hkname, ExportKey.name_eq_iff.mpr halike]⟩

/-- Nothing is shared by what differs. -/
theorem not_sharedAt_of_nodup {keys : List ExportKey} (h : keys.Nodup) (place : Nat) :
    ¬ SharedAt (· = ·) keys place := by
  rintro ⟨k, hk, other, l, hother, hl, rfl⟩
  obtain ⟨hlt, -⟩ := List.getElem?_eq_some_iff.mp hl
  exact hother ((List.getElem?_inj hlt h).mp (hl.trans hk.symm))

/-- Names that have one reading are shared by what is the same. -/
theorem sharedAt_iff_of_plain {keys : List ExportKey} (h : ∀ k ∈ keys, k.Plain) (place : Nat) :
    SharedAt ExportKey.Alike keys place ↔ SharedAt (· = ·) keys place := by
  have hone : ∀ {i j : Nat} {k l : ExportKey}, keys[i]? = some k → keys[j]? = some l →
      (k.Alike l ↔ k = l) := by
    intro i j k l hk hl
    exact ExportKey.alike_iff_of_plain (h k (List.mem_of_getElem? hk)) (h l (List.mem_of_getElem? hl))
  constructor
  · rintro ⟨k, hk, other, l, hother, hl, halike⟩
    exact ⟨k, hk, other, l, hother, hl, (hone hk hl).mp halike⟩
  · rintro ⟨k, hk, other, l, hother, hl, hsame⟩
    exact ⟨k, hk, other, l, hother, hl, (hone hk hl).mpr hsame⟩

/-- **Names identify exports up to their two readings.** Every export of a declared module is for
something. There is a table exactly if no export is for the same as another one, or shares a name of two
readings with it; otherwise the exports that do so are the ones that are reported. If all contracts are
plain, names have no second readings. -/
theorem exportTable_keyed (hm : ofDecls settings decls chars = .ok m) :
    (∃ keys, Keyed m.exports keys) ∧ ∀ keys, Keyed m.exports keys →
      ((∃ table, m.exportTable = .ok table) ↔ ∀ place, ¬ SharedAt ExportKey.Alike keys place) ∧
      (∀ report, m.exportTable = .error report → ∃ found : List (Export × Nat),
        report.toList = found.map (fun o => ExportTable.duplicate o.1) ∧
        ∀ e place, (e, place) ∈ found ↔
          m.exports[place]? = some e ∧ SharedAt ExportKey.Alike keys place) ∧
      ((∀ k ∈ keys, k.Plain) →
        ∀ place, SharedAt ExportKey.Alike keys place ↔ SharedAt (· = ·) keys place) := by
  refine ⟨exists_keyed_exports hm, ?_⟩
  intro keys hkeys
  refine ⟨?_, ?_, sharedAt_iff_of_plain⟩
  · rw [exportTable, ExportTable.exists_ofExports_iff]
    constructor
    · rintro h place ⟨k, hk, hshared⟩
      obtain ⟨e, he, -⟩ := hkeys.exists_export hk
      exact h e place ((clashesAt_iff hkeys).mpr ⟨he, k, hk, hshared⟩)
    · intro h e place hclash
      exact h place ((clashesAt_iff hkeys).mp hclash).2
  · intro report hreport
    obtain ⟨found, hproblems, hfound, -⟩ := ExportTable.reports_of_ofExports hreport
    refine ⟨found, hproblems, ?_⟩
    intro e place
    rw [hfound, clashesAt_iff hkeys]

section Keyed

open Source

/-- An entry point that works on the bytes of the state, with more options beside that. -/
def rawEntry (name : String) (kind : EntryKind) (options : List (String × Expr)) : Decl :=
  .function name [("ctx", none), ("state", none)] none []
    [.entryPoint kind (some ⟨[], options ++ [("low_level", .bool true)]⟩)]

/-- The export of such an entry point. -/
def rawExport (spec : Spec) (place : Nat) (origin : String) : Export :=
  ⟨spec.exportName, match spec.kind with | .init => .init | .receive => .receive,
    .entryPoint spec place none, origin⟩

theorem keyed_rawExport {es : List Export} {ks : List ExportKey} (h : Keyed es ks) (spec : Spec)
    (place : Nat) (origin : String) :
    Keyed (es ++ [rawExport spec place origin]) (ks ++ [.entry spec.key]) := h.entry rfl rfl

/-- A contract that is set up, and receives messages with a parameter. -/
def plainDecls : List Decl :=
  [rawEntry "create" .init [("contract", .text "c")],
   rawEntry "bump" .receive [("contract", .text "c"), ("name", .text "bump"), ("parameter", .text "Step")]]

def createSpec : Spec := ⟨.init, "c", none, false, false, true, none⟩

def bumpSpec : Spec := ⟨.receive, "c", some "bump", false, false, true, some (.named "Step")⟩

def bumpSchema : Export :=
  ⟨"concordium_schema_function_c.bump", .schema, .parameterSchema (.named "Step"), "bump"⟩

/-- The exports of a contract with plain names make up a table. -/
theorem exportTable_keyed_plain : ∃ m, ofDecls (.ok {}) plainDecls = .ok m ∧
    Keyed m.exports
      [.entry (.init "c"), .entry (.receive "c" "bump"), .parameter (.receive "c" "bump")] ∧
    ∃ table, m.exportTable = .ok table := by
  obtain ⟨m, hm, hexports⟩ : ∃ m, ofDecls (.ok {}) plainDecls = .ok m ∧
      m.exports = [rawExport createSpec 0 "create", rawExport bumpSpec 1 "bump", bumpSchema] :=
    ⟨_, rfl, rfl⟩
  have hentries := keyed_rawExport (keyed_rawExport .nil createSpec 0 "create") bumpSpec 1 "bump"
  have hkeyed : Keyed m.exports
      [.entry (.init "c"), .entry (.receive "c" "bump"), .parameter (.receive "c" "bump")] := by
    rw [hexports]
    have hbumped : (rawExport bumpSpec 1 "bump").body = .entryPoint bumpSpec 1 none := rfl
    exact hentries.parameter rfl hbumped rfl rfl rfl
  obtain ⟨htable, -, hplain⟩ := (exportTable_keyed hm).2 _ hkeyed
  refine ⟨m, hm, hkeyed, htable.mpr ?_⟩
  intro place
  rw [hplain (by decide)]
  exact not_sharedAt_of_nodup (by decide) place

/-- Two functions that receive messages of contracts of their own, with a dot in one name of each. -/
def dottedDecls : List Decl :=
  [rawEntry "f" .receive [("contract", .text "a.b"), ("name", .text "c")],
   rawEntry "g" .receive [("contract", .text "a"), ("name", .text "b.c")]]

/-- The messages of two contracts of different names clash. -/
theorem clash_of_dotted_names : ∃ m report, ofDecls (.ok {}) dottedDecls = .ok m ∧
    Keyed m.exports [.entry (.receive "a.b" "c"), .entry (.receive "a" "b.c")] ∧
    m.exportTable = .error report ∧
    report.toList = [⟨"Export 'a.b.c' is defined more than once.", { item := "f" }⟩,
      ⟨"Export 'a.b.c' is defined more than once.", { item := "g" }⟩] := by
  have hentries := keyed_rawExport
    (keyed_rawExport .nil ⟨.receive, "a.b", some "c", false, false, true, none⟩ 0 "f")
    ⟨.receive, "a", some "b.c", false, false, true, none⟩ 1 "g"
  exact ⟨_, _, rfl, hentries, rfl, rfl⟩

end Keyed

end ContractKit.Module
