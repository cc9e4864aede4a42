import ContractKit.Contract.Spec
import ContractKit.Proofs.Attribute.Lookup
import ContractKit.Proofs.Fault.Gather

/-!
# `Proofs/Contract/Spec.lean`: which attributes make an entry point

An entry point has requirements that its attributes have to meet (`requirements`): texts that are given
once, a parameter that is given once at most, flags that take no value. Each is about the attributes of
one name, and has its own problems when it is not met (`Requirement.problems`). The look-ups of
`Spec.ofAttributes` are shown to report the problems of their requirement, all of these are joined, and
none depends on the order of the attributes (`ofAttributes_outcome`).
-/

set_option autoImplicit false

namespace ContractKit

open Report

namespace Spec

open Attribute

/-! ## What an entry point has to be given -/

/-- Something that the attributes of an entry point have to satisfy. All requirements are checked, and
each that fails is reported by itself. -/
inductive Requirement
  /-- A name is given once, as a text. -/
  | text (name missing : String)
  /-- The parameter is given once at most, as the name of a class or as a class. -/
  | parameter
  /-- A name is given as a flag only. -/
  | flag (name : String)

/-- What the attributes of an entry point have to satisfy beside having its names. -/
def requirements (kind : EntryKind) : List Requirement :=
  [.text "contract" (missingContract kind)] ++
  (match kind with
    | .init => []
    | .receive => [.text "name" missingReceiveName]) ++
  [.parameter, .flag "payable", .flag "enable_logger", .flag "low_level"]

/-- The type that a value is the parameter of. -/
def parameterType? : Value → Option ParameterType
  | .text name => some (.named name)
  | .type t => if (Value.type t).isClass then some (.given t) else none
  | _ => none

namespace Requirement

/-- Whether the attributes satisfy it. -/
def Met (attrs : List Attribute) : Requirement → Prop
  | text name _ => ∃ s, Once attrs name (.value (.text s))
  | parameter => named "parameter" attrs = [] ∨
      ∃ v, (parameterType? v).isSome ∧ Once attrs "parameter" (.value v)
  | flag name => ∀ a ∈ named name attrs, a.form = .flag

/-- What is said about attributes that do not satisfy it. -/
def problems (attrs : List Attribute) (span : Span) : Requirement → List Diagnostic
  | text name missing =>
    match named name attrs with
    | [] => [⟨missing, span⟩]
    | [a] =>
      match a.form with
      | .value (.text _) => []
      | .value _ => [⟨s!"The `{name}` attribute must be a string literal.", a.span⟩]
      | _ => [⟨s!"The `{name}` attribute must have a string literal value.", a.span⟩]
    | many => many.map (repeated name)
  | parameter =>
    match named "parameter" attrs with
    | [] => []
    | [a] =>
      match a.form with
      | .value v =>
        if (parameterType? v).isSome then []
        else [⟨"The `parameter` attribute must be a class or the name of a class.",
          span.atAttribute "parameter"⟩]
      | _ => [⟨"The `parameter` attribute must have a literal value.", a.span⟩]
    | many => many.map (repeated "parameter")
  | flag name =>
    match valued name attrs with
    | [] => []
    | a :: _ => [⟨s!"The `{name}` attribute is a flag and takes no value.", a.span⟩]

end Requirement

/-- Every attribute is one that an entry point can have. -/
abbrev Placed (kind : EntryKind) (attrs : List Attribute) : Prop :=
  ∀ a ∈ attrs, a.name ∈ kind.site.names

/-- What is wrong with the attributes of an entry point: those that it cannot have, or if there are
none everything that is not as it has to be. -/
def problems (kind : EntryKind) (attrs : List Attribute) (span : Span) : List Diagnostic :=
  if Placed kind attrs then (requirements kind).flatMap (Requirement.problems attrs span)
  else misplaced kind.site attrs

/-- The parameter is the one that the attributes give. -/
def ParameterGiven (attrs : List Attribute) : Option ParameterType → Prop
  | none => named "parameter" attrs = []
  | some p => ∃ v, parameterType? v = some p ∧ Once attrs "parameter" (.value v)

/-- The options are those that the attributes give. This is all that an attribute can say about an entry
point, field by field, without the order in which they were looked up. -/
structure Holds (kind : EntryKind) (attrs : List Attribute) (spec : Spec) : Prop where
  kind_eq : spec.kind = kind
  contract : Once attrs "contract" (.value (.text spec.contract))
  receiveName : match kind with
    | .init => spec.receiveName = none
    | .receive => ∃ name, spec.receiveName = some name ∧ Once attrs "name" (.value (.text name))
  parameter : ParameterGiven attrs spec.parameter
  payable : spec.payable = true ↔ ∃ a ∈ attrs, a.name = "payable"
  enableLogger : spec.enableLogger = true ↔ ∃ a ∈ attrs, a.name = "enable_logger"
  lowLevel : spec.lowLevel = true ↔ ∃ a ∈ attrs, a.name = "low_level"

/-! ## One requirement -/

section Requirements

variable {name missing : String} {attrs : List Attribute} {span : Span} {a : Attribute}

theorem once_iff {form : AttributeForm} :
    Once attrs name form ↔ ∃ a, named name attrs = [a] ∧ a.form = form := by
  rw [Once, List.map_eq_singleton_iff]

/-- A requirement is met if nothing is said about it. -/
theorem Requirement.problems_eq_nil_iff (r : Requirement) (attrs : List Attribute) (span : Span) :
    r.problems attrs span = [] ↔ r.Met attrs := by
  cases r with
  | text name missing =>
    rw [problems, Met]
    simp only [once_iff]
    obtain hnone | ⟨a, hone⟩ | ⟨a, b, more, hmany⟩ := named_cases name attrs
    · simp [hnone]
    · rw [hone]
      cases hform : a.form with
      | value v => cases v <;> simp [hform]
      | flag => simp [hform]
      | list => simp [hform]
    · simp [hmany]
  | parameter =>
    rw [problems, Met]
    simp only [once_iff]
    obtain hnone | ⟨a, hone⟩ | ⟨a, b, more, hmany⟩ := named_cases "parameter" attrs
    · simp [hnone]
    · rw [hone]
      cases hform : a.form with
      | value v => by_cases hv : (parameterType? v).isSome <;> simp [hform, hv]
      | flag => simp [hform]
      | list => simp [hform]
    · simp [hmany]
  | flag name =>
    rw [problems, Met, ← valued_eq_nil_iff]
    split <;> simp_all

theorem problemsOf_requiredText (name missing : String) (attrs : List Attribute) (span : Span) :
    problemsOf (requiredText name attrs missing span) =
      Requirement.problems attrs span (.text name missing) := by
  rw [requiredText, findText?, Requirement.problems]
  obtain hnone | ⟨a, hone⟩ | ⟨a, b, more, hmany⟩ := named_cases name attrs
  · rw [find?_none hnone, hnone]
    rfl
  · rw [find?_one hone, hone]
    dsimp only [bind, Except.bind]
    cases a.form with
    | value v => cases v <;> rfl
    | flag => rfl
    | list => rfl
  · rw [find?_repeated hmany, hmany]
    rfl

theorem once_of_requiredText {s : String} (h : requiredText name attrs missing span = .ok s) :
    Once attrs name (.value (.text s)) := by
  rw [requiredText, findText?] at h
  obtain hnone | ⟨a, hone⟩ | ⟨a, b, more, hmany⟩ := named_cases name attrs
  · rw [find?_none hnone] at h
    cases h
  · rw [find?_one hone] at h
    dsimp only [bind, Except.bind] at h
    cases hform : a.form with
    | value v =>
      rw [hform] at h
      cases v <;> cases h
      exact once_iff.mpr ⟨a, hone, hform⟩
    | flag => rw [hform] at h; cases h
    | list => rw [hform] at h; cases h
  · rw [find?_repeated hmany] at h
    cases h

/-- The one value that a parameter is given. -/
theorem parameterOf_value {v : Value} (hone : named "parameter" attrs = [a])
    (hform : a.form = .value v) : parameterOf attrs span =
      match parameterType? v with
      | some p => .ok (some p)
      | none => .error (.single "The `parameter` attribute must be a class or the name of a class."
          (span.atAttribute "parameter")) := by
  rw [parameterOf, findValue?, find?_one hone]
  dsimp only [bind, Except.bind]
  rw [hform]
  cases v with
  | type t => cases hclass : (Value.type t).isClass <;> simp [pure, Except.pure, parameterType?, hclass]
  | _ => rfl

/-- A parameter that is given once, but without a value. -/
theorem parameterOf_other (hone : named "parameter" attrs = [a])
    (hform : ∀ v, a.form ≠ .value v) : parameterOf attrs span =
      .error (.single "The `parameter` attribute must have a literal value." a.span) := by
  rw [parameterOf, findValue?, find?_one hone]
  dsimp only [bind, Except.bind]
  cases hother : a.form with
  | value v => exact absurd hother (hform v)
  | flag => rfl
  | list => rfl

theorem problemsOf_parameterOf (attrs : List Attribute) (span : Span) :
    problemsOf (parameterOf attrs span) = Requirement.problems attrs span .parameter := by
  rw [Requirement.problems]
  obtain hnone | ⟨a, hone⟩ | ⟨a, b, more, hmany⟩ := named_cases "parameter" attrs
  · rw [parameterOf, findValue?, find?_none hnone, hnone]
    rfl
  · rw [hone]
    cases hform : a.form with
    | value v =>
      rw [parameterOf_value hone hform]
      cases hv : parameterType? v <;> simp [problemsOf, hform, hv, single, toList]
    | flag =>
      rw [parameterOf_other hone (by simp [hform])]
      simp [problemsOf, hform, single, toList]
    | list =>
      rw [parameterOf_other hone (by simp [hform])]
      simp [problemsOf, hform, single, toList]
  · rw [parameterOf, findValue?, find?_repeated hmany, hmany]
    rfl

theorem problemsOf_hasFlag (name : String) (attrs : List Attribute) (span : Span) :
    problemsOf (hasFlag name attrs) = Requirement.problems attrs span (.flag name) := by
  rw [Requirement.problems]
  obtain ⟨hnone, hflag⟩ | ⟨a, more, hsome, hflag⟩ := hasFlag_cases name attrs
  · rw [hflag, hnone]
    rfl
  · rw [hflag, hsome]
    rfl

theorem given_of_hasFlag {b : Bool} (h : hasFlag name attrs = .ok b) :
    b = true ↔ ∃ a ∈ attrs, a.name = name := by
  obtain ⟨-, hflag⟩ | ⟨a, more, -, hflag⟩ := hasFlag_cases name attrs
  · rw [hflag] at h
    cases h
    rw [Bool.not_eq_true', List.isEmpty_eq_false_iff_exists_mem]
    exact exists_congr fun a => mem_named
  · rw [hflag] at h
    cases h

/-- What the parameter of an entry point is given as. -/
theorem given_of_parameterOf {p? : Option ParameterType}
    (h : parameterOf attrs span = .ok p?) :
    ParameterGiven attrs p? := by
  obtain hnone | ⟨a, hone⟩ | ⟨a, b, more, hmany⟩ := named_cases "parameter" attrs
  · rw [parameterOf, findValue?, find?_none hnone] at h
    cases h
    exact hnone
  · cases hform : a.form with
    | value v =>
      rw [parameterOf_value hone hform] at h
      cases hv : parameterType? v <;> rw [hv] at h <;> cases h
      exact ⟨v, hv, once_iff.mpr ⟨a, hone, hform⟩⟩
    | flag => rw [parameterOf_other hone (by simp [hform])] at h; cases h
    | list => rw [parameterOf_other hone (by simp [hform])] at h; cases h
  · rw [parameterOf, findValue?, find?_repeated hmany] at h
    cases h

end Requirements

/-! ## All requirements -/

section Outcome

variable {kind : EntryKind} {attrs attrs' : List Attribute} {span : Span}

theorem problemsOf_receiveNameOf (kind : EntryKind) (attrs : List Attribute) (span : Span) :
    problemsOf (receiveNameOf kind attrs span) =
      match kind with
      | .init => []
      | .receive => Requirement.problems attrs span (.text "name" missingReceiveName) := by
  cases kind with
  | init => rfl
  | receive => rw [receiveNameOf, problemsOf_map, problemsOf_requiredText]

/-- Everything that is wrong is reported. -/
theorem problemsOf_ofAttributes (kind : EntryKind) (attrs : List Attribute) (span : Span) :
    problemsOf (ofAttributes kind attrs span) = problems kind attrs span := by
  rw [problems, ofAttributes]
  split
  · next hplaced =>
    rw [checkSite_placed hplaced]
    -- with all results there, the options are put together without any more problems
    refine (problemsOf_bind (both (both _ _) _) fun _ => rfl).trans ?_
    simp only [problemsOf_both, problemsOf_requiredText, problemsOf_receiveNameOf,
      problemsOf_parameterOf, problemsOf_hasFlag _ _ span]
    cases kind <;> simp [requirements]
  · next hplaced =>
    obtain ⟨report, hcheck, hreport⟩ := checkSite_misplaced hplaced
    rw [hcheck]
    exact hreport

/-- Nothing is wrong with attributes that an entry point can have and that are as they have to be. -/
theorem problems_eq_nil_iff : problems kind attrs span = [] ↔
    Placed kind attrs ∧ ∀ r ∈ requirements kind, r.Met attrs := by
  rw [problems]
  split
  · next hplaced =>
    simp only [List.flatMap_eq_nil_iff, Requirement.problems_eq_nil_iff]
    exact (and_iff_right hplaced).symm
  · next hplaced =>
    rw [misplaced_eq_nil_iff]
    exact iff_of_false hplaced fun h => hplaced h.1

theorem holds_of_ofAttributes {spec : Spec} (h : ofAttributes kind attrs span = .ok spec) :
    spec.Holds kind attrs := by
  obtain ⟨_, -, h⟩ := bind_eq_ok.mp h
  obtain ⟨⟨⟨contract, receiveName⟩, parameter, payable, enableLogger, lowLevel⟩, hall, h⟩ :=
    bind_eq_ok.mp h
  simp only [both_eq_ok] at hall
  obtain ⟨⟨hcontract, hname⟩, hparameter, hpayable, hlogger, hlow⟩ := hall
  cases h
  refine ⟨rfl, once_of_requiredText hcontract, ?_, given_of_parameterOf hparameter,
    given_of_hasFlag hpayable, given_of_hasFlag hlogger, given_of_hasFlag hlow⟩
  cases kind with
  | init =>
    cases hname
    rfl
  | receive =>
    obtain ⟨name, htext, rfl⟩ := map_eq_ok.mp hname
    exact ⟨name, rfl, once_of_requiredText htext⟩

theorem requiredText_alike (h : attrs'.Perm attrs) (name missing : String) (span : Span) :
    Alike (requiredText name attrs' missing span) (requiredText name attrs missing span) := by
  have hfind : Alike (findText? name attrs') (findText? name attrs) :=
    (find?_alike h name).bind fun _ => Alike.refl _
  rw [requiredText, requiredText]
  obtain hsame | ⟨r, s, hr, hs, hperm⟩ := hfind.cases
  · rw [hsame]
    exact Alike.refl _
  · rw [hr, hs]
    exact hperm

theorem parameterOf_alike (h : attrs'.Perm attrs) (span : Span) :
    Alike (parameterOf attrs' span) (parameterOf attrs span) := by
  have hfind : Alike (findValue? "parameter" attrs') (findValue? "parameter" attrs) :=
    (find?_alike h "parameter").bind fun _ => Alike.refl _
  rw [parameterOf, parameterOf]
  obtain hsame | ⟨r, s, hr, hs, hperm⟩ := hfind.cases
  · rw [hsame]
    exact Alike.refl _
  · rw [hr, hs]
    exact hperm

theorem receiveNameOf_alike (kind : EntryKind) (h : attrs'.Perm attrs) (span : Span) :
    Alike (receiveNameOf kind attrs' span) (receiveNameOf kind attrs span) := by
  cases kind with
  | init => rfl
  | receive =>
    exact (requiredText_alike h "name" missingReceiveName span).map some

/-- **The order of the attributes does not matter.** Up to the order of what is reported, that is, as
`Alike` has it: a look-up goes by the name and not by the place. -/
theorem ofAttributes_alike (kind : EntryKind) (h : attrs'.Perm attrs) (span : Span) :
    Alike (ofAttributes kind attrs' span) (ofAttributes kind attrs span) :=
  (checkSite_alike kind.site h).bind fun _ =>
    (((requiredText_alike h _ _ _).both (receiveNameOf_alike kind h span)).both
      ((parameterOf_alike h span).both ((hasFlag_alike h _).both
        ((hasFlag_alike h _).both (hasFlag_alike h _))))).bind fun _ => Alike.refl _

/-- **Which attributes make an entry point, and what is said about the others.** It takes attributes
that an entry point of the kind can have and that meet its requirements, and no others; the options are
those given. Everything that is wrong is reported together, for each requirement exactly when it is not
met. In another order the attributes make the same entry point, or are told the same. -/
theorem ofAttributes_outcome (kind : EntryKind) (attrs : List Attribute) (span : Span) :
    ((∃ spec, ofAttributes kind attrs span = .ok spec) ↔
      Placed kind attrs ∧ ∀ r ∈ requirements kind, r.Met attrs) ∧
    (∀ spec, ofAttributes kind attrs span = .ok spec → spec.Holds kind attrs) ∧
    (∀ report, ofAttributes kind attrs span = .error report ↔
      report.toList = problems kind attrs span) ∧
    (∀ r ∈ requirements kind, r.problems attrs span = [] ↔ r.Met attrs) ∧
    ∀ attrs', attrs'.Perm attrs →
      Alike (ofAttributes kind attrs' span) (ofAttributes kind attrs span) := by
  refine ⟨?_, fun spec => holds_of_ofAttributes, fun report => ?_,
    fun r _ => r.problems_eq_nil_iff attrs span, fun attrs' h => ofAttributes_alike kind h span⟩
  · rw [← problemsOf_eq_nil_iff, problemsOf_ofAttributes, problems_eq_nil_iff]
  · rw [eq_error_iff, problemsOf_ofAttributes]

/-- Without any name, and with a flag that has a value, four things are wrong. -/
example (span : Span) : ofAttributes .receive
    [⟨"low_level", .flag, span⟩, ⟨"payable", .value (.int 1), span⟩,
      ⟨"parameter", .value (.int 2), span⟩] span =
    .error ⟨⟨missingContract .receive, span⟩,
      [⟨missingReceiveName, span⟩,
        ⟨"The `parameter` attribute must be a class or the name of a class.",
          span.atAttribute "parameter"⟩,
        ⟨"The `payable` attribute is a flag and takes no value.", span⟩]⟩ := rfl

end Outcome

end Spec

end ContractKit
