import ContractKit.Proofs.Module.Settled
import ContractKit.Proofs.Shape.Fields

/-!
# `Proofs/Module/Rejected.lean`: for which fields a class is rejected

That no codec is derived for a class with fields is owed to some of its fields: to those for which it
would not be derived if each were the only one (`Module.Rejects`). They are found in two passes, one
over the plans of all fields and one over their codecs. If the first finds any, the second is not made,
and the fields that only it would find go unreported (`deriveCodec_rejected`). A class can be rejected
for a field that its report does not name (`rejected_unnamed`).
-/

set_option autoImplicit false

namespace ContractKit

/-- The class with one of its fields as its only one, with its shape to be found. -/
def ClassEntry.only (e : ClassEntry) (f : FieldDecl) : ClassEntry where
  ref := e.ref
  form := match e.form with
    | .record decl => .record (decl.only f)
    | form => form
  defaults := e.defaults.filter fun d => d.1 == f.name
  scope := e.scope
  facts := e.facts
  exports := e.exports

namespace Module

/-- The module with a class that has one of its fields as its only one. -/
def only (m : Module) (place : Nat) (f : FieldDecl) : Module := m.modifyClass place (·.only f)

variable {m : Module} {place : Nat} {e : ClassEntry} {decl : RecordDecl} {f : FieldDecl}
  {directions : Directions}

theorem typeNamed_only (m : Module) (place : Nat) (f : FieldDecl) :
    (m.only place f).typeNamed = m.typeNamed := by
  apply SameNames.typeNamed
  exact sameNames_modifyClass (fun _ => rfl) fun _ => rfl

theorem facts_only (m : Module) (place : Nat) (f : FieldDecl) : (m.only place f).facts = m.facts := by
  funext id
  by_cases hid : id = .declared place
  · subst hid
    cases he : m.classes[place]? with
    | none => simp [facts, only, modifyClass, he]
    | some e => exact (facts_modifyClass he).trans (facts_declared he).symm
  · exact facts_modifyClass_of_ne hid

theorem getElem?_only (he : m.classes[place]? = some e) (f : FieldDecl) :
    (m.only place f).classes[place]? = some (e.only f) := by
  simp [only, modifyClass, he]

/-! ## What deriving comes to -/

theorem shapeOf_only (m : Module) (place : Nat) (hform : e.form = .record decl) (f : FieldDecl) :
    (m.only place f).shapeOf (e.only f) =
      Shape.ofRecord m.chars m.typeNamed (decl.only f) { item := e.ref.name } := by
  show Shape.ofClass (m.only place f).chars (m.only place f).typeNamed e.ref (e.only f).form = _
  rw [typeNamed_only, ClassEntry.only, hform]
  rfl

/-- Deriving ends as looking for the shape and its codec does. -/
theorem deriveCodec_outcome (he : m.classes[place]? = some e) (directions : Directions) :
    (∃ fault, m.deriveCodec directions (.cls place) = .error fault ∧
        m.shapeOf e >>= Shape.codec m.facts directions = .error fault) ∨
      ∃ m' c, m.deriveCodec directions (.cls place) = .ok m' ∧
        m.shapeOf e >>= Shape.codec m.facts directions = .ok c := by
  have hclass : m.classAt (.cls place) = .ok (place, e) := classAt_eq_ok.mpr ⟨rfl, he⟩
  unfold deriveCodec
  rw [hclass]
  cases hshape : m.shapeOf e with
  | error fault => exact .inl ⟨fault, by simp [hshape, bind, Except.bind]⟩
  | ok shape =>
    cases hcodec : shape.codec m.facts directions with
    | error fault => exact .inl ⟨fault, by simp [hshape, hcodec, bind, Except.bind]⟩
    | ok c =>
      refine .inr ⟨m.modifyClass place fun e =>
        { e with shape := some shape, facts := { e.facts with codec := some c } }, c, ?_, hcodec⟩
      simp only [bind, Except.bind, hshape, hcodec]
      rfl

theorem deriveCodec_eq_error (he : m.classes[place]? = some e) (directions : Directions) (fault : Fault) :
    m.deriveCodec directions (.cls place) = .error fault ↔
      m.shapeOf e >>= Shape.codec m.facts directions = .error fault := by
  rcases deriveCodec_outcome he directions with ⟨fault', hderive, hcodec⟩ | ⟨m', c, hderive, hcodec⟩
  · rw [hderive, hcodec]
    constructor
    · rintro ⟨⟩
      rfl
    · rintro ⟨⟩
      rfl
  · rw [hderive, hcodec]
    exact iff_of_false nofun nofun

/-! ## Fields alone -/

/-- What comes of deriving a codec for the class with a field as its only one. -/
def alone (m : Module) (directions : Directions) (place : Nat) (f : FieldDecl) : Except Fault Module :=
  (m.only place f).deriveCodec directions (.cls place)

/-- No codec is derived for the class with the field as its only one. -/
def Rejects (m : Module) (directions : Directions) (place : Nat) (f : FieldDecl) : Prop :=
  ∃ fault, m.alone directions place f = .error fault

/-- The class with the field as its only one does not even have a shape. -/
def Misshapes (m : Module) (place : Nat) (f : FieldDecl) : Prop :=
  ∃ e fault, (m.only place f).classes[place]? = some e ∧ (m.only place f).shapeOf e = .error fault

/-- The field is looked at in the pass that finds the first problems of the class. -/
def Surfaces (m : Module) (place : Nat) (decl : RecordDecl) (f : FieldDecl) : Prop :=
  m.Misshapes place f ∨ ∀ g ∈ decl.fields, ¬ m.Misshapes place g

section Alone

variable (he : m.classes[place]? = some e) (hform : e.form = .record decl)

include he hform

theorem alone_eq_error (f : FieldDecl) (fault : Fault) :
    m.alone directions place f = .error fault ↔
      Shape.ofRecord m.chars m.typeNamed (decl.only f) { item := e.ref.name } >>=
          Shape.codec m.facts directions =
        .error fault := by
  rw [alone, deriveCodec_eq_error (getElem?_only he f), shapeOf_only m place hform, facts_only]

theorem misshapes_iff (f : FieldDecl) :
    m.Misshapes place f ↔
      ∃ fault, Shape.ofRecord m.chars m.typeNamed (decl.only f) { item := e.ref.name } = .error fault := by
  rw [← shapeOf_only m place hform]
  constructor
  · rintro ⟨e', fault, he', hfault⟩
    obtain rfl := Option.some.inj ((getElem?_only he f).symm.trans he')
    exact ⟨fault, hfault⟩
  · rintro ⟨fault, hfault⟩
    exact ⟨_, fault, getElem?_only he f, hfault⟩

theorem alone_of_shape (directions : Directions) {f : FieldDecl} {fault : Fault}
    (h : Shape.ofRecord m.chars m.typeNamed (decl.only f) { item := e.ref.name } = .error fault) :
    m.alone directions place f = .error fault := by
  rw [alone_eq_error he hform, h]
  rfl

theorem rejects_of_misshapes {f : FieldDecl} (h : m.Misshapes place f) :
    m.Rejects directions place f := by
  obtain ⟨fault, hfault⟩ := (misshapes_iff he hform f).mp h
  exact ⟨fault, alone_of_shape he hform directions hfault⟩

/-- If some field alone leaves the class without a shape, what surfaces is what is said of the shape. -/
theorem mem_problemsIn_shape {f g : FieldDecl} (hg : g ∈ decl.fields) (hmisshapes : m.Misshapes place g)
    (d : Diagnostic) :
    d ∈ problemsIn (Shape.ofRecord m.chars m.typeNamed (decl.only f) { item := e.ref.name }) ↔
      m.Surfaces place decl f ∧ d ∈ problemsIn (m.alone directions place f) := by
  cases hshape : Shape.ofRecord m.chars m.typeNamed (decl.only f) { item := e.ref.name } with
  | ok shape =>
    refine iff_of_false List.not_mem_nil ?_
    rintro ⟨hf | hnone, -⟩
    · obtain ⟨fault, hfault⟩ := (misshapes_iff he hform f).mp hf
      rw [hshape] at hfault
      cases hfault
    · exact hnone g hg hmisshapes
  | error fault =>
    have halone := alone_of_shape he hform directions hshape
    have hsame : problemsIn (.error fault : Except Fault Shape) = problemsIn (m.alone directions place f) :=
      problemsIn_congr fun other => by simp [halone]
    rw [hsame, and_iff_right]
    exact .inl ((misshapes_iff he hform f).mpr ⟨fault, hshape⟩)

variable {resolved : List FieldDecl} (hhints : decl.hints m.typeNamed = .ok resolved)

include hhints

/-- What is said of a field alone is said of a place in it. -/
theorem within_alone (directions : Directions) {f : FieldDecl} (hf : f ∈ decl.fields) {d : Diagnostic}
    (hd : d ∈ problemsIn (m.alone directions place f)) :
    d.span.item = e.ref.name ∧ d.span.field = some f.name := by
  rw [problemsIn_congr (alone_eq_error he hform f)] at hd
  exact within_of_mem_problemsIn (within_only m.facts directions hhints hf) hd

/-- **Deriving a codec collects what is said of the fields alone**, as far as it comes to them. -/
theorem collected_alone (hsettles : m.Settles e) (directions : Directions) :
    ∃ wrong : FieldDecl → List Diagnostic,
      (∀ f ∈ decl.fields, ∀ d, d ∈ wrong f ↔
        m.Surfaces place decl f ∧ d ∈ problemsIn (m.alone directions place f)) ∧
      Collected (m.alone directions place) wrong decl.fields (m.deriveCodec directions (.cls place)) := by
  have hshape : m.shapeOf e = Shape.ofRecord m.chars m.typeNamed decl { item := e.ref.name } := by
    rw [hsettles.shapeOf_eq, hform]
    rfl
  have hderive := fun fault => (deriveCodec_eq_error he directions fault).symm
  rw [hshape] at hderive
  rcases passes m.facts directions { item := e.ref.name } hhints with
    ⟨hsome, hcollected⟩ | ⟨hnone, hcollected⟩
  · refine ⟨_, fun f hf d => ?_, hcollected.congr (fun f hf fault hno => ?_) hderive⟩
    · obtain ⟨g, hg, hfails⟩ := hsome
      exact mem_problemsIn_shape he hform hg ((misshapes_iff he hform g).mpr hfails) d
    · refine ⟨alone_of_shape he hform directions, fun halone => ?_⟩
      by_contra hshape
      have hstrays := (alone_eq_error he hform f fault).mp halone
      refine stays_only m.facts directions hhints hf ?_ ⟨fault, hstrays, hno⟩
      rintro ⟨other, hother, -⟩
      obtain rfl := Except.error.inj (halone.symm.trans (alone_of_shape he hform directions hother))
      exact hshape hother
  · refine ⟨_, fun f hf d => ?_, hcollected.congr (fun f _ fault _ => ?_) hderive⟩
    · rw [problemsIn_congr (alone_eq_error he hform f), and_iff_right]
      refine .inr fun g hg hmisshapes => ?_
      obtain ⟨shape, hshape⟩ := hnone g hg
      obtain ⟨fault, hfault⟩ := (misshapes_iff he hform g).mp hmisshapes
      rw [hshape] at hfault
      cases hfault
    · exact (alone_eq_error he hform f fault).symm

/-- A codec is derived if there is one for each field alone. -/
theorem exists_deriveCodec_iff (hsettles : m.Settles e) (directions : Directions) :
    (∃ m', m.deriveCodec directions (.cls place) = .ok m') ↔
      ∀ f ∈ decl.fields, ¬ m.Rejects directions place f := by
  obtain ⟨wrong, hwrong, hcollected⟩ := collected_alone he hform hhints hsettles directions
  rw [hcollected.exists_ok_iff]
  constructor
  · intro hfine
    have hhidden : ∀ f ∈ decl.fields, m.Surfaces place decl f → ¬ m.Rejects directions place f := by
      intro f hf hsurfaces hrejects
      obtain ⟨hstays, hnothing⟩ := hfine f hf
      obtain ⟨d, hd⟩ := (exists_mem_problemsIn hstays).mpr hrejects
      have hd := (hwrong f hf d).mpr ⟨hsurfaces, hd⟩
      rw [hnothing] at hd
      cases hd
    -- a field that leaves the class without a shape surfaces, so there is none and all fields do
    intro f hf
    refine hhidden f hf (.inr fun g hg hmisshapes => ?_)
    exact hhidden g hg (.inl hmisshapes) (rejects_of_misshapes he hform hmisshapes)
  · intro hnone f hf
    have hstays : ¬ Strays (m.alone directions place f) := by
      rintro ⟨fault, hfault, -⟩
      exact hnone f hf ⟨fault, hfault⟩
    refine ⟨hstays, List.eq_nil_iff_forall_not_mem.mpr fun d hd => hnone f hf ?_⟩
    exact (exists_mem_problemsIn hstays).mp ⟨d, ((hwrong f hf d).mp hd).2⟩

section Report

variable {report : Report} (hsettles : m.Settles e)
  (hreport : m.deriveCodec directions (.cls place) = .error (.derive report))

include hsettles hreport

/-- What is reported of the fields that surface is what would be reported of them alone. -/
theorem mem_report_iff (d : Diagnostic) :
    d ∈ report.toList ↔ ∃ f ∈ decl.fields, m.Surfaces place decl f ∧
      d ∈ problemsIn (m.alone directions place f) := by
  obtain ⟨wrong, hwrong, hcollected⟩ := collected_alone he hform hhints hsettles directions
  rw [hreport] at hcollected
  rw [hcollected.of_reported.2]
  exact exists_congr fun f => and_congr_right fun hf => hwrong f hf d

theorem span_of_mem_report {d : Diagnostic} (hd : d ∈ report.toList) :
    d.span.item = e.ref.name ∧ d.span.field.isSome := by
  obtain ⟨f, hf, -, hd⟩ := (mem_report_iff he hform hhints hsettles hreport d).mp hd
  obtain ⟨hitem, hfield⟩ := within_alone he hform hhints directions hf hd
  rw [hfield]
  exact ⟨hitem, rfl⟩

/-- The fields that are reported are those that surface among the ones that the class is rejected for. -/
theorem exists_mem_report_iff (name : String) :
    (∃ d ∈ report.toList, d.span.field = some name) ↔
      ∃ f ∈ decl.fields, f.name = name ∧ m.Rejects directions place f ∧ m.Surfaces place decl f := by
  have hmem := mem_report_iff he hform hhints hsettles hreport
  obtain ⟨wrong, -, hcollected⟩ := collected_alone he hform hhints hsettles directions
  rw [hreport] at hcollected
  have hstays := hcollected.of_reported.1
  constructor
  · rintro ⟨d, hd, hname⟩
    obtain ⟨f, hf, hsurfaces, hd⟩ := (hmem d).mp hd
    obtain ⟨-, hfield⟩ := within_alone he hform hhints directions hf hd
    exact ⟨f, hf, Option.some.inj (hfield.symm.trans hname),
      (exists_mem_problemsIn (hstays f hf)).mp ⟨d, hd⟩, hsurfaces⟩
  · rintro ⟨f, hf, rfl, hrejects, hsurfaces⟩
    obtain ⟨d, hd⟩ := (exists_mem_problemsIn (hstays f hf)).mpr hrejects
    exact ⟨d, (hmem d).mpr ⟨f, hf, hsurfaces, hd⟩, (within_alone he hform hhints directions hf hd).2⟩

end Report

end Alone

/-- **The fields that a class is rejected for.** A codec is derived for a class with fields if there is one
for each of its fields alone. What is reported of a field is what would be reported of it alone, and the
fields in the report are those that surface among the ones the class is rejected for: if it would have no
shape for some of them, those that it has a shape but no codec for go unreported. A fault that is no
report is that of the first field which alone would have such a fault. -/
theorem deriveCodec_rejected {resolved : List FieldDecl} (he : m.classes[place]? = some e)
    (hform : e.form = .record decl) (hsettles : m.Settles e)
    (hhints : decl.hints m.typeNamed = .ok resolved) (directions : Directions) :
    ((∃ m', m.deriveCodec directions (.cls place) = .ok m') ↔
      ∀ f ∈ decl.fields, ¬ m.Rejects directions place f) ∧
    (∀ report, m.deriveCodec directions (.cls place) = .error (.derive report) →
      (∀ d, d ∈ report.toList ↔ ∃ f ∈ decl.fields, m.Surfaces place decl f ∧
        d ∈ problemsIn (m.alone directions place f)) ∧
      (∀ d ∈ report.toList, d.span.item = e.ref.name ∧ d.span.field.isSome) ∧
      ∀ name, (∃ d ∈ report.toList, d.span.field = some name) ↔
        ∃ f ∈ decl.fields, f.name = name ∧ m.Rejects directions place f ∧ m.Surfaces place decl f) ∧
    ∀ fault, m.deriveCodec directions (.cls place) = .error fault → ¬ fault.IsReport →
      ∃ before f after, decl.fields = before ++ f :: after ∧ m.alone directions place f = .error fault ∧
        ∀ g ∈ before, ¬ Strays (m.alone directions place g) := by
  refine ⟨exists_deriveCodec_iff he hform hhints hsettles directions, fun report hreport => ?_,
    fun fault hfault hno => ?_⟩
  · exact ⟨mem_report_iff he hform hhints hsettles hreport,
      fun d hd => span_of_mem_report he hform hhints hsettles hreport hd,
      exists_mem_report_iff he hform hhints hsettles hreport⟩
  · obtain ⟨wrong, -, hcollected⟩ := collected_alone he hform hhints hsettles directions
    rw [hfault] at hcollected
    obtain ⟨before, f, after, hsplit, hbefore, halone⟩ := hcollected.of_strayed hno
    exact ⟨before, f, after, hsplit, halone, hbefore⟩

section Flawed

/-- A class with a field whose attribute does not suit its type, and one with a type that has no codec. -/
def flawedDecls : List Source.Decl :=
  [.dataclass "Foo"
    [⟨"a", .annotated (.type (.sized .u8)) [.marker [] [("size_length", .int 1)]], true, none⟩,
      ⟨"b", .type .int, true, none⟩] false false none none []]

theorem deriveCodec_rejected_flawed : ∃ m e decl resolved report, ofDecls (.ok {}) flawedDecls = .ok m ∧
    m.classes[0]? = some e ∧ e.form = .record decl ∧ m.Settles e ∧
    decl.hints m.typeNamed = .ok resolved ∧
    m.deriveCodec ⟨true, true⟩ (.cls 0) = .error (.derive report) ∧
    ∀ name, (∃ d ∈ report.toList, d.span.field = some name) ↔
      ∃ f ∈ decl.fields, f.name = name ∧ m.Rejects ⟨true, true⟩ 0 f ∧ m.Surfaces 0 decl f := by
  obtain ⟨m, e, decl, resolved, report, hm, he, hform, hshape, hcodec, hhints, hreport⟩ :
      ∃ m e decl resolved report, ofDecls (.ok {}) flawedDecls = .ok m ∧ m.classes[0]? = some e ∧
        e.form = .record decl ∧ e.shape = none ∧ e.facts.codec = none ∧
        decl.hints m.typeNamed = .ok resolved ∧
        m.deriveCodec ⟨true, true⟩ (.cls 0) = .error (.derive report) :=
    ⟨_, _, _, _, _, rfl, rfl, rfl, rfl, rfl, rfl, rfl⟩
  have hsettles : m.Settles e := Settles.of_fresh hshape hcodec
  obtain ⟨-, hreports, -⟩ := deriveCodec_rejected he hform hsettles hhints ⟨true, true⟩
  exact ⟨m, e, decl, resolved, report, hm, he, hform, hsettles, hhints, hreport,
    (hreports report hreport).2.2⟩

/-- **A class can be rejected for a field that the report does not name.** -/
theorem rejected_unnamed : ∃ m e decl resolved report, ofDecls (.ok {}) flawedDecls = .ok m ∧
    m.classes[0]? = some e ∧ e.form = .record decl ∧ decl.hints m.typeNamed = .ok resolved ∧
    m.deriveCodec ⟨true, true⟩ (.cls 0) = .error (.derive report) ∧
    ∃ f ∈ decl.fields, m.Rejects ⟨true, true⟩ 0 f ∧ ∀ d ∈ report.toList, d.span.field ≠ some f.name := by
  refine ⟨_, _, _, _, _, rfl, rfl, rfl, rfl, rfl, _, List.mem_cons_of_mem _ List.mem_cons_self,
    ⟨_, rfl⟩, ?_⟩
  decide

end Flawed

end Module

end ContractKit
