import ContractKit.Proofs.Attribute.Place
import ContractKit.Proofs.Codec.Refused
import ContractKit.Proofs.Fault.Problems
import ContractKit.Shape.Derived
import ContractKit.Shape.OfClass

/-!
# `Proofs/Shape/Fields.lean`: what is wrong with the fields of a class

A field is planned first, by its attributes, and its codec is looked for afterwards. Whatever is wrong
with it either time is reported in the field (`FieldPlan.within_ofHint`, `FieldPlan.reports_codec`).
Planning is one pass over all fields of a class (`collected_plans`) and looking for codecs another one,
over fields that all have a plan (`collected_codec`). So each pass reports every field with which there
is a problem of its own kind, and the second does not come to pass if the first has found any.
-/

set_option autoImplicit false

namespace ContractKit

namespace FieldPlan

variable {chars : Text.CharNames} {name : String} {hint : TypeHint} {span : Span}
  {attrs : List Attribute}

/-! ## Plans -/

theorem within_orderOf (kind : ContainerKind) (h : Attribute.AllWithin span attrs) :
    Confined (Fault.Within span) (orderOf kind attrs) := by
  intro f hf
  unfold orderOf at hf
  split at hf
  all_goals try
    split at hf
    · rename_i report hflag
      cases hf
      exact Fault.within_derive (h.hasFlag hflag)
    · cases hf
    · cases hf
  cases hf

theorem within_locate_check (span : Span) (attr : String) (kind : ContainerKind) (type : Ty) :
    Confined (Fault.Within span) (locate (span.atAttribute attr) (kind.check type)) := by
  unfold ContainerKind.check
  split
  · exact .ok _
  · exact .error (Fault.within_derive (Report.within_single _ ⟨rfl, rfl⟩))

theorem within_strategyOf (type : Ty) (h : Attribute.AllWithin span attrs) (kinds : List ContainerKind) :
    Confined (Fault.Within span) (strategyOf type span attrs kinds) := by
  induction kinds with
  | nil => exact .ok _
  | cons kind kinds ih =>
    rw [strategyOf]
    split
    · rename_i report hlength
      exact .error (Fault.within_derive (h.findLength? hlength))
    · exact ih
    · refine .bind (within_locate_check span _ kind type) fun _ _ => ?_
      exact .bind (within_orderOf kind h) fun _ _ => .ok _

/-- **What is wrong with the attributes of a field is reported in it.** -/
theorem within_ofHint (chars : Text.CharNames) (name : String) (hint : TypeHint) (span : Span) :
    Confined (Fault.Within span) (ofHint chars name hint span) := by
  refine .bind (Attribute.within_collect chars span _ _) fun attrs hattrs => ?_
  have hwithin := Attribute.allWithin_of_collect hattrs
  split
  · rename_i report hsite
    exact .error (Fault.within_derive (hwithin.checkSite hsite))
  · exact .bind (within_strategyOf _ hwithin _) fun _ _ => .ok _

theorem span_of_ofHint {p : FieldPlan} (h : ofHint chars name hint span = .ok p) : p.span = span := by
  obtain ⟨attrs, -, h⟩ := bind_eq_ok.mp h
  split at h
  · cases h
  · obtain ⟨strategy, -, h⟩ := bind_eq_ok.mp h
    cases h
    rfl

/-! ## Codecs -/

theorem confined_rawCodec (classes : Classes) (p : FieldPlan) :
    Confined (fun f => ∃ issue, f = .typeIssue issue) (p.rawCodec classes) := by
  unfold rawCodec
  split
  · exact Codec.confined_ofType (fun issue => ⟨issue, rfl⟩) _ _
  · exact Codec.confined_prefixed (fun issue => ⟨issue, rfl⟩) _ _ _ _ _

/-- **A planned field without a codec is reported, and nothing else comes of it.** -/
theorem reports_codec (classes : Classes) (directions : Directions) (p : FieldPlan) :
    Confined (fun f => ∃ message, f = .derive (.single message p.span)) (p.codec classes directions) := by
  refine .locate (P := fun f => (∃ issue, f = .typeIssue issue) ∨
    ∃ message, f = .derive (.single message p.span)) ?_ ?_
  · refine .bind ((confined_rawCodec classes p).mono fun f hf => .inl hf) fun c _ => ?_
    refine .ite (.error (.inr ⟨_, rfl⟩)) ?_
    exact .ite (.error (.inr ⟨_, rfl⟩)) (.ok _)
  · rintro f (⟨issue, rfl⟩ | ⟨message, rfl⟩)
    · exact ⟨_, Fault.located_typeIssue p.span issue⟩
    · exact ⟨message, rfl⟩

end FieldPlan

/-! ## Where problems are -/

theorem within_of_mem_problemsIn {span : Span} {α : Type} {x : Except Fault α}
    (hx : Confined (Fault.Within span) x) {d : Diagnostic} (hd : d ∈ problemsIn x) : d.span.Within span := by
  rcases outcome_cases x with ⟨-, hnone, -⟩ | ⟨report, rfl, hproblems, -⟩ | ⟨g, rfl, hnone, -⟩
  · rw [hnone] at hd
    cases hd
  · exact hx _ rfl report rfl d hd
  · rw [hnone] at hd
    cases hd

/-- An outcome of one item is confined to where the problems of the item are. -/
theorem Collected.confined {α β γ : Type} {part : α → Except Fault β} {wrong : α → List Diagnostic}
    {a : α} {x : Except Fault γ} {span : Span} (h : Collected part wrong [a] x)
    (hwrong : ∀ d ∈ wrong a, d.span.Within span) : Confined (Fault.Within span) x := by
  rintro f rfl report rfl d hd
  rcases h.alone_cases with ⟨f, hf, -, hno⟩ | ⟨-, -, hproblems⟩
  · cases hf
    exact absurd ⟨report, rfl⟩ hno
  · exact hwrong d ((hproblems d).mp hd)

/-! ## Fields -/

namespace FieldDecl

/-- The plan of a field in a class at a place. -/
def planned (chars : Text.CharNames) (span : Span) (f : FieldDecl) : Except Fault FieldPlan :=
  FieldPlan.ofHint chars f.name f.hint (span.atField f.name)

/-- Its codec, which is looked for as the plan says. -/
def coded (chars : Text.CharNames) (classes : Classes) (directions : Directions) (span : Span)
    (f : FieldDecl) : Except Fault Codec :=
  f.planned chars span >>= FieldPlan.codec classes directions

/-- The problems that are found with a field while it is planned. Items of tuples are always given. -/
def flaws (chars : Text.CharNames) (positional : Bool) (span : Span) (f : FieldDecl) :
    List Diagnostic :=
  (if positional then [] else (RecordDecl.undecodable span f).toList) ++
    problemsIn (f.planned chars span)

variable {chars : Text.CharNames} {span : Span} {f : FieldDecl}

theorem within_of_mem_flaws {positional : Bool} {d : Diagnostic} (hd : d ∈ f.flaws chars positional span) :
    d.span.Within (span.atField f.name) := by
  rcases List.mem_append.mp hd with hd | hd
  · unfold RecordDecl.undecodable at hd
    cases positional with
    | true => cases hd
    | false =>
      cases hgiven : f.given with
      | true => simp [hgiven] at hd
      | false =>
        obtain rfl : d = _ := by simpa [hgiven] using hd
        exact ⟨rfl, rfl⟩
  · exact within_of_mem_problemsIn (FieldPlan.within_ofHint _ _ _ _) hd

theorem within_coded (chars : Text.CharNames) (classes : Classes) (directions : Directions)
    (span : Span) (f : FieldDecl) :
    Confined (Fault.Within (span.atField f.name)) (f.coded chars classes directions span) := by
  refine .bind (FieldPlan.within_ofHint _ _ _ _) fun p hp => ?_
  refine (FieldPlan.reports_codec classes directions p).mono ?_
  rintro _ ⟨message, rfl⟩
  refine Fault.within_derive (Report.within_single message ?_)
  rw [FieldPlan.span_of_ofHint hp]
  exact ⟨rfl, rfl⟩

/-- The codec of a planned field is found or reported to be missing. -/
theorem stays_coded (classes : Classes) (directions : Directions) (h : ¬ Strays (f.planned chars span)) :
    ¬ Strays (f.coded chars classes directions span) := by
  rintro ⟨g, hg, hstrays⟩
  unfold coded at hg
  cases hp : f.planned chars span with
  | error g' =>
    rw [hp] at hg
    cases hg
    exact h ⟨g, hp, hstrays⟩
  | ok p =>
    rw [hp] at hg
    obtain ⟨message, rfl⟩ := FieldPlan.reports_codec classes directions p g hg
    exact hstrays ⟨_, rfl⟩

end FieldDecl

/-! ## Classes -/

section Record

variable {chars : Text.CharNames} {names : String → Except Fault Ty} {decl : RecordDecl}
  {span : Span} {fields : List FieldDecl}

theorem plans_eq (hhints : decl.hints names = .ok fields) :
    decl.plans chars names span = gather (fields.map (FieldDecl.planned chars span)) >>= fun found =>
      if decl.target.cls.isPositional then settle (.unnamed found.1) found.2
      else if fields.isEmpty then pure .none
      else settle (.named found.1) (fields.filterMap (RecordDecl.undecodable span) ++ found.2) := by
  unfold RecordDecl.plans
  rw [hhints]
  rfl

/-- **Planning a class reports every field that has flaws.** -/
theorem collected_plans (hhints : decl.hints names = .ok fields) :
    Collected (FieldDecl.planned chars span)
      (FieldDecl.flaws chars decl.target.cls.isPositional span) fields
      (decl.plans chars names span) := by
  rw [plans_eq hhints]
  cases hpositional : decl.target.cls.isPositional with
  | true =>
    refine .gather FieldPlans.unnamed id fun d => ?_
    simp [FieldDecl.flaws]
  | false =>
    cases fields with
    | nil => exact .fine (List.forall_mem_nil _) (List.forall_mem_nil _)
    | cons f rest =>
      refine .gather FieldPlans.named ((f :: rest).filterMap (RecordDecl.undecodable span) ++ ·) fun d => ?_
      simp only [FieldDecl.flaws, List.mem_append, List.mem_filterMap, List.mem_flatMap,
        Option.mem_toList, Bool.false_eq_true, if_false, and_or_left, exists_or]

/-- The plans that are found are those of the fields, in order. -/
theorem planned_of_plans {found : FieldPlans} (hhints : decl.hints names = .ok fields)
    (h : decl.plans chars names span = .ok found) :
    List.Forall₂ (fun f p => f.planned chars span = .ok p) fields found.toList := by
  rw [plans_eq hhints] at h
  obtain ⟨⟨plans, problems⟩, hplans, h⟩ := bind_eq_ok.mp h
  have hplanned (hnone : problems = []) :
      List.Forall₂ (fun f p => f.planned chars span = .ok p) fields plans := by
    subst hnone
    exact List.forall₂_map_left_iff.mp (forall₂_of_gather hplans)
  split at h
  · obtain ⟨hnone, rfl⟩ := settle_eq_ok.mp h
    exact hplanned hnone
  · split at h
    · rename_i hempty
      cases h
      rw [List.isEmpty_iff.mp hempty]
      exact .nil
    · obtain ⟨hnone, rfl⟩ := settle_eq_ok.mp h
      exact hplanned (List.append_eq_nil_iff.mp hnone).2

/-- **So does finding the shape of a class.** -/
theorem collected_ofRecord (hhints : decl.hints names = .ok fields) :
    Collected (FieldDecl.planned chars span)
      (FieldDecl.flaws chars decl.target.cls.isPositional span) fields
      (Shape.ofRecord chars names decl span) := by
  refine (collected_plans hhints).bind fun found _ => ?_
  cases found with
  | _ => exact ⟨_, rfl⟩

/-- What has a plan is coded as its plan is. -/
theorem coded_of_planned (classes : Classes) (directions : Directions) {plans : List FieldPlan}
    (h : List.Forall₂ (fun f p => FieldDecl.planned chars span f = .ok p) fields plans) :
    plans.map (FieldPlan.codec classes directions) =
      fields.map (FieldDecl.coded chars classes directions span) := by
  induction h with
  | nil => rfl
  | cons hp _ ih =>
    rw [List.map_cons, List.map_cons, ih, FieldDecl.coded, hp]
    rfl

/-- **Finding the codec of a class reports every field that has none.** -/
theorem collected_codec {shape : Shape} (classes : Classes) (directions : Directions)
    (hhints : decl.hints names = .ok fields) (hshape : Shape.ofRecord chars names decl span = .ok shape) :
    Collected (FieldDecl.coded chars classes directions span)
      (fun f => problemsIn (f.coded chars classes directions span)) fields
      (shape.codec classes directions) := by
  obtain ⟨found, hfound, hshape⟩ := bind_eq_ok.mp hshape
  have hplanned := planned_of_plans hhints hfound
  have hcoded := coded_of_planned classes directions hplanned
  have hstruct : Collected (FieldDecl.coded chars classes directions span)
      (fun f => problemsIn (f.coded chars classes directions span)) fields
      ((Shape.struct decl.target found).codec classes directions) := by
    rw [Shape.codec, FieldPlans.codecs, hcoded]
    exact .gather (Codec.struct decl.target directions) id fun d => List.mem_flatMap
  cases found with
  | none =>
    cases hshape
    cases hplanned
    exact .fine (List.forall_mem_nil _) (List.forall_mem_nil _)
  | named plans =>
    cases hshape
    exact hstruct
  | unnamed plans =>
    cases hshape
    exact hstruct

end Record

/-! ## Fields one by one -/

/-- The field with the names in its annotation looked up. -/
def FieldDecl.resolve (names : String → Except Fault Ty) (f : FieldDecl) : Except Fault FieldDecl := do
  let type ← f.hint.type.resolveHint names
  pure { f with hint := { f.hint with type } }

theorem FieldDecl.name_of_resolve {names : String → Except Fault Ty} {f r : FieldDecl}
    (h : f.resolve names = .ok r) : r.name = f.name := by
  obtain ⟨type, -, h⟩ := bind_eq_ok.mp h
  cases h
  rfl

/-- The class with one of its fields as its only one. -/
def RecordDecl.only (decl : RecordDecl) (f : FieldDecl) : RecordDecl where
  target := { decl.target with cls := { decl.target.cls with fields := [f.name] } }
  fields := [f]

section Only

variable {chars : Text.CharNames} {names : String → Except Fault Ty} {decl : RecordDecl}
  {span : Span} {fields : List FieldDecl}

theorem hints_eq_ok :
    decl.hints names = .ok fields ↔
      List.Forall₂ (fun f r => FieldDecl.resolve names f = .ok r) decl.fields fields :=
  mapM_eq_ok

/-- The names in the annotations of a class are looked up field by field. -/
theorem exists_resolved (hhints : decl.hints names = .ok fields) :
    ∃ resolved : FieldDecl → FieldDecl, fields = decl.fields.map resolved ∧
      ∀ f ∈ decl.fields, (resolved f).name = f.name ∧ (decl.only f).hints names = .ok [resolved f] := by
  have hfields := hints_eq_ok.mp hhints
  have hmap : fields = decl.fields.map fun f => (f.resolve names).toOption.getD f := by
    clear hhints
    generalize decl.fields = declared at hfields
    induction hfields with
    | nil => rfl
    | cons hr _ ih =>
      rw [List.map_cons, hr, ← ih]
      rfl
  refine ⟨_, hmap, fun f hf => ?_⟩
  obtain ⟨r, -, hr⟩ : ∃ r ∈ fields, f.resolve names = .ok r := exists_of_forall₂_right hfields.flip hf
  rw [hr]
  exact ⟨FieldDecl.name_of_resolve hr, hints_eq_ok.mpr (.cons hr .nil)⟩

/-- **The shape of a class has the problems that it has for each field alone.** -/
theorem collected_ofRecord_only (chars : Text.CharNames) (span : Span)
    (hhints : decl.hints names = .ok fields) :
    Collected (fun f => Shape.ofRecord chars names (decl.only f) span)
      (fun f => problemsIn (Shape.ofRecord chars names (decl.only f) span)) decl.fields
      (Shape.ofRecord chars names decl span) := by
  obtain ⟨resolved, rfl, honly⟩ := exists_resolved hhints
  exact (collected_ofRecord hhints).each fun f hf => collected_ofRecord (honly f hf).2

/-- **So has its codec, if it has a shape.** -/
theorem collected_codec_only {shape : Shape} (classes : Classes) (directions : Directions)
    (hhints : decl.hints names = .ok fields) (hshape : Shape.ofRecord chars names decl span = .ok shape) :
    Collected
      (fun f => Shape.ofRecord chars names (decl.only f) span >>= Shape.codec classes directions)
      (fun f => problemsIn
        (Shape.ofRecord chars names (decl.only f) span >>= Shape.codec classes directions))
      decl.fields (shape.codec classes directions) := by
  have hshapes := (collected_ofRecord_only chars span hhints).exists_ok_iff.mp ⟨shape, hshape⟩
  obtain ⟨resolved, rfl, honly⟩ := exists_resolved hhints
  refine (collected_codec classes directions hhints hshape).each fun f hf => ?_
  obtain ⟨alone, halone⟩ := exists_ok_iff.mpr (hshapes f hf)
  rw [halone]
  show Collected _ _ _ (alone.codec classes directions)
  exact collected_codec classes directions (honly f hf).2 halone

/-- **What a class with one field is refused for is in that field.** -/
theorem within_only (classes : Classes) (directions : Directions)
    (hhints : decl.hints names = .ok fields) {f : FieldDecl} (hf : f ∈ decl.fields) :
    Confined (Fault.Within (span.atField f.name))
      (Shape.ofRecord chars names (decl.only f) span >>= Shape.codec classes directions) := by
  obtain ⟨resolved, rfl, honly⟩ := exists_resolved hhints
  obtain ⟨hname, hhints⟩ := honly f hf
  rw [← hname]
  refine .bind ?_ fun shape hshape => ?_
  · exact (collected_ofRecord hhints).confined fun d hd => FieldDecl.within_of_mem_flaws hd
  · refine (collected_codec classes directions hhints hshape).confined fun d hd => ?_
    exact within_of_mem_problemsIn (FieldDecl.within_coded _ _ _ _ _) hd

/-- Looking for the codec of a class with one field brings no fault besides reports. -/
theorem stays_only (classes : Classes) (directions : Directions) (hhints : decl.hints names = .ok fields)
    {f : FieldDecl} (hf : f ∈ decl.fields) (h : ¬ Strays (Shape.ofRecord chars names (decl.only f) span)) :
    ¬ Strays (Shape.ofRecord chars names (decl.only f) span >>= Shape.codec classes directions) := by
  obtain ⟨resolved, rfl, honly⟩ := exists_resolved hhints
  obtain ⟨-, hhints⟩ := honly f hf
  cases hshape : Shape.ofRecord chars names (decl.only f) span with
  | error fault =>
    rw [hshape] at h
    rintro ⟨g, ⟨⟩, hg⟩
    exact h ⟨fault, rfl, hg⟩
  | ok shape =>
    have hplanned := ((collected_ofRecord hhints).exists_ok_iff.mp ⟨shape, hshape⟩ _ List.mem_cons_self).1
    have hcoded := FieldDecl.stays_coded classes directions hplanned
    rcases (collected_codec classes directions hhints hshape).alone_cases with
      ⟨g, -, hg, hno⟩ | ⟨-, hstays, -⟩
    · exact absurd ⟨g, hg, hno⟩ hcoded
    · exact hstays

/-- **There are two passes over the fields of a class, the second only if the first finds nothing.** -/
theorem passes (classes : Classes) (directions : Directions) (span : Span)
    (hhints : decl.hints names = .ok fields) :
    (∃ f ∈ decl.fields, ∃ fault, Shape.ofRecord chars names (decl.only f) span = .error fault) ∧
        Collected (fun f => Shape.ofRecord chars names (decl.only f) span)
          (fun f => problemsIn (Shape.ofRecord chars names (decl.only f) span)) decl.fields
          (Shape.ofRecord chars names decl span >>= Shape.codec classes directions) ∨
      (∀ f ∈ decl.fields, ∃ shape, Shape.ofRecord chars names (decl.only f) span = .ok shape) ∧
        Collected
          (fun f => Shape.ofRecord chars names (decl.only f) span >>= Shape.codec classes directions)
          (fun f => problemsIn
            (Shape.ofRecord chars names (decl.only f) span >>= Shape.codec classes directions))
          decl.fields (Shape.ofRecord chars names decl span >>= Shape.codec classes directions) := by
  have hshapes := collected_ofRecord_only chars span hhints
  cases hshape : Shape.ofRecord chars names decl span with
  | error fault =>
    rw [hshape] at hshapes
    obtain ⟨f, hf, hfails⟩ := hshapes.exists_error_iff.mp ⟨fault, rfl⟩
    refine .inl ⟨⟨f, hf, exists_error_iff.mpr hfails⟩, hshapes.bind fun c hc => ?_⟩
    cases hc
  | ok shape =>
    rw [hshape] at hshapes
    refine .inr ⟨fun f hf => exists_ok_iff.mpr (hshapes.exists_ok_iff.mp ⟨shape, rfl⟩ f hf), ?_⟩
    show Collected _ _ _ (shape.codec classes directions)
    exact collected_codec_only classes directions hhints hshape

end Only

end ContractKit
