import ContractKit.Proofs.Contract.Export
import ContractKit.Proofs.Module.Exported
import ContractKit.Proofs.Module.Settled
import ContractKit.Proofs.Module.WithoutSchemas

/-!
# `Proofs/Module/SchemaSwitch.lean`: schemas switched off

Declarations that are executed with schemas switched on, and without a fault, can be executed with schemas
switched off. What they make then is the module of before without its schemas
(`ofDecls_withoutSchemas`), so that codecs, entry points and tests cannot tell how the switch stands
(`ofDecls_switch`).

Each step of the one execution is matched by the same step of the other. The step that takes an argument
is the derivation of a codec: with schemas switched on the shape of the class may have been kept already,
by a decorator that does nothing otherwise. It is the shape that is found now (`Module.Settled`).
-/

set_option autoImplicit false

namespace ContractKit.Module

variable {m m' : Module} {d d' : Decorated} {wasmTest : Bool}

/-! ## What decorators look at -/

section Looks

variable (m)

theorem typeNamed_withoutSchemas : m.withoutSchemas.typeNamed = m.typeNamed :=
  typeNamed_congr m.outline_withoutSchemas

theorem name_withoutSchemas (d : Decorated) : d.name m.withoutSchemas = d.name m := by
  cases d with
  | cls place =>
    simp only [Decorated.name, getElem?_withoutSchemas]
    cases m.classes[place]? <;> rfl
  | function place =>
    simp only [Decorated.name, getElem?_withoutSchemas_functions]
    cases m.functions[place]? <;> rfl
  | foreign name => rfl

theorem span_withoutSchemas (d : Decorated) : d.span m.withoutSchemas = d.span m := by
  simp only [Decorated.span, name_withoutSchemas]

theorem outline_top (inner : Names) :
    (Scope.mk m.withoutSchemas inner []).outline = (Scope.mk m inner []).outline := by
  simp only [Scope.outline, outline_withoutSchemas]

theorem arguments_withoutSchemas (a : Source.Arguments) :
    m.withoutSchemas.arguments a = m.arguments a :=
  bind_both (Scope.values_congr (m.outline_top []) a.items) fun _ =>
    bind_both (Scope.namedValues_congr (m.outline_top []) a.options) fun _ => rfl

theorem hints_withoutSchemas (fn : FunctionEntry) (span : Span) :
    m.withoutSchemas.hints fn.withoutSchemas span = m.hints fn span := by
  unfold hints
  rw [typeNamed_withoutSchemas]
  rfl

theorem stateCodec_withoutSchemas (t : Ty) (span : Span) :
    m.withoutSchemas.stateCodec t span = m.stateCodec t span := by
  simp only [stateCodec, facts_withoutSchemas, Codec.ofType_withoutSchemas]

theorem statePlan_withoutSchemas (spec : Spec) (fn : FunctionEntry) (span : Span) :
    m.withoutSchemas.statePlan spec fn.withoutSchemas span = m.statePlan spec fn span := by
  simp only [statePlan, initState, receiveState, hints_withoutSchemas, stateCodec_withoutSchemas,
    facts_withoutSchemas, Ty.isImmutable_withoutSchemas]
  rfl

end Looks

/-! ## What decorators do -/

/-- **The shape that a decorator works with is the same with schemas switched off**, whether it is kept
there or found. -/
theorem shapeOf_withoutSchemas {e : ClassEntry} {shape : Shape} (hsettles : m.Settles e)
    (hshape : m.shapeOf e = .ok shape) : m.withoutSchemas.shapeOf e.withoutSchemas = .ok shape := by
  unfold shapeOf
  cases hcodec : e.facts.codec with
  | some c =>
    have hkept : e.withoutSchemas.shape = e.shape := by simp [ClassEntry.withoutSchemas, hcodec]
    rw [hkept, typeNamed_withoutSchemas]
    exact hshape
  | none =>
    have hkept : e.withoutSchemas.shape = none := by simp [ClassEntry.withoutSchemas, hcodec]
    rw [hkept, typeNamed_withoutSchemas]
    exact hsettles.ofClass_of_shapeOf hshape

theorem withoutSchemas_modifyClass {place : Nat} {f g : ClassEntry → ClassEntry}
    (h : ∀ e, m.classes[place]? = some e → (f e).withoutSchemas = g e.withoutSchemas) :
    (m.modifyClass place f).withoutSchemas = m.withoutSchemas.modifyClass place g := by
  simp only [withoutSchemas, modifyClass, map_modify h]

theorem withoutSchemas_attach (d : Decorated) {e : Export} (he : e.isKept = true) :
    (m.attach d e).withoutSchemas = m.withoutSchemas.attach d e := by
  cases d with
  | cls place =>
    refine withoutSchemas_modifyClass fun c _ => ?_
    simp [ClassEntry.withoutSchemas, he]
  | function place =>
    simp only [attach, withoutSchemas, modifyFunction]
    rw [map_modify]
    intro fn _
    simp [FunctionEntry.withoutSchemas, he]
  | foreign name => rfl

theorem withoutSchemas_attach_schema (d : Decorated) {e : Export} (he : e.isKept = false) :
    (m.attach d e).withoutSchemas = m.withoutSchemas := by
  cases d with
  | cls place =>
    simp only [attach, withoutSchemas, modifyClass]
    rw [map_modify_of_eq]
    intro c _
    simp [ClassEntry.withoutSchemas, he]
  | function place =>
    simp only [attach, withoutSchemas, modifyFunction]
    rw [map_modify_of_eq]
    intro fn _
    simp [FunctionEntry.withoutSchemas, he]
  | foreign name => rfl

theorem deriveCodec_withoutSchemas {directions : Directions} (h : m.Settled d)
    (hderive : m.deriveCodec directions d = .ok m') :
    m.withoutSchemas.deriveCodec directions d = .ok m'.withoutSchemas := by
  obtain ⟨place, e, shape, c, hd, he, hshape, hc, rfl⟩ := deriveCodec_cases hderive
  have hclass : m.withoutSchemas.classAt d = .ok (place, e.withoutSchemas) := by
    refine classAt_eq_ok.mpr ⟨hd, ?_⟩
    rw [getElem?_withoutSchemas, he]
    rfl
  have hcodec : shape.codec m.withoutSchemas.facts directions = .ok c := by
    rw [facts_withoutSchemas, Shape.codec_withoutSchemas]
    exact hc
  refine bind_eq_ok.mpr ⟨_, hclass, ?_⟩
  refine bind_eq_ok.mpr ⟨_, shapeOf_withoutSchemas (h place e hd he) hshape, ?_⟩
  refine bind_eq_ok.mpr ⟨c, hcodec, pure_eq_ok.mpr ?_⟩
  symm
  apply withoutSchemas_modifyClass
  intro e' _
  rfl

/-- Deriving a schema leaves nothing behind that is not there for schemas only. -/
theorem deriveSchema_withoutSchemas {settings : LoadedSettings} (h : m.Settled d)
    (hderive : m.deriveSchema settings d = .ok m') :
    m'.withoutSchemas = m.withoutSchemas := by
  obtain rfl | ⟨place, e, shape, s, hd, he, hshape, -, rfl⟩ := deriveSchema_cases hderive
  · rfl
  have hsettles := h place e hd he
  simp only [withoutSchemas, modifyClass]
  rw [map_modify_of_eq]
  intro e' he'
  obtain rfl := Option.some.inj (he.symm.trans he')
  -- a class with a codec has the shape already that is kept for it now
  cases hcodec : e.facts.codec with
  | none => simp [ClassEntry.withoutSchemas, ClassFacts.withoutSchema, hcodec]
  | some c =>
    obtain ⟨kept, hkept⟩ := Option.isSome_iff_exists.mp (hsettles.kept (by rw [hcodec]; rfl))
    have hsame : kept = shape := by
      simpa [shapeOf, hkept] using hshape
    simp [ClassEntry.withoutSchemas, ClassFacts.withoutSchema, hcodec, hkept, hsame]

theorem exportStateSchema_withoutSchemas {a : Source.Arguments}
    (hexport : m.exportStateSchema (.ok ⟨true, wasmTest⟩) a d = .ok m') :
    m.withoutSchemas.exportStateSchema (.ok ⟨false, wasmTest⟩) a d = .ok m'.withoutSchemas := by
  have hsame : m'.withoutSchemas = m.withoutSchemas := by
    obtain rfl | ⟨contract, data, rfl⟩ := exportStateSchema_cases hexport
    · rfl
    · exact withoutSchemas_attach_schema d rfl
  -- the arguments are looked at before it is asked whether schemas are switched on
  obtain ⟨⟨items, options⟩, harguments, hexport⟩ := bind_eq_ok.mp hexport
  obtain ⟨texts, htexts, hexport⟩ := bind_eq_ok.mp hexport
  obtain ⟨attrs, hattrs, hexport⟩ := bind_eq_ok.mp hexport
  obtain ⟨⟨⟩, hsite, hexport⟩ := bind_eq_ok.mp hexport
  obtain ⟨contract, hcontract, hexport⟩ := bind_eq_ok.mp hexport
  rw [← arguments_withoutSchemas] at harguments
  rw [← span_withoutSchemas] at hattrs
  rw [hsame]
  refine bind_eq_ok.mpr ⟨_, harguments, bind_eq_ok.mpr ⟨texts, htexts, ?_⟩⟩
  refine bind_eq_ok.mpr ⟨attrs, hattrs, bind_eq_ok.mpr ⟨(), hsite, ?_⟩⟩
  refine bind_eq_ok.mpr ⟨contract, hcontract, ?_⟩
  cases contract with
  | none => cases hexport
  | some contract => rfl

theorem exportTest_withoutSchemas (hexport : m.exportTest (.ok ⟨true, wasmTest⟩) d = .ok m') :
    m.withoutSchemas.exportTest (.ok ⟨false, wasmTest⟩) d = .ok m'.withoutSchemas := by
  cases d with
  | cls place => cases hexport
  | foreign name =>
    cases hexport
    rfl
  | function place =>
    cases wasmTest with
    | false =>
      cases hexport
      rfl
    | true =>
      cases hexport
      rw [withoutSchemas_attach _ rfl, ← name_withoutSchemas]
      rfl

theorem exportEntryPoint_withoutSchemas {kind : EntryKind} {items : List Value}
    {options : List (String × Value)}
    (hexport : m.exportEntryPoint (.ok ⟨true, wasmTest⟩) kind items options d = .ok m') :
    m.withoutSchemas.exportEntryPoint (.ok ⟨false, wasmTest⟩) kind items options d =
      .ok m'.withoutSchemas := by
  cases d with
  | cls place => cases hexport
  | foreign name => cases hexport
  | function place =>
    unfold exportEntryPoint at hexport ⊢
    rw [span_withoutSchemas]
    cases hfn : m.functions[place]? with
    | none =>
      simp only [hfn] at hexport
      cases hexport
    | some fn =>
      simp only [hfn] at hexport
      simp only [getElem?_withoutSchemas_functions, hfn, Option.map_some]
      obtain ⟨texts, htexts, hexport⟩ := bind_eq_ok.mp hexport
      obtain ⟨attrs, hattrs, hexport⟩ := bind_eq_ok.mp hexport
      obtain ⟨spec, hspec, hexport⟩ := bind_eq_ok.mp hexport
      refine bind_eq_ok.mpr ⟨texts, htexts, bind_eq_ok.mpr ⟨attrs, hattrs, ?_⟩⟩
      refine bind_eq_ok.mpr ⟨spec, hspec, ?_⟩
      have hparams : fn.withoutSchemas.params = fn.params := rfl
      rw [hparams]
      by_cases hcount : fn.params.length ≠ spec.requiredArgs.length
      · rw [if_pos hcount] at hexport
        cases hexport
      · rw [if_neg hcount] at hexport ⊢
        obtain ⟨plan, hplan, hexport⟩ := bind_eq_ok.mp hexport
        rw [← statePlan_withoutSchemas] at hplan
        refine bind_eq_ok.mpr ⟨plan, hplan, ?_⟩
        -- the entry point is recorded as before, and the schema of its parameter is not
        cases hparameter : spec.parameter with
        | none =>
          simp only [hparameter] at hexport ⊢
          cases hexport
          rw [withoutSchemas_attach _ (by cases kind <;> rfl)]
          rfl
        | some parameter =>
          simp only [hparameter] at hexport ⊢
          obtain ⟨_, ⟨⟩, hexport⟩ := bind_eq_ok.mp hexport
          cases hexport
          rw [withoutSchemas_attach_schema _ rfl, withoutSchemas_attach _ (by cases kind <;> rfl)]
          rfl

/-- **What a decorator does is the same with schemas switched off**, but for what is there for schemas
only. -/
theorem decorate_withoutSchemas {decorator : Source.Decorator} (h : m.Settled d)
    (hdecorate : m.decorate (.ok ⟨true, wasmTest⟩) d decorator = .ok (m', d')) :
    m.withoutSchemas.decorate (.ok ⟨false, wasmTest⟩) d decorator = .ok (m'.withoutSchemas, d') := by
  cases decorator with
  | codec directions =>
    obtain ⟨m1, hm, hpair⟩ := bind_eq_ok.mp hdecorate
    cases hpair
    exact bind_eq_ok.mpr ⟨_, deriveCodec_withoutSchemas h hm, rfl⟩
  -- deriving a schema does nothing with schemas switched off, and shows nothing without them
  | schema =>
    obtain ⟨m1, hm, hpair⟩ := bind_eq_ok.mp hdecorate
    cases hpair
    rw [deriveSchema_withoutSchemas h hm]
    rfl
  | test =>
    obtain ⟨m1, hm, hpair⟩ := bind_eq_ok.mp hdecorate
    cases hpair
    exact bind_eq_ok.mpr ⟨_, exportTest_withoutSchemas hm, rfl⟩
  | contractState a =>
    obtain ⟨m1, hm, hpair⟩ := bind_eq_ok.mp hdecorate
    cases hpair
    exact bind_eq_ok.mpr ⟨_, exportStateSchema_withoutSchemas hm, rfl⟩
  | entryPoint kind given =>
    cases given with
    | none =>
      cases d with
      | cls place =>
        cases hdecorate
        rfl
      | function place =>
        obtain ⟨m1, hm, hpair⟩ := bind_eq_ok.mp hdecorate
        cases hpair
        exact bind_eq_ok.mpr ⟨_, exportEntryPoint_withoutSchemas hm, rfl⟩
      | foreign name =>
        obtain ⟨m1, hm, hpair⟩ := bind_eq_ok.mp hdecorate
        cases hpair
        exact bind_eq_ok.mpr ⟨_, exportEntryPoint_withoutSchemas hm, rfl⟩
    | some a =>
      obtain ⟨⟨items, options⟩, harguments, hdecorate⟩ := bind_eq_ok.mp hdecorate
      obtain ⟨m1, hm, hpair⟩ := bind_eq_ok.mp hdecorate
      cases hpair
      rw [← arguments_withoutSchemas] at harguments
      exact bind_eq_ok.mpr ⟨_, harguments,
        bind_eq_ok.mpr ⟨_, exportEntryPoint_withoutSchemas hm, rfl⟩⟩

theorem decorateAll_withoutSchemas {decorators : List Source.Decorator} (h : m.Settled d)
    (hdecorate : decorateAll (.ok ⟨true, wasmTest⟩) m d decorators = .ok (m', d')) :
    decorateAll (.ok ⟨false, wasmTest⟩) m.withoutSchemas d decorators =
      .ok (m'.withoutSchemas, d') := by
  induction decorators generalizing m d with
  | nil =>
    cases hdecorate
    rfl
  | cons decorator rest ih =>
    obtain ⟨⟨m1, d1⟩, hm, hrest⟩ := bind_eq_ok.mp hdecorate
    exact bind_eq_ok.mpr ⟨_, decorate_withoutSchemas h hm, ih (settled_of_decorate h hm) hrest⟩

/-! ## What declarations make -/

/-- Nothing is derived yet for what decorators are applied to. -/
def Untouched (m : Module) (d : Decorated) : Prop :=
  ∀ place e, d = .cls place → m.classes[place]? = some e → e.shape = none ∧ e.facts.codec = none

theorem Untouched.settled (h : m.Untouched d) : m.Settled d := by
  intro place e hd he
  obtain ⟨hshape, hcodec⟩ := h place e hd he
  exact .of_fresh hshape hcodec

theorem bindHere_withoutSchemas (atTop : Bool) (name : String) (b : Binding) :
    (bindHere atTop name m b).withoutSchemas = bindHere atTop name m.withoutSchemas b := by
  cases atTop <;> rfl

/-- Decorators are applied to what has just been bound. -/
theorem decorated_withoutSchemas {atTop : Bool} {name : String} {decorators : List Source.Decorator}
    {b : Binding} (h : m.Untouched d)
    (hdecorate : decorated (.ok ⟨true, wasmTest⟩) (bindHere atTop name) m d decorators = .ok (m', b)) :
    decorated (.ok ⟨false, wasmTest⟩) (bindHere atTop name) m.withoutSchemas d decorators =
      .ok (m'.withoutSchemas, b) := by
  have hsettled : (bindHere atTop name m d.binding).Settled d := by
    cases atTop with
    | true => exact Untouched.settled h
    | false => exact h.settled
  obtain ⟨⟨m1, d1⟩, hm, hpair⟩ := bind_eq_ok.mp hdecorate
  cases hpair
  have hm := decorateAll_withoutSchemas hsettled hm
  rw [bindHere_withoutSchemas] at hm
  refine bind_eq_ok.mpr ⟨_, hm, pure_eq_ok.mpr ?_⟩
  rw [← bindHere_withoutSchemas]

theorem nextRef_withoutSchemas (name : String) : m.withoutSchemas.nextRef name = m.nextRef name := by
  simp only [nextRef, withoutSchemas, List.length_map]

/-- A class that is added has nothing that is there for schemas. -/
theorem addClass_withoutSchemas {e : ClassEntry} {place : Nat} (hm : m.addClass e = (m', place))
    (hshape : e.shape = none) (hcodec : e.facts.codec = none) (he : e.withoutSchemas = e) :
    m.withoutSchemas.addClass e = (m'.withoutSchemas, place) ∧ m'.Untouched (.cls place) := by
  cases hm
  refine ⟨?_, ?_⟩
  · simp [addClass, withoutSchemas, he]
  · intro i e' hd he'
    cases hd
    rw [List.getElem?_append_right (Nat.le_refl _), Nat.sub_self] at he'
    cases he'
    exact ⟨hshape, hcodec⟩

section Classes

variable {inner : Names} {name : String} {place : Nat}

theorem field_withoutSchemas :
    field ⟨m.withoutSchemas, inner, []⟩ = field ⟨m, inner, []⟩ := by
  funext f
  refine bind_both (Scope.hint_congr (m.outline_top inner) f.type) fun _ => bind_both ?_ fun _ => rfl
  rw [funext (Scope.value_congr (m.outline_top inner))]

theorem lookupIn_withoutSchemas : m.withoutSchemas.lookupIn = m.lookupIn :=
  lookupIn_congr m.outline_withoutSchemas

theorem baseOf_withoutSchemas {base : Option String} {found : Option ClassEntry}
    (h : m.baseOf ⟨m, inner, []⟩ base = .ok found) :
    m.withoutSchemas.baseOf ⟨m.withoutSchemas, inner, []⟩ base =
      .ok (found.map ClassEntry.withoutSchemas) := by
  cases base with
  | none =>
    cases h
    rfl
  | some path =>
    simp only [baseOf, lookupIn_withoutSchemas] at h ⊢
    split at h
    · cases h
      rw [getElem?_withoutSchemas]
    · cases h

theorem inherited_withoutSchemas (found : Option ClassEntry) :
    ((found.map ClassEntry.withoutSchemas).map Inherited.of).getD {} =
      (found.map Inherited.of).getD {} := by
  cases found <;> rfl

theorem dataclass_withoutSchemas {fields : List Source.Field} {frozen ordered : Bool}
    {base : Option String} {reject : Option Source.Reject}
    (h : m.dataclass ⟨m, inner, []⟩ name fields frozen ordered base reject = .ok (m', place)) :
    m.withoutSchemas.dataclass ⟨m.withoutSchemas, inner, []⟩ name fields frozen ordered base reject =
      .ok (m'.withoutSchemas, place) ∧ m'.Untouched (.cls place) := by
  obtain ⟨found, hbase, h⟩ := bind_eq_ok.mp h
  obtain ⟨own, hown, h⟩ := bind_eq_ok.mp h
  obtain ⟨⟨⟩, hfrozen, h⟩ := bind_eq_ok.mp h
  obtain ⟨⟨⟩, hmutable, h⟩ := bind_eq_ok.mp h
  obtain ⟨⟨⟩, hdefaults, h⟩ := bind_eq_ok.mp h
  obtain ⟨rejection, hreject, h⟩ := bind_eq_ok.mp h
  obtain ⟨hclass, huntouched⟩ := addClass_withoutSchemas (pure_eq_ok.mp h) rfl rfl rfl
  refine ⟨?_, huntouched⟩
  rw [← field_withoutSchemas] at hown
  refine bind_eq_ok.mpr ⟨_, baseOf_withoutSchemas hbase, ?_⟩
  dsimp only
  rw [inherited_withoutSchemas]
  refine bind_eq_ok.mpr ⟨own, hown, bind_eq_ok.mpr ⟨(), hfrozen, ?_⟩⟩
  refine bind_eq_ok.mpr ⟨(), hmutable, bind_eq_ok.mpr ⟨(), hdefaults, ?_⟩⟩
  refine bind_eq_ok.mpr ⟨rejection, ?_, pure_eq_ok.mpr ?_⟩
  · rw [← hreject]
    congr 1
    funext r
    exact bind_both (Scope.value_congr (m.outline_top inner) r.equals) fun _ => rfl
  · rw [nextRef_withoutSchemas]
    exact hclass

theorem namedTuple_withoutSchemas {fields : List Source.Field}
    (h : m.namedTuple ⟨m, inner, []⟩ name fields = .ok (m', place)) :
    m.withoutSchemas.namedTuple ⟨m.withoutSchemas, inner, []⟩ name fields =
      .ok (m'.withoutSchemas, place) ∧ m'.Untouched (.cls place) := by
  obtain ⟨own, hown, h⟩ := bind_eq_ok.mp h
  obtain ⟨⟨⟩, hdefaults, h⟩ := bind_eq_ok.mp h
  obtain ⟨hclass, huntouched⟩ := addClass_withoutSchemas (pure_eq_ok.mp h) rfl rfl rfl
  refine ⟨?_, huntouched⟩
  rw [← field_withoutSchemas] at hown
  refine bind_eq_ok.mpr ⟨own, hown, bind_eq_ok.mpr ⟨(), hdefaults, pure_eq_ok.mpr ?_⟩⟩
  rw [nextRef_withoutSchemas]
  exact hclass

theorem enumeration_withoutSchemas {numeric : Bool} {members : List (String × Source.Expr) ⊕ Nat}
    (h : m.enumeration ⟨m, inner, []⟩ name numeric members = .ok (m', place)) :
    m.withoutSchemas.enumeration ⟨m.withoutSchemas, inner, []⟩ name numeric members =
      .ok (m'.withoutSchemas, place) ∧ m'.Untouched (.cls place) := by
  cases members with
  | inl members =>
    obtain ⟨values, hvalues, h⟩ := bind_eq_ok.mp h
    obtain ⟨⟨⟩, hnames, h⟩ := bind_eq_ok.mp h
    obtain ⟨hclass, huntouched⟩ := addClass_withoutSchemas (pure_eq_ok.mp h) rfl rfl rfl
    rw [← Scope.namedValues_congr (m.outline_top inner)] at hvalues
    refine ⟨bind_eq_ok.mpr ⟨values, hvalues, bind_eq_ok.mpr ⟨(), hnames, ?_⟩⟩, huntouched⟩
    rw [← nextRef_withoutSchemas] at hclass
    exact congrArg Except.ok hclass
  | inr count =>
    obtain ⟨hclass, huntouched⟩ := addClass_withoutSchemas (pure_eq_ok.mp h) rfl rfl rfl
    rw [← nextRef_withoutSchemas] at hclass
    exact ⟨congrArg Except.ok hclass, huntouched⟩

theorem variants_withoutSchemas (body : Names) :
    m.withoutSchemas.variants body = m.variants body := by
  unfold variants
  congr 1
  funext entry
  obtain ⟨name, b⟩ := entry
  cases b with
  | cls place =>
    simp only [getElem?_withoutSchemas]
    cases m.classes[place]? <;> rfl
  | function place => rfl
  | value v => rfl

theorem sumClass_withoutSchemas (m : Module) (name : String) (body : Names) :
    m.withoutSchemas.sumClass name body =
        ((m.sumClass name body).1.withoutSchemas, (m.sumClass name body).2) ∧
      (m.sumClass name body).1.Untouched (.cls (m.sumClass name body).2) := by
  rw [sumClass, nextRef_withoutSchemas, variants_withoutSchemas]
  exact addClass_withoutSchemas rfl rfl rfl rfl

theorem plainClass_withoutSchemas (m : Module) (name : String) :
    m.withoutSchemas.plainClass name =
        ((m.plainClass name).1.withoutSchemas, (m.plainClass name).2) ∧
      (m.plainClass name).1.Untouched (.cls (m.plainClass name).2) := by
  rw [plainClass, nextRef_withoutSchemas]
  exact addClass_withoutSchemas rfl rfl rfl rfl

end Classes

theorem function_withoutSchemas {inner : Names} {name : String} {place : Nat}
    {params : List (String × Option Source.TypeExpr)} {returns : Option Source.TypeExpr}
    {body : List Source.Stmt}
    (h : m.function ⟨m, inner, []⟩ name params returns body = .ok (m', place)) :
    m.withoutSchemas.function ⟨m.withoutSchemas, inner, []⟩ name params returns body =
      .ok (m'.withoutSchemas, place) := by
  obtain ⟨types, htypes, h⟩ := bind_eq_ok.mp h
  obtain ⟨result, hresult, h⟩ := bind_eq_ok.mp h
  cases h
  have htype : Scope.type ⟨m.withoutSchemas, inner, []⟩ = Scope.type ⟨m, inner, []⟩ :=
    funext (Scope.type_congr (m.outline_top inner))
  rw [← htype] at htypes hresult
  refine bind_eq_ok.mpr ⟨types, htypes, bind_eq_ok.mpr ⟨result, hresult, pure_eq_ok.mpr ?_⟩⟩
  simp [withoutSchemas, FunctionEntry.withoutSchemas]

/-! ## Declarations -/

/-- A class or function that is added in the same way and then decorated. -/
theorem added_withoutSchemas {made made' : Except Fault (Module × Nat)} {thing : Nat → Decorated}
    {atTop : Bool} {name : String} {decorators : List Source.Decorator} {names : Names}
    (hmade : ∀ {m : Module} {place : Nat}, made = .ok (m, place) →
      made' = .ok (m.withoutSchemas, place) ∧ m.Untouched (thing place))
    (h : (do
      let (m, place) ← made
      let (m, b) ← decorated (.ok ⟨true, wasmTest⟩) (bindHere atTop name) m (thing place) decorators
      pure (m, [(name, b)])) = .ok (m', names)) :
    (do
      let (m, place) ← made'
      let (m, b) ← decorated (.ok ⟨false, wasmTest⟩) (bindHere atTop name) m (thing place) decorators
      pure (m, [(name, b)])) = .ok (m'.withoutSchemas, names) := by
  obtain ⟨⟨m1, place⟩, hm, h⟩ := bind_eq_ok.mp h
  obtain ⟨⟨m2, b⟩, hdecorate, hpair⟩ := bind_eq_ok.mp h
  cases hpair
  obtain ⟨hm, huntouched⟩ := hmade hm
  have hdecorate := decorated_withoutSchemas huntouched hdecorate
  exact bind_eq_ok.mpr ⟨_, hm, bind_eq_ok.mpr ⟨_, hdecorate, rfl⟩⟩

mutual

/-- **What a declaration does is the same with schemas switched off**, but for what is there for schemas
only. -/
theorem declare_withoutSchemas : ∀ {decl : Source.Decl} {path : String} {inner names : Names}
    {m m' : Module}, declare (.ok ⟨true, wasmTest⟩) path inner m decl = .ok (m', names) →
      declare (.ok ⟨false, wasmTest⟩) path inner m.withoutSchemas decl = .ok (m'.withoutSchemas, names)
  | .dataclass .., path, inner, names, m, m', h => added_withoutSchemas dataclass_withoutSchemas h
  | .namedTuple .., path, inner, names, m, m', h => added_withoutSchemas namedTuple_withoutSchemas h
  | .enum .., path, inner, names, m, m', h => added_withoutSchemas enumeration_withoutSchemas h
  | .function .., path, inner, names, m, m', h =>
    -- nothing is derived for functions
    added_withoutSchemas (fun hm => ⟨function_withoutSchemas hm, fun _ _ hd => nomatch hd⟩) h
  | .sum name body decorators, path, inner, names, m, m', h => by
    obtain ⟨⟨m1, bound⟩, hbody, h⟩ := bind_eq_ok.mp h
    obtain ⟨⟨m2, b⟩, hdecorate, hpair⟩ := bind_eq_ok.mp h
    cases hpair
    obtain ⟨hm, huntouched⟩ := sumClass_withoutSchemas m1 (path ++ name) bound.distinct
    refine bind_eq_ok.mpr ⟨_, declareBody_withoutSchemas hbody, ?_⟩
    dsimp only
    rw [hm]
    exact bind_eq_ok.mpr ⟨_, decorated_withoutSchemas huntouched hdecorate, rfl⟩
  | .plain name decorators, path, inner, names, m, m', h => by
    obtain ⟨⟨m2, b⟩, hdecorate, hpair⟩ := bind_eq_ok.mp h
    cases hpair
    obtain ⟨hm, huntouched⟩ := plainClass_withoutSchemas m (path ++ name)
    rw [declare]
    dsimp only
    rw [hm]
    exact bind_eq_ok.mpr ⟨_, decorated_withoutSchemas huntouched hdecorate, rfl⟩
  | .const name value, path, inner, names, m, m', h => by
    obtain ⟨v, hv, hpair⟩ := bind_eq_ok.mp h
    cases hpair
    rw [← Scope.value_congr (m.outline_top inner)] at hv
    refine bind_eq_ok.mpr ⟨v, hv, pure_eq_ok.mpr ?_⟩
    rw [bindHere_withoutSchemas]
  | .alias name of count, path, inner, names, m, m', h => by
    rw [declare] at h ⊢
    rw [lookupIn_withoutSchemas]
    cases hlookup : m.lookupIn inner of with
    | none =>
      rw [hlookup] at h
      cases h
    | some b =>
      rw [hlookup] at h
      cases h
      dsimp only
      by_cases hpath : path.isEmpty = true
      · simp only [hpath, if_true]
        rfl
      · simp only [hpath]
        rfl

theorem declareBody_withoutSchemas : ∀ {decls : List Source.Decl} {path : String}
    {outer bound names : Names} {m m' : Module},
      declareBody (.ok ⟨true, wasmTest⟩) path outer bound m decls = .ok (m', names) →
        declareBody (.ok ⟨false, wasmTest⟩) path outer bound m.withoutSchemas decls =
          .ok (m'.withoutSchemas, names)
  | [], path, outer, bound, names, m, m', h => by
    cases h
    rfl
  | decl :: rest, path, outer, bound, names, m, m', h => by
    obtain ⟨⟨m1, found⟩, hm, hrest⟩ := bind_eq_ok.mp h
    exact bind_eq_ok.mpr ⟨_, declare_withoutSchemas hm, declareBody_withoutSchemas hrest⟩

end

theorem declareAll_withoutSchemas {decls : List Source.Decl}
    (h : declareAll (.ok ⟨true, wasmTest⟩) m decls = .ok m') :
    declareAll (.ok ⟨false, wasmTest⟩) m.withoutSchemas decls = .ok m'.withoutSchemas := by
  induction decls generalizing m with
  | nil =>
    cases h
    rfl
  | cons decl rest ih =>
    obtain ⟨⟨m1, names⟩, hm, hrest⟩ := bind_eq_ok.mp h
    exact bind_eq_ok.mpr ⟨_, declare_withoutSchemas hm, ih hrest⟩

/-- **With schemas switched off, declarations make the same module without its schemas.** -/
theorem ofDecls_withoutSchemas {decls : List Source.Decl} {chars : Text.CharNames}
    (h : ofDecls (.ok ⟨true, wasmTest⟩) decls chars = .ok m) :
    ofDecls (.ok ⟨false, wasmTest⟩) decls chars = .ok m.withoutSchemas :=
  declareAll_withoutSchemas h

/-! ## The switch makes no difference -/

/-- Only what is exported as a schema looks one up. -/
theorem kind_of_mem_exports {settings : LoadedSettings} {decls : List Source.Decl}
    {chars : Text.CharNames} (hm : ofDecls settings decls chars = .ok m) {e : Export}
    (he : e ∈ m.exports) {parameter : ParameterType} (hbody : e.body = .parameterSchema parameter) :
    e.kind = .schema := by
  refine of_mem_exports (Q := fun e => ∀ parameter, e.body = .parameterSchema parameter →
    e.kind = .schema) ?_ hm he parameter hbody
  intro m e _ hplans parameter hbody
  rw [Plans, hbody] at hplans
  exact hplans

/-- **Nothing but schemas depends on whether schemas are switched on.** Declarations that are executed
with schemas, and whose exports make up a table, are executed without them too. What is declared is then
the same, every class and every type has the same codec, and the exports are those of before without the
schemas, in the same order. Each of them does on every host what it did, called with the host and an
amount or with nothing. -/
theorem ofDecls_switch {decls : List Source.Decl} {chars : Text.CharNames} {table : ExportTable}
    (hm : ofDecls (.ok ⟨true, wasmTest⟩) decls chars = .ok m) (htable : m.exportTable = .ok table) :
    ∃ m', ofDecls (.ok ⟨false, wasmTest⟩) decls chars = .ok m' ∧
      m'.outline = m.outline ∧
      (∀ id, (m'.facts id).codec = (m.facts id).codec) ∧
      (∀ t, Codec.ofType m'.facts t = Codec.ofType m.facts t) ∧
      m'.exportTable = .ok ⟨table.exports.filter fun e => e.kind ≠ .schema⟩ ∧
      ∀ e ∈ table.exports, e.kind ≠ .schema → ∀ h,
        (∀ amount, m'.callExport e amount h = m.callExport e amount h) ∧
          m'.runExport e h = m.runExport e h := by
  refine ⟨m.withoutSchemas, ofDecls_withoutSchemas hm, m.outline_withoutSchemas,
    m.codec_facts_withoutSchemas, ?_, ?_, ?_⟩
  · intro t
    rw [facts_withoutSchemas, Codec.ofType_withoutSchemas]
  · unfold exportTable
    rw [exports_withoutSchemas]
    exact ExportTable.ofExports_filter _ htable
  · intro e he hkind h
    obtain ⟨-, rfl⟩ := ExportTable.ofExports_eq_ok.mp htable
    have hbody : ∀ parameter, e.body ≠ .parameterSchema parameter :=
      fun parameter hbody => hkind (kind_of_mem_exports hm he hbody)
    exact ⟨fun amount => m.callExport_withoutSchemas e amount h, m.runExport_withoutSchemas e hbody h⟩

section Tally

/-- A contract with a schema of its state and of a parameter, and a test. The schema of the class is
derived before its codec, so that the codec takes the shape that was kept. -/
def tallyDecls : List Source.Decl :=
  [.dataclass "Tally" [{ name := "count", type := .type (.sized .u16) }] false false none none
    [.schema, .codec ⟨true, true⟩, .contractState ⟨[], [("contract", .text "c")]⟩],
   .function "init" [("ctx", none)] (some (.ok (.named "Tally")))
    [.ret (.ok (.record "Tally" false [("count", .int 0)]))]
    [.entryPoint .init
      (some ⟨[], [("contract", .text "c"), ("parameter", .text "Tally")]⟩)],
   .function "check" [] none [.observe (.text "checked")] [.test]]

def tallyClass : RecordClass := ⟨⟨.declared 0, "Tally", home⟩, ["count"], .named false none, []⟩

def tallyPlans : FieldPlans :=
  .named [⟨"count", .sized .u16, .delegate, ({ item := "Tally" } : Span).atField "count"⟩]

def tallyCodec : Codec := .struct ⟨tallyClass, none⟩ ⟨true, true⟩ [.int ⟨2, false⟩]

def tallySchema : Schema := .struct (.named [("count", .primitive .u16)])

def tallyExport : Export :=
  ⟨"concordium_schema_state_c", .schema,
    .stateSchema [20, 0, 1, 0, 0, 0, 5, 0, 0, 0, 99, 111, 117, 110, 116, 3], "Tally"⟩

def tallyInit : Export :=
  ⟨"init_c", .init, .entryPoint ⟨.init, "c", none, false, false, false, some (.named "Tally")⟩ 0
    (some ⟨tallyCodec, false⟩), "init"⟩

def tallyParameter : Export :=
  ⟨"concordium_schema_function_init_c", .schema, .parameterSchema (.named "Tally"), "init"⟩

def tallyCheck : Export := ⟨"concordium test check", .test, .test 1, "check"⟩

/-- What the declaration makes with schemas. -/
def tallyModule : Module where
  classes :=
    [{ ref := tallyClass.ref
       form := .record ⟨⟨tallyClass, none⟩, [⟨"count", ⟨.sized .u16, []⟩, true⟩]⟩
       facts := { hashable := false, codec := some tallyCodec, schema := some tallySchema }
       shape := some (.struct ⟨tallyClass, none⟩ tallyPlans)
       exports := [tallyExport] }]
  functions :=
    [⟨"init", [("ctx", none)], some (.ok (.cls tallyClass.ref)),
      [.ret (.ok (.record "Tally" false [("count", .int 0)]))],
      [tallyInit, tallyParameter]⟩,
     ⟨"check", [], none, [.observe (.text "checked")], [tallyCheck]⟩]
  names := [("Tally", .cls 0), ("init", .function 0), ("check", .function 1)]

theorem ofDecls_tallyDecls : ofDecls (.ok ⟨true, true⟩) tallyDecls = .ok tallyModule := rfl

/-- The test does with schemas switched off what it did. -/
theorem ofDecls_switch_tally :
    ofDecls (.ok ⟨true, true⟩) tallyDecls = .ok tallyModule ∧
      tallyModule.exportTable = .ok ⟨[tallyExport, tallyInit, tallyParameter, tallyCheck]⟩ ∧
      ∃ m', ofDecls (.ok ⟨false, true⟩) tallyDecls = .ok m' ∧
        m'.exportTable = .ok ⟨[tallyInit, tallyCheck]⟩ ∧
        (m'.facts (.declared 0)).codec = some tallyCodec ∧
        (m'.runExport tallyCheck {}).2 = [.value (.text "checked")] := by
  have htable : tallyModule.exportTable =
      .ok ⟨[tallyExport, tallyInit, tallyParameter, tallyCheck]⟩ := rfl
  obtain ⟨m', hm', -, hcodecs, -, hexports, hsame⟩ := ofDecls_switch ofDecls_tallyDecls htable
  have hcheck : tallyCheck ∈ [tallyExport, tallyInit, tallyParameter, tallyCheck] :=
    .tail _ (.tail _ (.tail _ (.head _)))
  refine ⟨ofDecls_tallyDecls, htable, m', hm', hexports, hcodecs _, ?_⟩
  rw [(hsame tallyCheck hcheck nofun {}).2]
  rfl

end Tally

end ContractKit.Module
