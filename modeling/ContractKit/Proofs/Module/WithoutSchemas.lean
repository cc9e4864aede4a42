import ContractKit.Module.EntryPoint
import ContractKit.Proofs.Module.Outline

/-!
# `Proofs/Module/WithoutSchemas.lean`: a module without its schemas

`Module.withoutSchemas` is a module with everything taken away that is there for schemas only: the
schemas of the classes, the shape of a class that has no codec, and the exports of schemas. Nothing else
in a module asks for what is taken away. The codecs of types are the same (`Codec.ofType_withoutSchemas`),
bodies run alike (`Body.stmts_withoutSchemas`), and so do the entry points and tests of the module
(`Module.callExport_withoutSchemas`, `Module.runExport_withoutSchemas`).
-/

set_option autoImplicit false

namespace ContractKit

/-! ## What is taken away -/

def ClassFacts.withoutSchema (facts : ClassFacts) : ClassFacts := { facts with schema := none }

/-- What is known about classes apart from their schemas. -/
def Classes.withoutSchemas (classes : Classes) : Classes := fun id => (classes id).withoutSchema

/-- Whether an export is there with schemas switched off. -/
def Export.isKept (e : Export) : Bool := e.kind ≠ .schema

def ClassEntry.withoutSchemas (e : ClassEntry) : ClassEntry :=
  { e with
    facts := e.facts.withoutSchema
    -- a shape is kept by whatever derives something first
    shape := if e.facts.codec.isSome then e.shape else none
    exports := e.exports.filter Export.isKept }

def FunctionEntry.withoutSchemas (fn : FunctionEntry) : FunctionEntry :=
  { fn with exports := fn.exports.filter Export.isKept }

/-- The module without anything that is there for schemas only. -/
def Module.withoutSchemas (m : Module) : Module where
  classes := m.classes.map ClassEntry.withoutSchemas
  functions := m.functions.map FunctionEntry.withoutSchemas
  names := m.names
  chars := m.chars

/-! ## Codecs -/

section Codecs

variable (classes : Classes)

theorem Ty.isHashableOrigin_withoutSchemas :
    Ty.isHashableOrigin classes.withoutSchemas = Ty.isHashableOrigin classes := by
  funext t
  cases t <;> rfl

theorem Ty.isHashable_withoutSchemas (t : Ty) :
    t.isHashable classes.withoutSchemas = t.isHashable classes := by
  cases t <;> simp only [Ty.isHashable, Ty.isHashableOrigin_withoutSchemas]

theorem Ty.isImmutable_withoutSchemas (t : Ty) :
    t.isImmutable classes.withoutSchemas = t.isImmutable classes := by
  cases t <;> rfl

namespace Codec

theorem ensureHashable_withoutSchemas :
    ensureHashable classes.withoutSchemas = ensureHashable classes := by
  funext t shown
  simp only [ensureHashable, Ty.isHashable_withoutSchemas]

/-- **The codec of a type is found without the schemas of classes.** -/
theorem ofType_withoutSchemas (t : Ty) :
    ofType classes.withoutSchemas t = ofType classes t := by
  suffices h : (∀ t, ofType classes.withoutSchemas t = ofType classes t) ∧
      ∀ ts, ofTypes classes.withoutSchemas ts = ofTypes classes ts from h.1 t
  -- along the recursion of `ofType`; classes are asked for their codecs alone
  apply ofType.mutual_induct
  · exact fun base metadata ih => ih
  · exact fun i => rfl
  · exact rfl
  · exact rfl
  · exact rfl
  · exact rfl
  · exact fun ref => rfl
  · exact fun container => rfl
  · exact fun item ih => bind_both ih fun _ => rfl
  · exact fun member ih => bind_both (by rw [ensureHashable_withoutSchemas]) fun _ =>
      bind_both ih fun _ => rfl
  · exact fun member ih => bind_both (by rw [ensureHashable_withoutSchemas]) fun _ =>
      bind_both ih fun _ => rfl
  · exact fun key value ihk ihv => bind_both (by rw [ensureHashable_withoutSchemas]) fun _ =>
      bind_both ihk fun _ => bind_both ihv fun _ => rfl
  · exact fun item ih => bind_both ih fun _ => rfl
  · intro args hne hlast
    rw [ofType, ofType, hlast]
    all_goals exact hne
  · intro args hne hlast ih
    rw [ofType, ofType, ih]
    all_goals exact hne
  · exact fun spelling t ih => bind_both ih fun _ => rfl
  · intro spelling t hne ih
    rw [ofType, ofType, ih]
    all_goals exact hne
  · intro spelling members h1 h2
    rw [ofType, ofType]
    all_goals assumption
  · exact fun name => rfl
  · exact rfl
  · intro t _ _ _ _ _ _ _ _ _ _ _ _ _ _ _ _ _ _ _
    rw [ofType, ofType]
    all_goals assumption
  · exact rfl
  · exact fun t ts iht ihts => bind_both iht fun _ => bind_both ihts fun _ => rfl

theorem prefixed_withoutSchemas (kind : ContainerKind) (width : Int) (order : OrderPolicy) (t : Ty) :
    prefixed classes.withoutSchemas kind width order t = prefixed classes kind width order t := by
  simp only [prefixed, ofType_withoutSchemas, ensureHashable_withoutSchemas]

end Codec

theorem FieldPlan.rawCodec_withoutSchemas (p : FieldPlan) :
    p.rawCodec classes.withoutSchemas = p.rawCodec classes := by
  simp only [FieldPlan.rawCodec, Codec.ofType_withoutSchemas, Codec.prefixed_withoutSchemas]

variable (directions : Directions)

theorem FieldPlan.codec_withoutSchemas :
    FieldPlan.codec classes.withoutSchemas directions = FieldPlan.codec classes directions := by
  funext p
  simp only [FieldPlan.codec, FieldPlan.rawCodec_withoutSchemas]

theorem FieldPlans.codecs_withoutSchemas (fields : FieldPlans) :
    fields.codecs classes.withoutSchemas directions = fields.codecs classes directions := by
  simp only [FieldPlans.codecs, FieldPlan.codec_withoutSchemas]

theorem Shape.caseCodecs_withoutSchemas (variants : List Variant) :
    Shape.caseCodecs classes.withoutSchemas directions variants =
      Shape.caseCodecs classes directions variants := by
  induction variants with
  | nil => rfl
  | cons v variants ih => simp only [Shape.caseCodecs, FieldPlans.codecs_withoutSchemas, ih]

theorem Shape.codec_withoutSchemas (shape : Shape) :
    shape.codec classes.withoutSchemas directions = shape.codec classes directions := by
  cases shape with
  | struct target fields => simp only [Shape.codec, FieldPlans.codecs_withoutSchemas]
  | variants enum tag cases => simp only [Shape.codec, Shape.caseCodecs_withoutSchemas]
  | unit target => rfl
  | members enum tag cases => rfl

end Codecs

namespace Module

variable (m : Module)

theorem getElem?_withoutSchemas (place : Nat) :
    m.withoutSchemas.classes[place]? = (m.classes[place]?).map ClassEntry.withoutSchemas :=
  List.getElem?_map

theorem getElem?_withoutSchemas_functions (place : Nat) :
    m.withoutSchemas.functions[place]? = (m.functions[place]?).map FunctionEntry.withoutSchemas :=
  List.getElem?_map

theorem outline_withoutSchemas : m.withoutSchemas.outline = m.outline := by
  simp only [outline, withoutSchemas, List.map_map]
  rfl

theorem facts_withoutSchemas : m.withoutSchemas.facts = m.facts.withoutSchemas := by
  funext id
  cases id with
  | native name => rfl
  | declared place =>
    simp only [facts, Classes.withoutSchemas, getElem?_withoutSchemas]
    cases m.classes[place]? <;> rfl

theorem codec_facts_withoutSchemas (id : ClassId) :
    (m.withoutSchemas.facts id).codec = (m.facts id).codec := by
  rw [facts_withoutSchemas]
  rfl

end Module

/-! ## Bodies -/

namespace Body

variable (m : Module)

theorem outline_scope (frame : Frame) :
    (frame.scope m.withoutSchemas).outline = (frame.scope m).outline := by
  show Scope.mk m.withoutSchemas.outline _ _ = _
  rw [Module.outline_withoutSchemas]
  rfl

theorem value_withoutSchemas (e : Source.Expr) : value m.withoutSchemas e = value m e :=
  bind_both rfl fun frame => congrArg ofExcept (Scope.value_congr (outline_scope m frame) e)

theorem codec_withoutSchemas (t : Source.TypeExpr) : codec m.withoutSchemas t = codec m t :=
  bind_both rfl fun frame =>
    bind_both (congrArg ofExcept (Scope.type_congr (outline_scope m frame) t)) fun _ => by
      rw [Module.facts_withoutSchemas, Codec.ofType_withoutSchemas]

theorem parameter_withoutSchemas (t : Source.TypeExpr) :
    parameter m.withoutSchemas t = parameter m t :=
  bind_both (codec_withoutSchemas m t) fun _ => rfl

theorem steps_withoutSchemas (operations : List (StreamStep Source.Expr)) :
    steps m.withoutSchemas operations = steps m operations :=
  bind_both rfl fun frame => by
    dsimp only
    rw [funext (Scope.value_congr (outline_scope m frame))]

mutual

theorem stmt_withoutSchemas : ∀ s : Source.Stmt, stmt m.withoutSchemas s = stmt m s
  | .observe e | .set _ e | .replace e | .push e | .ret e =>
    bind_both (value_withoutSchemas m e) fun _ => rfl
  | .log e as => bind_both rfl fun _ => bind_both (value_withoutSchemas m e) fun v => by
    cases as with
    | some t => exact bind_both (codec_withoutSchemas m t) fun _ => rfl
    | none =>
      dsimp only
      rw [Module.facts_withoutSchemas, Codec.ofType_withoutSchemas]
  | .logBytes e _ => bind_both rfl fun _ => bind_both (value_withoutSchemas m e) fun _ => rfl
  | .parse t | .parseOrReject t | .parseOrFail t _ =>
    bind_both (parameter_withoutSchemas m t) fun _ => rfl
  | .showState | .raise _ _ | .trap _ | .act _ => rfl
  | .cursor operations | .raw operations =>
    bind_both (steps_withoutSchemas m operations) fun _ => rfl
  | .put key e => bind_both (value_withoutSchemas m key) fun _ =>
    bind_both (value_withoutSchemas m e) fun _ => rfl
  | .onlyIf comparison left right body =>
    bind_both (value_withoutSchemas m left) fun _ => bind_both (value_withoutSchemas m right) fun _ =>
      bind_both rfl fun holds => by
        rw [stmts_withoutSchemas body]
  | .attempt body => by
    rw [stmt, stmt, stmts_withoutSchemas body]

/-- **A body runs without the schemas of its module as it does with them.** -/
theorem stmts_withoutSchemas : ∀ ss : List Source.Stmt, stmts m.withoutSchemas ss = stmts m ss
  | [] => rfl
  | s :: rest => bind_both (stmt_withoutSchemas s) fun result => by
    cases result with
    | some v => rfl
    | none => exact stmts_withoutSchemas rest

end

end Body

/-! ## Calls -/

namespace FunctionEntry

theorem run_withoutSchemas (m : Module) (fn : FunctionEntry) (frame : Frame) :
    fn.withoutSchemas.run m.withoutSchemas frame = fn.run m frame := by
  unfold FunctionEntry.run
  rw [Body.stmts_withoutSchemas]
  rfl

end FunctionEntry

namespace EntryPoint

variable (m : Module) (spec : Spec) (fn : FunctionEntry) (amount : Value)

theorem run_withoutSchemas (state : HeldState)
    (settle : Value → HeldState → Host → Except Fault Int × Host) (h : Host) :
    run m.withoutSchemas spec fn.withoutSchemas amount state settle h =
      run m spec fn amount state settle h := by
  simp only [run, FunctionEntry.run_withoutSchemas]
  rfl

theorem call_withoutSchemas (plan? : Option StatePlan) (h : Host) :
    call m.withoutSchemas spec fn.withoutSchemas plan? amount h =
      call m spec fn plan? amount h := by
  simp only [call, run_withoutSchemas]
  rfl

end EntryPoint

namespace Module

variable (m : Module) (e : Export)

theorem callPlain_withoutSchemas (fn : FunctionEntry) (amount : Value) (h : Host) :
    m.withoutSchemas.callPlain fn.withoutSchemas amount h = m.callPlain fn amount h := by
  simp only [callPlain, FunctionEntry.run_withoutSchemas]
  rfl

/-- **What an export does on a host, it does without the schemas of its module.** -/
theorem callExport_withoutSchemas (amount : Value) (h : Host) :
    m.withoutSchemas.callExport e amount h = m.callExport e amount h := by
  unfold callExport
  cases e.body with
  | entryPoint spec place plan =>
    simp only [getElem?_withoutSchemas_functions]
    cases m.functions[place]? with
    | none => rfl
    | some fn => exact EntryPoint.call_withoutSchemas m spec fn amount plan h
  | test place =>
    simp only [getElem?_withoutSchemas_functions]
    cases m.functions[place]? with
    | none => rfl
    | some fn => exact m.callPlain_withoutSchemas fn amount h
  | stateSchema data => rfl
  | parameterSchema parameter => rfl

/-- Called with nothing, it does so too, unless it looks up a schema. -/
theorem runExport_withoutSchemas (hbody : ∀ parameter, e.body ≠ .parameterSchema parameter)
    (h : Host) : m.withoutSchemas.runExport e h = m.runExport e h := by
  unfold runExport
  cases hcase : e.body with
  | entryPoint spec place plan => rfl
  | test place =>
    simp only [getElem?_withoutSchemas_functions]
    cases m.functions[place]? with
    | none => rfl
    | some fn =>
      simp only [Option.map_some, FunctionEntry.run_withoutSchemas]
      rfl
  | stateSchema data => rfl
  | parameterSchema parameter => exact absurd hcase (hbody parameter)

/-! ## The table -/

/-- What names lead to is the same but for the schemas, in the same order. -/
theorem visit_withoutSchemas (seen : List (Bool × Nat)) (names : Names) :
    exports.visit m.withoutSchemas seen names = (exports.visit m seen names).filter Export.isKept := by
  induction names generalizing seen with
  | nil => rfl
  | cons entry rest ih =>
    obtain ⟨name, b⟩ := entry
    cases b with
    | value v => exact ih seen
    | cls place =>
      simp only [exports.visit, getElem?_withoutSchemas, ih]
      split
      · rfl
      · rw [List.filter_append]
        cases m.classes[place]? <;> rfl
    | function place =>
      simp only [exports.visit, getElem?_withoutSchemas_functions, ih]
      split
      · rfl
      · rw [List.filter_append]
        cases m.functions[place]? <;> rfl

theorem exports_withoutSchemas : m.withoutSchemas.exports = m.exports.filter Export.isKept :=
  m.visit_withoutSchemas [] m.names

end Module

end ContractKit
