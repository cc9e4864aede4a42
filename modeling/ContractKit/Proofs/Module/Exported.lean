import ContractKit.Proofs.Module.Declared

/-!
# `Proofs/Module/Exported.lean`: the entry points of a declared module

An entry point that works on the bytes of the state has no plan for it, and every other one has a plan
that can be used both ways, by a codec that came from a declaration (`Export.Planned`). That is checked
once, when the export is recorded, and no later declaration changes it.
-/

set_option autoImplicit false

namespace ContractKit

/-- The state can be written and read, by a codec that came from a declaration. Entry points are only
made with such a plan, so a call never finds a direction missing. -/
structure StatePlan.Usable (plan : StatePlan) : Prop where
  writes : plan.codec.canWrite = true
  reads : plan.codec.canRead = true
  sound : plan.codec.Sound

/-- What holds of an export as decorators make it. -/
def Export.Planned (e : Export) : Prop :=
  ∀ spec place plan?, e.body = .entryPoint spec place plan? →
    (plan? = none ↔ spec.lowLevel = true) ∧ ∀ plan, plan? = some plan → plan.Usable

namespace Module

variable {m : Module} {settings : LoadedSettings}

/-! ## Plans -/

theorem usable_of_stateCodec (h : m.Described) {t : Ty} {span : Span} {c : Codec}
    (hc : m.stateCodec t span = .ok c) (byRef : Bool) : (StatePlan.mk c byRef).Usable := by
  obtain ⟨found, hfound, hc⟩ := bind_eq_ok.mp hc
  by_cases hcan : (found.canWrite && found.canRead) = true
  · rw [if_pos hcan] at hc
    cases hc
    obtain ⟨hwrites, hreads⟩ := Bool.and_eq_true_iff.mp hcan
    exact ⟨hwrites, hreads, Codec.sound_of_ofType h.sound (locate_eq_ok.mp hfound)⟩
  · rw [if_neg hcan] at hc
    cases hc

theorem usable_of_initState (h : m.Described) {fn : FunctionEntry} {span : Span} {plan : StatePlan}
    (hplan : m.initState fn span = .ok plan) : plan.Usable := by
  obtain ⟨hints, -, hplan⟩ := bind_eq_ok.mp hplan
  dsimp only at hplan
  split at hplan
  · cases hplan
  · cases hplan
  · obtain ⟨c, hc, hpair⟩ := bind_eq_ok.mp hplan
    cases hpair
    exact usable_of_stateCodec h hc false

theorem usable_of_receiveState (h : m.Described) {fn : FunctionEntry} {span : Span}
    {plan : StatePlan} (hplan : m.receiveState fn span = .ok plan) : plan.Usable := by
  obtain ⟨hints, -, hplan⟩ := bind_eq_ok.mp hplan
  dsimp only at hplan
  split at hplan
  · cases hplan
  · obtain ⟨c, hc, hpair⟩ := bind_eq_ok.mp hplan
    cases hpair
    exact usable_of_stateCodec h hc true
  · split at hplan
    · cases hplan
    · obtain ⟨c, hc, hpair⟩ := bind_eq_ok.mp hplan
      cases hpair
      exact usable_of_stateCodec h hc false

/-- **A plan that was found can be used both ways.** -/
theorem planned_of_plans (h : m.Described) {e : Export} (hplans : m.Plans e) : e.Planned := by
  intro spec place plan? hbody
  rw [Plans, hbody] at hplans
  obtain ⟨fn, span, -, hplan⟩ := hplans
  unfold statePlan at hplan
  by_cases hlow : spec.lowLevel = true
  · rw [if_pos hlow] at hplan
    cases hplan
    exact ⟨iff_of_true rfl hlow, nofun⟩
  · rw [if_neg hlow] at hplan
    have hsome : ∃ plan, plan? = some plan ∧ plan.Usable := by
      cases hkind : spec.kind with
      | init =>
        rw [hkind] at hplan
        obtain ⟨plan, hfound, rfl⟩ := map_eq_ok.mp hplan
        exact ⟨plan, rfl, usable_of_initState h hfound⟩
      | receive =>
        rw [hkind] at hplan
        obtain ⟨plan, hfound, rfl⟩ := map_eq_ok.mp hplan
        exact ⟨plan, rfl, usable_of_receiveState h hfound⟩
    obtain ⟨plan, rfl, husable⟩ := hsome
    refine ⟨iff_of_false nofun hlow, ?_⟩
    rintro _ ⟨⟩
    exact husable

/-! ## Recorded exports -/

/-- What is changed at one place of a list keeps what holds of its items, if it holds of the changed
one. -/
theorem forall_mem_modify {α : Type} {Q : α → Prop} {f : α → α} {as : List α} (place : Nat)
    (has : ∀ a ∈ as, Q a) (hf : ∀ a, as[place]? = some a → Q (f a)) : ∀ a ∈ as.modify place f, Q a := by
  intro a ha
  obtain ⟨i, hi⟩ := List.mem_iff_getElem?.mp ha
  rw [List.getElem?_modify] at hi
  obtain ⟨b, hb, rfl⟩ := Option.map_eq_some_iff.mp hi
  by_cases hplace : place = i
  · subst hplace
    rw [if_pos rfl]
    exact hf b hb
  · rw [if_neg hplace]
    exact has b (List.mem_of_getElem? hb)

/-- The exports that are recorded on each class and function of the module are of this kind. It lifts a
property of the exports of one thing to all that a module exports. -/
structure Records (R : List Export → Prop) (m : Module) : Prop where
  classes : ∀ c ∈ m.classes, R c.exports
  functions : ∀ fn ∈ m.functions, R fn.exports

variable {R : List Export → Prop}

namespace Records

theorem modifyClass {place : Nat} {f : ClassEntry → ClassEntry} (h : m.Records R)
    (hf : ∀ c, (f c).exports = c.exports) : (m.modifyClass place f).Records R := by
  refine ⟨forall_mem_modify place h.classes fun c hc => ?_, h.functions⟩
  rw [hf]
  exact h.classes c (List.mem_of_getElem? hc)

theorem deriveCodec {m' : Module} {directions : Directions} {d : Decorated} (h : m.Records R)
    (hderive : m.deriveCodec directions d = .ok m') : m'.Records R := by
  obtain ⟨place, e, shape, c, -, -, -, -, rfl⟩ := deriveCodec_cases hderive
  exact h.modifyClass fun _ => rfl

theorem deriveSchema {m' : Module} {d : Decorated} (h : m.Records R)
    (hderive : m.deriveSchema settings d = .ok m') : m'.Records R := by
  obtain rfl | ⟨place, e, shape, s, -, -, -, -, rfl⟩ := deriveSchema_cases hderive
  · exact h
  · exact h.modifyClass fun _ => rfl

/-- An export is recorded behind the others of the same thing. -/
theorem attach {d : Decorated} {e : Export} (h : m.Records R) (he : R (m.recorded d ++ [e])) :
    (m.attach d e).Records R := by
  cases d with
  | cls place =>
    refine ⟨forall_mem_modify place h.classes fun c hc => ?_, h.functions⟩
    simpa [recorded, hc] using he
  | function place =>
    refine ⟨h.classes, forall_mem_modify place h.functions fun fn hfn => ?_⟩
    simpa [recorded, hfn] using he
  | foreign name => exact h

theorem recorded (h : m.Records R) (hnil : R []) (d : Decorated) : R (m.recorded d) := by
  cases d with
  | cls place =>
    cases hc : m.classes[place]? with
    | none => simpa [Module.recorded, hc] using hnil
    | some c => simpa [Module.recorded, hc] using h.classes c (List.mem_of_getElem? hc)
  | function place =>
    cases hfn : m.functions[place]? with
    | none => simpa [Module.recorded, hfn] using hnil
    | some fn => simpa [Module.recorded, hfn] using h.functions fn (List.mem_of_getElem? hfn)
  | foreign name => exact hnil

end Records

/-- What is kept by recording one export more holds of the exports of each thing. -/
theorem records_invariant (settings : LoadedSettings) (hnil : R [])
    (hmore : ∀ {m : Module} {d : Decorated} {e : Export}, m.Described → m.Plans e → m.NamedOn d e →
      R (m.recorded d) → R (m.recorded d ++ [e])) :
    Invariant settings fun m => m.Described ∧ m.Records R where
  deriveCodec h hderive := ⟨h.1.deriveCodec hderive, h.2.deriveCodec hderive⟩
  deriveSchema h hderive := ⟨h.1.deriveSchema hderive, h.2.deriveSchema hderive⟩
  attach d e h hplans hnamed :=
    ⟨h.1.attach d e, h.2.attach (hmore h.1 hplans hnamed (h.2.recorded hnil d))⟩
  described h := h.1
  names names h := ⟨h.1.of_classes rfl, h.2.classes, h.2.functions⟩
  addClass h hfresh hexports := by
    refine ⟨h.1.addClass hfresh, List.forall_mem_append.mpr ⟨h.2.classes, ?_⟩, h.2.functions⟩
    rw [List.forall_mem_singleton, hexports]
    exact hnil
  addFunction h hexports := by
    refine ⟨h.1.of_classes rfl, h.2.classes, List.forall_mem_append.mpr ⟨h.2.functions, ?_⟩⟩
    rw [List.forall_mem_singleton, hexports]
    exact hnil

/-- **What is kept by recording one export more, and by putting exports together, holds of the exports
of a declared module.** -/
theorem of_exports (hnil : R []) (happend : ∀ {es fs : List Export}, R es → R fs → R (es ++ fs))
    (hmore : ∀ {m : Module} {d : Decorated} {e : Export}, m.Described → m.Plans e → m.NamedOn d e →
      R (m.recorded d) → R (m.recorded d ++ [e]))
    {decls : List Source.Decl} {chars : Text.CharNames} (hm : ofDecls settings decls chars = .ok m) :
    R m.exports := by
  have h : m.Described ∧ m.Records R := by
    refine (records_invariant settings hnil hmore).ofDecls ⟨fun place e he => ?_, ?_⟩ hm
    · have he : ([] : List ClassEntry)[place]? = some e := he
      rw [List.getElem?_nil] at he
      cases he
    · exact ⟨List.forall_mem_nil _, List.forall_mem_nil _⟩
  rw [exports_eq]
  induction m.things with
  | nil => exact hnil
  | cons d things ih => exact happend (h.2.recorded hnil d) ih

/-- What holds of each export when it is recorded holds of the exports of a declared module. -/
theorem of_mem_exports {Q : Export → Prop}
    (hQ : ∀ {m : Module} {e : Export}, m.Described → m.Plans e → Q e)
    {decls : List Source.Decl} {chars : Text.CharNames} (hm : ofDecls settings decls chars = .ok m)
    {e : Export} (he : e ∈ m.exports) : Q e := by
  refine of_exports (R := fun es => ∀ e ∈ es, Q e) (List.forall_mem_nil _) ?_ ?_ hm e he
  · intro es fs hes hfs
    exact List.forall_mem_append.mpr ⟨hes, hfs⟩
  · intro m d e h hplans _ hes
    exact List.forall_mem_append.mpr ⟨hes, List.forall_mem_singleton.mpr (hQ h hplans)⟩

/-- **The entry points of a declared module have the plans that they need.** A low-level one has none,
and any other one has a codec that can be used in both directions. -/
theorem planned_of_mem_exports {decls : List Source.Decl} {chars : Text.CharNames}
    (hm : ofDecls settings decls chars = .ok m) {e : Export} (he : e ∈ m.exports) : e.Planned :=
  of_mem_exports (fun h hplans => planned_of_plans h hplans) hm he

end Module

end ContractKit
