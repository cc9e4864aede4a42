import ContractKit.Proofs.Module.Described
import ContractKit.Proofs.Module.Things

/-!
# `Proofs/Module/Decorated.lean`: what decorators keep

Two decorators derive something, and the others record exports. What is kept by deriving and by
recording an export is therefore kept by whatever decorators are applied
(`DecoratorInvariant.decorateAll`), and what they look at on the way is of no matter. Of the exports
that are recorded three things are kept in mind: the plan for the state of an entry point is the one that
is found for its function at that moment, nothing but a schema looks one up (`Module.Plans`), and their
names are made up of a contract, a name and what they are (`Module.NamedOn`).

`Module.Described` is such an invariant.
-/

set_option autoImplicit false

namespace ContractKit.Module

/-- The plan of an entry point is the one that the module has for its function, and what looks up a
schema is exported as one. -/
def Plans (m : Module) (e : Export) : Prop :=
  match e.body with
  | .entryPoint spec place plan? =>
    ∃ fn span, m.functions[place]? = some fn ∧ m.statePlan spec fn span = .ok plan?
  | .parameterSchema _ => e.kind = .schema
  | _ => True

/-- What an export is called that is recorded on something. The schema of a parameter is recorded right
behind the entry point that it is for, and is called after it. -/
def NamedOn (m : Module) (d : Decorated) (e : Export) : Prop :=
  match e.body with
  | .entryPoint spec _ _ => e.name = spec.exportName
  | .stateSchema _ => ∃ contract, e.name = "concordium_schema_state_" ++ contract
  | .parameterSchema parameter =>
    ∃ entry spec place plan?, (m.recorded d).getLast? = some entry ∧
      entry.body = .entryPoint spec place plan? ∧ spec.parameter = some parameter ∧
      e.name = "concordium_schema_function_" ++ spec.exportName
  | .test _ => e.name = "concordium test " ++ e.origin

/-- What deriving and recording an export keep of a module. Decorators do nothing else, and each is
known to record exports that the module plans for and that are named as they should be. -/
structure DecoratorInvariant (settings : LoadedSettings) (P : Module → Prop) : Prop where
  deriveCodec : ∀ {m m' : Module} {directions : Directions} {d : Decorated}, P m →
    m.deriveCodec directions d = .ok m' → P m'
  deriveSchema : ∀ {m m' : Module} {d : Decorated}, P m → m.deriveSchema settings d = .ok m' → P m'
  attach : ∀ {m : Module} (d : Decorated) {e : Export}, P m → m.Plans e → m.NamedOn d e →
    P (m.attach d e)

theorem Described.decoratorInvariant (settings : LoadedSettings) :
    DecoratorInvariant settings Described where
  deriveCodec h := h.deriveCodec
  deriveSchema h := h.deriveSchema
  attach d e h _ _ := h.attach d e

/-- An export comes last on the function that it has just been recorded on. -/
theorem getLast?_recorded_attach {m : Module} {place : Nat} {fn : FunctionEntry}
    (hfn : m.functions[place]? = some fn) (e : Export) :
    ((m.attach (.function place) e).recorded (.function place)).getLast? = some e := by
  simp [recorded, attach, modifyFunction, hfn]

section

variable {P : Module → Prop} {m m' : Module} {settings : LoadedSettings} {d d' : Decorated}

/-- Nothing but a schema is exported for a state. -/
theorem exportStateSchema_cases {a : Source.Arguments}
    (hexport : m.exportStateSchema settings a d = .ok m') :
    m' = m ∨ ∃ contract data, m' = m.attach d
      ⟨"concordium_schema_state_" ++ contract, .schema, .stateSchema data, d.name m⟩ := by
  obtain ⟨⟨items, options⟩, -, hexport⟩ := bind_eq_ok.mp hexport
  obtain ⟨texts, -, hexport⟩ := bind_eq_ok.mp hexport
  obtain ⟨attrs, -, hexport⟩ := bind_eq_ok.mp hexport
  obtain ⟨⟨⟩, -, hexport⟩ := bind_eq_ok.mp hexport
  obtain ⟨contract, -, hexport⟩ := bind_eq_ok.mp hexport
  cases contract with
  | none => cases hexport
  | some contract =>
    obtain ⟨loaded, -, hexport⟩ := bind_eq_ok.mp hexport
    by_cases hbuild : (!loaded.buildSchema) = true
    · simp only [hbuild, if_true] at hexport
      cases hexport
      exact Or.inl rfl
    · simp only [hbuild] at hexport
      obtain ⟨⟨place, e⟩, -, hexport⟩ := bind_eq_ok.mp hexport
      cases hschema : e.facts.schema with
      | some s =>
        simp only [hschema] at hexport
        obtain ⟨found, -, hexport⟩ := bind_eq_ok.mp hexport
        obtain ⟨data, -, hexport⟩ := bind_eq_ok.mp hexport
        cases hexport
        exact Or.inr ⟨contract, data, rfl⟩
      | none =>
        simp only [hschema] at hexport
        obtain ⟨shape, -, hexport⟩ := bind_eq_ok.mp hexport
        obtain ⟨s, -, hexport⟩ := bind_eq_ok.mp hexport
        obtain ⟨data, -, hexport⟩ := bind_eq_ok.mp hexport
        cases hexport
        exact Or.inr ⟨contract, data, rfl⟩

namespace DecoratorInvariant

theorem exportTest (hP : DecoratorInvariant settings P) (h : P m)
    (hexport : m.exportTest settings d = .ok m') : P m' := by
  cases d with
  | cls place => cases hexport
  | foreign name =>
    cases hexport
    exact h
  | function place =>
    obtain ⟨loaded, -, hexport⟩ := bind_eq_ok.mp hexport
    by_cases htest : loaded.wasmTest = true
    · simp only [htest, if_true] at hexport
      cases hexport
      exact hP.attach _ h trivial rfl
    · simp only [htest] at hexport
      cases hexport
      exact h

theorem exportStateSchema {a : Source.Arguments} (hP : DecoratorInvariant settings P) (h : P m)
    (hexport : m.exportStateSchema settings a d = .ok m') : P m' := by
  obtain rfl | ⟨contract, data, rfl⟩ := exportStateSchema_cases hexport
  · exact h
  · exact hP.attach _ h trivial ⟨contract, rfl⟩

theorem exportEntryPoint {kind : EntryKind} {items : List Value} {options : List (String × Value)}
    (hP : DecoratorInvariant settings P) (h : P m)
    (hexport : m.exportEntryPoint settings kind items options d = .ok m') : P m' := by
  cases d with
  | cls place => cases hexport
  | foreign name => cases hexport
  | function place =>
    unfold Module.exportEntryPoint at hexport
    cases hfn : m.functions[place]? with
    | none =>
      simp only [hfn] at hexport
      cases hexport
    | some fn =>
      simp only [hfn] at hexport
      obtain ⟨texts, -, hexport⟩ := bind_eq_ok.mp hexport
      obtain ⟨attrs, -, hexport⟩ := bind_eq_ok.mp hexport
      obtain ⟨spec, -, hexport⟩ := bind_eq_ok.mp hexport
      split at hexport
      · cases hexport
      · obtain ⟨plan, hplan, hexport⟩ := bind_eq_ok.mp hexport
        have hplans : ∀ exported,
            m.Plans ⟨spec.exportName, exported, .entryPoint spec place plan, fn.name⟩ :=
          fun _ => ⟨fn, _, hfn, hplan⟩
        cases hparameter : spec.parameter with
        | none =>
          simp only [hparameter] at hexport
          cases hexport
          exact hP.attach _ h (hplans _) rfl
        | some parameter =>
          simp only [hparameter] at hexport
          obtain ⟨loaded, -, hexport⟩ := bind_eq_ok.mp hexport
          -- with schemas asked for, that of the parameter is exported too
          by_cases hbuild : loaded.buildSchema = true
          · simp only [hbuild, if_true] at hexport
            cases hexport
            refine hP.attach _ (hP.attach _ h (hplans _) rfl) rfl ?_
            exact ⟨_, spec, place, plan, getLast?_recorded_attach hfn _, rfl, hparameter, rfl⟩
          · simp only [hbuild] at hexport
            cases hexport
            exact hP.attach _ h (hplans _) rfl

/-- **A decorator keeps an invariant.** -/
theorem decorate {decorator : Source.Decorator} (hP : DecoratorInvariant settings P) (h : P m)
    (hdecorate : m.decorate settings d decorator = .ok (m', d')) : P m' := by
  cases decorator with
  | codec directions =>
    obtain ⟨m1, hm, hpair⟩ := bind_eq_ok.mp hdecorate
    cases hpair
    exact hP.deriveCodec h hm
  | schema =>
    obtain ⟨m1, hm, hpair⟩ := bind_eq_ok.mp hdecorate
    cases hpair
    exact hP.deriveSchema h hm
  | test =>
    obtain ⟨m1, hm, hpair⟩ := bind_eq_ok.mp hdecorate
    cases hpair
    exact hP.exportTest h hm
  | contractState a =>
    obtain ⟨m1, hm, hpair⟩ := bind_eq_ok.mp hdecorate
    cases hpair
    exact hP.exportStateSchema h hm
  | entryPoint kind given =>
    cases given with
    | none =>
      cases d with
      | cls place =>
        cases hdecorate
        exact h
      | function place =>
        obtain ⟨m1, hm, hpair⟩ := bind_eq_ok.mp hdecorate
        cases hpair
        exact hP.exportEntryPoint h hm
      | foreign name =>
        obtain ⟨m1, hm, hpair⟩ := bind_eq_ok.mp hdecorate
        cases hpair
        exact hP.exportEntryPoint h hm
    | some a =>
      obtain ⟨⟨items, options⟩, -, hdecorate⟩ := bind_eq_ok.mp hdecorate
      obtain ⟨m1, hm, hpair⟩ := bind_eq_ok.mp hdecorate
      cases hpair
      exact hP.exportEntryPoint h hm

/-- **So do decorators applied one after the other.** -/
theorem decorateAll (hP : DecoratorInvariant settings P) :
    ∀ {decorators : List Source.Decorator} {m : Module} {d : Decorated}, P m →
      Module.decorateAll settings m d decorators = .ok (m', d') → P m'
  | [], m, d, h, hdecorate => by
    cases hdecorate
    exact h
  | decorator :: rest, m, d, h, hdecorate => by
    obtain ⟨⟨m1, d1⟩, hm, hrest⟩ := bind_eq_ok.mp hdecorate
    exact decorateAll hP (hP.decorate h hm) hrest

end DecoratorInvariant

end

end ContractKit.Module
