import ContractKit.Proofs.Module.Decorated
import ContractKit.Proofs.Module.Outline

/-!
# `Proofs/Module/Settled.lean`: the shape of what is decorated

The shape of a class is found once and kept, and what it is found from are the names of that moment. While
decorators are applied to a class nothing that was declared changes, so the shape that one of them has
kept is the one that the next would find (`Module.Settled`). It is of no matter which of them comes first.
-/

set_option autoImplicit false

namespace ContractKit.Module

variable {m m' : Module} {d d' : Decorated}

/-- The shape that is kept for a class is the one that is found for it now, and one is kept if there is a
codec. -/
structure Settles (m : Module) (e : ClassEntry) : Prop where
  found : ∀ shape, e.shape = some shape → Shape.ofClass m.chars m.typeNamed e.ref e.form = .ok shape
  kept : e.facts.codec.isSome = true → e.shape.isSome = true

/-- The class that decorators are applied to has a settled shape. -/
def Settled (m : Module) (d : Decorated) : Prop :=
  ∀ place e, d = .cls place → m.classes[place]? = some e → m.Settles e

theorem Settles.shapeOf_eq {e : ClassEntry} (h : m.Settles e) :
    m.shapeOf e = Shape.ofClass m.chars m.typeNamed e.ref e.form := by
  unfold shapeOf
  cases hkept : e.shape with
  | none => rfl
  | some shape => exact (h.found shape hkept).symm

theorem Settles.ofClass_of_shapeOf {e : ClassEntry} {shape : Shape} (h : m.Settles e)
    (hshape : m.shapeOf e = .ok shape) : Shape.ofClass m.chars m.typeNamed e.ref e.form = .ok shape :=
  h.shapeOf_eq.symm.trans hshape

theorem Settles.of_fresh {e : ClassEntry} (hshape : e.shape = none) (hcodec : e.facts.codec = none) :
    m.Settles e where
  found := by
    intro shape hkept
    rw [hshape] at hkept
    cases hkept
  kept := by
    intro hsome
    rw [hcodec] at hsome
    cases hsome

theorem Settles.of_outline {e : ClassEntry} (h : m.Settles e) (houtline : m'.outline = m.outline) :
    m'.Settles e := by
  refine ⟨fun shape hkept => ?_, h.kept⟩
  rw [typeNamed_congr houtline, chars_congr houtline]
  exact h.found shape hkept

/-- Classes stay settled when one is changed, if it is declared as before and stays settled itself. -/
theorem Settled.modifyClass (h : m.Settled d) {i : Nat} {f : ClassEntry → ClassEntry}
    (houtline : ∀ e, (f e).outline = e.outline)
    (hf : ∀ e, m.classes[i]? = some e → m.Settles e → m.Settles (f e)) :
    (m.modifyClass i f).Settled d := by
  intro place e' hd he'
  obtain ⟨e, he, rfl⟩ := getElem?_modifyClass he'
  have hsettles := h place e hd he
  refine Settles.of_outline ?_ (outline_modifyClass houtline)
  by_cases hi : i = place
  · subst hi
    rw [if_pos rfl]
    exact hf e he hsettles
  · rw [if_neg hi]
    exact hsettles

/-- Deriving anything for a class keeps the shape that is found for it. -/
theorem Settled.derive (h : m.Settled d) {place : Nat} {e : ClassEntry} {shape : Shape}
    {f : ClassEntry → ClassEntry} (he : m.classes[place]? = some e)
    (hshape : m.shapeOf e = .ok shape) (houtline : ∀ e, (f e).outline = e.outline)
    (hkept : ∀ e, (f e).shape = some shape) : (m.modifyClass place f).Settled d := by
  refine h.modifyClass houtline fun e' he' hsettles => ⟨fun kept hkept' => ?_, fun _ => ?_⟩
  · obtain rfl := Option.some.inj (he.symm.trans he')
    obtain rfl := Option.some.inj ((hkept e).symm.trans hkept')
    have href : (f e).ref = e.ref := congrArg (·.ref) (houtline e)
    have hform : (f e).form = e.form := congrArg (·.form) (houtline e)
    rw [href, hform]
    exact hsettles.ofClass_of_shapeOf hshape
  · rw [hkept]
    rfl

theorem Settled.attach (h : m.Settled d) (d' : Decorated) (e : Export) : (m.attach d' e).Settled d := by
  cases d' with
  | cls i => exact h.modifyClass (fun _ => rfl) fun c _ hsettles => ⟨hsettles.found, hsettles.kept⟩
  | function i =>
    intro place c hd hc
    exact (h place c hd hc).of_outline (outline_modifyFunction fun _ => rfl)
  | foreign name => exact h

/-- Decorators leave what they are applied to settled. -/
theorem settled_invariant (settings : LoadedSettings) (d : Decorated) :
    DecoratorInvariant settings fun m => m.Settled d where
  deriveCodec h hderive := by
    obtain ⟨place, e, shape, c, -, he, hshape, -, rfl⟩ := deriveCodec_cases hderive
    exact h.derive he hshape (fun _ => rfl) fun _ => rfl
  deriveSchema h hderive := by
    obtain rfl | ⟨place, e, shape, s, -, he, hshape, -, rfl⟩ := deriveSchema_cases hderive
    · exact h
    · exact h.derive he hshape (fun _ => rfl) fun _ => rfl
  attach d' e h _ _ := h.attach d' e

/-- What stands for the item after a decorator is settled too: it is the item, or no class of the
module. -/
theorem settled_of_decorate {settings : LoadedSettings} {decorator : Source.Decorator}
    (h : m.Settled d) (hdecorate : m.decorate settings d decorator = .ok (m', d')) : m'.Settled d' := by
  have hkept := (settled_invariant settings d).decorate h hdecorate
  suffices hd : d' = d ∨ ∃ name, d' = .foreign name by
    rcases hd with rfl | ⟨name, rfl⟩
    · exact hkept
    · intro place e hd
      cases hd
  cases decorator with
  | entryPoint kind given =>
    cases given with
    | none =>
      cases d with
      | cls place =>
        cases hdecorate
        exact Or.inr ⟨_, rfl⟩
      | _ =>
        obtain ⟨m1, -, hpair⟩ := bind_eq_ok.mp hdecorate
        cases hpair
        exact Or.inl rfl
    | some a =>
      obtain ⟨⟨items, options⟩, -, hdecorate⟩ := bind_eq_ok.mp hdecorate
      obtain ⟨m1, -, hpair⟩ := bind_eq_ok.mp hdecorate
      cases hpair
      exact Or.inl rfl
  | _ =>
    obtain ⟨m1, -, hpair⟩ := bind_eq_ok.mp hdecorate
    cases hpair
    exact Or.inl rfl

end ContractKit.Module
