import ContractKit.Module.Decorate
import ContractKit.Proofs.Shape.OfClass

/-!
# `Proofs/Module/Described.lean`: what deriving keeps

Codec and schema of a class are derived by two decorators, in any order and any number of times, with
other declarations in between. `Module.Described` is what holds of a module at every moment, and what
the agreement of the two rests on: whatever was derived for a class follows the shape that was kept for
it, where the fields lie as the layouts known at that moment say (`Module.layouts`).

Deriving anything adds to those layouts and changes none of them, because the shape of a class is found
once (`Described.derive`). Everything else that decorators do leaves the classes as they are.
-/

set_option autoImplicit false

namespace ContractKit

/-- What holds of a declared class: it is the one at its place, and what was derived for it follows its
shape. -/
structure ClassEntry.Described (known : Layouts) (place : Nat) (e : ClassEntry) : Prop where
  id : e.ref.id = .declared place
  form : e.form.Sound e.ref
  shape : ∀ shape, e.shape = some shape → shape.Sound
  codec : ∀ c, e.facts.codec = some c →
    c.Sound ∧ ∃ shape, e.shape = some shape ∧ shape.Lays known c.walk
  schema : ∀ s, e.facts.schema = some s → ∃ shape, e.shape = some shape ∧ shape.Lays known s.walk

theorem ClassEntry.Described.mono {known more : Layouts} (hmore : known.Extends more) {place : Nat}
    {e : ClassEntry} (h : e.Described known place) : e.Described more place where
  id := h.id
  form := h.form
  shape := h.shape
  codec c hc := by
    obtain ⟨hsound, shape, hshape, hlays⟩ := h.codec c hc
    exact ⟨hsound, shape, hshape, hlays.mono hmore⟩
  schema s hs := by
    obtain ⟨shape, hshape, hlays⟩ := h.schema s hs
    exact ⟨shape, hshape, hlays.mono hmore⟩

namespace Module

/-- How the values of the classes of a module lie, as far as a codec or a schema was derived. -/
def layouts (m : Module) : Layouts where
  find id := ((m.facts id).codec.map Codec.walk).or ((m.facts id).schema.map Schema.walk)
  native := rfl

/-- What holds of a module at every moment. -/
def Described (m : Module) : Prop :=
  ∀ (place : Nat) (e : ClassEntry), m.classes[place]? = some e → e.Described m.layouts place

variable {m : Module}

/-! ## What is known about classes -/

theorem find_layouts (m : Module) (id : ClassId) :
    m.layouts.find id = ((m.facts id).codec.map Codec.walk).or ((m.facts id).schema.map Schema.walk) :=
  rfl

theorem facts_declared {place : Nat} {e : ClassEntry} (h : m.classes[place]? = some e) :
    m.facts (.declared place) = e.facts := by
  rw [facts, h]
  rfl

theorem exists_of_codec {id : ClassId} {c : Codec} (h : (m.facts id).codec = some c) :
    ∃ place e, id = .declared place ∧ m.classes[place]? = some e ∧ e.facts.codec = some c := by
  cases id with
  | native name => cases h
  | declared place =>
    cases hentry : m.classes[place]? with
    | none =>
      rw [facts, hentry] at h
      cases h
    | some e =>
      rw [facts_declared hentry] at h
      exact ⟨place, e, rfl, hentry, h⟩

theorem find_of_codec (id : ClassId) (c : Codec) (h : (m.facts id).codec = some c) :
    m.layouts.find id = some c.walk := by
  simp [find_layouts, h]

theorem facts_modifyClass {place : Nat} {f : ClassEntry → ClassEntry} {e : ClassEntry}
    (h : m.classes[place]? = some e) : (m.modifyClass place f).facts (.declared place) = (f e).facts := by
  simp [facts, modifyClass, h]

theorem facts_modifyClass_of_ne {place : Nat} {f : ClassEntry → ClassEntry} {id : ClassId}
    (h : id ≠ .declared place) : (m.modifyClass place f).facts id = m.facts id := by
  cases id with
  | native name => rfl
  | declared i =>
    have hi : place ≠ i := fun hi => h (by rw [hi])
    simp [facts, modifyClass, hi]

theorem getElem?_modifyClass {place i : Nat} {f : ClassEntry → ClassEntry} {e' : ClassEntry}
    (h : (m.modifyClass place f).classes[i]? = some e') :
    ∃ e, m.classes[i]? = some e ∧ e' = if place = i then f e else e := by
  rw [modifyClass, List.getElem?_modify] at h
  obtain ⟨e, he, rfl⟩ := Option.map_eq_some_iff.mp h
  refine ⟨e, he, ?_⟩
  by_cases hi : place = i
  · simp [hi]
  · simp [hi]

/-! ## What deriving does -/

theorem classAt_eq_ok {d : Decorated} {place : Nat} {e : ClassEntry} :
    m.classAt d = .ok (place, e) ↔ d = .cls place ∧ m.classes[place]? = some e := by
  constructor
  · intro h
    cases d with
    | cls i =>
      rw [classAt] at h
      cases hentry : m.classes[i]? with
      | none =>
        rw [hentry] at h
        cases h
      | some found =>
        rw [hentry] at h
        cases h
        exact ⟨rfl, hentry⟩
    | function i => cases h
    | foreign name => cases h
  · intro h
    obtain ⟨rfl, he⟩ := h
    rw [classAt, he]

/-- Deriving a codec keeps the shape that it is derived from. -/
theorem deriveCodec_cases {m' : Module} {directions : Directions} {d : Decorated}
    (hderive : m.deriveCodec directions d = .ok m') :
    ∃ place e shape c, d = .cls place ∧ m.classes[place]? = some e ∧ m.shapeOf e = .ok shape ∧
      shape.codec m.facts directions = .ok c ∧
      m' = m.modifyClass place fun e =>
        { e with shape := some shape, facts := { e.facts with codec := some c } } := by
  obtain ⟨⟨place, e⟩, hclass, hderive⟩ := bind_eq_ok.mp hderive
  obtain ⟨shape, hshape, hderive⟩ := bind_eq_ok.mp hderive
  obtain ⟨c, hc, hderive⟩ := bind_eq_ok.mp hderive
  obtain ⟨hd, he⟩ := classAt_eq_ok.mp hclass
  exact ⟨place, e, shape, c, hd, he, hshape, hc, (pure_eq_ok.mp hderive).symm⟩

/-- So does deriving a schema, and with schemas switched off nothing is done. -/
theorem deriveSchema_cases {m' : Module} {settings : LoadedSettings} {d : Decorated}
    (hderive : m.deriveSchema settings d = .ok m') :
    m' = m ∨ ∃ place e shape s, d = .cls place ∧ m.classes[place]? = some e ∧
      m.shapeOf e = .ok shape ∧ shape.schema m.facts = .ok s ∧
      m' = m.modifyClass place fun e =>
        { e with shape := some shape, facts := { e.facts with schema := some s } } := by
  obtain ⟨loaded, -, hderive⟩ := bind_eq_ok.mp hderive
  by_cases hbuild : (!loaded.buildSchema) = true
  · simp only [hbuild, if_true] at hderive
    cases hderive
    exact Or.inl rfl
  · simp only [hbuild] at hderive
    obtain ⟨⟨place, e⟩, hclass, hderive⟩ := bind_eq_ok.mp hderive
    obtain ⟨shape, hshape, hderive⟩ := bind_eq_ok.mp hderive
    obtain ⟨s, hs, hderive⟩ := bind_eq_ok.mp hderive
    obtain ⟨hd, he⟩ := classAt_eq_ok.mp hclass
    exact Or.inr ⟨place, e, shape, s, hd, he, hshape, hs, (pure_eq_ok.mp hderive).symm⟩

namespace Described

/-- The codecs of declared classes are sound. -/
theorem sound (h : m.Described) (id : ClassId) (c : Codec) (hc : (m.facts id).codec = some c) :
    c.Sound := by
  obtain ⟨place, e, -, he, hc⟩ := exists_of_codec hc
  exact ((h place e he).codec c hc).1

/-- Where a class has both, its schema walks as its codec does. -/
theorem walk_eq (h : m.Described) {id : ClassId} {c : Codec} {s : Schema}
    (hc : (m.facts id).codec = some c) (hs : (m.facts id).schema = some s) : c.walk = s.walk := by
  obtain ⟨place, e, rfl, he, hc⟩ := exists_of_codec hc
  rw [facts_declared he] at hs
  obtain ⟨-, shape, hshape, hlays⟩ := (h place e he).codec c hc
  obtain ⟨shape', hshape', hlays'⟩ := (h place e he).schema s hs
  obtain rfl := Option.some.inj (hshape.symm.trans hshape')
  exact Shape.Lays.unique hlays hlays'

theorem find_of_schema (h : m.Described) (id : ClassId) (s : Schema)
    (hs : (m.facts id).schema = some s) : m.layouts.find id = some s.walk := by
  cases hc : (m.facts id).codec with
  | none => simp [find_layouts, hc, hs]
  | some c => rw [find_of_codec id c hc, h.walk_eq hc hs]

/-- The layout of a class is the one that its shape asks for. -/
theorem lays_of_find (h : m.Described) {place : Nat} {e : ClassEntry} {walk : Read Unit}
    (he : m.classes[place]? = some e) (hfind : m.layouts.find (.declared place) = some walk) :
    (e.facts.codec.isSome ∨ e.facts.schema.isSome) ∧
      ∃ shape, e.shape = some shape ∧ shape.Lays m.layouts walk := by
  rw [find_layouts, facts_declared he] at hfind
  rcases Option.or_eq_some_iff.mp hfind with hcodec | ⟨-, hschema⟩
  · obtain ⟨c, hc, rfl⟩ := Option.map_eq_some_iff.mp hcodec
    exact ⟨Or.inl (by rw [hc]; rfl), ((h place e he).codec c hc).2⟩
  · obtain ⟨s, hs, rfl⟩ := Option.map_eq_some_iff.mp hschema
    exact ⟨Or.inr (by rw [hs]; rfl), (h place e he).schema s hs⟩

/-- **Codec and schema of an annotation walk alike.** Neither is compared with the other: both walk as
the layout of the annotation says, which is found without them. -/
theorem walk_eq_of_type (h : m.Described) {t : Ty} {c : Codec} {s : Schema}
    (hc : Codec.ofType m.facts t = .ok c) (hs : Schema.ofType m.facts t = .ok s) :
    c.walk = s.walk := by
  have hcodec := layout_of_codec find_of_codec hc
  have hschema := layout_of_schema h.find_of_schema t s hs
  exact Option.some.inj (hcodec.symm.trans hschema)

/-! ## Deriving -/

/-- The shape that deriving works with is sound, and it is the one kept for the class if there is one. -/
theorem shapeOf_cases (h : m.Described) {place : Nat} {e : ClassEntry} {shape : Shape}
    (he : m.classes[place]? = some e) (hshape : m.shapeOf e = .ok shape) :
    shape.Sound ∧ ∀ kept, e.shape = some kept → kept = shape := by
  unfold shapeOf at hshape
  cases hkept : e.shape with
  | some kept =>
    simp only [hkept, Except.ok.injEq] at hshape
    subst hshape
    exact ⟨(h place e he).shape kept hkept, fun _ hk => (Option.some.inj hk).symm⟩
  | none =>
    simp only [hkept] at hshape
    exact ⟨Shape.sound_ofClass (h place e he).form hshape, fun _ hk => nomatch hk⟩

/-- **Deriving keeps what holds of a module**: the class takes what follows its shape and nothing that
it had is lost, so all layouts stay what they were. -/
theorem derive (h : m.Described) {place : Nat} {e : ClassEntry} {shape : Shape} {new : ClassFacts}
    {f : ClassEntry → ClassEntry} (he : m.classes[place]? = some e) (hshape : m.shapeOf e = .ok shape)
    (hf : f e = { e with shape := some shape, facts := new })
    (hcodec : ∀ c, new.codec = some c → c.Sound ∧ shape.Lays m.layouts c.walk)
    (hschema : ∀ s, new.schema = some s → shape.Lays m.layouts s.walk)
    (hkeptCodec : e.facts.codec.isSome → new.codec.isSome)
    (hkeptSchema : e.facts.schema.isSome → new.schema.isSome) : (m.modifyClass place f).Described := by
  obtain ⟨hsound, hkept⟩ := h.shapeOf_cases he hshape
  have hfacts : (m.modifyClass place f).facts (.declared place) = new := by
    rw [facts_modifyClass he, hf]
  -- layouts enter the shapes of other classes, so it is not enough to look at this one
  have hmore : m.layouts.Extends (m.modifyClass place f).layouts := by
    intro id walk hwalk
    by_cases hid : id = .declared place
    · subst hid
      obtain ⟨hsome, kept, hshapeKept, hlays⟩ := h.lays_of_find he hwalk
      obtain rfl := hkept kept hshapeKept
      -- the class has a layout still, and its shape leaves no choice which
      cases hc : new.codec with
      | some c =>
        rw [find_of_codec _ c (by rw [hfacts, hc]), Shape.Lays.unique (hcodec c hc).2 hlays]
      | none =>
        cases hs : new.schema with
        | some s =>
          have hfind : (m.modifyClass place f).layouts.find (.declared place) = some s.walk := by
            simp [find_layouts, hfacts, hc, hs]
          rw [hfind, Shape.Lays.unique (hschema s hs) hlays]
        | none =>
          rcases hsome with hsome | hsome
          · rw [hc] at hkeptCodec
            exact absurd (hkeptCodec hsome) (by simp)
          · rw [hs] at hkeptSchema
            exact absurd (hkeptSchema hsome) (by simp)
    · rw [← hwalk, find_layouts, find_layouts, facts_modifyClass_of_ne hid]
  intro i e' he'
  obtain ⟨old, hold, rfl⟩ := getElem?_modifyClass he'
  -- the class itself follows the shape it was derived from, the others what they followed before
  by_cases hi : place = i
  · subst hi
    obtain rfl := Option.some.inj (he.symm.trans hold)
    rw [if_pos rfl, hf]
    exact
      { id := (h place e he).id
        form := (h place e he).form
        shape := by
          rintro _ ⟨⟩
          exact hsound
        codec := fun c hc => ⟨(hcodec c hc).1, shape, rfl, (hcodec c hc).2.mono hmore⟩
        schema := fun s hs => ⟨shape, rfl, (hschema s hs).mono hmore⟩ }
  · rw [if_neg hi]
    exact (h i old hold).mono hmore

/-- A module with the same classes is described as well. -/
theorem of_classes {m' : Module} (h : m.Described) (hclasses : m'.classes = m.classes) :
    m'.Described := by
  have hlayouts : m'.layouts.find = m.layouts.find := by
    funext id
    rw [find_layouts, find_layouts]
    cases id with
    | native name => rfl
    | declared i => rw [facts, facts, hclasses]
  intro place e he
  rw [hclasses] at he
  exact (h place e he).mono fun id walk hwalk => by rw [hlayouts]; exact hwalk

theorem deriveCodec {m' : Module} {directions : Directions} {d : Decorated} (h : m.Described)
    (hderive : m.deriveCodec directions d = .ok m') : m'.Described := by
  obtain ⟨place, e, shape, c, -, he, hshape, hc, rfl⟩ := deriveCodec_cases hderive
  obtain ⟨hsound, hkept⟩ := h.shapeOf_cases he hshape
  refine h.derive he hshape rfl ?_ ?_ (fun _ => rfl) (fun hs => hs)
  · rintro _ ⟨⟩
    exact ⟨sound_of_codec h.sound hsound hc, lays_of_codec find_of_codec hc⟩
  -- the schema that was derived earlier is kept with its shape
  · intro s hs
    obtain ⟨kept, hshapeKept, hlays⟩ := (h place e he).schema s hs
    obtain rfl := hkept kept hshapeKept
    exact hlays

theorem deriveSchema {m' : Module} {settings : LoadedSettings} {d : Decorated} (h : m.Described)
    (hderive : m.deriveSchema settings d = .ok m') : m'.Described := by
  obtain rfl | ⟨place, e, shape, s, -, he, hshape, hs, rfl⟩ := deriveSchema_cases hderive
  · exact h
  · obtain ⟨hsound, hkept⟩ := h.shapeOf_cases he hshape
    refine h.derive he hshape rfl ?_ ?_ (fun hc => hc) (fun _ => rfl)
    · intro c hc
      obtain ⟨hcodec, kept, hshapeKept, hlays⟩ := (h place e he).codec c hc
      obtain rfl := hkept kept hshapeKept
      exact ⟨hcodec, hlays⟩
    · rintro _ ⟨⟩
      exact lays_of_schema h.find_of_schema hsound hs

/-! ## Exporting -/

/-- An export is recorded beside what was derived. -/
theorem attach (h : m.Described) (d : Decorated) (e : Export) : (m.attach d e).Described := by
  cases d with
  | cls place =>
    intro i e' he'
    obtain ⟨old, hold, rfl⟩ := getElem?_modifyClass he'
    have hfacts : ∀ id, (m.attach (.cls place) e).facts id = m.facts id := by
      intro id
      by_cases hid : id = .declared place
      · subst hid
        cases hentry : m.classes[place]? with
        | none => simp [Module.attach, facts, modifyClass, hentry]
        | some found =>
          rw [facts_declared hentry]
          exact facts_modifyClass hentry
      · exact facts_modifyClass_of_ne hid
    have hmore : m.layouts.Extends (m.attach (.cls place) e).layouts := by
      intro id walk hwalk
      rw [← hwalk, find_layouts, find_layouts, hfacts]
    have hdescribed := (h i old hold).mono hmore
    by_cases hi : place = i
    · rw [if_pos hi]
      exact ⟨hdescribed.id, hdescribed.form, hdescribed.shape, hdescribed.codec, hdescribed.schema⟩
    · rw [if_neg hi]
      exact hdescribed
  | function place => exact h.of_classes rfl
  | foreign name => exact h

end Described

end Module

end ContractKit
