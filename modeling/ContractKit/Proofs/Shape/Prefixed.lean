import ContractKit.Proofs.Codec.Prefix
import ContractKit.Proofs.Shape.Plan

/-!
# `Proofs/Shape/Prefixed.lean`: what a length attribute changes

A field with a length attribute is compared with the same field without attributes (`prefixed_field`).
Either both have a codec or both have none, for one reason. What the attribute changes is the count in
front of what is written, and with a count of the standard width nothing is changed at all, if keys are
asked to be in order as they are without the attribute.
-/

set_option autoImplicit false

namespace ContractKit

/-- Another prefix does not change in which directions a codec can be used. -/
theorem Codec.can_withPrefix {direction : Directions → Bool} {c : Codec} {width : PrefixWidth}
    {order : OrderPolicy} : (c.withPrefix width order).can direction = c.can direction := by
  cases c <;> rfl

namespace FieldPlan

variable {chars : Text.CharNames} {name : String} {hint : TypeHint} {span : Span}
  {attrs : List Attribute} {p : FieldPlan}
  {width : PrefixWidth} {kind : ContainerKind} {order : OrderPolicy}

/-! ## Plans with a prefix and plans without -/

/-- A prefix is chosen for a type that takes one, and its policy is what the attributes ask for. -/
theorem prefixed_of_strategyOf {type : Ty} :
    ∀ {kinds : List ContainerKind},
      strategyOf type span attrs kinds = .ok (.prefixed width kind order) →
        kind.check type = .ok () ∧ orderOf kind attrs = .ok order
  | [], h => by cases h
  | _ :: kinds, h => by
    rw [strategyOf] at h
    split at h
    · cases h
    · exact prefixed_of_strategyOf h
    · obtain ⟨⟨⟩, hcheck, h⟩ := bind_eq_ok.mp h
      obtain ⟨chosen, hchosen, h⟩ := bind_eq_ok.mp h
      cases h
      exact ⟨locate_eq_ok.mp hcheck, hchosen⟩

theorem prefixed_of_ofHint (hattrs : hint.attributes chars span = .ok attrs)
    (hp : ofHint chars name hint span = .ok p) (hprefixed : p.strategy = .prefixed width kind order) :
    p = ⟨name, hint.type.stripped, .prefixed width kind order, span⟩ ∧
      kind.check hint.type.stripped = .ok () ∧ orderOf kind attrs = .ok order := by
  obtain ⟨found, hfound, h⟩ := bind_eq_ok.mp hp
  obtain rfl := Except.ok.inj (hattrs.symm.trans hfound)
  cases hsite : Attribute.checkSite .field attrs with
  | error report =>
    simp only [hsite] at h
    cases h
  | ok =>
    simp only [hsite] at h
    obtain ⟨strategy, hstrategy, h⟩ := bind_eq_ok.mp h
    cases h
    obtain rfl : strategy = _ := hprefixed
    exact ⟨rfl, prefixed_of_strategyOf hstrategy⟩

/-- Where keys are asked to be in order, the policy is that of a container without a prefix of its
own. -/
theorem order_eq_standard (horder : orderOf kind attrs = .ok order)
    (hasked : kind = .map ∨ kind = .set → Attribute.hasFlag "ensure_ordered" attrs = .ok true) :
    order = Codec.standardOrder kind := by
  cases kind with
  | sequence | text =>
    cases horder
    rfl
  | map =>
    rw [orderOf, hasked (Or.inl rfl)] at horder
    cases horder
    rfl
  | set =>
    rw [orderOf, hasked (Or.inr rfl)] at horder
    cases horder
    rfl

/-- The plan of a field without attributes. -/
theorem ofHint_plain (chars : Text.CharNames) (name : String) (type : Ty) (span : Span) :
    ofHint chars name ⟨type, []⟩ span = .ok ⟨name, type.stripped, .delegate, span⟩ := rfl

/-- The codec of a field with a prefix of its own is that of its type with the prefix changed. -/
theorem codec_eq_map {type : Ty} (classes : Classes) (directions : Directions)
    (hcheck : kind.check type = .ok ()) :
    FieldPlan.codec classes directions ⟨name, type, .prefixed width kind order, span⟩ =
      (FieldPlan.codec classes directions ⟨name, type, .delegate, span⟩).map
        (Codec.withPrefix width order) := by
  unfold codec
  simp only [rawCodec, Codec.prefixed_eq_map hcheck]
  cases Codec.ofType classes type with
  | error f => rfl
  | ok d =>
    have hwrites : (d.withPrefix width order).canWrite = d.canWrite := Codec.can_withPrefix
    have hreads : (d.withPrefix width order).canRead = d.canRead := Codec.can_withPrefix
    simp only [Except.map, bind, Except.bind, hwrites, hreads]
    -- the directions are asked of both codecs with the same outcome
    cases directions.writes && !d.canWrite with
    | true => rfl
    | false => cases directions.reads && !d.canRead <;> rfl

/-! ## The same field with and without -/

/-- **A length attribute changes only the prefix.** Without its attributes the field has a plan as well, and
a codec if it has one with them. What is written is then what the type writes, behind a count of the
width that was chosen; with the width that a type has by itself, and ordered keys where there are keys,
the two codecs write and read the same. -/
theorem prefixed_field (hattrs : hint.attributes chars span = .ok attrs)
    (hp : ofHint chars name hint span = .ok p) (hprefixed : p.strategy = .prefixed width kind order)
    (classes : Classes) (directions : Directions) :
    ∃ q, ofHint chars name ⟨hint.type, []⟩ span = .ok q ∧
      ((∃ f, p.codec classes directions = .error f ∧ q.codec classes directions = .error f) ∨
        ∃ c d, p.codec classes directions = .ok c ∧ q.codec classes directions = .ok d ∧
          (∀ v, c.encode v = d.encodeCounted width v) ∧
          (width = .four →
            (kind = .map ∨ kind = .set → Attribute.hasFlag "ensure_ordered" attrs = .ok true) →
              (∀ v, c.encode v = d.encode v) ∧ ∀ data, c.read.run data = d.read.run data)) := by
  obtain ⟨rfl, hcheck, horder⟩ := prefixed_of_ofHint hattrs hp hprefixed
  refine ⟨_, ofHint_plain chars name hint.type span, ?_⟩
  rw [codec_eq_map classes directions hcheck]
  cases hd : FieldPlan.codec classes directions ⟨name, hint.type.stripped, .delegate, span⟩ with
  | error f => exact Or.inl ⟨f, rfl, rfl⟩
  | ok d =>
    have htype : Codec.ofType classes hint.type.stripped = .ok d := rawCodec_of_codec hd
    refine Or.inr ⟨_, d, rfl, rfl, fun v => ?_, ?_⟩
    · exact Codec.encode_withPrefix (Codec.standard_of_ofType hcheck htype).1
    · rintro rfl hasked
      rw [order_eq_standard horder hasked]
      obtain ⟨hencode, hread⟩ := Codec.same_of_standard hcheck htype
      refine ⟨hencode, fun data => ?_⟩
      rw [← hread]
      rfl

section Digits

/-- A field for a tuple of digits whose count is asked to be as wide as it is anyway. -/
def digitsHint : TypeHint :=
  ⟨.tuple [.sized .u8, .dots], [.marker ⟨[], [("size_length", .int 4)]⟩]⟩

def digitsSpan : Span := ⟨"Code", some "digits", none, none, none⟩

/-- The attribute leads to another codec, and the two agree. -/
theorem prefixed_field_digits : ∃ attrs p q,
    digitsHint.attributes .none digitsSpan = .ok attrs ∧
    ofHint .none "digits" digitsHint digitsSpan = .ok p ∧
    p.strategy = .prefixed .four .sequence .unchecked ∧
    ofHint .none "digits" ⟨digitsHint.type, []⟩ digitsSpan = .ok q ∧
    p.codec (fun _ => {}) ⟨true, true⟩ = .ok (.sequence true (.int ⟨1, false⟩) .four .unchecked) ∧
    q.codec (fun _ => {}) ⟨true, true⟩ = .ok (.varTuple (.int ⟨1, false⟩)) ∧
    (∀ v, (Codec.sequence true (.int ⟨1, false⟩) .four .unchecked).encode v =
      (Codec.varTuple (.int ⟨1, false⟩)).encode v) ∧
    ∀ data, (Codec.sequence true (.int ⟨1, false⟩) .four .unchecked).read.run data =
      (Codec.varTuple (.int ⟨1, false⟩)).read.run data := by
  have hplan : ∃ attrs p, digitsHint.attributes .none digitsSpan = .ok attrs ∧
      ofHint .none "digits" digitsHint digitsSpan = .ok p ∧
      p.strategy = .prefixed .four .sequence .unchecked ∧
      p.codec (fun _ => {}) ⟨true, true⟩ = .ok (.sequence true (.int ⟨1, false⟩) .four .unchecked) :=
    ⟨_, _, rfl, rfl, by decide, rfl⟩
  obtain ⟨attrs, p, hattrs, hp, hprefixed, hc⟩ := hplan
  obtain ⟨q, hq, ⟨f, hf, -⟩ | ⟨c, d, hc', hd, -, hsame⟩⟩ :=
    prefixed_field hattrs hp hprefixed (fun _ => {}) ⟨true, true⟩
  · cases hc.symm.trans hf
  · cases hc.symm.trans hc'
    have hplain : q.codec (fun _ => {}) ⟨true, true⟩ = .ok (.varTuple (.int ⟨1, false⟩)) := by
      cases hq
      rfl
    cases hplain.symm.trans hd
    obtain ⟨hencode, hread⟩ := hsame rfl (by rintro (h | h) <;> cases h)
    exact ⟨attrs, p, q, hattrs, hp, hprefixed, hq, hc, hplain, hencode, hread⟩

end Digits

end FieldPlan

end ContractKit
