import ContractKit.Proofs.Ty.Layout
import ContractKit.Shape.Derived
import ContractKit.Shape.Plan

/-!
# `Proofs/Shape/Plan.lean`: codec and schema of a field

A plan is the one thing that codec and schema of a field have in common, so what they agree on has to
be said of the plan: `Lays` is the walk over the field that the plan alone asks for. With a prefix of
its own a field is a count of that width and the same items as with the standard one (`counted`).

`Checked` is what every plan made from an annotation satisfies: a prefix is chosen only for types whose
values start with one, and never for a map or a set whose keys are not looked at.
-/

set_option autoImplicit false

namespace ContractKit

open Read

/-! ## Items behind a count -/

/-- What skips one of the items that the values of an annotation start with the count of. -/
def Ty.counted (known : Layouts) : Ty → Option (Read Unit)
  | .bytes | .text => some (skip 1)
  | .list item | .set item | .frozenset item | .tuple [item, .dots] => item.layout known
  | .dict key value =>
    (key.layout known).bind fun k => (value.layout known).map fun v => inOrder [k, v]
  | _ => Option.none

theorem Ty.counted_dict {known : Layouts} {key value : Ty} {k v : Read Unit}
    (hk : key.layout known = some k) (hv : value.layout known = some v) :
    (Ty.dict key value).counted known = some (inOrder [k, v]) := by
  rw [counted, hk, hv]
  rfl

/-- The items of an annotation stay what they are when more classes become known. -/
theorem Ty.counted_mono {known more : Layouts} (h : known.Extends more) {t : Ty} {walk : Read Unit}
    (hwalk : t.counted known = some walk) : t.counted more = some walk := by
  unfold counted at hwalk ⊢
  split at hwalk
  · exact hwalk
  · exact hwalk
  · exact layout_mono h hwalk
  · exact layout_mono h hwalk
  · exact layout_mono h hwalk
  · exact layout_mono h hwalk
  · rename_i key value
    obtain ⟨k, hk, hwalk⟩ := Option.bind_eq_some_iff.mp hwalk
    obtain ⟨v, hv, rfl⟩ := Option.map_eq_some_iff.mp hwalk
    exact counted_dict (layout_mono h hk) (layout_mono h hv)
  · cases hwalk

namespace FieldPlan

/-! ## Plans -/

/-- What makes a plan fit its type. -/
def Checked (p : FieldPlan) : Prop :=
  match p.strategy with
  | .delegate => True
  | .prefixed _ kind order =>
    kind.Fits p.type.stripped ∧ (kind = .map ∨ kind = .set → order ≠ .unchecked)

/-- The walk over a field that its plan asks for. -/
def Lays (known : Layouts) (p : FieldPlan) (walk : Read Unit) : Prop :=
  match p.strategy with
  | .delegate => p.type.layout known = some walk
  | .prefixed width _ _ =>
    ∃ item, p.type.stripped.counted known = some item ∧ walk = skipCounted width item

theorem Lays.unique {known : Layouts} : Relator.RightUnique (Lays known) := by
  intro p walk walk' h h'
  unfold Lays at h h'
  cases hstrategy : p.strategy with
  | delegate =>
    simp only [hstrategy] at h h'
    exact Option.some.inj (h.symm.trans h')
  | «prefixed» width kind order =>
    simp only [hstrategy] at h h'
    obtain ⟨item, hitem, rfl⟩ := h
    obtain ⟨item', hitem', rfl⟩ := h'
    rw [Option.some.inj (hitem.symm.trans hitem')]

theorem Lays.mono {known more : Layouts} (h : known.Extends more) {p : FieldPlan} {walk : Read Unit}
    (hwalk : p.Lays known walk) : p.Lays more walk := by
  unfold Lays at hwalk ⊢
  split at hwalk
  · exact Ty.layout_mono h hwalk
  · obtain ⟨item, hitem, rfl⟩ := hwalk
    exact ⟨item, Ty.counted_mono h hitem, rfl⟩

theorem orderOf_ne_unchecked {kind : ContainerKind} {attrs : List Attribute}
    (hkind : kind = .map ∨ kind = .set) : orderOf kind attrs ≠ .ok .unchecked := by
  intro h
  cases hflag : Attribute.hasFlag "ensure_ordered" attrs with
  | error report => rcases hkind with rfl | rfl <;> simp [orderOf, hflag] at h
  | ok asked => cases asked <;> rcases hkind with rfl | rfl <;> simp [orderOf, hflag] at h

theorem checked_strategyOf {type : Ty} {span : Span} {attrs : List Attribute} {name : String} :
    ∀ {kinds : List ContainerKind} {strategy : Strategy},
      strategyOf type span attrs kinds = .ok strategy → Checked ⟨name, type, strategy, span⟩
  | [], strategy, h => by
    cases h
    exact trivial
  | kind :: kinds, strategy, h => by
    rw [strategyOf] at h
    split at h
    · cases h
    · exact checked_strategyOf h
    · obtain ⟨⟨⟩, hcheck, h⟩ := bind_eq_ok.mp h
      obtain ⟨order, horder, h⟩ := bind_eq_ok.mp h
      cases h
      refine ⟨Codec.fits_of_check (locate_eq_ok.mp hcheck), fun hkind hunchecked => ?_⟩
      rw [hunchecked] at horder
      exact orderOf_ne_unchecked hkind horder

/-- A plan made from an annotation fits its type. -/
theorem checked_ofHint {chars : Text.CharNames} {name : String} {hint : TypeHint} {span : Span}
    {p : FieldPlan} (h : ofHint chars name hint span = .ok p) : p.Checked := by
  obtain ⟨attrs, -, h⟩ := bind_eq_ok.mp h
  cases hsite : Attribute.checkSite .field attrs with
  | error report =>
    simp only [hsite] at h
    cases h
  | ok =>
    simp only [hsite] at h
    obtain ⟨strategy, hstrategy, h⟩ := bind_eq_ok.mp h
    cases h
    exact checked_strategyOf hstrategy

/-! ## Codecs -/

section Codecs

variable {classes : Classes} {known : Layouts} {p : FieldPlan} {c : Codec}

/-- A field has a codec if its type has one that can be used in the directions that are derived. -/
theorem codec_cases {directions : Directions} (h : p.codec classes directions = .ok c) :
    p.rawCodec classes = .ok c ∧ c.Serves directions := by
  obtain ⟨d, hd, h⟩ := bind_eq_ok.mp (locate_eq_ok.mp h)
  by_cases hwrites : (directions.writes && !d.canWrite) = true
  · simp only [hwrites, if_true] at h
    cases h
  · by_cases hreads : (directions.reads && !d.canRead) = true
    · simp only [hwrites, hreads, if_true] at h
      cases h
    · simp only [hwrites, hreads] at h
      cases h
      exact ⟨hd, by simpa using hwrites, by simpa using hreads⟩

theorem rawCodec_of_codec {directions : Directions} (h : p.codec classes directions = .ok c) :
    p.rawCodec classes = .ok c :=
  (codec_cases h).1

/-- **A codec walks over a field as its plan says.** -/
theorem lays_of_rawCodec
    (hknown : ∀ id c, (classes id).codec = some c → known.find id = some c.walk)
    (h : p.rawCodec classes = .ok c) : p.Lays known c.walk := by
  unfold rawCodec at h
  unfold Lays
  cases hstrategy : p.strategy with
  | delegate =>
    rw [hstrategy] at h
    exact layout_of_codec hknown h
  | «prefixed» width kind order =>
    rw [hstrategy] at h
    -- behind the count of a field lies what lies behind the standard one
    have hlayout : ∀ {t : Ty} {d : Codec}, Codec.ofType classes t = .ok d →
        t.layout known = some d.walk := fun h => layout_of_codec hknown h
    refine Codec.prefixed_cases
      (P := fun t c => ∃ item, t.counted known = some item ∧ c.walk = skipCounted width item)
      ?_ ?_ ?_ ?_ ?_ ?_ ?_ h
    · exact ⟨_, rfl, rfl⟩
    · exact ⟨_, rfl, rfl⟩
    · exact fun item d hd => ⟨_, hlayout hd, rfl⟩
    · exact fun item d hd => ⟨_, hlayout hd, rfl⟩
    · exact fun member d _ hd => ⟨_, hlayout hd, rfl⟩
    · exact fun member d _ hd => ⟨_, hlayout hd, rfl⟩
    · exact fun key value k v _ hk hv => ⟨_, Ty.counted_dict (hlayout hk) (hlayout hv), rfl⟩

/-- **The codec of a field is sound** if its plan fits its type. -/
theorem sound_of_rawCodec (hclasses : ∀ id c, (classes id).codec = some c → c.Sound)
    (hchecked : p.Checked) (h : p.rawCodec classes = .ok c) : c.Sound := by
  unfold rawCodec at h
  unfold Checked at hchecked
  cases hstrategy : p.strategy with
  | delegate =>
    rw [hstrategy] at h
    exact Codec.sound_of_ofType hclasses h
  | «prefixed» width kind order =>
    rw [hstrategy] at h
    simp only [hstrategy] at hchecked
    have hsound : ∀ {t : Ty} {d : Codec}, Codec.ofType classes t = .ok d → d.Sound :=
      fun h => Codec.sound_of_ofType hclasses h
    refine Codec.prefixed_cases (P := fun _ c => c.Sound) ?_ ?_ ?_ ?_ ?_ ?_ ?_ h
    · exact Codec.sound_of_children trivial (by simp [Codec.children])
    · exact Codec.sound_of_children trivial (by simp [Codec.children])
    · intro item d hd
      exact Codec.sound_of_children trivial (by simpa [Codec.children] using hsound hd)
    · intro item d hd
      exact Codec.sound_of_children trivial (by simpa [Codec.children] using hsound hd)
    · intro member d hkind hd
      exact Codec.sound_of_children (hchecked.2 (Or.inr hkind))
        (by simpa [Codec.children] using hsound hd)
    · intro member d hkind hd
      exact Codec.sound_of_children (hchecked.2 (Or.inr hkind))
        (by simpa [Codec.children] using hsound hd)
    · intro key value k v hkind hk hv
      exact Codec.sound_of_children (hchecked.2 (Or.inl hkind))
        (by simpa [Codec.children] using ⟨hsound hk, hsound hv⟩)

end Codecs

/-! ## Schemas -/

section Schemas

variable {classes : Classes} {known : Layouts} {p : FieldPlan} {s : Schema}

theorem ofType_stripped (classes : Classes) : ∀ t : Ty,
    Schema.ofType classes t.stripped = Schema.ofType classes t
  | .annotated base _ => by rw [Ty.stripped, Schema.ofType, ofType_stripped classes base]
  | .sized _ | .accountAddress | .bool | .text | .bytes | .int | .float | .any | .none | .noneType
  | .dots | .bare _ | .cls _ | .object _ | .list _ | .set _ | .frozenset _ | .dict _ _ | .tuple _
  | .union _ _ | .forward _ | .forwardRef _ | .ok _ | .err _ | .stateRef _ => rfl

/-- The schema of a type with a count in front takes another width for it, and nothing else about it
changes. -/
theorem walk_withSizeLength
    (hknown : ∀ id s, (classes id).schema = some s → known.find id = some s.walk)
    (width : PrefixWidth) {kind : ContainerKind} {t : Ty} (hfits : kind.Fits t)
    (h : Schema.ofType classes t = .ok s) :
    ∃ item, t.counted known = some item ∧ (s.withSizeLength width).walk = skipCounted width item := by
  have hlayout : ∀ {t : Ty} {s : Schema}, Schema.ofType classes t = .ok s →
      t.layout known = some s.walk := fun h => layout_of_schema hknown _ _ h
  -- the types that fit are gone through; each has a schema with a count, or none at all
  unfold ContainerKind.Fits at hfits
  split at hfits
  · cases h
    exact ⟨_, rfl, rfl⟩
  · cases h
  · obtain ⟨item, hitem, hs⟩ := bind_eq_ok.mp h
    cases hs
    exact ⟨_, hlayout hitem, rfl⟩
  · obtain ⟨item, hitem, hs⟩ := bind_eq_ok.mp h
    cases hs
    exact ⟨_, hlayout hitem, rfl⟩
  · cases h
  · obtain ⟨k, hk, h⟩ := bind_eq_ok.mp h
    obtain ⟨v, hv, hs⟩ := bind_eq_ok.mp h
    cases hs
    exact ⟨_, Ty.counted_dict (hlayout hk) (hlayout hv), rfl⟩
  · cases h
  · cases h
  · obtain ⟨member, hmember, hs⟩ := bind_eq_ok.mp h
    cases hs
    exact ⟨_, hlayout hmember, rfl⟩
  · obtain ⟨member, hmember, hs⟩ := bind_eq_ok.mp h
    cases hs
    exact ⟨_, hlayout hmember, rfl⟩
  · cases h
    exact ⟨_, rfl, rfl⟩
  · exact hfits.elim

/-- **A schema walks over a field as its plan says.** The width of a prefix is put into the schema that
the type has without it, so the schema has to be one with a count. -/
theorem lays_of_schema
    (hknown : ∀ id s, (classes id).schema = some s → known.find id = some s.walk)
    (hchecked : p.Checked) (h : p.schema classes = .ok s) : p.Lays known s.walk := by
  unfold schema at h
  unfold Checked at hchecked
  unfold Lays
  obtain ⟨found, hfound, h⟩ := bind_eq_ok.mp h
  have hfound := locate_eq_ok.mp hfound
  cases hstrategy : p.strategy with
  | delegate =>
    simp only [hstrategy] at h
    cases h
    exact layout_of_schema hknown _ _ hfound
  | «prefixed» width kind order =>
    simp only [hstrategy] at h hchecked
    cases h
    -- a schema looks through metadata, and the width is put on what is below
    rw [← ofType_stripped] at hfound
    exact walk_withSizeLength hknown width hchecked.1 hfound

end Schemas

end FieldPlan

end ContractKit
