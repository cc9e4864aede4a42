import ContractKit.Proofs.Shape.Plan
import ContractKit.Shape.OfClass

/-!
# `Proofs/Shape/Derived.lean`: codec and schema of a class

The codec and the schema of a class are derived one after the other, and much can be declared in
between. What they have in common is the shape: `Shape.Lays` is the walk over the instances that the
shape asks for, there is one at most, and the codec and the schema both follow it.

`Shape.Sound` is what the shape of a declared class satisfies, and what makes its codec sound: plans
fit their types, the tag is as wide as the variants are many, and a class that is a variant twice has
the same plans both times.
-/

set_option autoImplicit false

namespace ContractKit

open Read

/-! ## What a shape asks for -/

/-- The walk over the fields of a class that their plans ask for. -/
def FieldPlans.Lays (known : Layouts) (fields : FieldPlans) (walk : Read Unit) : Prop :=
  ∃ walks, List.Forall₂ (FieldPlan.Lays known) fields.toList walks ∧ walk = inOrder walks

/-- Whether the plans of all fields fit their types. -/
def FieldPlans.Checked (fields : FieldPlans) : Prop := ∀ p ∈ fields.toList, p.Checked

namespace Shape

/-- The walk over the instances of a class that its shape asks for. -/
def Lays (known : Layouts) : Shape → Read Unit → Prop
  | struct _ fields, walk => fields.Lays known walk
  | unit _, walk => walk = inOrder []
  | variants _ _ cases, walk =>
    ∃ walks, List.Forall₂ (fun v w => v.fields.Lays known w) cases walks ∧ walk = skipTagged walks
  | members _ _ cases, walk => walk = skipTagged (cases.map fun _ => inOrder [])

/-- A shape that a declared class has. -/
def Sound : Shape → Prop
  | struct _ fields => fields.Checked
  | unit _ => True
  | variants _ tag cases =>
    TagWidth.forCount cases.length = .ok tag ∧ (∀ v ∈ cases, v.fields.Checked) ∧
      ∀ v ∈ cases, ∀ w ∈ cases, v.target.cls.ref.id = w.target.cls.ref.id → v = w
  | members enum tag cases =>
    TagWidth.forCount cases.length = .ok tag ∧
      cases.Pairwise fun a b => (a.value enum).beq (b.value enum) = false

end Shape

theorem FieldPlans.Lays.unique {known : Layouts} : Relator.RightUnique (FieldPlans.Lays known) := by
  rintro fields _ _ ⟨walks, hwalks, rfl⟩ ⟨walks', hwalks', rfl⟩
  rw [FieldPlan.Lays.unique.forall₂ hwalks hwalks']

theorem FieldPlans.Lays.mono {known more : Layouts} (h : known.Extends more) {fields : FieldPlans}
    {walk : Read Unit} (hwalk : fields.Lays known walk) : fields.Lays more walk := by
  obtain ⟨walks, hwalks, rfl⟩ := hwalk
  exact ⟨walks, hwalks.imp fun _ _ => FieldPlan.Lays.mono h, rfl⟩

/-- **A shape asks for one walk at most.** -/
theorem Shape.Lays.unique {known : Layouts} : Relator.RightUnique (Shape.Lays known) := by
  intro shape walk walk' h h'
  cases shape with
  | struct target fields => exact FieldPlans.Lays.unique h h'
  | unit target => rw [h, h']
  | variants enum tag cases =>
    obtain ⟨walks, hwalks, rfl⟩ := h
    obtain ⟨walks', hwalks', rfl⟩ := h'
    have hunique : Relator.RightUnique fun (v : Variant) w => v.fields.Lays known w :=
      fun _ _ _ h h' => FieldPlans.Lays.unique h h'
    rw [hunique.forall₂ hwalks hwalks']
  | members enum tag cases => rw [h, h']

theorem Shape.Lays.mono {known more : Layouts} (h : known.Extends more) {shape : Shape}
    {walk : Read Unit} (hwalk : shape.Lays known walk) : shape.Lays more walk := by
  cases shape with
  | struct target fields => exact FieldPlans.Lays.mono h hwalk
  | unit target => exact hwalk
  | variants enum tag cases =>
    obtain ⟨walks, hwalks, rfl⟩ := hwalk
    exact ⟨walks, hwalks.imp fun _ _ => FieldPlans.Lays.mono h, rfl⟩
  | members enum tag cases => exact hwalk

/-! ## Codecs -/

section Codecs

variable {classes : Classes} {known : Layouts} {directions : Directions}

/-- The fields of a class have their codecs one by one. -/
theorem rawCodecs_of_codecs {fields : FieldPlans} {cs : List Codec}
    (h : fields.codecs classes directions = .ok (cs, [])) :
    List.Forall₂ (fun p c => FieldPlan.rawCodec classes p = .ok c) fields.toList cs :=
  (List.forall₂_map_left_iff.mp (forall₂_of_gather h)).imp fun _ _ => FieldPlan.rawCodec_of_codec

theorem serves_of_codecs {fields : FieldPlans} {cs : List Codec}
    (h : fields.codecs classes directions = .ok (cs, [])) : ∀ c ∈ cs, c.Serves directions := by
  intro c hc
  have hparts := List.forall₂_map_left_iff.mp (forall₂_of_gather h)
  obtain ⟨p, -, hp⟩ := exists_of_forall₂_right hparts hc
  exact (FieldPlan.codec_cases hp).2

theorem lays_of_codecs
    (hknown : ∀ id c, (classes id).codec = some c → known.find id = some c.walk)
    {fields : FieldPlans} {cs : List Codec}
    (h : fields.codecs classes directions = .ok (cs, [])) :
    fields.Lays known (inOrder (Codec.walkAll cs)) := by
  refine ⟨Codec.walkAll cs, ?_, rfl⟩
  rw [Codec.walkAll_eq]
  exact List.forall₂_map_right_iff.mpr
    ((rawCodecs_of_codecs h).imp fun _ _ => FieldPlan.lays_of_rawCodec hknown)

theorem sound_of_codecs (hclasses : ∀ id c, (classes id).codec = some c → c.Sound)
    {fields : FieldPlans} {cs : List Codec} (hchecked : fields.Checked)
    (h : fields.codecs classes directions = .ok (cs, [])) : ∀ c ∈ cs, c.Sound := by
  intro c hc
  obtain ⟨p, hp, hcodec⟩ := exists_of_forall₂_right (rawCodecs_of_codecs h) hc
  exact FieldPlan.sound_of_rawCodec hclasses (hchecked p hp) hcodec

/-- Every variant has the codecs of its fields. -/
theorem codecs_of_caseCodecs : ∀ {variants : List Variant} {cases : List (Target × List Codec)},
    Shape.caseCodecs classes directions variants = .ok (cases, []) →
      List.Forall₂ (fun v case => case.1 = v.target ∧
        v.fields.codecs classes directions = .ok (case.2, [])) variants cases
  | [], cases, h => by
    cases h
    exact .nil
  | v :: vs, cases, h => by
    obtain ⟨⟨cs, problems⟩, hcs, h⟩ := bind_eq_ok.mp h
    obtain ⟨⟨rest, more⟩, hrest, h⟩ := bind_eq_ok.mp h
    have hpair : ((v.target, cs) :: rest, problems ++ more) = (cases, []) := pure_eq_ok.mp h
    obtain ⟨hcases, hproblems⟩ := Prod.mk.inj hpair
    obtain ⟨rfl, rfl⟩ := List.append_eq_nil_iff.mp hproblems
    rw [← hcases]
    exact .cons ⟨rfl, hcs⟩ (codecs_of_caseCodecs hrest)

/-- **The codec of a class walks as its shape asks for.** Its fields are those of the plans, in their
order, so it is the walks of these one after the other. -/
theorem lays_of_codec
    (hknown : ∀ id c, (classes id).codec = some c → known.find id = some c.walk) {shape : Shape}
    {c : Codec} (h : shape.codec classes directions = .ok c) : shape.Lays known c.walk := by
  cases shape with
  | struct target fields =>
    obtain ⟨⟨cs, problems⟩, hcs, h⟩ := bind_eq_ok.mp h
    obtain ⟨rfl, rfl⟩ := settle_eq_ok.mp h
    exact lays_of_codecs hknown hcs
  | unit target =>
    cases h
    rfl
  | variants enum tag cases =>
    obtain ⟨⟨coded, problems⟩, hcoded, h⟩ := bind_eq_ok.mp h
    obtain ⟨rfl, rfl⟩ := settle_eq_ok.mp h
    refine ⟨Codec.walkCases coded, ?_, rfl⟩
    rw [Codec.walkCases_eq]
    exact List.forall₂_map_right_iff.mpr
      ((codecs_of_caseCodecs hcoded).imp fun _ _ h => lays_of_codecs hknown h.2)
  | members enum tag cases =>
    cases h
    rfl

/-- **The codec of a class is sound** if its shape is. -/
theorem sound_of_codec (hclasses : ∀ id c, (classes id).codec = some c → c.Sound) {shape : Shape}
    {c : Codec} (hshape : shape.Sound) (h : shape.codec classes directions = .ok c) : c.Sound := by
  cases shape with
  | struct target fields =>
    obtain ⟨⟨cs, problems⟩, hcs, h⟩ := bind_eq_ok.mp h
    obtain ⟨rfl, rfl⟩ := settle_eq_ok.mp h
    exact Codec.sound_of_children trivial (sound_of_codecs hclasses hshape hcs)
  | unit target =>
    cases h
    exact Codec.sound_of_children trivial (by simp [Codec.children])
  | variants enum tag cases =>
    obtain ⟨⟨coded, problems⟩, hcoded, h⟩ := bind_eq_ok.mp h
    obtain ⟨rfl, rfl⟩ := settle_eq_ok.mp h
    obtain ⟨htag, hchecked, hsame⟩ := hshape
    have hcases := codecs_of_caseCodecs hcoded
    refine Codec.sound_of_children ⟨?_, ?_⟩ ?_
    · rw [← hcases.length_eq]
      exact htag
    · intro a ha b hb hid
      obtain ⟨v, hv, hva, hca⟩ := exists_of_forall₂_right hcases ha
      obtain ⟨w, hw, hwb, hcb⟩ := exists_of_forall₂_right hcases hb
      rw [hva, hwb] at hid
      -- one class has one list of plans, and codecs are a function of the plans
      obtain rfl := hsame v hv w hw hid
      rw [hca] at hcb
      exact Prod.ext (hva.trans hwb.symm) (congrArg Prod.fst (Except.ok.inj hcb))
    · intro d hd
      obtain ⟨case, hcase, hd⟩ := List.mem_flatMap.mp hd
      obtain ⟨v, hv, -, hcs⟩ := exists_of_forall₂_right hcases hcase
      exact sound_of_codecs hclasses (hchecked v hv) hcs d hd
  | members enum tag cases =>
    cases h
    exact Codec.sound_of_children hshape (by simp [Codec.children])

/-- **The codec of a class can be used in the directions that were derived for it, and in no others**,
whatever its fields are made of. -/
theorem can_of_codec {shape : Shape} {c : Codec} (h : shape.codec classes directions = .ok c) :
    c.canWrite = directions.writes ∧ c.canRead = directions.reads := by
  have hcan : c.derives Directions.writes = directions.writes →
      c.derives Directions.reads = directions.reads →
      (∀ d ∈ c.children, d.Serves directions) →
      c.canWrite = directions.writes ∧ c.canRead = directions.reads :=
    fun hwrites hreads hserves =>
      ⟨Codec.can_eq_of_children hwrites fun hb d hd => (hserves d hd).1 hb,
        Codec.can_eq_of_children hreads fun hb d hd => (hserves d hd).2 hb⟩
  cases shape with
  | struct target fields =>
    obtain ⟨⟨cs, problems⟩, hcs, h⟩ := bind_eq_ok.mp h
    obtain ⟨rfl, rfl⟩ := settle_eq_ok.mp h
    exact hcan rfl rfl (serves_of_codecs hcs)
  | unit target =>
    cases h
    exact hcan rfl rfl (by simp [Codec.children])
  | variants enum tag cases =>
    obtain ⟨⟨coded, problems⟩, hcoded, h⟩ := bind_eq_ok.mp h
    obtain ⟨rfl, rfl⟩ := settle_eq_ok.mp h
    refine hcan rfl rfl fun d hd => ?_
    obtain ⟨case, hcase, hd⟩ := List.mem_flatMap.mp hd
    obtain ⟨v, -, -, hcs⟩ := exists_of_forall₂_right (codecs_of_caseCodecs hcoded) hcase
    exact serves_of_codecs hcs d hd
  | members enum tag cases =>
    cases h
    exact hcan rfl rfl (by simp [Codec.children])

end Codecs

/-! ## Schemas -/

section Schemas

variable {classes : Classes} {known : Layouts}

theorem lays_of_fieldSchemas
    (hknown : ∀ id s, (classes id).schema = some s → known.find id = some s.walk)
    {fields : FieldPlans} {described : Schema.Fields} (hchecked : fields.Checked)
    (h : fields.schema classes = .ok (described, [])) :
    fields.Lays known (Schema.walkFields described) := by
  cases fields with
  | none =>
    cases h
    exact ⟨[], .nil, rfl⟩
  | named plans =>
    obtain ⟨⟨entries, problems⟩, hentries, h⟩ := bind_eq_ok.mp h
    cases h
    refine ⟨Schema.walkNamed entries, ?_, rfl⟩
    rw [Schema.walkNamed_eq]
    have hparts := List.forall₂_map_left_iff.mp (forall₂_of_gather hentries)
    refine List.forall₂_map_right_iff.mpr
      (((List.forall₂_and_left _ _).mpr ⟨hchecked, hparts⟩).imp fun p entry h => ?_)
    obtain ⟨s, hs, rfl⟩ := map_eq_ok.mp h.2
    exact FieldPlan.lays_of_schema hknown h.1 hs
  | unnamed plans =>
    obtain ⟨⟨items, problems⟩, hitems, h⟩ := bind_eq_ok.mp h
    cases h
    refine ⟨Schema.walkItems items, ?_, rfl⟩
    rw [Schema.walkItems_eq]
    have hparts := List.forall₂_map_left_iff.mp (forall₂_of_gather hitems)
    exact List.forall₂_map_right_iff.mpr
      (((List.forall₂_and_left _ _).mpr ⟨hchecked, hparts⟩).imp fun p s h =>
        FieldPlan.lays_of_schema hknown h.1 h.2)

theorem schemas_of_caseSchemas : ∀ {variants : List Variant}
    {described : List (String × Schema.Fields)},
    Shape.caseSchemas classes variants = .ok (described, []) →
      List.Forall₂ (fun v d => v.fields.schema classes = .ok (d.2, [])) variants described
  | [], described, h => by
    cases h
    exact .nil
  | v :: vs, described, h => by
    obtain ⟨⟨fields, problems⟩, hfields, h⟩ := bind_eq_ok.mp h
    obtain ⟨⟨rest, more⟩, hrest, h⟩ := bind_eq_ok.mp h
    have hpair : ((v.name, fields) :: rest, problems ++ more) = (described, []) := pure_eq_ok.mp h
    obtain ⟨hdescribed, hproblems⟩ := Prod.mk.inj hpair
    obtain ⟨rfl, rfl⟩ := List.append_eq_nil_iff.mp hproblems
    rw [← hdescribed]
    exact .cons hfields (schemas_of_caseSchemas hrest)

/-- **The schema of a class walks as its shape asks for.** -/
theorem lays_of_schema
    (hknown : ∀ id s, (classes id).schema = some s → known.find id = some s.walk) {shape : Shape}
    {s : Schema} (hshape : shape.Sound) (h : shape.schema classes = .ok s) :
    shape.Lays known s.walk := by
  cases shape with
  | struct target fields =>
    obtain ⟨⟨described, problems⟩, hdescribed, h⟩ := bind_eq_ok.mp h
    obtain ⟨rfl, rfl⟩ := settle_eq_ok.mp h
    exact lays_of_fieldSchemas hknown hshape hdescribed
  | unit target =>
    cases h
    rfl
  | variants enum tag cases =>
    obtain ⟨⟨described, problems⟩, hdescribed, h⟩ := bind_eq_ok.mp h
    obtain ⟨rfl, rfl⟩ := settle_eq_ok.mp h
    refine ⟨Schema.walkVariants described, ?_, rfl⟩
    rw [Schema.walkVariants_eq]
    exact List.forall₂_map_right_iff.mpr
      (((List.forall₂_and_left _ _).mpr ⟨hshape.2.1, schemas_of_caseSchemas hdescribed⟩).imp
        fun v d h => lays_of_fieldSchemas hknown h.1 h.2)
  | members enum tag cases =>
    cases h
    -- members have a schema without fields, variant by variant
    show Schema.walk _ = _
    rw [Schema.walk, Schema.walkVariants_eq, List.map_map]
    rfl

end Schemas

end ContractKit
