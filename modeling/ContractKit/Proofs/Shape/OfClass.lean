import ContractKit.Proofs.Shape.Derived

/-!
# `Proofs/Shape/OfClass.lean`: declared classes have sound shapes

What `Shape.Sound` asks of a shape comes from two places. The plans and the tag are checked where the
shape is found; that the variants and the members are told apart is a fact about what was declared
(`ClassForm.Sound`), and the registry of classes keeps it (`Proofs/Module/Described.lean`).
-/

set_option autoImplicit false

namespace ContractKit

/-- What is true of every class that is declared: a class with fields is the class that it builds, a
class that is a variant twice is declared the same both times, and members are told apart. -/
def ClassForm.Sound (ref : ClassRef) : ClassForm → Prop
  | record decl => decl.target.cls.ref.id = ref.id
  | sum decls =>
    ∀ a ∈ decls, ∀ b ∈ decls, a.target.cls.ref.id = b.target.cls.ref.id → a = b
  | enum members => members.Pairwise fun a b => (a.value ref).beq (b.value ref) = false
  | plain => True

section Finding

variable {chars : Text.CharNames} {names : String → Except Fault Ty} {decl : RecordDecl} {span : Span}

/-- The plans of a class with fields fit their types. -/
theorem checked_plans {fields : FieldPlans} (h : decl.plans chars names span = .ok fields) :
    fields.Checked := by
  unfold RecordDecl.plans at h
  cases hhints : decl.hints names with
  | error f =>
    simp only [hhints] at h
    cases h
  | ok found =>
    simp only [hhints] at h
    obtain ⟨fs, hfs, h⟩ := bind_eq_ok.mp h
    obtain rfl := pure_eq_ok.mp hfs
    obtain ⟨⟨plans, problems⟩, hplans, h⟩ := bind_eq_ok.mp h
    -- plans are built for all fields before the problems are counted
    have hchecked (hnone : problems = []) : ∀ p ∈ plans, p.Checked := by
      subst hnone
      intro p hp
      obtain ⟨f, -, hf⟩ :=
        exists_of_forall₂_right (List.forall₂_map_left_iff.mp (forall₂_of_gather hplans)) hp
      exact FieldPlan.checked_ofHint hf
    by_cases hpositional : decl.target.cls.isPositional = true
    · simp only [hpositional, if_true] at h
      obtain ⟨hnone, rfl⟩ := settle_eq_ok.mp h
      exact hchecked hnone
    · by_cases hempty : found.isEmpty = true
      · simp only [hpositional, hempty, if_true] at h
        cases h
        intro p hp
        cases hp
      · simp only [hpositional, hempty] at h
        obtain ⟨hnone, rfl⟩ := settle_eq_ok.mp h
        exact hchecked (List.append_eq_nil_iff.mp hnone).2

theorem sound_ofRecord {shape : Shape} (h : Shape.ofRecord chars names decl span = .ok shape) :
    shape.Sound := by
  obtain ⟨fields, hfields, h⟩ := bind_eq_ok.mp h
  have hchecked := checked_plans hfields
  cases fields with
  | none =>
    cases h
    trivial
  | named plans =>
    cases h
    exact hchecked
  | unnamed plans =>
    cases h
    exact hchecked

theorem variantOf_cases {sum : ClassRef} {v : Variant} (h : Shape.variantOf chars names sum decl = .ok v) :
    v.target = decl.target ∧ v.fields.Checked := by
  obtain ⟨fields, hfields, h⟩ := bind_eq_ok.mp h
  cases h
  exact ⟨rfl, checked_plans hfields⟩

/-- **The shape of a declared class is sound.** -/
theorem Shape.sound_ofClass {ref : ClassRef} {form : ClassForm} {shape : Shape}
    (hform : form.Sound ref) (h : Shape.ofClass chars names ref form = .ok shape) : shape.Sound := by
  cases form with
  | record decl => exact sound_ofRecord h
  | sum decls =>
    obtain ⟨tag, htag, h⟩ := bind_eq_ok.mp h
    obtain ⟨cases, hcases, h⟩ := bind_eq_ok.mp h
    cases h
    have hparts := List.forall₂_map_left_iff.mp (forall₂_of_gatherAll hcases)
    refine ⟨?_, ?_, ?_⟩
    · rw [← hparts.length_eq]
      exact locate_eq_ok.mp htag
    · intro v hv
      obtain ⟨decl, -, hdecl⟩ := exists_of_forall₂_right hparts hv
      exact (variantOf_cases hdecl).2
    · intro v hv w hw hid
      obtain ⟨a, ha, hva⟩ := exists_of_forall₂_right hparts hv
      obtain ⟨b, hb, hwb⟩ := exists_of_forall₂_right hparts hw
      rw [(variantOf_cases hva).1, (variantOf_cases hwb).1] at hid
      -- equal declarations are planned equally
      obtain rfl := hform a ha b hb hid
      exact Except.ok.inj (hva.symm.trans hwb)
  | enum members =>
    obtain ⟨tag, htag, h⟩ := bind_eq_ok.mp h
    cases h
    exact ⟨locate_eq_ok.mp htag, hform⟩
  | plain => cases h

end Finding

end ContractKit
