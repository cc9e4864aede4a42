import ContractKit.Proofs.Attribute.Lookup
import ContractKit.Proofs.Fault.Gather
import ContractKit.Shape.Plan

/-!
# `Proofs/Shape/Repeated.lean`: length attributes given more than once

The length attributes of a field are looked for one after the other, and the first that is given
decides (`strategyOf_skip`, `strategyOf_eq_of_decided`). So one that is given repeatedly is reported
when the search comes to it, and only then: behind another one it is not seen, and the field has the
plan that it would have without it (`ofHint_repeated`).
-/

set_option autoImplicit false

namespace ContractKit

namespace ContainerKind

/-- The kinds whose attributes are looked for before that of a kind. -/
def before (kind : ContainerKind) : List ContainerKind := all.takeWhile (· != kind)

theorem exists_all_eq (kind : ContainerKind) : ∃ after, all = kind.before ++ kind :: after := by
  cases kind <;> exact ⟨_, rfl⟩

theorem attr_injective {kind other : ContainerKind} (h : kind.attr = other.attr) : kind = other := by
  cases kind <;> cases other <;> simp [attr] at h ⊢

theorem attr_ne_ordered (kind : ContainerKind) : kind.attr ≠ "ensure_ordered" := by
  cases kind <;> decide

theorem ne_of_mem_before {kind first : ContainerKind} (h : first ∈ kind.before) : first ≠ kind := by
  rintro rfl
  cases first <;> exact absurd h (by decide)

end ContainerKind

/-! ## Messages -/

namespace Attribute

variable {name other : String} {a b : Attribute}

/-- A repeated attribute is not spoken of as one that the place does not have. -/
theorem refusal_ne_repeated (name other : String) (a : Attribute) :
    Site.field.refusal name ≠ (repeated other a).message := by
  intro h
  have hchars : (Site.field.refusal name).toList = (repeated other a).message.toList := by rw [h]
  have hrefusal : Site.field.refusal name = "The attribute '" ++ name ++
      "' is not supported as a concordium field attribute." := rfl
  have hrepeated : (repeated other a).message = "Attribute '" ++ other ++
      "' should only be specified once." := rfl
  have hthe : "The attribute '".toList = 'T' :: "he attribute '".toList := rfl
  have hattribute : "Attribute '".toList = 'A' :: "ttribute '".toList := rfl
  simp only [hrefusal, hrepeated, String.toList_append, hthe, hattribute] at hchars
  -- the texts differ in their first character
  cases hchars

theorem repeated_message_inj (h : (repeated name a).message = (repeated other b).message) :
    name = other := by
  simpa [repeated, toString] using h

end Attribute

namespace FieldPlan

open Attribute Report

variable {chars : Text.CharNames} {name : String} {hint : TypeHint} {type : Ty} {span : Span}
  {attrs attrs' : List Attribute}
  {kind : ContainerKind} {kinds kinds' : List ContainerKind} {a b : Attribute} {more : List Attribute}
  {report : Report}

/-! ## The search -/

theorem strategyOf_absent (h : named kind.attr attrs = []) :
    strategyOf type span attrs (kind :: kinds) = strategyOf type span attrs kinds := by
  rw [strategyOf, findLength?_none h]

/-- Kinds whose attributes are not given are passed over. -/
theorem strategyOf_skip : ∀ {passed : List ContainerKind},
    (∀ k ∈ passed, named k.attr attrs = []) →
      strategyOf type span attrs (passed ++ kinds) = strategyOf type span attrs kinds
  | [], _ => rfl
  | _ :: _, h => by
    rw [List.forall_mem_cons] at h
    rw [List.cons_append, strategyOf_absent h.1, strategyOf_skip h.2]

theorem strategyOf_repeated (h : named kind.attr attrs = a :: b :: more) :
    strategyOf type span attrs (kind :: kinds) =
      .error (.derive ⟨repeated kind.attr a, (b :: more).map (repeated kind.attr)⟩) := by
  rw [strategyOf, findLength?_repeated h]

/-- An attribute that is given once decides, alone with the one that asks for ascending keys. -/
theorem strategyOf_eq_of_decided (hone : named kind.attr attrs = [a])
    (hsame : named kind.attr attrs' = named kind.attr attrs)
    (hordered : named "ensure_ordered" attrs' = named "ensure_ordered" attrs) :
    strategyOf type span attrs' (kind :: kinds') = strategyOf type span attrs (kind :: kinds) := by
  have horder : orderOf kind attrs' = orderOf kind attrs := by
    unfold orderOf
    rw [hasFlag_congr hordered]
  rw [strategyOf, strategyOf, findLength?_congr hsame, horder]
  obtain ⟨width, hwidth⟩ | ⟨message, hmessage⟩ := findLength?_one hone
  · rw [hwidth]
  · rw [hmessage]

theorem single_of_orderOf (h : orderOf kind attrs = .error (.derive report)) :
    report.rest = [] := by
  cases hflag : hasFlag "ensure_ordered" attrs with
  | error r =>
    cases kind with
    | sequence | text => cases h
    | map | set =>
      rw [orderOf, hflag] at h
      cases h
      exact single_of_hasFlag hflag
  | ok asked => cases kind <;> cases asked <;> simp [orderOf, hflag] at h

/-- At most one thing is wrong with an attribute that is given once. -/
theorem single_of_strategyOf (hone : named kind.attr attrs = [a])
    (h : strategyOf type span attrs (kind :: kinds) = .error (.derive report)) :
    report.rest = [] := by
  rw [strategyOf] at h
  obtain ⟨width, hwidth⟩ | ⟨message, hmessage⟩ := findLength?_one hone
  · rw [hwidth, ContainerKind.check] at h
    dsimp only at h
    split at h
    · cases horder : orderOf kind attrs with
      | error f =>
        rw [horder] at h
        cases h
        exact single_of_orderOf horder
      | ok order =>
        rw [horder] at h
        cases h
    · cases h
      rfl
  · rw [hmessage] at h
    cases h
    rfl

/-- The search comes to the first kind whose attribute is given. -/
theorem exists_decided (hgiven : named kind.attr attrs ≠ []) :
    ∃ first after, ContainerKind.all = first.before ++ first :: after ∧
      named first.attr attrs ≠ [] ∧ ∀ k ∈ first.before, named k.attr attrs = [] := by
  have hfound : (ContainerKind.all.find? fun k => !(named k.attr attrs).isEmpty).isSome := by
    rw [List.find?_isSome]
    exact ⟨kind, by cases kind <;> decide, by simpa using hgiven⟩
  obtain ⟨first, hfirst⟩ := Option.isSome_iff_exists.mp hfound
  obtain ⟨hsome, passed, after, hall, hpassed⟩ := List.find?_eq_some_iff_append.mp hfirst
  simp only [Bool.not_eq_true', Bool.not_not, List.isEmpty_iff, List.isEmpty_eq_false_iff]
    at hsome hpassed
  have hbefore : first.before = passed := by
    rw [ContainerKind.before, hall, List.takeWhile_append_of_pos]
    · simp
    · intro k hk
      rw [bne_iff_ne]
      rintro rfl
      exact hsome (hpassed k hk)
  exact ⟨first, after, by rw [hbefore, hall], hsome, by rwa [hbefore]⟩

/-! ## Plans -/

theorem ofHint_placed (name : String) (hattrs : hint.attributes chars span = .ok attrs)
    (hplaced : ∀ a ∈ attrs, a.name ∈ Site.field.names) :
    ofHint chars name hint span = (strategyOf hint.type.stripped span attrs ContainerKind.all).map
      fun strategy => ⟨name, hint.type.stripped, strategy, span⟩ := by
  rw [ofHint, hattrs]
  dsimp only [bind, Except.bind]
  rw [checkSite_placed hplaced]
  cases strategyOf hint.type.stripped span attrs ContainerKind.all <;> rfl

theorem ofHint_misplaced (name : String) (hattrs : hint.attributes chars span = .ok attrs)
    (hplaced : ¬∀ a ∈ attrs, a.name ∈ Site.field.names) :
    ∃ report, ofHint chars name hint span = .error (.derive report) ∧
      report.toList = misplaced .field attrs := by
  obtain ⟨report, hcheck, hreport⟩ := checkSite_misplaced hplaced
  refine ⟨report, ?_, hreport⟩
  rw [ofHint, hattrs]
  dsimp only [bind, Except.bind]
  rw [hcheck]
  rfl

theorem ofHint_reported (name : String) (hattrs : hint.attributes chars span = .ok attrs)
    (hmany : named kind.attr attrs = a :: b :: more)
    (hplaced : ∀ a ∈ attrs, a.name ∈ Site.field.names)
    (hbefore : ∀ k ∈ kind.before, named k.attr attrs = []) :
    ofHint chars name hint span =
      .error (.derive ⟨repeated kind.attr a, (b :: more).map (repeated kind.attr)⟩) := by
  obtain ⟨after, hall⟩ := kind.exists_all_eq
  rw [ofHint_placed name hattrs hplaced, hall, strategyOf_skip hbefore, strategyOf_repeated hmany]
  rfl

/-- A report of a repeated attribute is made when the search comes to it. -/
theorem decided_of_reported (hattrs : hint.attributes chars span = .ok attrs)
    (hmany : named kind.attr attrs = a :: b :: more)
    (herror : ofHint chars name hint span = .error (.derive report))
    (hreport : report.toList = (named kind.attr attrs).map (repeated kind.attr)) :
    (∀ a ∈ attrs, a.name ∈ Site.field.names) ∧ ∀ k ∈ kind.before, named k.attr attrs = [] := by
  rw [hmany, List.map_cons, List.map_cons] at hreport
  -- the report is about this kind, so nothing before it can have been reported or have decided
  by_cases hplaced : ∀ a ∈ attrs, a.name ∈ Site.field.names
  · have hkind : named kind.attr attrs ≠ [] := hmany ▸ List.cons_ne_nil _ _
    obtain ⟨first, after, hall, hgiven, hbefore⟩ := exists_decided hkind
    rw [ofHint_placed name hattrs hplaced, hall, strategyOf_skip hbefore] at herror
    obtain hnone | ⟨c, hone⟩ | ⟨c, d, others, hrepeated⟩ := named_cases first.attr attrs
    · exact absurd hnone hgiven
    · -- one attribute does not account for two problems
      cases hstrategy : strategyOf hint.type.stripped span attrs (first :: after) with
      | ok strategy =>
        rw [hstrategy] at herror
        cases herror
      | error f =>
        rw [hstrategy] at herror
        cases herror
        rw [toList, single_of_strategyOf hone hstrategy] at hreport
        cases (List.cons.inj hreport).2
    · rw [strategyOf_repeated hrepeated] at herror
      cases herror
      have hmessage := congrArg Diagnostic.message (List.cons.inj hreport).1
      obtain rfl := ContainerKind.attr_injective (repeated_message_inj hmessage)
      exact ⟨hplaced, hbefore⟩
  · obtain ⟨other, hother, hmisplaced⟩ := ofHint_misplaced name hattrs hplaced
    obtain rfl : report = other := by
      rw [herror] at hother
      cases hother
      rfl
    obtain ⟨refused, hrefused⟩ :=
      message_of_misplaced (hmisplaced ▸ hreport ▸ List.mem_cons_self)
    exact absurd hrefused.symm (refusal_ne_repeated _ _ _)

/-- **What becomes of a length attribute that is given repeatedly.** It is reported, once for each time
that it is given, if all attributes are such that fields have and none of those before it in the search
is given, and only then. If fields do not have some attribute, that is what is reported. If one before
it decides, the outcome is the same as without it. -/
theorem ofHint_repeated (name : String) (kind : ContainerKind)
    (hattrs : hint.attributes chars span = .ok attrs) (hmany : 1 < (named kind.attr attrs).length) :
    ((∃ report, ofHint chars name hint span = .error (.derive report) ∧
        report.toList = (named kind.attr attrs).map (repeated kind.attr)) ↔
      (∀ a ∈ attrs, a.name ∈ Site.field.names) ∧ ∀ k ∈ kind.before, named k.attr attrs = []) ∧
    ((¬∀ a ∈ attrs, a.name ∈ Site.field.names) →
      ∃ report, ofHint chars name hint span = .error (.derive report) ∧
        report.toList = misplaced .field attrs) ∧
    ((∀ a ∈ attrs, a.name ∈ Site.field.names) → ∀ first ∈ kind.before,
      (named first.attr attrs).length = 1 → (∀ k ∈ first.before, named k.attr attrs = []) →
      ofHint chars name hint span =
        (strategyOf hint.type.stripped span (without kind.attr attrs) ContainerKind.all).map
          fun strategy => ⟨name, hint.type.stripped, strategy, span⟩) := by
  obtain hnone | ⟨a, hone⟩ | ⟨a, b, more, hrepeated⟩ := named_cases kind.attr attrs
  · simp [hnone] at hmany
  · simp [hone] at hmany
  refine ⟨⟨?_, ?_⟩, ofHint_misplaced name hattrs, ?_⟩
  · rintro ⟨report, herror, hreport⟩
    exact decided_of_reported hattrs hrepeated herror hreport
  · rintro ⟨hplaced, hbefore⟩
    exact ⟨_, ofHint_reported name hattrs hrepeated hplaced hbefore, by rw [hrepeated]; rfl⟩
  · intro hplaced first hfirst hlength hbefore
    obtain ⟨c, hone⟩ := List.length_eq_one_iff.mp hlength
    obtain ⟨after, hall⟩ := first.exists_all_eq
    have hother : ∀ k ∈ first.before, named k.attr (without kind.attr attrs) = [] := by
      intro k hk
      have hne : k.attr ≠ kind.attr := by
        intro h
        rw [← h, hbefore k hk] at hrepeated
        cases hrepeated
      rw [named_without hne, hbefore k hk]
    have hsame : named first.attr (without kind.attr attrs) = named first.attr attrs :=
      named_without fun h => ContainerKind.ne_of_mem_before hfirst (ContainerKind.attr_injective h)
    rw [ofHint_placed name hattrs hplaced, hall, strategyOf_skip hbefore, strategyOf_skip hother,
      strategyOf_eq_of_decided hone hsame (named_without kind.attr_ne_ordered.symm)]

section Twice

/-- A field whose width as a map is given twice. -/
def twiceHint (type : Ty) (others : List (String × Value)) : TypeHint :=
  ⟨type, [.marker ⟨[], others ++ [("map_size_length", .int 1)]⟩,
    .marker ⟨[], [("map_size_length", .int 2)]⟩]⟩

def twiceSpan : Span := ⟨"Foo", some "a", none, none, none⟩

theorem ofHint_repeated_map :
    ∃ report, ofHint .none "a" (twiceHint (.dict (.sized .u8) (.sized .u8)) []) twiceSpan =
      .error (.derive report) ∧
    report.toList =
      [⟨"Attribute 'map_size_length' should only be specified once.",
        ⟨"Foo", some "a", some "map_size_length", some 0, none⟩⟩,
      ⟨"Attribute 'map_size_length' should only be specified once.",
        ⟨"Foo", some "a", some "map_size_length", some 1, none⟩⟩] := by
  have hattrs : (twiceHint (.dict (.sized .u8) (.sized .u8)) []).attributes .none twiceSpan =
      .ok [⟨"map_size_length", .value (.int 1),
          ⟨"Foo", some "a", some "map_size_length", some 0, none⟩⟩,
        ⟨"map_size_length", .value (.int 2),
          ⟨"Foo", some "a", some "map_size_length", some 1, none⟩⟩] := rfl
  obtain ⟨hreported, -⟩ := ofHint_repeated "a" .map hattrs (by decide)
  exact hreported.mpr ⟨by decide, by decide⟩

/-- Behind the attribute of a sequence the two widths of a map are not seen: there is a plan. -/
theorem ofHint_overlooked :
    ∃ attrs, (twiceHint (.list (.sized .u8)) [("size_length", .int 1)]).attributes .none twiceSpan =
      .ok attrs ∧ (named "map_size_length" attrs).length = 2 ∧
    ofHint .none "a" (twiceHint (.list (.sized .u8)) [("size_length", .int 1)]) twiceSpan =
      .ok ⟨"a", .list (.sized .u8), .prefixed .one .sequence .unchecked, twiceSpan⟩ :=
  ⟨_, rfl, rfl, rfl⟩

end Twice

end FieldPlan

end ContractKit
