import ContractKit.Attribute.Marker
import ContractKit.Proofs.Attribute.Lookup
import ContractKit.Proofs.Attribute.Malformed
import ContractKit.Proofs.Fault.Confined
import ContractKit.Proofs.Fault.Gather

/-!
# `Proofs/Attribute/Place.lean`: where attributes and their problems are

Attributes are collected for a place, and stand at that place however they are written: what is added to
it is the attribute and the column. So do the problems with reading them and with looking them up.
-/

set_option autoImplicit false

namespace ContractKit

/-- The place is in the same field of the same item as another one. -/
def Span.Within (s t : Span) : Prop := s.item = t.item ∧ s.field = t.field

/-- The problems are in the field of a place. -/
def Report.Within (span : Span) (report : Report) : Prop := ∀ d ∈ report.toList, d.span.Within span

/-- The fault is a report of problems in the field of a place, or none at all. -/
def Fault.Within (span : Span) (f : Fault) : Prop := ∀ report, f = .derive report → report.Within span

theorem Report.within_single {span at' : Span} (message : String) (h : at'.Within span) :
    (Report.single message at').Within span := by
  intro d hd
  obtain rfl := List.mem_singleton.mp hd
  exact h

theorem Fault.within_derive {span : Span} {report : Report} (h : report.Within span) :
    (Fault.derive report).Within span := by
  rintro _ ⟨⟩
  exact h

theorem Fault.within_of_kind {span : Span} {f : Fault} (h : f.kind ≠ .derive) : f.Within span := by
  rintro report rfl
  exact absurd rfl h

namespace Attribute

variable {chars : Text.CharNames} {span : Span} {attrs : List Attribute}

/-- The attributes stand in the field of a place. -/
def AllWithin (span : Span) (attrs : List Attribute) : Prop := ∀ a ∈ attrs, a.span.Within span

/-! ## Reading -/

theorem allWithin_of_parse {text : String} (h : parse chars span text = .ok attrs) :
    AllWithin span attrs := by
  intro a ha
  obtain ⟨k, word, -, hitem⟩ := (reads_of_parse h).exists_word ha
  cases hitem with
  | flag => exact ⟨rfl, rfl⟩
  | value => exact ⟨rfl, rfl⟩
  | list => exact ⟨rfl, rfl⟩

theorem within_parse (chars : Text.CharNames) (span : Span) (text : String) :
    Confined (Fault.Within span) (parse chars span text) := by
  intro f h
  rcases parse_fails h with ⟨message, column, -, rfl⟩ | hstumbles
  · exact Fault.within_derive (Report.within_single message ⟨rfl, rfl⟩)
  · apply Fault.within_of_kind
    rcases hstumbles.kind with hkind | hkind
    · rw [hkind]
      decide
    · rw [hkind]
      decide

theorem within_parseAll (chars : Text.CharNames) (span : Span) (texts : List String) :
    Confined (Fault.Within span) (parseAll chars span texts) := by
  induction texts with
  | nil => exact .ok _
  | cons text texts ih => exact .bind (within_parse chars span text) fun _ _ => .bind ih fun _ _ => .ok _

theorem allWithin_of_parseAll {texts : List String} (h : parseAll chars span texts = .ok attrs) :
    AllWithin span attrs := by
  induction texts generalizing attrs with
  | nil =>
    cases h
    exact List.forall_mem_nil _
  | cons text texts ih =>
    obtain ⟨first, hfirst, h⟩ := bind_eq_ok.mp h
    obtain ⟨more, hmore, h⟩ := bind_eq_ok.mp h
    cases h
    exact List.forall_mem_append.mpr ⟨allWithin_of_parse hfirst, ih hmore⟩

theorem allWithin_ofOptions (span : Span) (options : List (String × Value)) :
    AllWithin span (ofOptions span options) := by
  intro a ha
  obtain ⟨option, -, hoption⟩ := List.mem_filterMap.mp ha
  unfold ofOption? at hoption
  split at hoption
  · cases hoption
    exact ⟨rfl, rfl⟩
  · cases hoption
  · cases hoption
  · cases hoption
    exact ⟨rfl, rfl⟩

/-- Numbering attributes leaves them where they are. -/
theorem AllWithin.numberFrom (h : AllWithin span attrs) (before : List String) :
    AllWithin span (numberFrom before attrs) := by
  induction attrs generalizing before with
  | nil => exact List.forall_mem_nil _
  | cons a rest ih =>
    obtain ⟨ha, hrest⟩ := List.forall_mem_cons.mp h
    exact List.forall_mem_cons.mpr ⟨ha, ih hrest _⟩

theorem kind_of_surrogates? {a : Attribute} {f : Fault} (h : surrogates? a = some f) :
    f.kind = .other "Surrogates" := by
  obtain ⟨v, -, hv⟩ := List.exists_of_findSome?_eq_some h
  split at hv
  · cases hv
    rfl
  · cases hv

/-- The fault about code points without a text names no place. -/
theorem within_held (span : Span) (attrs : List Attribute) :
    Confined (Fault.Within span) (held attrs) := by
  intro f h
  unfold held at h
  split at h
  · next hfound =>
    cases h
    obtain ⟨a, -, ha⟩ := List.exists_of_findSome?_eq_some hfound
    apply Fault.within_of_kind
    rw [kind_of_surrogates? ha]
    decide
  · cases h

theorem held_eq_ok {held' : List Attribute} (h : held attrs = .ok held') : held' = attrs := by
  unfold held at h
  split at h
  · cases h
  · cases h
    rfl

theorem within_collect (chars : Text.CharNames) (span : Span) (texts : List String)
    (options : List (String × Value)) :
    Confined (Fault.Within span) (collect chars span texts options) :=
  .bind (within_parseAll chars span texts) fun _ _ => .bind (within_held span _) fun _ _ => .ok _

/-- **Attributes stand at the place that they are collected for.** -/
theorem allWithin_of_collect {texts : List String} {options : List (String × Value)}
    (h : collect chars span texts options = .ok attrs) : AllWithin span attrs := by
  obtain ⟨found, hfound, h⟩ := bind_eq_ok.mp h
  obtain ⟨kept, hkept, hnumbered⟩ := bind_eq_ok.mp h
  obtain rfl := held_eq_ok hkept
  cases hnumbered
  refine AllWithin.numberFrom ?_ []
  exact List.forall_mem_append.mpr ⟨allWithin_of_parseAll hfound, allWithin_ofOptions span options⟩

/-! ## Looking up -/

variable {name : String} {report : Report}

theorem AllWithin.findLength? (h : AllWithin span attrs)
    (hreport : Attribute.findLength? name attrs = .error report) : report.Within span := by
  have hnamed : ∀ a ∈ named name attrs, a.span.Within span :=
    fun a ha => h a (mem_named.mp ha).1
  rcases named_cases name attrs with hnone | ⟨a, hone⟩ | ⟨a, b, more, hmore⟩
  · rw [findLength?_none hnone] at hreport
    cases hreport
  · rcases findLength?_one hone with ⟨width, hwidth⟩ | ⟨message, hmessage⟩
    · rw [hwidth] at hreport
      cases hreport
    · rw [hmessage] at hreport
      cases hreport
      exact Report.within_single message (hnamed a (by simp [hone]))
  · rw [findLength?_repeated hmore] at hreport
    cases hreport
    intro d hd
    have hd : d ∈ (named name attrs).map (repeated name) := by
      rw [hmore]
      exact hd
    obtain ⟨c, hc, rfl⟩ := List.mem_map.mp hd
    exact hnamed c hc

theorem AllWithin.hasFlag (h : AllWithin span attrs)
    (hreport : Attribute.hasFlag name attrs = .error report) : report.Within span := by
  rcases hasFlag_cases name attrs with ⟨-, hflag⟩ | ⟨a, more, hvalued, hflag⟩
  · rw [hflag] at hreport
    cases hreport
  · rw [hflag] at hreport
    cases hreport
    have ha : a ∈ valued name attrs := by simp [hvalued]
    exact Report.within_single _ (h a (mem_named.mp (List.mem_filter.mp ha).1).1)

theorem AllWithin.checkSite {site : Site} (h : AllWithin span attrs)
    (hreport : Attribute.checkSite site attrs = .error report) : report.Within span := by
  have hproblems := problemsOf_checkSite site attrs
  rw [hreport] at hproblems
  have hproblems : report.toList = misplaced site attrs := hproblems
  intro d hd
  rw [hproblems] at hd
  obtain ⟨a, ha, rfl⟩ := List.mem_map.mp hd
  exact h a (List.mem_filter.mp ha).1

end Attribute

end ContractKit
