import ContractKit.Attribute.Basic
import ContractKit.Proofs.Fault.Reports

/-!
# `Proofs/Attribute/Lookup.lean`: looking attributes up

A look-up depends on the attributes of one name alone (`named`), and on how many there are: none, one,
or several, which is an error with one problem for each of them (`find?_none`, `find?_one`,
`find?_repeated`). So it does not matter in which order attributes are given: other orders give the same
result, or the same messages (`find?_alike`, `hasFlag_alike`, `checkSite_alike`).
-/

set_option autoImplicit false

namespace ContractKit.Attribute

open Report

/-- The attributes of a name, in order. -/
def named (name : String) (attrs : List Attribute) : List Attribute :=
  attrs.filter fun a => a.name == name

/-- The name is given once, in this form. -/
def Once (attrs : List Attribute) (name : String) (form : AttributeForm) : Prop :=
  (named name attrs).map Attribute.form = [form]

/-- The problem with one of several attributes of a name that may be given once. -/
def repeated (name : String) (a : Attribute) : Diagnostic :=
  ⟨s!"Attribute '{name}' should only be specified once.", a.span⟩

/-- The attributes of a name that are no flags. -/
def valued (name : String) (attrs : List Attribute) : List Attribute :=
  (named name attrs).filter fun a => !(a.form matches .flag)

/-- The attributes that have another name. -/
def without (name : String) (attrs : List Attribute) : List Attribute :=
  attrs.filter fun a => a.name != name

section Lookups

variable {name other : String} {attrs attrs' more : List Attribute} {a b : Attribute} {site : Site}
  {report : Report}

theorem mem_named : a ∈ named name attrs ↔ a ∈ attrs ∧ a.name = name := by
  rw [named, List.mem_filter, beq_iff_eq]

theorem named_perm (h : attrs'.Perm attrs) (name : String) :
    (named name attrs').Perm (named name attrs) :=
  h.filter _

theorem valued_perm (h : attrs'.Perm attrs) (name : String) :
    (valued name attrs').Perm (valued name attrs) :=
  (named_perm h name).filter _

theorem valued_eq_nil_iff : valued name attrs = [] ↔ ∀ a ∈ named name attrs, a.form = .flag := by
  rw [valued, List.filter_eq_nil_iff]
  refine forall₂_congr fun a _ => ?_
  cases a.form <;> simp

theorem named_without (h : name ≠ other) :
    named name (without other attrs) = named name attrs := by
  rw [named, without, List.filter_filter, named]
  refine List.filter_congr fun a _ => ?_
  by_cases ha : a.name = name <;> simp [ha, h]

/-! ## One attribute -/

theorem find?_none (h : named name attrs = []) : find? name attrs = .ok none := by
  rw [named] at h
  rw [find?, h]

theorem find?_one (h : named name attrs = [a]) : find? name attrs = .ok (some a) := by
  rw [named] at h
  rw [find?, h]

theorem find?_repeated (h : named name attrs = a :: b :: more) :
    find? name attrs = .error ⟨repeated name a, (b :: more).map (repeated name)⟩ := by
  rw [named] at h
  rw [find?, h]
  rfl

/-- A name is given not at all, once, or repeatedly. -/
theorem named_cases (name : String) (attrs : List Attribute) : named name attrs = [] ∨
    (∃ a, named name attrs = [a]) ∨ ∃ a b more, named name attrs = a :: b :: more := by
  match named name attrs with
  | [] => exact .inl rfl
  | [a] => exact .inr (.inl ⟨a, rfl⟩)
  | a :: b :: more => exact .inr (.inr ⟨a, b, more, rfl⟩)

theorem find?_alike (h : attrs'.Perm attrs) (name : String) :
    Alike (find? name attrs') (find? name attrs) := by
  have hnamed := named_perm h name
  obtain hnone | ⟨a, hone⟩ | ⟨a, b, more, hmany⟩ := named_cases name attrs
  · rw [hnone] at hnamed
    rw [find?_none hnone, find?_none hnamed.eq_nil]
    exact Alike.refl _
  · rw [hone] at hnamed
    rw [find?_one hone, find?_one (List.perm_singleton.mp hnamed)]
    exact Alike.refl _
  · obtain hnone' | ⟨a', hone'⟩ | ⟨a', b', more', hmany'⟩ := named_cases name attrs'
    · simpa [hnone', hmany] using hnamed.length_eq
    · simpa [hone', hmany] using hnamed.length_eq
    · rw [hmany, hmany'] at hnamed
      rw [find?_repeated hmany, find?_repeated hmany']
      exact (hnamed.map (repeated name)).map Diagnostic.message

/-! ## Flags -/

theorem hasFlag_cases (name : String) (attrs : List Attribute) :
    (valued name attrs = [] ∧ hasFlag name attrs = .ok (!(named name attrs).isEmpty)) ∨
    ∃ a more, valued name attrs = a :: more ∧ hasFlag name attrs =
      .error (.single s!"The `{name}` attribute is a flag and takes no value." a.span) := by
  have hhead : (valued name attrs).head? =
      (attrs.filter fun a => a.name == name).find? fun a => !(a.form matches .flag) := by
    rw [valued, named, List.head?_filter]
  unfold hasFlag
  dsimp only
  split
  · next a hfound =>
    obtain ⟨more, hvalued⟩ := List.head?_eq_some_iff.mp (hhead.trans hfound)
    exact .inr ⟨a, more, hvalued, rfl⟩
  · next hfound => exact .inl ⟨List.head?_eq_none_iff.mp (hhead.trans hfound), rfl⟩

theorem hasFlag_alike (h : attrs'.Perm attrs) (name : String) :
    Alike (hasFlag name attrs') (hasFlag name attrs) := by
  have hvalued := valued_perm h name
  obtain ⟨hnone, hflag⟩ | ⟨a, more, hsome, hflag⟩ := hasFlag_cases name attrs
  · rw [hnone] at hvalued
    obtain ⟨-, hflag'⟩ | ⟨a, more, hsome, -⟩ := hasFlag_cases name attrs'
    · have hempty : (named name attrs').isEmpty = (named name attrs).isEmpty := by
        rw [Bool.eq_iff_iff, List.isEmpty_iff, List.isEmpty_iff]
        exact ⟨fun h' => (h' ▸ named_perm h name).symm.eq_nil,
          fun h' => (h' ▸ named_perm h name).eq_nil⟩
      rw [hflag, hflag', hempty]
      exact Alike.refl _
    · rw [hsome] at hvalued
      cases hvalued.eq_nil
  · obtain ⟨hnone, -⟩ | ⟨a', more', -, hflag'⟩ := hasFlag_cases name attrs'
    · rw [hsome, hnone] at hvalued
      cases hvalued.symm.eq_nil
    · rw [hflag, hflag']
      exact List.Perm.refl _

theorem hasFlag_congr (h : named name attrs' = named name attrs) :
    hasFlag name attrs' = hasFlag name attrs := by
  rw [named, named] at h
  unfold hasFlag
  rw [h]

theorem single_of_hasFlag (h : hasFlag name attrs = .error report) : report.rest = [] := by
  obtain ⟨-, hflag⟩ | ⟨a, more, -, hflag⟩ := hasFlag_cases name attrs
  · rw [hflag] at h
    cases h
  · rw [hflag] at h
    cases h
    rfl

/-! ## Widths -/

/-- Only the attributes of the name are looked at. -/
theorem findLength?_congr (h : named name attrs' = named name attrs) :
    findLength? name attrs' = findLength? name attrs := by
  rw [named, named] at h
  rw [findLength?, findLength?, find?, find?, h]

theorem findLength?_none (h : named name attrs = []) : findLength? name attrs = .ok none := by
  rw [findLength?, find?_none h]
  rfl

theorem findLength?_repeated (h : named name attrs = a :: b :: more) :
    findLength? name attrs = .error ⟨repeated name a, (b :: more).map (repeated name)⟩ := by
  rw [findLength?, find?_repeated h]
  rfl

/-- An attribute that is given once has a width, or one thing is wrong with it. -/
theorem findLength?_one (h : named name attrs = [a]) :
    (∃ width, findLength? name attrs = .ok (some width)) ∨
    ∃ message, findLength? name attrs = .error (.single message a.span) := by
  rw [findLength?, find?_one h]
  dsimp only [bind, Except.bind]
  split
  · next v _ =>
    cases v.integer? with
    | none => exact .inr ⟨_, rfl⟩
    | some n =>
      dsimp only
      cases PrefixWidth.ofInt? n with
      | none => exact .inr ⟨_, rfl⟩
      | some width => exact .inl ⟨width, rfl⟩
  · exact .inr ⟨_, rfl⟩

/-! ## Places -/

theorem misplaced_eq_nil_iff :
    misplaced site attrs = [] ↔ ∀ a ∈ attrs, a.name ∈ site.names := by
  simp [misplaced]

theorem problemsOf_checkSite (site : Site) (attrs : List Attribute) :
    problemsOf (checkSite site attrs) = misplaced site attrs := by
  rw [checkSite]
  cases misplaced site attrs with
  | nil => rfl
  | cons d ds => rfl

theorem message_of_misplaced {d : Diagnostic} (h : d ∈ misplaced site attrs) :
    ∃ refused, d.message = site.refusal refused := by
  obtain ⟨a, -, rfl⟩ := List.mem_map.mp h
  exact ⟨a.name, rfl⟩

theorem checkSite_placed (h : ∀ a ∈ attrs, a.name ∈ site.names) :
    checkSite site attrs = .ok () := by
  obtain ⟨_, hcheck⟩ := problemsOf_eq_nil_iff.mp
    ((problemsOf_checkSite site attrs).trans (misplaced_eq_nil_iff.mpr h))
  exact hcheck

theorem checkSite_misplaced (h : ¬∀ a ∈ attrs, a.name ∈ site.names) :
    ∃ report, checkSite site attrs = .error report ∧ report.toList = misplaced site attrs := by
  have hproblems := problemsOf_checkSite site attrs
  cases hcheck : checkSite site attrs with
  | ok =>
    rw [hcheck] at hproblems
    exact absurd (misplaced_eq_nil_iff.mp hproblems.symm) h
  | error report =>
    rw [hcheck] at hproblems
    exact ⟨report, rfl, hproblems⟩

theorem checkSite_alike (site : Site) (h : attrs'.Perm attrs) :
    Alike (checkSite site attrs') (checkSite site attrs) := by
  refine alike_of_problemsOf ?_
  rw [problemsOf_checkSite, problemsOf_checkSite]
  exact ((h.filter _).map _).map _

end Lookups

end ContractKit.Attribute
