import ContractKit.Diagnostic
import Mathlib.Data.List.Perm.Basic

/-!
# `Proofs/Fault/Reports.lean`: outcomes that are results or reports

What an outcome reports is a list of problems, empty for a result (`problemsOf`); joining outcomes
joins these lists, so none is lost. Outcomes agree but for order (`Alike`) if they are the same result,
or reports with the same messages in whatever order and from whatever places. Both notions go through
the ways in which outcomes are put together.
-/

set_option autoImplicit false

namespace ContractKit.Report

variable {α β : Type}

/-- The problems that an outcome is a report of. -/
def problemsOf : Except Report α → List Diagnostic
  | .ok _ => []
  | .error report => report.toList

/-- Two outcomes agree but for the order and the places of what they report. -/
def Alike : Except Report α → Except Report α → Prop
  | .ok a, .ok b => a = b
  | .error r, .error s =>
    (r.toList.map Diagnostic.message).Perm (s.toList.map Diagnostic.message)
  | _, _ => False

theorem problemsOf_eq_nil_iff {x : Except Report α} : problemsOf x = [] ↔ ∃ a, x = .ok a := by
  cases x with
  | ok a => exact ⟨fun _ => ⟨a, rfl⟩, fun _ => rfl⟩
  | error report => simp [problemsOf, toList]

theorem eq_error_iff {x : Except Report α} {report : Report} :
    x = .error report ↔ report.toList = problemsOf x := by
  cases x with
  | ok a => simp [problemsOf, toList]
  | error r =>
    constructor
    · rintro ⟨⟩
      rfl
    · intro h
      have hsome := congrArg ofList? h
      rw [ofList?_toList, problemsOf, ofList?_toList] at hsome
      cases hsome
      rfl

@[simp] theorem problemsOf_map (x : Except Report α) (g : α → β) :
    problemsOf (x.map g) = problemsOf x := by
  cases x <;> rfl

/-- Going on in a way that reports nothing. -/
theorem problemsOf_bind (x : Except Report α) {k : α → Except Report β}
    (hk : ∀ a, problemsOf (k a) = []) : problemsOf (x >>= k) = problemsOf x := by
  cases x with
  | ok a => exact hk a
  | error => rfl

@[simp] theorem problemsOf_both (x : Except Report α) (y : Except Report β) :
    problemsOf (both x y) = problemsOf x ++ problemsOf y := by
  cases x <;> cases y <;> simp [both, problemsOf, append, toList]

theorem both_eq_ok {x : Except Report α} {y : Except Report β} {a : α} {b : β} :
    both x y = .ok (a, b) ↔ x = .ok a ∧ y = .ok b := by
  cases x <;> cases y <;> simp [both]

theorem Alike.refl (x : Except Report α) : Alike x x := by
  cases x with
  | ok => rfl
  | error => exact List.Perm.refl _

theorem Alike.cases {x y : Except Report α} (h : Alike x y) : x = y ∨
    ∃ r s, x = .error r ∧ y = .error s ∧
      (r.toList.map Diagnostic.message).Perm (s.toList.map Diagnostic.message) := by
  cases x with
  | ok a =>
    cases y with
    | ok b => exact .inl (congrArg Except.ok h)
    | error => exact h.elim
  | error r =>
    cases y with
    | ok => exact h.elim
    | error s => exact .inr ⟨r, s, rfl, rfl, h⟩

theorem Alike.bind {x y : Except Report α} {k k' : α → Except Report β} (h : Alike x y)
    (hk : ∀ a, Alike (k a) (k' a)) : Alike (x >>= k) (y >>= k') := by
  obtain rfl | ⟨r, s, rfl, rfl, hperm⟩ := h.cases
  · cases x with
    | ok a => exact hk a
    | error r => exact List.Perm.refl _
  · exact hperm

theorem Alike.map {x y : Except Report α} (h : Alike x y) (g : α → β) :
    Alike (x.map g) (y.map g) := by
  obtain rfl | ⟨r, s, rfl, rfl, hperm⟩ := h.cases
  · exact Alike.refl _
  · exact hperm

theorem messages_append_perm {r r' s s' : Report}
    (hr : (r.toList.map Diagnostic.message).Perm (r'.toList.map Diagnostic.message))
    (hs : (s.toList.map Diagnostic.message).Perm (s'.toList.map Diagnostic.message)) :
    ((r.append s).toList.map Diagnostic.message).Perm
      ((r'.append s').toList.map Diagnostic.message) := by
  have happend : ∀ r s : Report, (r.append s).toList = r.toList ++ s.toList := fun _ _ => rfl
  rw [happend, happend, List.map_append, List.map_append]
  exact hr.append hs

theorem Alike.both {x x' : Except Report α} {y y' : Except Report β} (hx : Alike x x')
    (hy : Alike y y') : Alike (Report.both x y) (Report.both x' y') := by
  obtain rfl | ⟨r, r', rfl, rfl, hr⟩ := hx.cases
  · obtain rfl | ⟨s, s', rfl, rfl, hs⟩ := hy.cases
    · exact Alike.refl _
    · cases x with
      | ok => exact hs
      | error r => exact messages_append_perm (List.Perm.refl _) hs
  · obtain rfl | ⟨s, s', rfl, rfl, hs⟩ := hy.cases
    · cases y with
      | ok => exact hr
      | error s => exact messages_append_perm hr (List.Perm.refl _)
    · exact messages_append_perm hr hs

/-- Checks that only report agree if their problems do. -/
theorem alike_of_problemsOf {x y : Except Report Unit}
    (h : ((problemsOf x).map Diagnostic.message).Perm ((problemsOf y).map Diagnostic.message)) :
    Alike x y := by
  cases x with
  | ok =>
    cases y with
    | ok => rfl
    | error s => simp [problemsOf, toList] at h
  | error r =>
    cases y with
    | ok => simp [problemsOf, toList] at h
    | error s => exact h

end ContractKit.Report
