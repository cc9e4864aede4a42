import ContractKit.Module.Declare

/-!
# `Proofs/Module/Things.lean`: what the names of a module are bound to

Several names of a module can be bound to one class or function, and the exports recorded on it count
once, at the first of them. So the exports of a module are those of the different things that are bound
(`Module.exports_eq`), and what is true of what is recorded on each thing can be carried over to them.
-/

set_option autoImplicit false

namespace ContractKit

deriving instance DecidableEq for Decorated

/-- The class or function that a name is bound to. -/
def Binding.thing? : Binding → Option Decorated
  | cls place => some (.cls place)
  | function place => some (.function place)
  | value _ => none

namespace Module

/-- The classes and functions that are bound to names, each at its first name. -/
def things (m : Module) : List Decorated := (m.names.filterMap fun entry => entry.2.thing?).eraseDups

/-- The exports recorded on a class or a function, in the order in which they were recorded. -/
def recorded (m : Module) : Decorated → List Export
  | .cls place => ((m.classes[place]?).map (·.exports)).getD []
  | .function place => ((m.functions[place]?).map (·.exports)).getD []
  | .foreign _ => []

/-- The things that were not seen yet, each at its first place. -/
def unseen (seen things : List Decorated) : List Decorated :=
  (things.filter fun d => !seen.contains d).eraseDups

/-- A thing comes first if it is new, and is seen afterwards. -/
theorem unseen_cons (seen : List Decorated) (d : Decorated) (things : List Decorated) :
    unseen seen (d :: things) =
      if seen.contains d then unseen seen things else d :: unseen (d :: seen) things := by
  unfold unseen
  by_cases hseen : seen.contains d = true
  · rw [if_pos hseen, List.filter_cons_of_neg (by simpa using hseen)]
  · rw [if_neg hseen, List.filter_cons_of_pos (by simpa using hseen), List.eraseDups_cons,
      List.filter_filter]
    congr 2
    refine List.filter_congr fun other _ => ?_
    rw [List.contains_cons, Bool.not_or]

variable {m : Module}

/-- The marks of going through the names are those of the things that were seen. A class and a function
can have the same place, so a mark says which of the two it is. -/
structure Marks (marks : List (Bool × Nat)) (seen : List Decorated) : Prop where
  classes : ∀ place, (true, place) ∈ marks ↔ .cls place ∈ seen
  functions : ∀ place, (false, place) ∈ marks ↔ .function place ∈ seen

namespace Marks

variable {marks : List (Bool × Nat)} {seen : List Decorated}

theorem cls (h : Marks marks seen) (place : Nat) :
    Marks ((true, place) :: marks) (.cls place :: seen) := by
  constructor
  · intro other
    simp [h.classes]
  · intro other
    simp [h.functions]

theorem function (h : Marks marks seen) (place : Nat) :
    Marks ((false, place) :: marks) (.function place :: seen) := by
  constructor
  · intro other
    simp [h.classes]
  · intro other
    simp [h.functions]

end Marks

/-- Going through names visits what they are bound to, apart from what was seen before. -/
theorem visit_eq {marks : List (Bool × Nat)} {seen : List Decorated} (names : Names)
    (h : Marks marks seen) : exports.visit m marks names =
      (unseen seen (names.filterMap fun entry => entry.2.thing?)).flatMap m.recorded := by
  induction names generalizing marks seen with
  | nil => rfl
  | cons entry rest ih =>
    obtain ⟨name, b⟩ := entry
    cases b with
    | value v => exact ih h
    | cls place =>
      have hfirst : (((name, .cls place) :: rest : Names).filterMap fun entry => entry.2.thing?) =
          .cls place :: rest.filterMap fun entry => entry.2.thing? := rfl
      rw [exports.visit, hfirst, unseen_cons]
      simp only [List.contains_iff_mem, h.classes]
      split
      · exact ih h
      · rw [List.flatMap_cons, ih (h.cls place)]
        rfl
    | function place =>
      have hfirst : (((name, .function place) :: rest : Names).filterMap fun entry => entry.2.thing?) =
          .function place :: rest.filterMap fun entry => entry.2.thing? := rfl
      rw [exports.visit, hfirst, unseen_cons]
      simp only [List.contains_iff_mem, h.functions]
      split
      · exact ih h
      · rw [List.flatMap_cons, ih (h.function place)]
        rfl

/-- **The exports of a module are those of the things in it**, however many names a thing has. The names
are gone through with marks of what was seen, and this is the same without the marks. -/
theorem exports_eq (m : Module) : m.exports = m.things.flatMap m.recorded := by
  have hnone : Marks [] [] := ⟨fun _ => by simp, fun _ => by simp⟩
  rw [exports, visit_eq m.names hnone, things, unseen]
  congr 2
  exact List.filter_eq_self.mpr fun _ _ => rfl

end Module

end ContractKit
