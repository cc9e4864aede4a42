import ContractKit.Fault.Gather
import Mathlib.Data.List.Forall2

/-!
# `Proofs/Fault/Gather.lean`: when everything went well

Deriving is a chain of steps each of which can fail, and parts whose problems are reported together.
That the whole has a result says of every step and every part that it has one: the lemmas here take
such a success apart, so no later proof looks into `Except` or into reports.
-/

set_option autoImplicit false

namespace ContractKit

variable {ε α β : Type}

theorem bind_eq_ok {x : Except ε α} {f : α → Except ε β} {b : β} :
    x >>= f = .ok b ↔ ∃ a, x = .ok a ∧ f a = .ok b := by
  cases x with
  | error e =>
    constructor
    · intro h
      cases h
    · rintro ⟨a, h, -⟩
      cases h
  | ok a =>
    constructor
    · intro h
      exact ⟨a, rfl, h⟩
    · rintro ⟨a', h, hb⟩
      cases h
      exact hb

theorem pure_eq_ok {a b : α} : (pure a : Except ε α) = .ok b ↔ a = b := by
  show Except.ok a = Except.ok b ↔ a = b
  rw [Except.ok.injEq]

theorem map_eq_ok {x : Except ε α} {f : α → β} {b : β} :
    x.map f = .ok b ↔ ∃ a, x = .ok a ∧ f a = b := by
  cases x with
  | error e => simp [Except.map]
  | ok a => simp [Except.map]

theorem Fault.located_typeIssue (span : Span) (issue : TypeIssue) :
    (Fault.typeIssue issue).located span = .derive (.single issue.message span) := by
  refine if_pos ?_
  cases hrange : issue.isRange <;> simp [isOrdinary, kind, hrange, FaultKind.isOrdinary, FaultKind.lineage]

theorem locate_eq_ok {span : Span} {x : Except Fault α} {a : α} :
    locate span x = .ok a ↔ x = .ok a := by
  cases x with
  | error f => simp [locate, Except.mapError]
  | ok b => simp [locate, Except.mapError]

theorem settle_eq_ok {a b : α} {problems : List Diagnostic} :
    settle a problems = .ok b ↔ problems = [] ∧ a = b := by
  cases problems with
  | nil => simp [settle, Report.ofList?]
  | cons d ds => simp [settle, Report.ofList?]

/-- Going through a list up to the first failure. -/
theorem mapM_eq_ok {g : α → Except ε β} {as : List α} {bs : List β} :
    as.mapM g = .ok bs ↔ List.Forall₂ (fun a b => g a = .ok b) as bs := by
  induction as generalizing bs with
  | nil => rw [List.mapM_nil, pure_eq_ok, List.forall₂_nil_left_iff, eq_comm]
  | cons a as ih =>
    simp only [List.mapM_cons, bind_eq_ok, pure_eq_ok, ih, List.forall₂_cons_left_iff]
    constructor
    · rintro ⟨b, hb, bs, hbs, rfl⟩
      exact ⟨b, bs, hb, hbs, rfl⟩
    · rintro ⟨b, bs, hb, hbs, rfl⟩
      exact ⟨b, hb, bs, hbs, rfl⟩

/-- Every result is the result of a part. -/
theorem exists_of_forall₂_right {R : α → β → Prop} : ∀ {as : List α} {bs : List β},
    List.Forall₂ R as bs → ∀ {b}, b ∈ bs → ∃ a ∈ as, R a b
  | [], [], .nil, _, hb => nomatch hb
  | _ :: _, _ :: _, .cons h hrest, _, hb => by
    rcases List.mem_cons.mp hb with rfl | hb
    · exact ⟨_, List.mem_cons_self, h⟩
    · obtain ⟨a, ha, hab⟩ := exists_of_forall₂_right hrest hb
      exact ⟨a, List.mem_cons_of_mem _ ha, hab⟩

/-- Without problems every part has its result. -/
theorem forall₂_of_gather : ∀ {parts : List (Except Fault α)} {as : List α},
    gather parts = .ok (as, []) → List.Forall₂ (fun part a => part = .ok a) parts as
  | [], as, h => by
    cases h
    exact .nil
  | .ok a :: rest, as, h => by
    rw [gather, map_eq_ok] at h
    obtain ⟨⟨bs, ds⟩, hrest, hpair⟩ := h
    cases hpair
    exact .cons rfl (forall₂_of_gather hrest)
  | .error f :: rest, as, h => by
    cases f with
    | derive report =>
      rw [gather, map_eq_ok] at h
      obtain ⟨⟨bs, ds⟩, -, hpair⟩ := h
      -- a report is never empty
      have hnil : report.toList ++ ds = [] := congrArg Prod.snd hpair
      cases hnil
    | _ => cases h

theorem forall₂_of_gatherAll {parts : List (Except Fault α)} {as : List α}
    (h : gatherAll parts = .ok as) : List.Forall₂ (fun part a => part = .ok a) parts as := by
  unfold gatherAll at h
  cases hparts : gather parts with
  | error f =>
    rw [hparts] at h
    cases h
  | ok result =>
    obtain ⟨bs, problems⟩ := result
    rw [hparts] at h
    obtain ⟨rfl, rfl⟩ := settle_eq_ok.mp h
    exact forall₂_of_gather hparts

end ContractKit
