import ContractKit.Proofs.Fault.Gather

/-!
# `Proofs/Fault/Problems.lean`: what is reported of parts

A part has a result, or reports problems, or strays: it fails with a fault that is no report. The
problems of all parts are reported if none of them strays (`gather_eq_ok_of`), and the first that does is
all that is heard of otherwise (`gather_eq_error_of`). `Collected` says so of items that parts are found
for, whatever else is wrong with them.
-/

set_option autoImplicit false

namespace ContractKit

variable {α β : Type}

/-- The fault is a report. -/
def Fault.IsReport (f : Fault) : Prop := ∃ report, f = .derive report

/-- The problems that an outcome is a report of. -/
def problemsIn : Except Fault α → List Diagnostic
  | .error (.derive report) => report.toList
  | _ => []

/-- The outcome is a fault that is no report. -/
def Strays (x : Except Fault α) : Prop := ∃ f, x = .error f ∧ ¬ f.IsReport

/-- An outcome is a result, a report of some problems, or a fault that is no report. -/
theorem outcome_cases (x : Except Fault α) :
    ((∃ a, x = .ok a) ∧ problemsIn x = [] ∧ ¬ Strays x) ∨
      (∃ report, x = .error (.derive report) ∧ problemsIn x = report.toList ∧ ¬ Strays x) ∨
      ∃ f, x = .error f ∧ problemsIn x = [] ∧ ¬ f.IsReport := by
  cases x with
  | ok a => exact .inl ⟨⟨a, rfl⟩, rfl, by rintro ⟨f, ⟨⟩, -⟩⟩
  | error f =>
    cases f with
    | derive report =>
      refine .inr (.inl ⟨report, rfl, rfl, ?_⟩)
      rintro ⟨f, ⟨⟩, hf⟩
      exact hf ⟨report, rfl⟩
    | _ => exact .inr (.inr ⟨_, rfl, rfl, by rintro ⟨report, ⟨⟩⟩⟩)

theorem exists_ok_iff {x : Except Fault α} : (∃ a, x = .ok a) ↔ ¬ Strays x ∧ problemsIn x = [] := by
  rcases outcome_cases x with ⟨hok, hnone, hstays⟩ | ⟨report, rfl, hproblems, hstays⟩ | ⟨f, rfl, -, hf⟩
  · exact iff_of_true hok ⟨hstays, hnone⟩
  · refine iff_of_false nofun ?_
    rintro ⟨-, hnone⟩
    cases hnone
  · refine iff_of_false nofun ?_
    rintro ⟨hstays, -⟩
    exact hstays ⟨f, rfl, hf⟩

theorem exists_error_iff {x : Except Fault α} : (∃ f, x = .error f) ↔ Strays x ∨ problemsIn x ≠ [] := by
  rcases outcome_cases x with ⟨⟨a, rfl⟩, hnone, hstays⟩ | ⟨report, rfl, hproblems, -⟩ | ⟨f, rfl, -, hf⟩
  · exact iff_of_false nofun fun h => h.elim hstays fun hsome => hsome hnone
  · exact iff_of_true ⟨_, rfl⟩ (.inr (hproblems ▸ List.cons_ne_nil _ _))
  · exact iff_of_true ⟨f, rfl⟩ (.inl ⟨f, rfl, hf⟩)

/-- What fails without straying has something to report. -/
theorem exists_mem_problemsIn {x : Except Fault α} (h : ¬ Strays x) :
    (∃ d, d ∈ problemsIn x) ↔ ∃ f, x = .error f := by
  rw [exists_error_iff, or_iff_right h]
  exact ⟨fun ⟨d, hd⟩ => List.ne_nil_of_mem hd, List.exists_mem_of_ne_nil _⟩

/-- Outcomes that fail alike report alike. -/
theorem problemsIn_congr {x : Except Fault α} {y : Except Fault β}
    (h : ∀ f, x = .error f ↔ y = .error f) : problemsIn x = problemsIn y := by
  cases x with
  | error f =>
    obtain rfl := (h f).mp rfl
    cases f with
    | _ => rfl
  | ok a =>
    cases y with
    | ok b => rfl
    | error g => cases (h g).mpr rfl

/-! ## Parts -/

/-- **The problems of all parts are gathered if none of them strays.** -/
theorem gather_eq_ok_of {parts : List (Except Fault α)} (h : ∀ x ∈ parts, ¬ Strays x) :
    ∃ as, gather parts = .ok (as, parts.flatMap problemsIn) := by
  induction parts with
  | nil => exact ⟨[], rfl⟩
  | cons x rest ih =>
    obtain ⟨as, hrest⟩ := ih fun y hy => h y (List.mem_cons_of_mem _ hy)
    rcases outcome_cases x with ⟨⟨a, rfl⟩, hnone, -⟩ | ⟨report, rfl, hproblems, -⟩ | ⟨f, rfl, -, hf⟩
    · refine ⟨a :: as, ?_⟩
      rw [gather, hrest, List.flatMap_cons, hnone]
      rfl
    · refine ⟨as, ?_⟩
      rw [gather, hrest, List.flatMap_cons, hproblems]
      rfl
    · exact absurd ⟨f, rfl, hf⟩ (h _ List.mem_cons_self)

/-- **The first part that strays is all that is heard of.** Problems that were found before it are lost
with it, as its fault ends the gathering. -/
theorem gather_eq_error_of {before after : List (Except Fault α)} {f : Fault}
    (hbefore : ∀ x ∈ before, ¬ Strays x) (hf : ¬ f.IsReport) :
    gather (before ++ .error f :: after) = .error f := by
  induction before with
  | nil =>
    cases f with
    | derive report => exact absurd ⟨report, rfl⟩ hf
    | _ => rfl
  | cons x before ih =>
    have hrest := ih fun y hy => hbefore y (List.mem_cons_of_mem _ hy)
    rw [List.cons_append]
    rcases outcome_cases x with ⟨⟨a, rfl⟩, -, -⟩ | ⟨report, rfl, -, -⟩ | ⟨g, rfl, -, hg⟩
    · rw [gather, hrest]
      rfl
    · rw [gather, hrest]
      rfl
    · exact absurd ⟨g, rfl, hg⟩ (hbefore _ List.mem_cons_self)

/-- Items have parts none of which strays, or there is a first one whose part does. -/
theorem first_strays (part : α → Except Fault β) (as : List α) :
    (∀ a ∈ as, ¬ Strays (part a)) ∨
      ∃ before a after f, as = before ++ a :: after ∧ (∀ b ∈ before, ¬ Strays (part b)) ∧
        part a = .error f ∧ ¬ f.IsReport := by
  induction as with
  | nil => exact .inl (List.forall_mem_nil _)
  | cons a rest ih =>
    by_cases ha : Strays (part a)
    · obtain ⟨f, hpart, hf⟩ := ha
      exact .inr ⟨[], a, rest, f, rfl, List.forall_mem_nil _, hpart, hf⟩
    · rcases ih with hnone | ⟨before, b, after, f, rfl, hbefore, hpart, hf⟩
      · exact .inl (List.forall_mem_cons.mpr ⟨ha, hnone⟩)
      · exact .inr ⟨a :: before, b, after, f, rfl, List.forall_mem_cons.mpr ⟨ha, hbefore⟩, hpart, hf⟩

/-! ## Items with parts -/

/-- What an outcome makes of items, each with a part and with problems: a report has the problems of all
items, there is a result if there are none, and a part that strays is all that is heard of. -/
inductive Collected (part : α → Except Fault β) (wrong : α → List Diagnostic) (as : List α) {γ : Type} :
    Except Fault γ → Prop
  | strayed {before after : List α} {a : α} {f : Fault} (hsplit : as = before ++ a :: after)
      (hbefore : ∀ b ∈ before, ¬ Strays (part b)) (hpart : part a = .error f) (hf : ¬ f.IsReport) :
      Collected part wrong as (.error f)
  | reported {report : Report} (hstays : ∀ a ∈ as, ¬ Strays (part a))
      (hreport : ∀ d, d ∈ report.toList ↔ ∃ a ∈ as, d ∈ wrong a) :
      Collected part wrong as (.error (.derive report))
  | fine {c : γ} (hstays : ∀ a ∈ as, ¬ Strays (part a)) (hnone : ∀ a ∈ as, wrong a = []) :
      Collected part wrong as (.ok c)

namespace Collected

variable {γ : Type} {part : α → Except Fault β} {wrong : α → List Diagnostic} {as : List α}

/-- **What is found while the parts are gathered, and besides, is reported together.** -/
theorem gather (make : List β → γ) (problems : List Diagnostic → List Diagnostic)
    (hproblems : ∀ d, d ∈ problems (as.flatMap fun a => problemsIn (part a)) ↔ ∃ a ∈ as, d ∈ wrong a) :
    Collected part wrong as
      (ContractKit.gather (as.map part) >>= fun found => settle (make found.1) (problems found.2)) := by
  rcases first_strays part as with hstays | ⟨before, a, after, f, rfl, hbefore, hpart, hf⟩
  · obtain ⟨found, hfound⟩ := gather_eq_ok_of (List.forall_mem_map.mpr hstays)
    rw [List.flatMap_map] at hfound
    rw [hfound]
    show Collected part wrong as (settle (make found) (problems _))
    cases hall : problems (as.flatMap fun a => problemsIn (part a)) with
    | nil =>
      rw [hall] at hproblems
      refine .fine hstays fun a ha => List.eq_nil_iff_forall_not_mem.mpr fun d hd => ?_
      exact List.not_mem_nil ((hproblems d).mpr ⟨a, ha, hd⟩)
    | cons d ds =>
      rw [hall] at hproblems
      exact .reported hstays hproblems
  · rw [List.map_append, List.map_cons, hpart,
      gather_eq_error_of (List.forall_mem_map.mpr hbefore) hf]
    exact .strayed rfl hbefore hpart hf

variable {δ : Type} {x : Except Fault γ}

/-- Going on in a way that cannot fail. -/
theorem bind {next : γ → Except Fault δ} (h : Collected part wrong as x)
    (hnext : ∀ c, x = .ok c → ∃ d, next c = .ok d) : Collected part wrong as (x >>= next) := by
  cases h with
  | strayed hsplit hbefore hpart hf => exact .strayed hsplit hbefore hpart hf
  | reported hstays hreport => exact .reported hstays hreport
  | @fine c hstays hnone =>
    obtain ⟨d, hd⟩ := hnext c rfl
    show Collected part wrong as (next c)
    rw [hd]
    exact .fine hstays hnone

/-- What strays and what fails is all that matters of parts and outcomes. -/
theorem congr {ε : Type} {part' : α → Except Fault ε} {y : Except Fault δ} (h : Collected part wrong as x)
    (hpart : ∀ a ∈ as, ∀ f, ¬ f.IsReport → (part a = .error f ↔ part' a = .error f))
    (hxy : ∀ f, x = .error f ↔ y = .error f) : Collected part' wrong as y := by
  have hstrays {a : α} (ha : a ∈ as) (hstays : ¬ Strays (part a)) : ¬ Strays (part' a) := by
    rintro ⟨f, hf, hno⟩
    exact hstays ⟨f, (hpart a ha f hno).mpr hf, hno⟩
  cases h with
  | @strayed before after a f hsplit hbefore ha hf =>
    subst hsplit
    rw [(hxy _).mp rfl]
    refine .strayed rfl (fun b hb => hstrays (List.mem_append_left _ hb) (hbefore b hb)) ?_ hf
    exact (hpart a (List.mem_append_right _ List.mem_cons_self) f hf).mp ha
  | reported hstays hreport =>
    rw [(hxy _).mp rfl]
    exact .reported (fun a ha => hstrays ha (hstays a ha)) hreport
  | fine hstays hnone =>
    cases y with
    | ok d => exact .fine (fun a ha => hstrays ha (hstays a ha)) hnone
    | error f => cases (hxy f).mpr rfl

theorem exists_ok_iff (h : Collected part wrong as x) :
    (∃ c, x = .ok c) ↔ ∀ a ∈ as, ¬ Strays (part a) ∧ wrong a = [] := by
  cases h with
  | strayed hsplit hbefore hpart hf =>
    refine iff_of_false nofun fun h => (h _ ?_).1 ⟨_, hpart, hf⟩
    rw [hsplit]
    exact List.mem_append_right _ List.mem_cons_self
  | @reported report hstays hreport =>
    refine iff_of_false nofun fun h => ?_
    obtain ⟨a, ha, hd⟩ := (hreport report.first).mp List.mem_cons_self
    rw [(h a ha).2] at hd
    cases hd
  | fine hstays hnone => exact iff_of_true ⟨_, rfl⟩ fun a ha => ⟨hstays a ha, hnone a ha⟩

theorem exists_error_iff (h : Collected part wrong as x) :
    (∃ f, x = .error f) ↔ ∃ a ∈ as, Strays (part a) ∨ wrong a ≠ [] := by
  have hok := h.exists_ok_iff
  cases x with
  | ok c =>
    refine iff_of_false nofun ?_
    rintro ⟨a, ha, hwrong⟩
    obtain ⟨hstays, hnone⟩ := hok.mp ⟨c, rfl⟩ a ha
    exact hwrong.elim hstays fun h => h hnone
  | error f =>
    refine iff_of_true ⟨f, rfl⟩ ?_
    by_contra hnone
    refine absurd (hok.mpr fun a ha => ?_) nofun
    exact ⟨fun h => hnone ⟨a, ha, .inl h⟩, by_contra fun h => hnone ⟨a, ha, .inr h⟩⟩

/-- Nothing strays if something is reported. -/
theorem of_reported {report : Report}
    (h : Collected part wrong as (.error (.derive report) : Except Fault γ)) :
    (∀ a ∈ as, ¬ Strays (part a)) ∧ ∀ d, d ∈ report.toList ↔ ∃ a ∈ as, d ∈ wrong a := by
  cases h with
  | strayed hsplit hbefore hpart hf => exact absurd ⟨report, rfl⟩ hf
  | reported hstays hreport => exact ⟨hstays, hreport⟩

theorem of_strayed {f : Fault} (h : Collected part wrong as (.error f : Except Fault γ))
    (hf : ¬ f.IsReport) :
    ∃ before a after, as = before ++ a :: after ∧ (∀ b ∈ before, ¬ Strays (part b)) ∧
      part a = .error f := by
  cases h with
  | strayed hsplit hbefore hpart _ => exact ⟨_, _, _, hsplit, hbefore, hpart⟩
  | reported => exact absurd ⟨_, rfl⟩ hf

/-! ### Items one by one -/

/-- What is collected from an item alone strays as its part does, or reports what is wrong with it. -/
theorem alone_cases {a : α} (h : Collected part wrong [a] x) :
    (∃ f, x = .error f ∧ part a = .error f ∧ ¬ f.IsReport) ∨
      (¬ Strays (part a) ∧ ¬ Strays x ∧ ∀ d, d ∈ problemsIn x ↔ d ∈ wrong a) := by
  have ha : a ∈ [a] := List.mem_cons_self
  cases h with
  | @strayed before after b f hsplit hbefore hpart hf =>
    obtain rfl : b = a := List.mem_singleton.mp (hsplit ▸ List.mem_append_right _ List.mem_cons_self)
    exact .inl ⟨f, rfl, hpart, hf⟩
  | reported hstays hreport =>
    refine .inr ⟨hstays a ha, ?_, fun d => ?_⟩
    · rintro ⟨f, ⟨⟩, hf⟩
      exact hf ⟨_, rfl⟩
    · exact (hreport d).trans (by simp)
  | fine hstays hnone =>
    refine .inr ⟨hstays a ha, ?_, fun d => ?_⟩
    · rintro ⟨f, ⟨⟩, -⟩
    · rw [hnone a ha]
      rfl

/-- **What is collected from items is collected from what is collected from each of them alone.** With
this what a class is refused for can be told from classes that have one of its fields each. -/
theorem each {ι : Type} {item : ι → α} {alone : ι → Except Fault γ} {is : List ι}
    (h : Collected part wrong (is.map item) x)
    (halone : ∀ i ∈ is, Collected part wrong [item i] (alone i)) :
    Collected alone (fun i => problemsIn (alone i)) is x := by
  have hstays : ∀ i ∈ is, ¬ Strays (part (item i)) →
      ¬ Strays (alone i) ∧ ∀ d, d ∈ problemsIn (alone i) ↔ d ∈ wrong (item i) := by
    intro i hi hstays
    rcases (halone i hi).alone_cases with ⟨f, -, hpart, hf⟩ | ⟨-, halone, hwrong⟩
    · exact absurd ⟨f, hpart, hf⟩ hstays
    · exact ⟨halone, hwrong⟩
  -- the three ends of gathering are carried over, each by what every item says alone
  cases h with
  | strayed hsplit hbefore hpart hf =>
    obtain ⟨before, rest, rfl, rfl, hrest⟩ := List.map_eq_append_iff.mp hsplit
    obtain ⟨i, after, rfl, rfl, rfl⟩ := List.map_eq_cons_iff.mp hrest
    refine .strayed rfl (fun j hj => ?_) ?_ hf
    · exact (hstays j (List.mem_append_left _ hj) (hbefore _ (List.mem_map_of_mem hj))).1
    · rcases (halone i (List.mem_append_right _ List.mem_cons_self)).alone_cases with
        ⟨g, hi, hg, -⟩ | ⟨hpart', -, -⟩
      · obtain rfl := Except.error.inj (hg.symm.trans hpart)
        exact hi
      · exact absurd ⟨_, hpart, hf⟩ hpart'
  | reported hall hreport =>
    have hall := List.forall_mem_map.mp hall
    refine .reported (fun i hi => (hstays i hi (hall i hi)).1) fun d => ?_
    rw [hreport]
    simp only [List.mem_map, exists_exists_and_eq_and]
    exact exists_congr fun i => and_congr_right fun hi => ((hstays i hi (hall i hi)).2 d).symm
  | fine hall hnone =>
    have hall := List.forall_mem_map.mp hall
    refine .fine (fun i hi => (hstays i hi (hall i hi)).1) fun i hi => ?_
    refine List.eq_nil_iff_forall_not_mem.mpr fun d hd => ?_
    have hd := ((hstays i hi (hall i hi)).2 d).mp hd
    rw [hnone _ (List.mem_map_of_mem hi)] at hd
    cases hd

end Collected

end ContractKit
