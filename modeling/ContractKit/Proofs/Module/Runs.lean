import ContractKit.Proofs.Module.Calls

/-!
# `Proofs/Module/Runs.lean`: calls one after the other

A run makes calls through one host, which keeps its state, its events and its actions from one call to
the next and tells something else about each of them. What a single call leaves is known from
`Proofs/Module/EntryPoint.lean`; here this is carried through runs of any length. Failed calls can be
left out of a run without a difference to the others, and a handle means the same action for ever
(`without_failed`).
-/

set_option autoImplicit false

namespace ContractKit

/-- A call to be made: the entry point, the amount that comes with it, and what the host tells about it.
The host itself is not in it, so the same requests can be made of different hosts. -/
structure Request where
  entry : Export
  amount : Value
  circumstances : Circumstances := {}

/-- A call that was made, with the host of before it. A run is the list of these, each with the host
that the one before it left. -/
structure MadeCall where
  request : Request
  before : Host
  call : Call

def Export.IsEntryPoint (e : Export) : Prop :=
  ∃ spec place plan?, e.body = .entryPoint spec place plan?

/-- Whether the export handles messages. -/
def Export.receives (e : Export) : Bool :=
  match e.body with
  | .entryPoint spec _ _ => spec.kind == .receive
  | _ => false

namespace MadeCall

/-- What the function of the call succeeded with, and the frame that it left. -/
def success? (m : Module) (made : MadeCall) : Option (Spec × Value × Frame) :=
  match made.request.entry.body with
  | .entryPoint spec place plan? => do
    let fn ← m.functions[place]?
    let (v, left) ← EntryPoint.success? m spec fn plan? made.request.amount made.before
    pure (spec, v, left)
  | _ => none

/-- The value that a successful call returned. -/
def returned? (m : Module) (made : MadeCall) : Option Value :=
  (made.success? m).map fun (_, v, _) => v

/-- The value of the state that a successful call wrote. -/
def committed? (m : Module) (made : MadeCall) : Option Value :=
  (made.success? m).map fun (spec, v, left) => EntryPoint.finalState spec v left

end MadeCall

namespace Module

/-- Make a call through the host. -/
def make (m : Module) (h : Host) (r : Request) : MadeCall :=
  let before := h.under r.circumstances
  ⟨r, before, (m.callExport r.entry r.amount before).invoke before⟩

/-- The calls of a run, each made on the host that the one before it left. -/
def calls (m : Module) : Host → List Request → List MadeCall
  | _, [] => []
  | h, r :: rs => m.make h r :: m.calls (m.make h r).call.host rs

/-- The host at the end of a run. -/
def after (m : Module) (h : Host) (rs : List Request) : Host :=
  rs.foldl (fun h r => (m.make h r).call.host) h

/-- The calls of a run that did not fail. -/
def kept (m : Module) (h : Host) (rs : List Request) : List MadeCall :=
  (m.calls h rs).filter fun made => !made.call.failed

section

variable (m : Module) (h : Host)

theorem calls_cons (r : Request) (rs : List Request) :
    m.calls h (r :: rs) = m.make h r :: m.calls (m.make h r).call.host rs := rfl

theorem after_cons (r : Request) (rs : List Request) :
    m.after h (r :: rs) = m.after (m.make h r).call.host rs := rfl

theorem after_append (front back : List Request) :
    m.after h (front ++ back) = m.after (m.after h front) back := List.foldl_append

theorem calls_append (front back : List Request) :
    m.calls h (front ++ back) = m.calls h front ++ m.calls (m.after h front) back := by
  induction front generalizing h with
  | nil => rfl
  | cons r front ih =>
    rw [List.cons_append, calls_cons, calls_cons, ih, after_cons, List.cons_append]

variable {m h}

theorem kept_cons_of_failed {r : Request} (rs : List Request)
    (hfailed : (m.make h r).call.failed = true) :
    m.kept h (r :: rs) = m.kept (m.make h r).call.host rs :=
  List.filter_cons_of_neg (by simp [hfailed])

theorem kept_cons {r : Request} (rs : List Request) (hkept : (m.make h r).call.failed = false) :
    m.kept h (r :: rs) = m.make h r :: m.kept (m.make h r).call.host rs :=
  List.filter_cons_of_pos (by simp [hkept])

/-- What a host tells about earlier calls makes no difference to a call, -/
theorem make_congr {a b : Host} (hab : a.Agrees b) (r : Request) : m.make a r = m.make b r := by
  simp only [make, hab.under_eq]

/-- nor to a run, -/
theorem calls_congr {a b : Host} (hab : a.Agrees b) (rs : List Request) :
    m.calls a rs = m.calls b rs := by
  cases rs with
  | nil => rfl
  | cons r rs => rw [calls_cons, calls_cons, make_congr hab]

/-- nor to what is left of it. -/
theorem after_congr {a b : Host} (hab : a.Agrees b) (rs : List Request) :
    (m.after a rs).Agrees (m.after b rs) := by
  cases rs with
  | nil => exact hab
  | cons r rs =>
    rw [after_cons, after_cons, make_congr hab]
    exact .refl _

end

/-! ## One call of a run -/

section

variable {m : Module} {h : Host} {r : Request} {spec : Spec} {place : Nat}
  {plan? : Option StatePlan}

/-- What a successful call of a run returned and wrote, and what it registered. -/
theorem make_success (hbody : r.entry.body = .entryPoint spec place plan?)
    (hsucceeds : (m.make h r).call.succeeds = true) :
    ∃ v left, (m.make h r).success? m = some (spec, v, left) ∧
      EntryPoint.stored spec plan? v left = .ok (m.make h r).call.host.state ∧
      ((spec.kind = .init ∧ (m.make h r).call.host.actions = h.actions) ∨
        ∃ a, spec.kind = .receive ∧ v = .action a ∧
          (m.make h r).call.status = .ok h.actions.length ∧
          (m.make h r).call.host.actions = h.actions ++ [a]) := by
  have hcall : (m.make h r).call = m.callExport r.entry r.amount (h.under r.circumstances) :=
    Call.invoke_of_succeeds hsucceeds
  rw [hcall] at hsucceeds ⊢
  rcases callExport_cases (m := m) hbody r.amount (h.under r.circumstances) with heq | ⟨fn, hfn, hends⟩
  · rw [heq] at hsucceeds
    cases hsucceeds
  obtain ⟨v, left, data, hrun, hstored, hcases⟩ := hends.success_cases hsucceeds
  have hsuccess : (m.make h r).success? m = some (spec, v, left) := by
    show MadeCall.success? m ⟨r, h.under r.circumstances, _⟩ = _
    simp only [MadeCall.success?, hbody, hfn, Option.bind_eq_bind, Option.bind_some]
    rw [hrun.success?_eq]
    rfl
  refine ⟨v, left, hsuccess, ?_⟩
  rcases hcases with ⟨hkind, -, hhost⟩ | ⟨a, hkind, rfl, hstatus, hhost⟩
  · rw [hhost]
    exact ⟨hstored, Or.inl ⟨hkind, hrun.actions⟩⟩
  · rw [hhost]
    refine ⟨hstored, Or.inr ⟨a, hkind, rfl, hstatus, ?_⟩⟩
    simp only [Host.register, hrun.actions, Host.under_actions]

/-- A call leaves what its function left of the host, or what was there before it. -/
theorem make_host_cases (hbody : r.entry.body = .entryPoint spec place plan?) :
    (m.make h r).call.host = (m.callExport r.entry r.amount (h.under r.circumstances)).host ∨
      (m.make h r).call.host = h.under r.circumstances :=
  Call.invoke_host_cases (leads_callExport hbody r.amount (h.under r.circumstances))

/-- A call of a run never takes an action back. -/
theorem actions_prefix_make (hentry : r.entry.IsEntryPoint) :
    h.actions <+: (m.make h r).call.host.actions := by
  obtain ⟨spec, place, plan?, hbody⟩ := hentry
  rcases make_host_cases (m := m) (h := h) hbody with hhost | hhost
  · rw [hhost]
    exact (leads_callExport hbody r.amount (h.under r.circumstances)).actions
  · rw [hhost]
    exact List.prefix_rfl

end

/-- Nor does a run. -/
theorem actions_prefix_after {m : Module} {h : Host} {rs : List Request}
    (hentries : ∀ r ∈ rs, r.entry.IsEntryPoint) : h.actions <+: (m.after h rs).actions := by
  induction rs generalizing h with
  | nil => exact List.prefix_rfl
  | cons r rs ih =>
    rw [after_cons]
    have hfirst := actions_prefix_make (m := m) (h := h) (hentries r List.mem_cons_self)
    have hrest : ∀ r' ∈ rs, r'.entry.IsEntryPoint := by
      intro r' hr'
      exact hentries r' (List.mem_cons_of_mem r hr')
    exact hfirst.trans (ih hrest)

/-! ## Leaving out what failed -/

/-- All calls of the run are of entry points and have a status or are aborted. A call that ends with
another fault is undone by nobody, so what is said of runs with failed calls is said of these. -/
structure Orderly (m : Module) (h : Host) (rs : List Request) : Prop where
  entries : ∀ r ∈ rs, r.entry.IsEntryPoint
  traps : ∀ made ∈ m.calls h rs, ∀ f, made.call.status = .error f → f.isTrap = true

namespace Orderly

variable {m : Module} {h : Host} {r : Request} {rs : List Request}

theorem tail (horderly : m.Orderly h (r :: rs)) : m.Orderly (m.make h r).call.host rs where
  entries := by
    intro r' hr'
    exact horderly.entries r' (List.mem_cons_of_mem r hr')
  traps := by
    intro made hmade
    exact horderly.traps made (List.mem_cons_of_mem _ hmade)

/-- The first call of such a run fails and is undone, or it succeeds and registers an action if it
handles a message. -/
theorem head (horderly : m.Orderly h (r :: rs)) :
    ((m.make h r).call.failed = true ∧ (m.make h r).call.host.Agrees h) ∨
      ((m.make h r).call.failed = false ∧ r.entry.receives = false ∧
        (m.make h r).call.host.actions = h.actions) ∨
      ∃ a, (m.make h r).call.failed = false ∧ r.entry.receives = true ∧
        (m.make h r).returned? m = some (.action a) ∧
        (m.make h r).call.status = .ok h.actions.length ∧
        (m.make h r).call.host.actions = h.actions ++ [a] := by
  obtain ⟨spec, place, plan?, hbody⟩ := horderly.entries r List.mem_cons_self
  have htraps := horderly.traps (m.make h r) List.mem_cons_self
  -- a call that does not succeed is undone, since its fault aborts it if it has one
  by_cases hsucceeds : (m.make h r).call.succeeds = true
  · obtain ⟨n, hstatus, hn⟩ := Call.succeeds_iff.mp hsucceeds
    have hfailed : (m.make h r).call.failed = false := by
      simp only [Call.failed, hstatus, Host.rejected, beq_eq_false_iff_ne]
      omega
    obtain ⟨v, left, hsuccess, -, hcases⟩ := make_success hbody hsucceeds
    rcases hcases with ⟨hkind, hactions⟩ | ⟨a, hkind, rfl, hhandle, hactions⟩
    · exact Or.inr (Or.inl ⟨hfailed, by simp [Export.receives, hbody, hkind], hactions⟩)
    · exact Or.inr (Or.inr ⟨a, hfailed, by simp [Export.receives, hbody, hkind],
        by simp [MadeCall.returned?, hsuccess], hhandle, hactions⟩)
  · rw [Bool.not_eq_true] at hsucceeds
    have hundone : (m.make h r).call.host = h.under r.circumstances :=
      Call.invoke_host_of_failed (leads_callExport hbody _ _) hsucceeds htraps
    refine Or.inl ⟨?_, hundone ▸ .under h _⟩
    unfold Call.failed
    cases hstatus : (m.make h r).call.status with
    | error f => exact htraps f hstatus
    | ok n =>
      have hn : ¬ 0 ≤ n := by simpa [Call.succeeds, hstatus] using hsucceeds
      rw [status_of_failed hbody hstatus (by omega)]
      rfl

/-- The calls that did not fail are the same ones in the run without the others. -/
theorem calls_kept (horderly : m.Orderly h rs) :
    m.calls h ((m.kept h rs).map (·.request)) = m.kept h rs := by
  induction rs generalizing h with
  | nil => rfl
  | cons r rs ih =>
    rcases horderly.head with ⟨hfailed, hundone⟩ | ⟨hkept, -⟩ | ⟨a, hkept, -⟩
    · rw [kept_cons_of_failed rs hfailed, calls_congr hundone.symm, ih horderly.tail]
    all_goals
      have hrequest : (m.make h r).request = r := rfl
      rw [kept_cons rs hkept, List.map_cons, hrequest, calls_cons, ih horderly.tail]

/-- That run leaves the host as the whole run does. -/
theorem after_kept (horderly : m.Orderly h rs) :
    (m.after h ((m.kept h rs).map (·.request))).Agrees (m.after h rs) := by
  induction rs generalizing h with
  | nil => exact .refl h
  | cons r rs ih =>
    rw [after_cons]
    rcases horderly.head with ⟨hfailed, hundone⟩ | ⟨hkept, -⟩ | ⟨a, hkept, -⟩
    · rw [kept_cons_of_failed rs hfailed]
      exact (after_congr hundone.symm _).trans (ih horderly.tail)
    all_goals
      rw [kept_cons rs hkept]
      exact ih horderly.tail

/-- The actions of a run are those that were returned, in order, and their handles count on from the
actions of before. -/
theorem exists_actions (horderly : m.Orderly h rs) :
    ∃ actions : List Action,
      ((m.kept h rs).filter (·.request.entry.receives)).map (MadeCall.returned? m) =
          actions.map (some ∘ Value.action) ∧
      ((m.kept h rs).filter (·.request.entry.receives)).map (·.call.status) =
          (List.range' h.actions.length actions.length).map (fun handle => .ok (handle : Nat)) ∧
      (m.after h rs).actions = h.actions ++ actions := by
  induction rs generalizing h with
  | nil =>
    refine ⟨[], rfl, rfl, ?_⟩
    rw [List.append_nil]
    rfl
  | cons r rs ih =>
    obtain ⟨actions, hreturned, hstatus, hactions⟩ := ih horderly.tail
    have hrequest : (m.make h r).request = r := rfl
    rw [after_cons]
    rcases horderly.head with ⟨hfailed, hundone⟩ | ⟨hkept, hinit, hsame⟩ |
      ⟨a, hkept, hreceives, hreturns, hhandle, hmore⟩
    · rw [kept_cons_of_failed rs hfailed]
      rw [hundone.actions] at hstatus hactions
      exact ⟨actions, hreturned, hstatus, hactions⟩
    · rw [kept_cons rs hkept, List.filter_cons_of_neg (by simp [hrequest, hinit])]
      rw [hsame] at hstatus hactions
      exact ⟨actions, hreturned, hstatus, hactions⟩
    -- the handle of the first action is the number of those before it
    · rw [kept_cons rs hkept, List.filter_cons_of_pos (by simp [hrequest, hreceives])]
      rw [hmore] at hstatus hactions
      refine ⟨a :: actions, ?_, ?_, ?_⟩
      · rw [List.map_cons, hreturned, hreturns]
        rfl
      · rw [List.length_append] at hstatus
        rw [List.map_cons, hstatus, hhandle]
        rfl
      · rw [hactions, List.append_assoc]
        rfl

end Orderly

/-- **Failed calls can be left out of a run.** Without the calls that were rejected or aborted, the
others are made on the same host with the same outcome, and the state, the events and the actions are
the same in the end. The statuses of those that handle messages count on from the actions that there
were, in order, and what is added to the actions is what they returned. A handle is the place of its
action, and an action keeps its place however the run goes on. -/
theorem without_failed {m : Module} {h : Host} {rs : List Request} (horderly : m.Orderly h rs) :
    let kept := m.kept h rs
    let handled := kept.filter (·.request.entry.receives)
    m.calls h (kept.map (·.request)) = kept ∧
    (m.after h (kept.map (·.request))).Agrees (m.after h rs) ∧
    (∃ actions : List Action,
      handled.map (MadeCall.returned? m) = actions.map (some ∘ Value.action) ∧
      handled.map (·.call.status) =
        (List.range' h.actions.length actions.length).map (fun handle => .ok (handle : Nat)) ∧
      (m.after h rs).actions = h.actions ++ actions) ∧
    ∀ front back, rs = front ++ back → (m.after h front).actions <+: (m.after h rs).actions := by
  refine ⟨horderly.calls_kept, horderly.after_kept, horderly.exists_actions, ?_⟩
  intro front back hsplit
  subst hsplit
  rw [after_append]
  apply actions_prefix_after
  intro r hr
  exact horderly.entries r (List.mem_append_right front hr)

/-- The counter is set up, counts a message, fails after it has overwritten what was counted, and counts
another one. -/
theorem without_failed_counter :
    let rs : List Request := [⟨initExport, .int 0, {}⟩, ⟨addExport, .int 0, {}⟩,
      ⟨wipeExport, .int 0, {}⟩, ⟨addExport, .int 0, {}⟩]
    let kept : List Request :=
      [⟨initExport, .int 0, {}⟩, ⟨addExport, .int 0, {}⟩, ⟨addExport, .int 0, {}⟩]
    counterModule.Orderly {} rs ∧
      (counterModule.after {} kept).Agrees (counterModule.after {} rs) ∧
      (counterModule.calls {} kept).map (·.call.status) = [.ok 0, .ok 0, .ok 1] := by
  intro rs kept
  have hstatuses : (counterModule.calls {} rs).map (·.call.status) =
      [.ok 0, .ok 0, .ok (-1), .ok 1] := rfl
  have horderly : counterModule.Orderly {} rs := by
    refine ⟨fun r hr => ?_, fun made hmade f hf => ?_⟩
    · simp only [rs, List.mem_cons, List.not_mem_nil, or_false] at hr
      rcases hr with rfl | rfl | rfl | rfl <;> exact ⟨_, _, _, rfl⟩
    · have hstatus := List.mem_map_of_mem (f := fun made : MadeCall => made.call.status) hmade
      rw [hstatuses, hf] at hstatus
      simp at hstatus
  obtain ⟨-, hagrees, -⟩ := without_failed horderly
  exact ⟨horderly, hagrees, rfl⟩

end Module

end ContractKit
