import ContractKit.Module.EntryPoint
import ContractKit.Proofs.Contract.Store
import ContractKit.Proofs.Module.Body

/-!
# `Proofs/Module/EntryPoint.lean`: how a call ends

`EntryPoint.Ends` lists the ways in which the call of an entry point can end, each with what it leaves
of the host, and `call_ends` says that there are no others. What is proved about calls is read off this
list, and not off the function that makes them.

A function is run at most once in a call, and `Runs` says that it was: with the state that it was
handed, what it came to, and the frame that it left. Everything before has changed nothing yet, and
everything after is decided by what the function returned and what can be written.
-/

set_option autoImplicit false

namespace ContractKit

namespace FunctionEntry

variable (m : Module) (fn : FunctionEntry) (frame : Frame)

theorem leads_run : frame.Leads (fn.run m frame).2 := by
  have h := (Body.regular_stmts m fn.body frame).leads
  unfold FunctionEntry.run
  rcases hrun : (Body.stmts m fn.body).run frame with ⟨outcome, left⟩
  rw [hrun] at h
  cases outcome with
  | ok result => exact h
  | error f => exact h

theorem confined_run : Confined Fault.ByContract (fn.run m frame).1 := by
  have h := (Body.regular_stmts m fn.body frame).faults
  unfold FunctionEntry.run
  rcases hrun : (Body.stmts m fn.body).run frame with ⟨outcome, left⟩
  rw [hrun] at h
  cases outcome with
  | ok result => exact .ok _
  | error f => exact .error (h f rfl)

end FunctionEntry

theorem Fault.exists_of_isTrap {f : Fault} (hf : f.isTrap = true) :
    ∃ reason cause, f = .trap reason cause := by
  cases f <;> cases hf
  exact ⟨_, _, rfl⟩

namespace Call

/-- Whether the call has the status of a success. -/
def succeeds (call : Call) : Bool :=
  match call.status with
  | .ok n => decide (0 ≤ n)
  | .error _ => false

theorem succeeds_iff {call : Call} : call.succeeds = true ↔ ∃ n, call.status = .ok n ∧ 0 ≤ n := by
  unfold succeeds
  cases call.status <;> simp

/-- Whether the call was rejected or aborted. -/
def failed (call : Call) : Bool :=
  match call.status with
  | .ok n => n == Host.rejected
  | .error f => f.isTrap

/-- A successful call is left as it is. -/
theorem invoke_of_succeeds {before : Host} {call : Call} (h : call.succeeds = true) :
    call.invoke before = call := by
  obtain ⟨n, hstatus, hn⟩ := succeeds_iff.mp h
  have hhost : before.settled call.host call.status = call.host := by
    rw [hstatus, Host.settled, if_neg (by omega)]
  rw [invoke, hhost]

/-- A rejected or aborted call is undone. -/
theorem invoke_host_of_failed {before : Host} {call : Call} (hleads : before.Leads call.host)
    (hfailed : call.succeeds = false) (htrap : ∀ f, call.status = .error f → f.isTrap = true) :
    (call.invoke before).host = before := by
  show before.settled call.host call.status = before
  cases hstatus : call.status with
  | ok n =>
    have hn : ¬ 0 ≤ n := by simpa [succeeds, hstatus] using hfailed
    rw [Host.settled, if_pos (by omega), Host.rollback_eq hleads]
  | error f => rw [Host.settled, if_pos (htrap f hstatus), Host.rollback_eq hleads]

/-- The host keeps what a call left, or puts back what was there before. -/
theorem invoke_host_cases {before : Host} {call : Call} (hleads : before.Leads call.host) :
    (call.invoke before).host = call.host ∨ (call.invoke before).host = before := by
  show before.settled call.host call.status = call.host ∨
    before.settled call.host call.status = before
  cases call.status with
  | ok n =>
    rw [Host.settled, Host.rollback_eq hleads]
    exact (ite_eq_or_eq _ _ _).symm
  | error f =>
    rw [Host.settled, Host.rollback_eq hleads]
    exact (ite_eq_or_eq _ _ _).symm

/-- A call with a fault that does not abort it is left as it is. -/
theorem invoke_host_of_fault {before : Host} {call : Call} {f : Fault}
    (hstatus : call.status = .error f) (hf : f.isTrap = false) :
    (call.invoke before).host = call.host := by
  show before.settled call.host call.status = call.host
  rw [hstatus, Host.settled, if_neg (Bool.not_eq_true _ ▸ hf)]

end Call

namespace EntryPoint

/-! ## The state -/

/-- The state is read as its codec decodes all of the bytes. -/
theorem readState_eq (plan : StatePlan) (data : Bytes) :
    readState plan data =
      match plan.codec.decode data with
      | .ok v => .ok v
      | .error f => .error (if f.isBadValue then .trap .unreadableState (some f) else f) := by
  unfold readState Codec.decode
  exact Store.run_finalize_eq plan.codec.read data ▸ rfl

theorem readState_eq_ok {plan : StatePlan} {data : Bytes} {v : Value} :
    readState plan data = .ok v ↔ plan.codec.decode data = .ok v := by
  rw [readState_eq]
  cases plan.codec.decode data <;> simp

/-- The faults of a state that cannot be read: it aborts the call if it is a bad value, and is let
through otherwise. -/
theorem readState_eq_error {plan : StatePlan} {data : Bytes} {f : Fault}
    (h : readState plan data = .error f) :
    (∃ cause, f = .trap .unreadableState (some cause)) ∨
      (plan.codec.decode data = .error f ∧ f.isBadValue = false) := by
  rw [readState_eq] at h
  cases hdecode : plan.codec.decode data with
  | ok v =>
    rw [hdecode] at h
    cases h
  | error cause =>
    simp only [hdecode, Except.error.injEq] at h
    by_cases hbad : cause.isBadValue = true
    · rw [if_pos hbad] at h
      exact Or.inl ⟨cause, h.symm⟩
    · rw [if_neg hbad] at h
      subst h
      exact Or.inr ⟨rfl, Bool.not_eq_true _ ▸ hbad⟩

theorem encodeState_eq_ok {plan : StatePlan} {v : Value} {data : Bytes} :
    encodeState plan v = .ok data ↔ plan.codec.encode v = .ok data := by
  unfold encodeState
  cases plan.codec.encode v <;> simp

theorem encodeState_eq_error {plan : StatePlan} {v : Value} {f : Fault}
    (h : encodeState plan v = .error f) :
    (∃ cause, f = .trap .unwritableState (some cause)) ∨
      (plan.codec.encode v = .error f ∧ f.isBadValue = false) := by
  unfold encodeState at h
  cases hencode : plan.codec.encode v with
  | ok data =>
    rw [hencode] at h
    cases h
  | error cause =>
    simp only [hencode, Except.error.injEq] at h
    by_cases hbad : cause.isBadValue = true
    · rw [if_pos hbad] at h
      exact Or.inl ⟨cause, h.symm⟩
    · rw [if_neg hbad] at h
      subst h
      exact Or.inr ⟨rfl, Bool.not_eq_true _ ▸ hbad⟩

theorem commit_eq (h : Host) (data : Bytes) : commit h data = { h with state := data } := by
  rw [commit, Store.bytes_overwrite]

/-! ## Running the function -/

/-- What a function is handed of the state: its bytes, nothing, or the value that they are read as. -/
def handed (spec : Spec) (fn : FunctionEntry) (plan? : Option StatePlan) (data : Bytes) :
    Except Fault HeldState :=
  match spec.kind, plan? with
  | _, none => .ok (.raw 0)
  | .init, some _ => .ok .nothing
  | .receive, some plan => (readState plan data).map (.typed (lastParam fn) plan.byRef)

/-- The function of a call was run, with this outcome, and left this frame. -/
def Runs (m : Module) (spec : Spec) (fn : FunctionEntry) (plan? : Option StatePlan) (amount : Value)
    (h : Host) (outcome : Except Fault Value) (left : Frame) : Prop :=
  ∃ held, handed spec fn plan? h.state = .ok held ∧
    fn.run m (frame spec fn amount held h) = (outcome, left)

/-- What the function of a call succeeds with, and the frame that it leaves. -/
def success? (m : Module) (spec : Spec) (fn : FunctionEntry) (plan? : Option StatePlan)
    (amount : Value) (h : Host) : Option (Value × Frame) :=
  match handed spec fn plan? h.state with
  | .error _ => none
  | .ok held =>
    match fn.run m (frame spec fn amount held h) with
    | (.ok (.ok v), left) => some (v, left)
    | _ => none

/-- The value that is written back after a success: the first state, as it was returned, or the state
that was handed out, as it is in the end. -/
def finalState (spec : Spec) (v : Value) (left : Frame) : Value :=
  match spec.kind, left.state with
  | .receive, .typed _ _ w => w
  | _, _ => v

/-- The bytes of the state after a success: those of the value that is written back, or what the
function made of them itself. -/
def stored (spec : Spec) (plan? : Option StatePlan) (v : Value) (left : Frame) :
    Except Fault Bytes :=
  match plan? with
  | none => .ok left.host.state
  | some plan => encodeState plan (finalState spec v left)

section

variable {m : Module} {spec : Spec} {fn : FunctionEntry} {plan? : Option StatePlan}
  {plan : StatePlan} {amount : Value} {h : Host} {outcome : Except Fault Value} {left : Frame}

theorem stored_init (hkind : spec.kind = .init) (v : Value) :
    stored spec (some plan) v left = encodeState plan v := by
  simp only [stored, finalState, hkind]

theorem stored_receive {name : String} {byRef : Bool} {w : Value} (hkind : spec.kind = .receive)
    (hstate : left.state = .typed name byRef w) (v : Value) :
    stored spec (some plan) v left = encodeState plan w := by
  simp only [stored, finalState, hkind, hstate]

/-- Only the reading of the state can fail. -/
theorem readState_of_handed {data : Bytes} {f : Fault}
    (hheld : handed spec fn plan? data = .error f) :
    spec.kind = .receive ∧ ∃ plan, plan? = some plan ∧ readState plan data = .error f := by
  unfold handed at hheld
  cases plan? with
  | none => simp at hheld
  | some plan =>
    cases hkind : spec.kind with
    | init => simp [hkind] at hheld
    | receive =>
      simp only [hkind] at hheld
      cases hread : readState plan data with
      | ok v =>
        rw [hread] at hheld
        cases hheld
      | error f' =>
        rw [hread] at hheld
        cases hheld
        exact ⟨rfl, plan, rfl, hread⟩

theorem not_isRaw_of_handed {held : HeldState} {data : Bytes}
    (hheld : handed spec fn (some plan) data = .ok held) : ¬ held.IsRaw := by
  unfold handed at hheld
  cases hkind : spec.kind with
  | init =>
    simp only [hkind, Except.ok.injEq] at hheld
    subst hheld
    exact id
  | receive =>
    simp only [hkind] at hheld
    cases hread : readState plan data with
    | error f =>
      rw [hread] at hheld
      cases hheld
    | ok v =>
      rw [hread] at hheld
      cases hheld
      exact id

namespace Runs

theorem leads (hrun : Runs m spec fn plan? amount h outcome left) : h.Leads left.host := by
  obtain ⟨held, -, hrun⟩ := hrun
  have hleads := fn.leads_run m (frame spec fn amount held h)
  rw [hrun] at hleads
  exact hleads.leads

theorem actions (hrun : Runs m spec fn plan? amount h outcome left) :
    left.host.actions = h.actions := by
  obtain ⟨held, -, hrun⟩ := hrun
  have hleads := fn.leads_run m (frame spec fn amount held h)
  rw [hrun] at hleads
  exact hleads.actions

/-- A function that is not handed the bytes of the state does nothing to a host but log. -/
theorem logs (hrun : Runs m spec fn (some plan) amount h outcome left) : h.Logs left.host := by
  obtain ⟨held, hheld, hrun⟩ := hrun
  have hleads := fn.leads_run m (frame spec fn amount held h)
  rw [hrun] at hleads
  exact hleads.logs (not_isRaw_of_handed hheld)

/-- A function that is handed a value of the state has one in the end. -/
theorem exists_state (hrun : Runs m spec fn (some plan) amount h outcome left)
    (hkind : spec.kind = .receive) :
    ∃ v w, readState plan h.state = .ok v ∧ left.state = .typed (lastParam fn) plan.byRef w := by
  obtain ⟨held, hheld, hrun⟩ := hrun
  have hleads := fn.leads_run m (frame spec fn amount held h)
  rw [hrun] at hleads
  simp only [handed, hkind] at hheld
  cases hread : readState plan h.state with
  | error f =>
    rw [hread] at hheld
    cases hheld
  | ok v =>
    rw [hread] at hheld
    cases hheld
    refine ⟨v, ?_⟩
    have hbecomes : HeldState.Becomes (.typed (lastParam fn) plan.byRef v) left.state := hleads.held
    cases hstate : left.state with
    | typed name byRef w =>
      rw [hstate] at hbecomes
      cases hbecomes
      exact ⟨w, rfl, rfl⟩
    | nothing | raw _ =>
      rw [hstate] at hbecomes
      cases hbecomes

theorem success?_eq {v : Value} (hrun : Runs m spec fn plan? amount h (.ok (.ok v)) left) :
    success? m spec fn plan? amount h = some (v, left) := by
  obtain ⟨held, hheld, hrun⟩ := hrun
  simp only [success?, hheld, hrun]

theorem byContract {f : Fault} (hrun : Runs m spec fn plan? amount h (.error f) left) :
    f.ByContract := by
  obtain ⟨held, -, hrun⟩ := hrun
  exact fn.confined_run m (frame spec fn amount held h) f (by rw [hrun])

end Runs

end

/-! ## The ends of a call -/

/-- How the call of an entry point can end, with what is known at each end and the host that is left.
Results about calls go through these nine cases and do not open `call` again. -/
inductive Ends (m : Module) (spec : Spec) (fn : FunctionEntry) (plan? : Option StatePlan)
    (amount : Value) (h : Host) : Call → Prop
  /-- The call came with an amount that is not taken. -/
  | refused (hpayable : spec.payable = false) (hamount : amount.beq (.int 0) = false) :
    Ends m spec fn plan? amount h ⟨.ok Host.rejected, h, []⟩
  /-- The state cannot be read. -/
  | unread {f : Fault} (hf : handed spec fn plan? h.state = .error f) :
    Ends m spec fn plan? amount h ⟨.error f, h, []⟩
  /-- The function was left by a fault. -/
  | raised {f : Fault} {left : Frame} (hrun : Runs m spec fn plan? amount h (.error f) left) :
    Ends m spec fn plan? amount h ⟨.error (escaped fn f), left.host, left.trace⟩
  /-- The function returned an error. -/
  | rejected {e : Value} {left : Frame} (hrun : Runs m spec fn plan? amount h (.ok (.err e)) left) :
    Ends m spec fn plan? amount h ⟨.ok Host.rejected, left.host, left.trace⟩
  | notAResult {v : Value} {f : Fault} {left : Frame}
    (hrun : Runs m spec fn plan? amount h (.ok v) left) (hf : resultOf fn v = .error f) :
    Ends m spec fn plan? amount h ⟨.error f, left.host, left.trace⟩
  | notAnAction {v : Value} {f : Fault} {left : Frame}
    (hrun : Runs m spec fn plan? amount h (.ok (.ok v)) left) (hkind : spec.kind = .receive)
    (hf : actionOf fn v = .error f) :
    Ends m spec fn plan? amount h ⟨.error f, left.host, left.trace⟩
  /-- The state cannot be written back. -/
  | unwritten {v : Value} {f : Fault} {left : Frame}
    (hrun : Runs m spec fn plan? amount h (.ok (.ok v)) left)
    (hf : stored spec plan? v left = .error f) :
    Ends m spec fn plan? amount h ⟨.error f, left.host, left.trace⟩
  /-- The contract is set up. -/
  | setUp {v : Value} {data : Bytes} {left : Frame}
    (hrun : Runs m spec fn plan? amount h (.ok (.ok v)) left) (hkind : spec.kind = .init)
    (hdata : stored spec plan? v left = .ok data) :
    Ends m spec fn plan? amount h ⟨.ok 0, { left.host with state := data }, left.trace⟩
  /-- The message is handled, and an action is registered. -/
  | acted {a : Action} {data : Bytes} {left : Frame}
    (hrun : Runs m spec fn plan? amount h (.ok (.ok (.action a))) left)
    (hkind : spec.kind = .receive) (hdata : stored spec plan? (.action a) left = .ok data) :
    Ends m spec fn plan? amount h
      ⟨.ok left.host.actions.length, ({ left.host with state := data }.register a).2, left.trace⟩

section

variable (m : Module) (spec : Spec) (fn : FunctionEntry) (plan? : Option StatePlan)
  (amount : Value) (h : Host)

variable {m spec fn plan? amount h} in
/-- A call ends as what its function returns is settled, if the function gets as far. -/
theorem run_ends {held : HeldState} {settle : Value → HeldState → Host → Except Fault Int × Host}
    (hheld : handed spec fn plan? h.state = .ok held)
    (hsettle : ∀ v left, Runs m spec fn plan? amount h (.ok v) left →
      Ends m spec fn plan? amount h
        ⟨(settle v left.state left.host).1, (settle v left.state left.host).2, left.trace⟩) :
    Ends m spec fn plan? amount h (run m spec fn amount held settle h) := by
  unfold run
  rcases hrun : fn.run m (frame spec fn amount held h) with ⟨outcome, left⟩
  cases outcome with
  | error f => exact .raised ⟨held, hheld, hrun⟩
  | ok v => exact hsettle v left ⟨held, hheld, hrun⟩

variable {m spec fn amount h} in
theorem settleRaw_ends {v : Value} {left : Frame} (hrun : Runs m spec fn none amount h (.ok v) left) :
    Ends m spec fn none amount h
      ⟨(settleRaw spec fn v left.host).1, (settleRaw spec fn v left.host).2, left.trace⟩ := by
  cases v with
  | ok w =>
    show Ends m spec fn none amount h
      ⟨(finish spec fn w left.host).1, (finish spec fn w left.host).2, left.trace⟩
    unfold finish
    cases hkind : spec.kind with
    | init => exact .setUp hrun hkind rfl
    | receive =>
      cases w with
      | action a => exact .acted hrun hkind rfl
      | _ => exact .notAnAction hrun hkind rfl
  | err e => exact .rejected hrun
  | _ => exact .notAResult hrun rfl

variable {m spec fn amount h} in
theorem settleInit_ends {plan : StatePlan} {v : Value} {left : Frame} (hkind : spec.kind = .init)
    (hrun : Runs m spec fn (some plan) amount h (.ok v) left) :
    Ends m spec fn (some plan) amount h
      ⟨(settleInit fn plan v left.host).1, (settleInit fn plan v left.host).2, left.trace⟩ := by
  cases v with
  | ok w =>
    simp only [settleInit, resultOf]
    cases hdata : encodeState plan w with
    | error f => exact .unwritten hrun ((stored_init hkind w).trans hdata)
    | ok data => exact .setUp hrun hkind ((stored_init hkind w).trans hdata)
  | err e => exact .rejected hrun
  | _ => exact .notAResult hrun rfl

variable {m spec fn amount h} in
theorem settleReceive_ends {plan : StatePlan} {name : String} {byRef : Bool} {v state : Value}
    {left : Frame} (hkind : spec.kind = .receive) (hstate : left.state = .typed name byRef state)
    (hrun : Runs m spec fn (some plan) amount h (.ok v) left) :
    Ends m spec fn (some plan) amount h
      ⟨(settleReceive fn plan state v left.host).1, (settleReceive fn plan state v left.host).2,
        left.trace⟩ := by
  cases v with
  | ok w =>
    cases w with
    | action a =>
      have hstored : stored spec (some plan) (.action a) left = encodeState plan state :=
        stored_receive hkind hstate (.action a)
      simp only [settleReceive, resultOf, actionOf]
      cases hdata : encodeState plan state with
      | error f => exact .unwritten hrun (hstored.trans hdata)
      | ok data =>
        simp only [commit_eq]
        exact .acted hrun hkind (hstored.trans hdata)
    | _ => exact .notAnAction hrun hkind rfl
  | err e => exact .rejected hrun
  | _ => exact .notAResult hrun rfl

/-- **There are no other ends of a call.** It is the one place where the definition of `call` is taken
apart. -/
theorem call_ends : Ends m spec fn plan? amount h (call m spec fn plan? amount h) := by
  unfold call
  split
  case isTrue hrefused =>
    simp only [Bool.and_eq_true, Bool.not_eq_true'] at hrefused
    exact .refused hrefused.1 hrefused.2
  case isFalse =>
    cases plan? with
    | none =>
      have hheld : handed spec fn none h.state = .ok (.raw 0) := by
        unfold handed
        cases spec.kind <;> rfl
      cases hkind : spec.kind <;> exact run_ends hheld fun v left hrun => settleRaw_ends hrun
    | some plan =>
      cases hkind : spec.kind with
      | init =>
        have hheld : handed spec fn (some plan) h.state = .ok .nothing := by
          simp only [handed, hkind]
        exact run_ends hheld fun v left hrun => settleInit_ends hkind hrun
      | receive =>
        have hheld : handed spec fn (some plan) h.state =
            (readState plan h.state).map (.typed (lastParam fn) plan.byRef) := by
          simp only [handed, hkind]
        cases hread : readState plan h.state with
        | error f =>
          rw [hread] at hheld
          simp only [hread]
          exact .unread hheld
        | ok state =>
          rw [hread] at hheld
          simp only [hread]
          refine run_ends hheld fun v left hrun => ?_
          obtain ⟨-, w, -, hleft⟩ := hrun.exists_state hkind
          rw [hleft]
          exact settleReceive_ends hkind hleft hrun

end

/-- The faults that a call ends with although they do not abort it, each with the host that is left.
Nobody undoes such a call, and what it has done stays. -/
inductive Uncaught (m : Module) (spec : Spec) (fn : FunctionEntry) (plan? : Option StatePlan)
    (amount : Value) (h : Host) : Fault → Host → Prop
  /-- The codec of the state refuses the bytes of the state, by a fault that is no bad value. Nothing
  was done yet. -/
  | unread {plan : StatePlan} {f : Fault} (hplan : plan? = some plan) (hbad : f.isBadValue = false)
    (hdecode : plan.codec.decode h.state = .error f) : Uncaught m spec fn plan? amount h f h
  /-- The codec of the state refuses what is to be written, by a fault that is no bad value. Events
  can have been logged. -/
  | unwritten {plan : StatePlan} {v : Value} {f : Fault} {left : Host} (hplan : plan? = some plan)
    (hbad : f.isBadValue = false) (hencode : plan.codec.encode v = .error f) (hlogs : h.Logs left) :
    Uncaught m spec fn plan? amount h f left
  /-- The function was left by a fault that is no ordinary one. Whatever the function did is done. -/
  | exit {f : Fault} {left : Frame} (hrun : Runs m spec fn plan? amount h (.error f) left)
    (hexit : f.isOrdinary = false) : Uncaught m spec fn plan? amount h f left.host

namespace Ends

variable {m : Module} {spec : Spec} {fn : FunctionEntry} {plan? : Option StatePlan}
  {plan : StatePlan} {amount : Value} {h : Host} {call : Call}

/-- **Whatever becomes of a call, it has only appended to the events and the actions.** The state may be
any other one, so this is what undoing needs and no more. -/
theorem leads (hends : Ends m spec fn plan? amount h call) : h.Leads call.host := by
  cases hends with
  | refused _ _ | unread _ => exact .refl h
  | raised hrun | rejected hrun | notAResult hrun _ | notAnAction hrun _ _ | unwritten hrun _ =>
    exact hrun.leads
  | setUp hrun _ _ => exact hrun.leads.trans (.withState _ _)
  | acted hrun _ _ => exact (hrun.leads.trans (.withState _ _)).trans (.register _ _)

/-- A call that fails has written nothing and registered nothing, unless the function was handed the
bytes of the state. -/
theorem logs_of_failed (hends : Ends m spec fn (some plan) amount h call)
    (hfailed : call.succeeds = false) : h.Logs call.host := by
  cases hends with
  | refused _ _ | unread _ => exact .refl h
  | raised hrun | rejected hrun | notAResult hrun _ | notAnAction hrun _ _ | unwritten hrun _ =>
    exact hrun.logs
  | setUp _ _ _ => cases hfailed
  | acted hrun _ _ => simp [Call.succeeds] at hfailed

/-- A call with the status of no success is a rejected one. -/
theorem status_of_failed (hends : Ends m spec fn plan? amount h call) {n : Int}
    (hstatus : call.status = .ok n) (hn : n < 0) : n = Host.rejected := by
  cases hends with
  | refused _ _ | rejected _ =>
    cases hstatus
    rfl
  | unread _ | raised _ | notAResult _ _ | notAnAction _ _ _ | unwritten _ _ => cases hstatus
  | setUp _ _ _ | acted _ _ _ =>
    cases hstatus
    omega

/-- A function's fault aborts the call, or it is no ordinary one and leaves the call as it is. -/
theorem escaped_cases (fn : FunctionEntry) (f : Fault) :
    (escaped fn f).isTrap = true ∨ escaped fn f = f ∧ f.isOrdinary = false := by
  unfold escaped
  cases f.isOrdinary with
  | true => exact .inl rfl
  | false => exact .inr ⟨rfl, rfl⟩

theorem isTrap_of_resultOf {v : Value} {f : Fault} (hf : resultOf fn v = .error f) :
    f.isTrap = true := by
  cases v <;> cases hf <;> rfl

theorem isTrap_of_actionOf {v : Value} {f : Fault} (hf : actionOf fn v = .error f) :
    f.isTrap = true := by
  cases v <;> cases hf <;> rfl

/-- **The fault of a call aborts it, or it is one of those that nothing catches.** -/
theorem fault_cases (hends : Ends m spec fn plan? amount h call) {f : Fault}
    (hstatus : call.status = .error f) :
    f.isTrap = true ∨ Uncaught m spec fn plan? amount h f call.host := by
  have hlogs : ∀ plan, plan? = some plan → h.Logs call.host := by
    rintro plan rfl
    exact hends.logs_of_failed (by rw [Call.succeeds, hstatus])
  cases hends with
  | refused _ _ | rejected _ | setUp _ _ _ | acted _ _ _ => cases hstatus
  | unread hf =>
    cases hstatus
    obtain ⟨-, plan, rfl, hread⟩ := readState_of_handed hf
    rcases readState_eq_error hread with ⟨cause, rfl⟩ | ⟨hdecode, hbad⟩
    · exact Or.inl rfl
    · exact Or.inr (.unread rfl hbad hdecode)
  | @raised f' _ hrun =>
    cases hstatus
    rcases escaped_cases fn f' with htrap | ⟨heq, hexit⟩
    · exact Or.inl htrap
    · rw [heq]
      exact Or.inr (.exit hrun hexit)
  | notAResult _ hf =>
    cases hstatus
    exact Or.inl (isTrap_of_resultOf hf)
  | notAnAction _ _ hf =>
    cases hstatus
    exact Or.inl (isTrap_of_actionOf hf)
  | unwritten hrun hf =>
    cases hstatus
    cases plan? with
    | none => cases hf
    | some plan =>
      rcases encodeState_eq_error hf with ⟨cause, rfl⟩ | ⟨hencode, hbad⟩
      · exact Or.inl rfl
      · exact Or.inr (.unwritten rfl hbad hencode (hlogs plan rfl))

/-- Only a state that cannot be read aborts a call with the reason that it cannot. -/
theorem handed_of_unreadable (hends : Ends m spec fn plan? amount h call) {cause : Option Fault}
    (hstatus : call.status = .error (.trap .unreadableState cause)) :
    ∃ f, handed spec fn plan? h.state = .error f := by
  cases hends with
  | refused _ _ | rejected _ | setUp _ _ _ | acted _ _ _ => cases hstatus
  | unread hf => exact ⟨_, hf⟩
  | @raised f left hrun =>
    -- the fault of a function gets this reason only if it had it, and it never does
    have hby := hrun.byContract
    unfold escaped at hstatus
    split at hstatus
    · cases hstatus
    · cases hstatus
      cases hby
  | @notAResult v _ _ _ hf =>
    cases hstatus
    cases v <;> cases hf
  | @notAnAction v _ _ _ _ hf =>
    cases hstatus
    cases v <;> cases hf
  | unwritten _ hf =>
    cases hstatus
    cases plan? with
    | none => cases hf
    | some plan =>
      rcases encodeState_eq_error hf with ⟨cause', htrap⟩ | ⟨hencode, -⟩
      · cases htrap
      · cases (Codec.confined_encode _ _ _ hencode).byContract

/-- **What a successful call leaves**: the state that is stored, and an action if it was to return
one. -/
theorem success_cases (hends : Ends m spec fn plan? amount h call) (hsucceeds : call.succeeds = true) :
    ∃ v left data, Runs m spec fn plan? amount h (.ok (.ok v)) left ∧
      stored spec plan? v left = .ok data ∧
      ((spec.kind = .init ∧ call.status = .ok 0 ∧ call.host = { left.host with state := data }) ∨
        ∃ a, spec.kind = .receive ∧ v = .action a ∧ call.status = .ok h.actions.length ∧
          call.host = ({ left.host with state := data }.register a).2) := by
  cases hends with
  | refused _ _ | rejected _ | unread _ | raised _ | notAResult _ _ | notAnAction _ _ _
  | unwritten _ _ => cases hsucceeds
  | setUp hrun hkind hdata => exact ⟨_, _, _, hrun, hdata, Or.inl ⟨hkind, rfl, rfl⟩⟩
  | acted hrun hkind hdata =>
    refine ⟨_, _, _, hrun, hdata, Or.inr ⟨_, hkind, rfl, ?_, rfl⟩⟩
    rw [hrun.actions]

end Ends

end EntryPoint

end ContractKit
