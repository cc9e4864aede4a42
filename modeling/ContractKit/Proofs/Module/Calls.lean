import ContractKit.Proofs.Module.EntryPoint
import ContractKit.Proofs.Module.Exported

/-!
# `Proofs/Module/Calls.lean`: the call of an exported entry point

What can be said of every call of every entry point, whatever its function does. Through the host, a
call that does not succeed leaves no trace, with exceptions that are stated exactly: the faults that
nothing catches (`invoke_ends`). Without the host's help, an entry point with a typed
state is all or nothing for the state and the actions (`callExport_typed`).
-/

set_option autoImplicit false

namespace ContractKit

open EntryPoint (Ends Runs Uncaught)

namespace Module

variable {settings : LoadedSettings} {decls : List Source.Decl} {chars : Text.CharNames}
  {m : Module} {e : Export}
  {spec : Spec} {place : Nat} {plan? : Option StatePlan}

/-- A call of an entry point is one of its function. -/
theorem callExport_cases (hbody : e.body = .entryPoint spec place plan?) (amount : Value) (h : Host) :
    m.callExport e amount h = ⟨.ok Host.rejected, h, []⟩ ∨
      ∃ fn, m.functions[place]? = some fn ∧
        Ends m spec fn plan? amount h (m.callExport e amount h) := by
  simp only [callExport, hbody]
  cases m.functions[place]? with
  | none => exact Or.inl rfl
  | some fn => exact Or.inr ⟨fn, rfl, EntryPoint.call_ends m spec fn plan? amount h⟩

theorem leads_callExport (hbody : e.body = .entryPoint spec place plan?) (amount : Value) (h : Host) :
    h.Leads (m.callExport e amount h).host := by
  rcases callExport_cases (m := m) hbody amount h with heq | ⟨fn, -, hends⟩
  · rw [heq]
    exact .refl h
  · exact hends.leads

/-- The only negative status is that of a rejected call. -/
theorem status_of_failed (hbody : e.body = .entryPoint spec place plan?) {amount : Value} {h : Host}
    {n : Int} (hstatus : (m.callExport e amount h).status = .ok n) (hn : n < 0) :
    n = Host.rejected := by
  rcases callExport_cases (m := m) hbody amount h with heq | ⟨fn, -, hends⟩
  · rw [heq] at hstatus
    cases hstatus
    rfl
  · exact hends.status_of_failed hstatus hn

/-! ## Through the host -/

/-- **A call through the host ends with a success, or it is rejected or aborted and the host is as it
was.** Only the faults that nothing catches escape this: those of the codec of the state that are no bad
values, and those by which the function leaves without an ordinary fault. `Uncaught` says of each what
is left of the host. -/
theorem invoke_ends (hbody : e.body = .entryPoint spec place plan?) (amount : Value) (h : Host) :
    let call := (m.callExport e amount h).invoke h
    (∃ n, call.status = .ok n ∧ 0 ≤ n) ∨
      (call.status = .ok Host.rejected ∧ call.host = h) ∨
      (∃ reason cause, call.status = .error (.trap reason cause) ∧ call.host = h) ∨
      ∃ fn f, m.functions[place]? = some fn ∧ call.status = .error f ∧ f.isTrap = false ∧
        Uncaught m spec fn plan? amount h f call.host := by
  intro call
  have hleads := leads_callExport (m := m) hbody amount h
  cases hstatus : (m.callExport e amount h).status with
  | ok n =>
    by_cases hn : 0 ≤ n
    · exact Or.inl ⟨n, hstatus, hn⟩
    · have hfailed : (m.callExport e amount h).succeeds = false := by
        simp [Call.succeeds, hstatus, hn]
      have htraps : ∀ f, (m.callExport e amount h).status = .error f → f.isTrap = true := by
        intro f hf
        cases hstatus.symm.trans hf
      have hundone : call.host = h := Call.invoke_host_of_failed hleads hfailed htraps
      obtain rfl := status_of_failed hbody hstatus (by omega)
      exact Or.inr (Or.inl ⟨hstatus, hundone⟩)
  | error f =>
    have hfailed : (m.callExport e amount h).succeeds = false := by
      simp [Call.succeeds, hstatus]
    by_cases htrap : f.isTrap = true
    · have htraps : ∀ f', (m.callExport e amount h).status = .error f' → f'.isTrap = true := by
        intro f' hf'
        cases hstatus.symm.trans hf'
        exact htrap
      have hundone : call.host = h := Call.invoke_host_of_failed hleads hfailed htraps
      obtain ⟨reason, cause, rfl⟩ := Fault.exists_of_isTrap htrap
      exact Or.inr (Or.inr (Or.inl ⟨reason, cause, hstatus, hundone⟩))
    -- nothing is undone, and what is left of the host is what the function left
    · rcases callExport_cases (m := m) hbody amount h with heq | ⟨fn, hfn, hends⟩
      · cases (congrArg Call.status heq).symm.trans hstatus
      have huncaught := (hends.fault_cases hstatus).resolve_left htrap
      rw [Bool.not_eq_true] at htrap
      have hleft : call.host = (m.callExport e amount h).host :=
        Call.invoke_host_of_fault hstatus htrap
      rw [← hleft] at huncaught
      exact Or.inr (Or.inr (Or.inr ⟨fn, f, hfn, hstatus, htrap, huncaught⟩))

/-- **The codec of a state lets little through**: to read, what a class raises for the values that it
rejects; to write, an item or a field that the value lacks. Both are no bad values here, or the call
would have been aborted. -/
theorem fault_of_uncaught {fn : FunctionEntry} {amount : Value} {h left : Host} {f : Fault}
    (huncaught : Uncaught m spec fn plan? amount h f left) :
    (∃ plan, plan? = some plan ∧ plan.codec.ReadFault f ∧ left = h) ∨
      (∃ plan, plan? = some plan ∧ plan.codec.WriteFault f ∧ h.Logs left) ∨
      ∃ frame, Runs m spec fn plan? amount h (.error f) frame ∧ f.isOrdinary = false ∧
        left = frame.host := by
  cases huncaught with
  | unread hplan _ hdecode =>
    exact Or.inl ⟨_, hplan, Codec.confined_decode _ _ f hdecode, rfl⟩
  | unwritten hplan _ hencode hlogs =>
    exact Or.inr (Or.inl ⟨_, hplan, Codec.confined_encode _ _ f hencode, hlogs⟩)
  | exit hrun hexit => exact Or.inr (Or.inr ⟨_, hrun, hexit, rfl⟩)

section Partial

/-- Log an event, and set the contract up with an address that has one part only. -/
def partialBody : List Source.Stmt :=
  [.logBytes (.bytes [1]) 1, .ret (.ok (.record "ContractAddress" true [("index", .int 1)]))]

/-- A contract whose state is the address of another one. -/
def partialDecls : List Source.Decl :=
  [.function "init" [("ctx", none), ("amount", none), ("logger", none)]
    (some (.ok (.type (.cls .contractAddress)))) partialBody
    [.entryPoint .init
      (some ⟨[], [("contract", .text "c"), ("payable", .bool true), ("enable_logger", .bool true)]⟩)]]

def partialExport : Export :=
  ⟨"init_c", .init, .entryPoint ⟨.init, "c", none, true, true, false, none⟩ 0
    (some ⟨.contractAddress, false⟩), "init"⟩

/-- What the declaration makes. -/
def partialModule : Module where
  functions :=
    [⟨"init", [("ctx", none), ("amount", none), ("logger", none)], some (.ok (.cls .contractAddress)),
      partialBody, [partialExport]⟩]
  names := [("init", .function 0)]

/-- The codec of the state does let faults through. -/
theorem invoke_ends_partial :
    let call := (partialModule.callExport partialExport (.int 0) {}).invoke {}
    ∃ fn f, call.status = .error f ∧ f.isTrap = false ∧
      Uncaught partialModule ⟨.init, "c", none, true, true, false, none⟩ fn
        (some ⟨.contractAddress, false⟩) (.int 0) {} f call.host := by
  intro call
  have hstatus : call.status = .error Codec.missingItem := rfl
  rcases invoke_ends (m := partialModule) (show partialExport.body = _ from rfl) (.int 0) {} with
    ⟨n, hn, -⟩ | ⟨hn, -⟩ | ⟨reason, cause, htrap, -⟩ | ⟨fn, f, -, hf, htrap, huncaught⟩
  · cases hstatus.symm.trans hn
  · cases hstatus.symm.trans hn
  · cases hstatus.symm.trans htrap
  · exact ⟨fn, f, hf, htrap, huncaught⟩

/-- A call that comes from a declaration, ends with a fault that does not abort it, and keeps the event
that it logged. -/
theorem invoke_partial :
    ofDecls (.ok {}) partialDecls = .ok partialModule ∧ partialExport ∈ partialModule.exports ∧
      let call := (partialModule.callExport partialExport (.int 0) {}).invoke {}
      call.status = .error (.raised (.other "IndexError") "tuple index out of range") ∧
        call.host.events = [[1]] ∧ ({} : Host).events = [] :=
  ⟨rfl, .head _, rfl, rfl, rfl⟩

end Partial

/-! ## A contract to try the results on

It counts the messages to it. The third of its entry points works on the bytes of the state and fails
after it has overwritten them. -/

section Counter

/-- Set the contract up with nothing counted. -/
def initBody : List Source.Stmt := [.ret (.ok (.int 0))]

/-- Count a message. -/
def addBody : List Source.Stmt :=
  [.replace (.add (.variable "state") (.int 1)), .ret (.ok (.action .accept))]

/-- Overwrite what was counted, and fail. -/
def wipeBody : List Source.Stmt := [.raw [.write [7]], .ret (.err (.text "no"))]

/-- The declaration of the contract. -/
def counterDecls : List Source.Decl :=
  [.function "init" [("ctx", none), ("amount", none)] (some (.ok (.type (.sized .u16)))) initBody
    [.entryPoint .init (some ⟨[], [("contract", .text "c"), ("payable", .bool true)]⟩)],
   .function "add" [("ctx", none), ("amount", none), ("state", some (.stateRef (.type (.sized .u16))))]
    none addBody
    [.entryPoint .receive
      (some ⟨[], [("contract", .text "c"), ("name", .text "add"), ("payable", .bool true)]⟩)],
   .function "wipe" [("ctx", none), ("amount", none), ("state", none)] none wipeBody
    [.entryPoint .receive
      (some ⟨[], [("contract", .text "c"), ("name", .text "wipe"), ("payable", .bool true),
        ("low_level", .bool true)]⟩)]]

/-- How what was counted is written and read. -/
def counterCodec : Codec := .int ⟨2, false⟩

def initExport : Export :=
  ⟨"init_c", .init, .entryPoint ⟨.init, "c", none, true, false, false, none⟩ 0
    (some ⟨counterCodec, false⟩), "init"⟩

def addExport : Export :=
  ⟨"c.add", .receive, .entryPoint ⟨.receive, "c", some "add", true, false, false, none⟩ 1
    (some ⟨counterCodec, true⟩), "add"⟩

def wipeExport : Export :=
  ⟨"c.wipe", .receive, .entryPoint ⟨.receive, "c", some "wipe", true, false, true, none⟩ 2 none,
    "wipe"⟩

/-- What the declaration makes. -/
def counterModule : Module where
  functions :=
    [⟨"init", [("ctx", none), ("amount", none)], some (.ok (.sized .u16)), initBody, [initExport]⟩,
     ⟨"add", [("ctx", none), ("amount", none), ("state", some (.stateRef (.sized .u16)))], none,
       addBody, [addExport]⟩,
     ⟨"wipe", [("ctx", none), ("amount", none), ("state", none)], none, wipeBody, [wipeExport]⟩]
  names := [("init", .function 0), ("add", .function 1), ("wipe", .function 2)]

theorem ofDecls_counterDecls : ofDecls (.ok {}) counterDecls = .ok counterModule := rfl

theorem exports_counterModule : counterModule.exports = [initExport, addExport, wipeExport] := rfl

end Counter

/-! ## By itself -/

/-- **An entry point with a typed state is all or nothing**, also when it is called without the host's
help. A call with an amount that is not taken is rejected whatever the functions of the module are. A
call that does not succeed changes neither the state nor the actions. A call that succeeds leaves the
state that its function returned, or had in its hands in the end, as its encoding and nothing else, and
the action that was returned behind those that were there, at the place that is its status. -/
theorem callExport_typed (hm : ofDecls settings decls chars = .ok m) (he : e ∈ m.exports)
    (hbody : e.body = .entryPoint spec place plan?) (htyped : spec.lowLevel = false)
    (amount : Value) (h : Host) :
    let call := m.callExport e amount h
    (spec.payable = false → amount.beq (.int 0) = false →
      ∀ functions, { m with functions }.callExport e amount h = ⟨.ok Host.rejected, h, []⟩) ∧
    (¬ (∃ n, call.status = .ok n ∧ 0 ≤ n) →
      call.host.state = h.state ∧ call.host.actions = h.actions) ∧
    ∀ n, call.status = .ok n → 0 ≤ n →
      ∃ fn plan v left, m.functions[place]? = some fn ∧ plan? = some plan ∧
        Runs m spec fn plan? amount h (.ok (.ok v)) left ∧
        match spec.kind with
        | .init =>
          n = 0 ∧ plan.codec.encode v = .ok call.host.state ∧ call.host.actions = h.actions
        | .receive =>
          ∃ a w, v = .action a ∧
            left.state = .typed (EntryPoint.lastParam fn) plan.byRef w ∧
            plan.codec.encode w = .ok call.host.state ∧ n = h.actions.length ∧
            call.host.actions = h.actions ++ [a] := by
  intro call
  obtain ⟨hplan, -⟩ := planned_of_mem_exports hm he spec place plan? hbody
  obtain ⟨plan, rfl⟩ : ∃ plan, plan? = some plan := by
    cases plan? with
    | none => exact absurd (hplan.mp rfl) (by simp [htyped])
    | some plan => exact ⟨plan, rfl⟩
  -- an amount that is not taken is refused before anything is looked up, so any functions will do
  refine ⟨fun hpayable hamount functions => ?_, fun hfailed => ?_, fun n hstatus hn => ?_⟩
  · simp only [callExport, hbody]
    cases functions[place]? with
    | none => rfl
    | some fn => simp [EntryPoint.call, hpayable, hamount]
  · rcases callExport_cases (m := m) hbody amount h with heq | ⟨fn, -, hends⟩
    · rw [show call = _ from heq]
      exact ⟨rfl, rfl⟩
    · rw [← Call.succeeds_iff, Bool.not_eq_true] at hfailed
      obtain ⟨events, hevents⟩ := hends.logs_of_failed hfailed
      rw [show call.host = _ from hevents]
      exact ⟨rfl, rfl⟩
  · rcases callExport_cases (m := m) hbody amount h with heq | ⟨fn, hfn, hends⟩
    · rw [show call = _ from heq] at hstatus
      cases hstatus
      cases hn
    obtain ⟨v, left, data, hrun, hstored, hcases⟩ :=
      hends.success_cases (Call.succeeds_iff.mpr ⟨n, hstatus, hn⟩)
    refine ⟨fn, plan, v, left, hfn, rfl, hrun, ?_⟩
    -- what is stored is what was returned, or what the function has made of the state it was handed
    rcases hcases with ⟨hkind, hzero, hhost⟩ | ⟨a, hkind, rfl, hhandle, hhost⟩
    · rw [EntryPoint.stored_init hkind, EntryPoint.encodeState_eq_ok] at hstored
      have hn : n = 0 := by simpa [call, hzero] using hstatus.symm
      simp only [hkind, call, hhost]
      exact ⟨hn, hstored, hrun.actions⟩
    · obtain ⟨-, w, -, hstate⟩ := hrun.exists_state hkind
      rw [EntryPoint.stored_receive hkind hstate, EntryPoint.encodeState_eq_ok] at hstored
      have hn : n = h.actions.length := by simpa [call, hhandle] using hstatus.symm
      have hactions : call.host.actions = h.actions ++ [a] := by
        simp only [call, hhost, Host.register, hrun.actions]
      have hdata : call.host.state = data := by simp only [call, hhost, Host.register]
      simp only [hkind, hdata]
      exact ⟨a, w, rfl, hstate, hstored, hn, hactions⟩

theorem callExport_typed_counter :
    let call := counterModule.callExport addExport (.int 0) { state := [5, 0] }
    call.status = .ok 0 ∧
      ∃ a w, counterCodec.encode w = .ok call.host.state ∧ call.host.actions = [] ++ [a] := by
  have he : addExport ∈ counterModule.exports := by
    rw [exports_counterModule]
    exact .tail _ (.head _)
  obtain ⟨fn, plan, v, left, -, hplan, -, a, w, -, -, hw, -, hactions⟩ :=
    (callExport_typed ofDecls_counterDecls he rfl rfl (.int 0) { state := [5, 0] }).2.2 0 rfl
      (Int.le_refl 0)
  cases hplan
  exact ⟨rfl, a, w, hw, hactions⟩

end Module

end ContractKit
