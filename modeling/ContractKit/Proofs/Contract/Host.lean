import ContractKit.Contract.Host

/-!
# `Proofs/Contract/Host.lean`: what calls change of a host

A host has two kinds of parts. What it tells about a call, its circumstances, is set from outside and
never changed by a call. The state, the events and the actions are what calls work on; of these, code
only ever appends to the last two, which is why a failed call can be undone by cutting them to the
length they had (`rollback_eq`).
-/

set_option autoImplicit false

namespace ContractKit

/-- What a host tells about a call. These change from call to call, while what a host holds (its state,
events and actions) is what calls leave behind. -/
structure Circumstances where
  parameter : Bytes := []
  slotTime : Int := 0
  invoker : Bytes := zeroAccount
  sender : Sender := .account invoker
  owner : Bytes := zeroAccount
  selfAddress : Int × Int := (0, 0)
  selfBalance : Int := 0

namespace Host

def circumstances (h : Host) : Circumstances :=
  ⟨h.parameter, h.slotTime, h.invoker, h.sender, h.owner, h.selfAddress, h.selfBalance⟩

/-- The host with other circumstances. -/
def under (h : Host) (c : Circumstances) : Host :=
  { h with
    parameter := c.parameter
    slotTime := c.slotTime
    invoker := c.invoker
    sender := c.sender
    owner := c.owner
    selfAddress := c.selfAddress
    selfBalance := c.selfBalance }

@[simp] theorem under_state (h : Host) (c : Circumstances) : (h.under c).state = h.state := rfl

@[simp] theorem under_actions (h : Host) (c : Circumstances) : (h.under c).actions = h.actions := rfl

/-- Whether two hosts hold the same, whatever they tell about a call. What they tell is told anew for
each call, so this is all of a host that lasts. -/
structure Agrees (a b : Host) : Prop where
  state : a.state = b.state
  events : a.events = b.events
  actions : a.actions = b.actions

namespace Agrees

variable {a b c : Host}

theorem refl (a : Host) : a.Agrees a := ⟨rfl, rfl, rfl⟩

theorem symm (h : a.Agrees b) : b.Agrees a := ⟨h.state.symm, h.events.symm, h.actions.symm⟩

theorem trans (h : a.Agrees b) (h' : b.Agrees c) : a.Agrees c :=
  ⟨h.state.trans h'.state, h.events.trans h'.events, h.actions.trans h'.actions⟩

theorem under (a : Host) (c : Circumstances) : (a.under c).Agrees a := ⟨rfl, rfl, rfl⟩

/-- Under the same circumstances they cannot be told apart. -/
theorem under_eq (h : a.Agrees b) (c : Circumstances) : a.under c = b.under c := by
  obtain ⟨hstate, hevents, hactions⟩ := h
  simp only [Host.under, hstate, hevents, hactions]

end Agrees

/-- Two hosts that agree are one if they tell the same. -/
theorem eq_of_agrees {a b : Host} (h : a.Agrees b) (hc : a.circumstances = b.circumstances) :
    a = b := by
  have hunder : ∀ x : Host, x.under x.circumstances = x := fun _ => rfl
  rw [← hunder a, hc, h.under_eq, hunder]

/-! ## Logging -/

/-- Events were logged, and nothing else was changed. -/
def Logs (a b : Host) : Prop := ∃ events, b = { a with events := a.events ++ events }

namespace Logs

variable {a b c : Host}

theorem refl (a : Host) : a.Logs a := ⟨[], by rw [List.append_nil]⟩

theorem trans (h : a.Logs b) (h' : b.Logs c) : a.Logs c := by
  obtain ⟨events, rfl⟩ := h
  obtain ⟨more, rfl⟩ := h'
  exact ⟨events ++ more, by rw [List.append_assoc]⟩

theorem log (a : Host) (event : Bytes) : a.Logs (a.log event).2 := by
  unfold Host.log
  split
  · exact refl a
  · split
    · exact refl a
    · exact ⟨[event], rfl⟩

theorem logTimes (event : Bytes) : ∀ (times : Nat) (a : Host), a.Logs (a.logTimes event times).2
  | 0, a => refl a
  | 1, a => log a event
  | n + 2, a => (log a event).trans (logTimes event (n + 1) _)

end Logs

/-! ## Changes -/

/-- What a call can make of a host before it is settled: it adds events and actions, and it changes
the state. -/
structure Leads (a b : Host) : Prop where
  circumstances : b.circumstances = a.circumstances
  events : a.events <+: b.events
  actions : a.actions <+: b.actions

namespace Leads

variable {a b c : Host}

theorem refl (a : Host) : a.Leads a := ⟨rfl, List.prefix_rfl, List.prefix_rfl⟩

theorem trans (h : a.Leads b) (h' : b.Leads c) : a.Leads c :=
  ⟨h'.circumstances.trans h.circumstances, h.events.trans h'.events, h.actions.trans h'.actions⟩

theorem of_logs (h : a.Logs b) : a.Leads b := by
  obtain ⟨events, rfl⟩ := h
  exact ⟨rfl, List.prefix_append _ _, List.prefix_rfl⟩

theorem withState (a : Host) (data : Bytes) : a.Leads { a with state := data } :=
  ⟨rfl, List.prefix_rfl, List.prefix_rfl⟩

theorem register (a : Host) (action : Action) : a.Leads (a.register action).2 :=
  ⟨rfl, List.prefix_rfl, List.prefix_append _ _⟩

end Leads

/-- **Undoing a failed call gives the host of before the call.** Only what was appended is cut off,
which is enough because calls do nothing else to events and actions. -/
theorem rollback_eq {before after : Host} (h : before.Leads after) :
    before.rollback after = before := by
  refine eq_of_agrees ⟨rfl, ?_, ?_⟩ h.circumstances
  · exact (List.prefix_iff_eq_take.mp h.events).symm
  · exact (List.prefix_iff_eq_take.mp h.actions).symm

end Host

end ContractKit
