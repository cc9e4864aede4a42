import ContractKit.Proofs.Codec.Normal
import ContractKit.Proofs.Module.Format
import ContractKit.Proofs.Module.Runs

/-!
# `Proofs/Module/State.lean`: the typed state of a run

Whether a contract can read its state depends on the call that wrote it, which may be many failed calls
ago and may have found a state of another length. What carries this through a run is that the bytes of
the state are always those of an exact value (`Written`): a successful call makes them so, whatever they
were before, and no other call touches them. The codecs do the rest.
-/

set_option autoImplicit false

namespace ContractKit.Module

open Value (Same)

variable {settings : LoadedSettings} {decls : List Source.Decl} {chars : Text.CharNames}
  {m : Module} {h : Host} {r : Request}
  {rs : List Request}

/-! ## The last success -/

/-- The last successful call of a run. -/
def lastSuccess? (m : Module) (h : Host) (rs : List Request) : Option MadeCall :=
  ((m.calls h rs).filter fun made => made.call.succeeds).getLast?

theorem lastSuccess?_cons (rs : List Request)
    (hsucceeds : (m.make h r).call.succeeds = true) :
    m.lastSuccess? h (r :: rs) =
      some ((m.lastSuccess? (m.make h r).call.host rs).getD (m.make h r)) := by
  rw [lastSuccess?, calls_cons,
    List.filter_cons_of_pos (p := fun made : MadeCall => made.call.succeeds) hsucceeds,
    List.getLast?_cons]
  rfl

theorem lastSuccess?_cons_of_fails (rs : List Request)
    (hfails : (m.make h r).call.succeeds = false) :
    m.lastSuccess? h (r :: rs) = m.lastSuccess? (m.make h r).call.host rs := by
  rw [lastSuccess?, calls_cons, List.filter_cons_of_neg (by simp [hfails])]
  rfl

theorem mem_calls_of_lastSuccess? {last : MadeCall}
    (hlast : m.lastSuccess? h rs = some last) :
    last ∈ m.calls h rs ∧ last.call.succeeds = true :=
  List.mem_filter.mp (List.mem_of_getLast? hlast)

/-! ## What is written and read -/

/-- The entry point has a state of this type: its plan is made with the codec of the type. -/
def KeepsState (m : Module) (t : Ty) (e : Export) : Prop :=
  ∃ spec place plan, e.body = .entryPoint spec place (some plan) ∧
    Codec.ofType m.facts t = .ok plan.codec

/-- The bytes are those of an exact value. -/
def Written (c : Codec) (data : Bytes) : Prop := ∃ v, c.Exact v ∧ c.encode v = .ok data

variable {t : Ty} {c : Codec}

/-- A successful call writes the state, and nothing but the encoding of the value that it is to be. -/
theorem state_of_succeeds (hc : Codec.ofType m.facts t = .ok c) (hkeeps : m.KeepsState t r.entry)
    (hsucceeds : (m.make h r).call.succeeds = true) :
    ∃ v, (m.make h r).committed? m = some v ∧
      c.encode v = .ok (m.make h r).call.host.state := by
  obtain ⟨spec, place, plan, hbody, hplan⟩ := hkeeps
  obtain rfl : plan.codec = c := Except.ok.inj (hplan.symm.trans hc)
  obtain ⟨v, left, hsuccess, hstored, -⟩ := make_success hbody hsucceeds
  exact ⟨EntryPoint.finalState spec v left, by simp [MadeCall.committed?, hsuccess],
    EntryPoint.encodeState_eq_ok.mp hstored⟩

/-- A call that does not succeed leaves the state as it was. -/
theorem state_of_fails (hkeeps : m.KeepsState t r.entry)
    (hfails : (m.make h r).call.succeeds = false) : (m.make h r).call.host.state = h.state := by
  obtain ⟨spec, place, plan, hbody, -⟩ := hkeeps
  rcases make_host_cases (m := m) (h := h) hbody with hhost | hhost
  · rw [hhost]
    rcases callExport_cases (m := m) hbody r.amount (h.under r.circumstances) with
      heq | ⟨fn, -, hends⟩
    · rw [heq, Host.under_state]
    · obtain ⟨events, hevents⟩ := hends.logs_of_failed hfails
      rw [hevents, Host.under_state]
  · rw [hhost, Host.under_state]

/-- The state is what the last successful call wrote, and what it was if there is none. -/
theorem state_after (hc : Codec.ofType m.facts t = .ok c)
    (hkeeps : ∀ r ∈ rs, m.KeepsState t r.entry) :
    match m.lastSuccess? h rs with
    | none => (m.after h rs).state = h.state
    | some last => ∃ v, last.committed? m = some v ∧ c.encode v = .ok (m.after h rs).state := by
  induction rs generalizing h with
  | nil => rfl
  | cons r rs ih =>
    have hkeep := hkeeps r List.mem_cons_self
    have hrest : ∀ r' ∈ rs, m.KeepsState t r'.entry := by
      intro r' hr'
      exact hkeeps r' (List.mem_cons_of_mem r hr')
    have hnext := ih (h := (m.make h r).call.host) hrest
    rw [after_cons]
    cases hsucceeds : (m.make h r).call.succeeds with
    | false =>
      rw [lastSuccess?_cons_of_fails rs hsucceeds, ← state_of_fails hkeep hsucceeds]
      exact hnext
    | true =>
      rw [lastSuccess?_cons rs hsucceeds]
      cases hlast : m.lastSuccess? (m.make h r).call.host rs with
      | none =>
        rw [hlast] at hnext
        have hsame : (m.after (m.make h r).call.host rs).state = (m.make h r).call.host.state := hnext
        rw [hsame]
        exact state_of_succeeds hc hkeep hsucceeds
      | some last =>
        rw [hlast] at hnext
        exact hnext

/-- What was written of an exact value is handed to the next function as the same value. -/
theorem handed_of_encode (hsound : c.Sound) (hregular : c.Regular) {v : Value} (hv : c.Exact v)
    {data : Bytes} (hdata : c.encode v = .ok data) :
    ∃ w, Same v w ∧ c.decode data = .ok w ∧ c.encode w = .ok data ∧
      ∀ spec fn plan, plan.codec = c → spec.kind = .receive →
        EntryPoint.handed spec fn (some plan) data =
          .ok (.typed (EntryPoint.lastParam fn) plan.byRef w) := by
  obtain ⟨w, hread, hsame, hagain⟩ := Codec.exists_decode_encode hsound hregular hv hdata
  have hdecode : c.decode data = .ok w := Codec.decode_eq_ok.mpr hread
  refine ⟨w, hsame, hdecode, hagain, ?_⟩
  rintro spec fn plan rfl hkind
  simp only [EntryPoint.handed, hkind, EntryPoint.readState_eq_ok.mpr hdecode]
  rfl

/-- A call on what was written of an exact value can read it, -/
theorem readable_make (hsound : c.Sound) (hregular : c.Regular)
    (hc : Codec.ofType m.facts t = .ok c) (hkeeps : m.KeepsState t r.entry)
    (hwritten : Written c h.state) (cause : Option Fault) :
    (m.make h r).call.status ≠ .error (.trap .unreadableState cause) := by
  intro hstatus
  obtain ⟨spec, place, plan, hbody, hplan⟩ := hkeeps
  obtain ⟨v, hv, hdata⟩ := hwritten
  obtain ⟨w, -, -, -, hhanded⟩ := handed_of_encode hsound hregular hv hdata
  rcases callExport_cases (m := m) hbody r.amount (h.under r.circumstances) with heq | ⟨fn, -, hends⟩
  · cases (congrArg Call.status heq).symm.trans hstatus
  · obtain ⟨f, hf⟩ := hends.handed_of_unreadable hstatus
    obtain ⟨hkind, -⟩ := EntryPoint.readState_of_handed hf
    have hok := hhanded spec fn plan (Except.ok.inj (hplan.symm.trans hc)) hkind
    cases hok.symm.trans hf

/-- and leaves what was written of an exact value. -/
theorem written_make (hc : Codec.ofType m.facts t = .ok c) (hkeeps : m.KeepsState t r.entry)
    (hexact : (m.make h r).call.succeeds = true →
      ∀ v, (m.make h r).committed? m = some v → c.Exact v)
    (hwritten : Written c h.state) : Written c (m.make h r).call.host.state := by
  cases hsucceeds : (m.make h r).call.succeeds with
  | true =>
    obtain ⟨v, hcommitted, hdata⟩ := state_of_succeeds hc hkeeps hsucceeds
    exact ⟨v, hexact hsucceeds v hcommitted, hdata⟩
  | false =>
    rw [state_of_fails hkeeps hsucceeds]
    exact hwritten

/-- So no call of a run that starts with such a state fails to read it. -/
theorem readable_calls (hsound : c.Sound) (hregular : c.Regular)
    (hc : Codec.ofType m.facts t = .ok c) (hkeeps : ∀ r ∈ rs, m.KeepsState t r.entry)
    (hexact : ∀ made ∈ m.calls h rs, made.call.succeeds = true →
      ∀ v, made.committed? m = some v → c.Exact v)
    (hwritten : Written c h.state) :
    ∀ made ∈ m.calls h rs, ∀ cause, made.call.status ≠ .error (.trap .unreadableState cause) := by
  induction rs generalizing h with
  | nil =>
    intro made hmade
    cases hmade
  | cons r rs ih =>
    have hkeep := hkeeps r List.mem_cons_self
    have hnext := written_make hc hkeep (hexact _ List.mem_cons_self) hwritten
    intro made hmade
    rcases List.mem_cons.mp hmade with rfl | hmade
    · exact readable_make hsound hregular hc hkeep hwritten
    · refine ih ?_ ?_ hnext made hmade
      · intro r' hr'
        exact hkeeps r' (List.mem_cons_of_mem r hr')
      · intro made' hmade'
        exact hexact made' (List.mem_cons_of_mem _ hmade')

/-- **What is written of the state can always be read back.** The entry points of a contract agree on
the type of its state, keys of the type are fit to be keys, its classes accept all values, and the
values that are written are exact. Once a call has succeeded, the state is, after every further call,
what the last successful one wrote of the value it was to write, and nothing else. All of it is decoded,
as the same value, which is written as the same bytes again, and this is what the next function is
handed. No call is aborted because the state cannot be read. -/
theorem state_readable (hm : ofDecls settings decls chars = .ok m) (hc : Codec.ofType m.facts t = .ok c)
    (hkeys : ∀ d ∈ c.parts, d.keysFit = true) (hbuilds : ∀ d ∈ c.parts, d.buildsAll = true)
    {first : Request} {rest : List Request}
    (hentries : ∀ r ∈ first :: rest, r.entry ∈ m.exports ∧ m.KeepsState t r.entry)
    (hfirst : (m.make h first).call.succeeds = true)
    (hexact : ∀ made ∈ m.calls h (first :: rest), made.call.succeeds = true →
      ∀ v, made.committed? m = some v → c.Exact v) :
    (∀ front, front <+: rest → ∃ last v w,
      m.lastSuccess? h (first :: front) = some last ∧ last.committed? m = some v ∧
      c.encode v = .ok (m.after h (first :: front)).state ∧
      Same v w ∧ c.decode (m.after h (first :: front)).state = .ok w ∧
      c.encode w = .ok (m.after h (first :: front)).state ∧
      ∀ spec fn plan, plan.codec = c → spec.kind = .receive →
        EntryPoint.handed spec fn (some plan) (m.after h (first :: front)).state =
          .ok (.typed (EntryPoint.lastParam fn) plan.byRef w)) ∧
    ∀ made ∈ m.calls h (first :: rest), ∀ cause,
      made.call.status ≠ .error (.trap .unreadableState cause) := by
  obtain ⟨hexported, spec, place, plan, hbody, hplan⟩ := hentries first List.mem_cons_self
  obtain rfl : plan.codec = c := Except.ok.inj (hplan.symm.trans hc)
  have husable := (planned_of_mem_exports hm hexported spec place _ hbody).2 plan rfl
  have hregular : plan.codec.Regular := ⟨husable.writes, husable.reads, hkeys, hbuilds⟩
  have hkeeps : ∀ r ∈ first :: rest, m.KeepsState t r.entry := fun r hr => (hentries r hr).2
  have hmem : m.make h first ∈ m.calls h (first :: rest) := List.mem_cons_self
  constructor
  · rintro front ⟨back, rfl⟩
    have hfront : ∀ r ∈ first :: front, m.KeepsState t r.entry := fun r hr =>
      hkeeps r (List.mem_append_left back hr)
    have hstate := state_after (h := h) hc hfront
    have hlast := lastSuccess?_cons front hfirst
    rw [hlast] at hstate
    obtain ⟨v, hcommitted, hdata⟩ := hstate
    -- the calls of the beginning are calls of the run
    obtain ⟨hmade, hsucceeds⟩ := mem_calls_of_lastSuccess? hlast
    have hv : plan.codec.Exact v := by
      refine hexact _ ?_ hsucceeds v hcommitted
      rw [← List.cons_append, calls_append]
      exact List.mem_append_left _ hmade
    obtain ⟨w, hsame, hdecode, hagain, hhanded⟩ := handed_of_encode husable.sound hregular hv hdata
    exact ⟨_, v, w, hlast, hcommitted, hdata, hsame, hdecode, hagain, hhanded⟩
  · intro made hmade
    rcases List.mem_cons.mp hmade with rfl | hmade
    · obtain ⟨n, hstatus, -⟩ := Call.succeeds_iff.mp hfirst
      intro cause hcause
      cases hstatus.symm.trans hcause
    · obtain ⟨v, hcommitted, hdata⟩ := state_of_succeeds hc (hkeeps first List.mem_cons_self) hfirst
      exact readable_calls husable.sound hregular hc
        (fun r hr => hkeeps r (List.mem_cons_of_mem first hr))
        (fun made hmade => hexact made (List.mem_cons_of_mem _ hmade))
        ⟨v, hexact _ hmem hfirst v hcommitted, hdata⟩ made hmade

/-- The counter is set up and counts a message. -/
theorem state_readable_counter :
    let first : Request := ⟨initExport, .int 0, {}⟩
    let rest : List Request := [⟨addExport, .int 0, {}⟩]
    (counterModule.after {} (first :: rest)).state = [1, 0] ∧
      ∃ last v, counterModule.lastSuccess? {} (first :: rest) = some last ∧
        last.committed? counterModule = some v ∧ counterCodec.encode v = .ok [1, 0] := by
  intro first rest
  have hcommitted : (counterModule.calls {} (first :: rest)).map (MadeCall.committed? counterModule) =
      [some (.int 0), some (.int 1)] := rfl
  have hentries : ∀ r ∈ first :: rest, r.entry ∈ counterModule.exports ∧
      counterModule.KeepsState (.sized .u16) r.entry := by
    intro r hr
    simp only [first, rest, List.mem_cons, List.not_mem_nil, or_false] at hr
    rw [exports_counterModule]
    rcases hr with rfl | rfl
    · exact ⟨.head _, _, _, _, rfl, rfl⟩
    · exact ⟨.tail _ (.head _), _, _, _, rfl, rfl⟩
  have hexact : ∀ made ∈ counterModule.calls {} (first :: rest), made.call.succeeds = true →
      ∀ v, made.committed? counterModule = some v → counterCodec.Exact v := by
    intro made hmade _ v hv
    have hmem := List.mem_map_of_mem (f := MadeCall.committed? counterModule) hmade
    rw [hcommitted, hv] at hmem
    simp only [List.mem_cons, Option.some.injEq, List.not_mem_nil, or_false] at hmem
    rcases hmem with rfl | rfl <;> exact ⟨_, rfl⟩
  obtain ⟨last, v, -, hlast, hcommitted, hdata, -⟩ :=
    (state_readable ofDecls_counterDecls (t := .sized .u16) rfl (by decide) (by decide) hentries rfl
      hexact).1 rest List.prefix_rfl
  have hstate : (counterModule.after {}
      [⟨initExport, .int 0, {}⟩, ⟨addExport, .int 0, {}⟩]).state = [1, 0] := rfl
  exact ⟨hstate, last, v, hlast, hcommitted, hdata.trans (congrArg Except.ok hstate)⟩

end ContractKit.Module
