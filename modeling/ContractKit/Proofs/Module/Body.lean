import ContractKit.Proofs.Codec.Refused
import ContractKit.Proofs.Contract.Host
import ContractKit.Proofs.Module.Evaluated

/-!
# `Proofs/Module/Body.lean`: what a body can do

A body acts through what it was handed: it logs events, it operates on the bytes of the state if it was
handed those, and it changes the value of the state in its frame if it was handed that. `Frame.Leads`
says what is left of the frame it started in, and `Body.Regular` that it is left so however the body
ends, and that it ends with no fault but its own.

The induction over statements is `regular_stmts`. It looks at no host: what each statement does to one
is said by a lemma about the operation that the statement is made of.
-/

set_option autoImplicit false

namespace ContractKit

open Source

/-! ## Frames -/

/-- Whether a function was handed the bytes of the state. -/
def HeldState.IsRaw : HeldState → Prop
  | .raw _ => True
  | _ => False

/-- The states that a handed state can turn into. A body can change the value or the cursor, and never
in which of the three ways the state was handed to it. -/
inductive HeldState.Becomes : HeldState → HeldState → Prop
  | nothing : Becomes .nothing .nothing
  | typed (name : String) (byRef : Bool) (v w : Value) :
      Becomes (.typed name byRef v) (.typed name byRef w)
  | raw (i j : Int) : Becomes (.raw i) (.raw j)

namespace HeldState.Becomes

variable {a b c : HeldState}

theorem refl : ∀ a : HeldState, Becomes a a
  | .nothing => .nothing
  | .typed name byRef v => .typed name byRef v v
  | .raw i => .raw i i

theorem trans (h : Becomes a b) (h' : Becomes b c) : Becomes a c := by
  cases h with
  | nothing => exact h'
  | typed name byRef v w =>
    cases h'
    exact .typed _ _ _ _
  | raw i j =>
    cases h'
    exact .raw _ _

theorem isRaw (h : Becomes a b) : b.IsRaw ↔ a.IsRaw := by
  cases h <;> exact Iff.rfl

end HeldState.Becomes

/-- What is left of a frame when something has run in it. Steps of a body compose by this: it is
reflexive and transitive, and says what no body can do, whatever it is made of. -/
structure Frame.Leads (a b : Frame) : Prop where
  held : a.state.Becomes b.state
  /-- Only who was handed the bytes of the state can have changed them. -/
  host : ∃ data, Host.Logs { a.host with state := data } b.host ∧
    (¬ a.state.IsRaw → data = a.host.state)

namespace Frame.Leads

variable {a b c : Frame}

theorem of_logs (hheld : a.state.Becomes b.state) (h : a.host.Logs b.host) : a.Leads b :=
  ⟨hheld, a.host.state, h, fun _ => rfl⟩

theorem refl (a : Frame) : a.Leads a := of_logs (.refl _) (.refl _)

theorem trans (h : a.Leads b) (h' : b.Leads c) : a.Leads c := by
  obtain ⟨hheld, data, hlogs, hdata⟩ := h
  obtain ⟨hheld', data', hlogs', hdata'⟩ := h'
  obtain ⟨events, hevents⟩ := hlogs
  rw [hevents] at hlogs' hdata'
  obtain ⟨more, hmore⟩ := hlogs'
  refine ⟨hheld.trans hheld', data', ⟨events ++ more, ?_⟩, fun hraw => ?_⟩
  · rw [hmore, ← List.append_assoc]
  · rw [hdata' fun hraw' => hraw (hheld.isRaw.mp hraw')]
    exact hdata hraw

/-- What was handed as a value, or not at all, leaves the bytes of the state alone. -/
theorem logs (h : a.Leads b) (hraw : ¬ a.state.IsRaw) : a.host.Logs b.host := by
  obtain ⟨-, data, hlogs, hdata⟩ := h
  rw [hdata hraw] at hlogs
  exact hlogs

theorem leads (h : a.Leads b) : a.host.Leads b.host := by
  obtain ⟨-, data, hlogs, -⟩ := h
  exact (Host.Leads.withState _ data).trans (.of_logs hlogs)

theorem actions (h : a.Leads b) : b.host.actions = a.host.actions := by
  obtain ⟨-, data, ⟨events, hevents⟩, -⟩ := h
  rw [hevents]

end Frame.Leads

/-! ## Bodies -/

namespace Body

variable {α β : Type}

/-- However it ends, the body leaves its frame so and has no fault but its own. This is proved statement
by statement, and is all that the calls of entry points need to know of a body. -/
structure RegularAt (x : Body α) (frame : Frame) : Prop where
  leads : frame.Leads (x.run frame).2
  faults : Confined Fault.ByContract (x.run frame).1

def Regular (x : Body α) : Prop := ∀ frame, RegularAt x frame

theorem run_bind (x : Body α) (k : α → Body β) (frame : Frame) :
    (x >>= k).run frame =
      match x.run frame with
      | (.ok a, left) => (k a).run left
      | (.error f, left) => (.error f, left) := by
  show (ExceptT.bindCont k (x.run frame).1 (x.run frame).2) = _
  rcases x.run frame with ⟨outcome, left⟩
  cases outcome with
  | ok a => rfl
  | error f => rfl

namespace RegularAt

variable {frame : Frame}

theorem pure (a : α) : RegularAt (pure a : Body α) frame := ⟨.refl frame, .ok a⟩

theorem throw {f : Fault} (h : f.ByContract) : RegularAt (throw f : Body α) frame :=
  ⟨.refl frame, .error h⟩

theorem ofExcept {outcome : Except Fault α} (h : Confined Fault.ByContract outcome) :
    RegularAt (ofExcept outcome) frame := by
  cases outcome with
  | ok a => exact pure a
  | error f => exact throw (h f rfl)

theorem bind {x : Body α} {k : α → Body β} (hx : RegularAt x frame) (hk : ∀ a, (k a).Regular) :
    RegularAt (x >>= k) frame := by
  obtain ⟨hleads, hfaults⟩ := hx
  constructor
  all_goals
    rw [run_bind]
    rcases hrun : x.run frame with ⟨outcome, left⟩
    rw [hrun] at hleads hfaults
    cases outcome
  · exact hleads
  · exact hleads.trans (hk _ left).leads
  · exact .error (hfaults _ rfl)
  · exact (hk _ left).faults

end RegularAt

namespace Regular

theorem pure (a : α) : Regular (pure a : Body α) := fun _ => .pure a

theorem throw {f : Fault} (h : f.ByContract) : Regular (throw f : Body α) := fun _ => .throw h

theorem ofExcept {outcome : Except Fault α} (h : Confined Fault.ByContract outcome) :
    (ofExcept outcome).Regular := fun _ => .ofExcept h

theorem bind {x : Body α} {k : α → Body β} (hx : x.Regular) (hk : ∀ a, (k a).Regular) :
    (x >>= k).Regular := fun frame => (hx frame).bind hk

/-- A body that goes on with what it sees of its frame. -/
theorem get_bind {k : Frame → Body β} (hk : ∀ frame, RegularAt (k frame) frame) :
    (get >>= k).Regular := fun frame => ⟨(hk frame).leads, (hk frame).faults⟩

theorem modify {g : Frame → Frame} (hg : ∀ frame : Frame, frame.Leads (g frame)) :
    Regular (modify g : Body PUnit) := fun frame => ⟨hg frame, .ok _⟩

end Regular

/-! ## Operations -/

section Operations

variable (m : Module)

theorem regular_observe (o : Observation) : (observe o).Regular :=
  .modify fun _ => .of_logs (.refl _) (.refl _)

theorem regular_bind (name : String) (v : Value) : (bind name v).Regular :=
  .modify fun _ => .of_logs (.refl _) (.refl _)

theorem regular_value (e : Expr) : (value m e).Regular :=
  .get_bind fun frame => .ofExcept ((frame.scope m).confined_value e)

theorem regular_codec (t : TypeExpr) : (codec m t).Regular :=
  .get_bind fun frame =>
    .bind (.ofExcept ((frame.scope m).confined_type t)) fun _ =>
      .ofExcept (Codec.confined_ofType (fun _ => trivial) _ _)

theorem regular_logged (event : Bytes) (times : Nat) : (logged event times).Regular := by
  intro frame
  exact ⟨.of_logs (.refl _) (.logTimes event times frame.host), .ok _⟩

theorem regular_log (event : Bytes) (times : Nat) : (log event times).Regular :=
  .bind (regular_logged event times) fun _ => regular_observe _

theorem regular_ensureLogs : ensureLogs.Regular := by
  refine .get_bind fun frame => ?_
  split
  · exact .pure _
  · exact .throw trivial

theorem regular_parameter (t : TypeExpr) : (parameter m t).Regular := by
  refine .bind (regular_codec m t) fun c => .get_bind fun frame => .ofExcept ?_
  unfold Host.parseParameter
  split
  · exact .ok _
  · rename_i f hf
    exact .ite (.ok _) (.error (Codec.confined_decode c _ f hf).byContract)

theorem regular_change {f : Value → Except Fault Value}
    (hf : ∀ v, Confined Fault.ByContract (f v)) : (change f).Regular := by
  refine .get_bind fun frame => ?_
  rcases hstate : frame.state with _ | ⟨name, byRef, v⟩ | cursor
  · exact .throw trivial
  · show RegularAt (ofExcept (f v) >>= _) frame
    cases hv : f v with
    | error f' => exact Regular.throw (hf v f' hv) frame
    | ok w =>
      refine ⟨.of_logs ?_ (.refl _), .ok _⟩
      rw [hstate]
      exact .typed name byRef v w
  · exact .throw trivial

theorem confined_withField (field : String) (v state : Value) :
    Confined Fault.ByContract (withField field v state) := by
  unfold withField
  split
  · split
    · exact .error trivial
    · exact .ok _
    · exact .error trivial
  · exact .error trivial

theorem confined_withItem (v state : Value) : Confined Fault.ByContract (withItem v state) := by
  unfold withItem
  split
  · exact .ok _
  · exact .error trivial

theorem confined_withEntry (key v state : Value) :
    Confined Fault.ByContract (withEntry key v state) := by
  unfold withEntry
  split
  · exact .ite (.ok _) (.error trivial)
  · exact .error trivial

theorem regular_replace (v : Value) : (replace v).Regular := by
  refine .get_bind fun frame => ?_
  split
  · exact regular_change (fun _ => .ok v) frame
  · exact regular_change (confined_withField "value" v) frame

theorem regular_store (operation : Store → α × Store) : (store operation).Regular := by
  refine .get_bind fun frame => ?_
  rcases hstate : frame.state with _ | ⟨name, byRef, v⟩ | cursor
  · exact .throw trivial
  · exact .throw trivial
  · refine ⟨⟨?_, _, .refl _, fun hraw => ?_⟩, .ok _⟩
    · rw [hstate]
      exact .raw _ _
    · rw [hstate] at hraw
      exact absurd trivial hraw

theorem regular_raw (steps : List (Except Fault (StreamStep Value))) : (raw steps).Regular :=
  .bind (regular_store _) fun _ => regular_observe _

theorem regular_steps (operations : List (StreamStep Expr)) : (steps m operations).Regular :=
  .get_bind fun _ => .pure _

theorem confined_holds (comparison : Comparison) (a b : Value) :
    Confined Fault.ByContract (holds comparison a b) := by
  unfold holds
  split
  · exact .ok _
  · split
    · exact .ok _
    · exact .error trivial

/-- A fault that is held back leaves its frame as any other; only the trace tells of it. -/
theorem regular_attempt {x : Body (Option Value)} (hx : x.Regular) :
    Regular (show Body (Option Value) from fun frame =>
      match x.run frame with
      | (.ok result, frame) => (.ok result, frame)
      | (.error f, frame) =>
        if f.isOrdinary then (.ok none, { frame with trace := .fault f :: frame.trace })
        else (.error f, frame)) := by
  intro frame
  obtain ⟨hleads, hfaults⟩ := hx frame
  constructor
  all_goals
    unfold ExceptT.run at *
    dsimp only
    rcases hrun : x frame with ⟨outcome, left⟩
    rw [hrun] at hleads hfaults
    cases outcome
  · dsimp only
    split
    · exact hleads.trans (.of_logs (.refl _) (.refl _))
    · exact hleads
  · exact hleads
  · dsimp only
    split
    · exact .ok _
    · exact .error (hfaults _ rfl)
  · exact .ok _

theorem confined_expect (message : Option String) (result : Result) :
    Confined Fault.ByContract (match message with
      | some text => result.expect text
      | none => result.unwrap) := by
  cases result with
  | ok v => cases message <;> exact .ok _
  | err e => cases message <;> exact .error trivial

end Operations

/-! ## Contract code of any kind -/

/-- **Whatever contract code computes, it acts through what it was handed.** The induction is on what is
left of the code; each node does to its frame what the operation in it does. -/
theorem regular_interact (code : Interaction) : (interact code).Regular := by
  induction code with
  | done result => exact .pure result
  | fail kind text => exact .throw (Fault.byContract_ofKind kind text)
  | look next ih => exact .get_bind fun frame => ih frame.view frame
  | log event next ih =>
    exact .bind regular_ensureLogs fun _ => .bind (regular_logged event 1) fun answer => ih answer
  | operate step next ih => exact .bind (regular_store _) fun answer => ih answer
  | change v next ih => exact .bind (regular_change fun _ => .ok v) fun _ => ih

/-! ## Statements -/

mutual

theorem regular_stmt (m : Module) : ∀ s : Stmt, (stmt m s).Regular
  | .observe e => .bind (regular_value m e) fun _ => .bind (regular_observe _) fun _ => .pure _
  | .log e as => by
    refine .bind regular_ensureLogs fun _ => .bind (regular_value m e) fun v => ?_
    -- the codec is given or that of the value, and the rest is the same
    have hwrite : ∀ c : Codec, Regular (do
        let event ← ofExcept (c.encode v)
        log event 1
        Pure.pure none : Body (Option Value)) := fun c =>
      .bind (.ofExcept ((Codec.confined_encode c v).mono fun _ h => h.byContract)) fun _ =>
        .bind (regular_log _ 1) fun _ => .pure _
    cases as with
    | some t => exact .bind (regular_codec m t) hwrite
    | none => exact .bind (.ofExcept (Codec.confined_ofType (fun _ => trivial) _ _)) hwrite
  | .logBytes e times => by
    refine .bind regular_ensureLogs fun _ => .bind (regular_value m e) fun v => ?_
    cases v with
    | bytes event => exact .bind (regular_log event times) fun _ => .pure _
    | _ => exact .bind (.throw trivial) fun _ => .pure _
  | .parse t => .bind (regular_parameter m t) fun _ => .bind (regular_observe _) fun _ => .pure _
  | .parseOrReject t => by
    refine .bind (regular_parameter m t) fun outcome => ?_
    split
    · exact .bind (regular_bind _ _) fun _ => .pure _
    · exact .bind (regular_observe _) fun _ => .pure _
  | .parseOrFail t message => by
    refine .bind (regular_parameter m t) fun outcome => ?_
    cases Result.ofValue? outcome with
    | none => exact .pure _
    | some result =>
      exact .bind (.ofExcept (confined_expect message result)) fun _ =>
        .bind (regular_bind _ _) fun _ => .pure _
  | .showState => by
    refine .get_bind fun frame => ?_
    split
    · exact .bind (regular_observe _ frame) fun _ => .pure _
    · exact .bind (regular_observe _ frame) fun _ => .pure _
    · exact .bind (.throw trivial) fun _ => .pure _
  | .cursor operations => .bind (regular_steps m operations) fun _ =>
    .get_bind fun frame => .bind (regular_observe _ frame) fun _ => .pure _
  | .raw operations => .bind (regular_steps m operations) fun _ =>
    .bind (regular_raw _) fun _ => .pure _
  | .set field e => .bind (regular_value m e) fun _ =>
    .bind (regular_change (confined_withField _ _)) fun _ => .pure _
  | .replace e => .bind (regular_value m e) fun _ => .bind (regular_replace _) fun _ => .pure _
  | .push e => .bind (regular_value m e) fun _ =>
    .bind (regular_change (confined_withItem _)) fun _ => .pure _
  | .put key e => .bind (regular_value m key) fun _ => .bind (regular_value m e) fun _ =>
    .bind (regular_change (confined_withEntry _ _)) fun _ => .pure _
  | .onlyIf comparison left right body => by
    refine .bind (regular_value m left) fun a => .bind (regular_value m right) fun b =>
      .bind (.ofExcept (confined_holds _ _ _)) fun holds => ?_
    split
    · exact regular_stmts m body
    · exact .pure _
  | .attempt body => regular_attempt (regular_stmts m body)
  | .raise kind message => .throw (Fault.byContract_ofCode kind message)
  | .trap reason => .throw rfl
  | .act code => regular_interact code
  | .ret e => .bind (regular_value m e) fun _ => .pure _

/-- **However a body ends, it has only acted through what it was handed.** By induction over the
statements; each is regular by itself, and regular runs compose. -/
theorem regular_stmts (m : Module) : ∀ ss : List Stmt, (stmts m ss).Regular
  | [] => .pure _
  | s :: rest => by
    refine .bind (regular_stmt m s) fun result => ?_
    split
    · exact .pure _
    · exact regular_stmts m rest

end

end Body

end ContractKit
