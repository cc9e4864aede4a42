import ContractKit.Proofs.Module.Runs

/-!
# `Proofs/Module/Logged.lean`: the events of a call

A body logs events one after the other, and between two of them it leaves the events of its host alone.
So the events that a logging finds are those that were there when the call began, followed by those
that the call has appended so far (`loggings_split`). The log is full at a number of events, whoever
appended them: earlier calls count, as far as they were not undone (`full_iff`).
-/

set_option autoImplicit false

namespace ContractKit

open Source

/-! ## Logging an event -/

/-- An event as it is logged, with the host of that moment. The answer to it and the host after it
follow from these two. -/
structure Logging where
  before : Host
  event : Bytes

namespace Logging

/-- What the logger answers. -/
def answer (l : Logging) : Value := (l.before.log l.event).1

def after (l : Logging) : Host := (l.before.log l.event).2

/-- The answer to an event that finds the log full. -/
def full : Value := .err (.member Host.logError "FULL" none)

/-- Whether the event is appended. -/
def Appends (l : Logging) : Prop :=
  l.event.length ≤ Host.maxEventSize ∧ l.before.events.length < Host.maxEvents

instance (l : Logging) : Decidable l.Appends := inferInstanceAs (Decidable (_ ∧ _))

/-- The events that are appended. -/
def appended (ls : List Logging) : List Bytes := (ls.filter fun l => l.Appends).map (·.event)

theorem appended_append (ls ls' : List Logging) :
    appended (ls ++ ls') = appended ls ++ appended ls' := by
  simp only [appended, List.filter_append, List.map_append]

variable {l : Logging}

theorem log_of_appends (h : l.Appends) :
    l.answer = .ok .none ∧ l.after = { l.before with events := l.before.events ++ [l.event] } := by
  obtain ⟨hsize, hroom⟩ := h
  simp only [answer, after, Host.log, if_neg (Nat.not_lt.mpr hsize), if_neg (Nat.not_le.mpr hroom),
    and_self]

theorem log_of_full (hsize : l.event.length ≤ Host.maxEventSize) (hfull : ¬ l.Appends) :
    l.answer = full ∧ l.after = l.before := by
  have hroom : Host.maxEvents ≤ l.before.events.length :=
    Nat.not_lt.mp fun hroom => hfull ⟨hsize, hroom⟩
  simp only [answer, after, full, Host.log, if_neg (Nat.not_lt.mpr hsize), if_pos hroom, and_self]

theorem after_of_not_appends (h : ¬ l.Appends) : l.after = l.before := by
  by_cases hsize : l.event.length ≤ Host.maxEventSize
  · exact (log_of_full hsize h).2
  · simp only [after, Host.log, if_pos (Nat.not_le.mp hsize)]

theorem events_after (l : Logging) : l.after.events = l.before.events ++ appended [l] := by
  by_cases h : l.Appends
  · simp [(log_of_appends h).2, appended, h]
  · simp [after_of_not_appends h, appended, h]

end Logging

/-- The loggings follow on each other: each finds the events that the one before it left, from the first
events to the last. -/
def Follow : List Bytes → List Logging → List Bytes → Prop
  | events, [], events' => events' = events
  | events, l :: ls, events' => l.before.events = events ∧ Follow l.after.events ls events'

namespace Follow

theorem append {ls ls' : List Logging} {a b c : List Bytes} (h : Follow a ls b)
    (h' : Follow b ls' c) : Follow a (ls ++ ls') c := by
  induction ls generalizing a with
  | nil =>
    cases h
    exact h'
  | cons l ls ih => exact ⟨h.1, ih h.2⟩

theorem of_append {ls ls' : List Logging} {a c : List Bytes} (h : Follow a (ls ++ ls') c) :
    ∃ b, Follow a ls b ∧ Follow b ls' c := by
  induction ls generalizing a with
  | nil => exact ⟨a, rfl, h⟩
  | cons l ls ih =>
    obtain ⟨b, hfront, hback⟩ := ih h.2
    exact ⟨b, ⟨h.1, hfront⟩, hback⟩

/-- What is appended is all that is new. -/
theorem eq_append {ls : List Logging} {a b : List Bytes} (h : Follow a ls b) :
    b = a ++ Logging.appended ls := by
  induction ls generalizing a with
  | nil =>
    cases h
    exact (List.append_nil _).symm
  | cons l ls ih =>
    obtain ⟨rfl, hrest⟩ := h
    rw [ih hrest, Logging.events_after, List.append_assoc, ← Logging.appended_append]
    rfl

end Follow

namespace Host

/-- The loggings of an event that is logged a number of times. -/
def loggings (h : Host) (event : Bytes) : Nat → List Logging
  | 0 => []
  | n + 1 => ⟨h, event⟩ :: (h.log event).2.loggings event n

/-- The answer to an event that is logged a number of times is that to the last one. -/
theorem logTimes_eq (event : Bytes) (n : Nat) (h : Host) :
    ∃ l, (h.loggings event (n + 1)).getLast? = some l ∧
      h.logTimes event (n + 1) = (l.answer, l.after) := by
  induction n generalizing h with
  | zero => exact ⟨⟨h, event⟩, rfl, rfl⟩
  | succ n ih =>
    obtain ⟨l, hlast, htimes⟩ := ih (h.log event).2
    refine ⟨l, ?_, htimes⟩
    rw [loggings, List.getLast?_cons, hlast]
    rfl

theorem follow_loggings (event : Bytes) (times : Nat) (h : Host) :
    Follow h.events (h.loggings event times) (h.logTimes event times).2.events := by
  induction times generalizing h with
  | zero => rfl
  | succ n ih =>
    refine ⟨rfl, ?_⟩
    cases n with
    | zero => rfl
    | succ n => exact ih (h.log event).2

end Host

/-! ## What bodies leave alone -/

namespace Body

variable {α β γ : Type} {view : Frame → γ}

/-- However it ends, the body leaves this part of its frame alone. -/
def Keeps (view : Frame → γ) (x : Body α) : Prop := ∀ frame, view (x.run frame).2 = view frame

namespace Keeps

theorem pure (a : α) : Keeps view (pure a : Body α) := fun _ => rfl

theorem throw (f : Fault) : Keeps view (throw f : Body α) := fun _ => rfl

theorem ofExcept (outcome : Except Fault α) : Keeps view (ofExcept outcome) := by
  cases outcome with
  | ok a => exact .pure a
  | error f => exact .throw f

theorem bind {x : Body α} {k : α → Body β} (hx : Keeps view x) (hk : ∀ a, Keeps view (k a)) :
    Keeps view (x >>= k) := by
  intro frame
  have hframe := hx frame
  rw [run_bind]
  rcases hrun : x.run frame with ⟨outcome, left⟩
  rw [hrun] at hframe
  cases outcome with
  | ok a => exact (hk a left).trans hframe
  | error f => exact hframe

/-- A body that goes on with what it sees of its frame. -/
theorem get_bind {k : Frame → Body β} (hk : ∀ frame, view ((k frame).run frame).2 = view frame) :
    Keeps view (get >>= k) := hk

theorem modify {g : Frame → Frame} (hg : ∀ frame, view (g frame) = view frame) :
    Keeps view (modify g : Body PUnit) := hg

/-- What leaves the frame as it is leaves every part of it alone. -/
theorem of_id {x : Body α} (hx : Keeps id x) : Keeps view x := fun frame => congrArg view (hx frame)

end Keeps

/-- A body after one that leaves the frame as it is. -/
theorem run_bind_of_keeps {x : Body α} (hx : Keeps id x) (k : α → Body β) (frame : Frame) :
    (x >>= k).run frame =
      match (x.run frame).1 with
      | .ok a => (k a).run frame
      | .error f => (.error f, frame) := by
  have hframe : (x.run frame).2 = frame := hx frame
  rw [run_bind]
  rcases hrun : x.run frame with ⟨outcome, left⟩
  rw [hrun] at hframe
  cases hframe
  cases outcome <;> rfl

section Operations

variable (m : Module)

theorem keeps_value (e : Expr) : Keeps id (value m e) :=
  .get_bind fun frame => Keeps.ofExcept _ frame

theorem keeps_codec (t : TypeExpr) : Keeps id (codec m t) :=
  .get_bind fun frame => Keeps.bind (.ofExcept _) (fun _ => .ofExcept _) frame

theorem keeps_parameter (t : TypeExpr) : Keeps id (parameter m t) :=
  .bind (keeps_codec m t) fun _ => .get_bind fun frame => Keeps.ofExcept _ frame

theorem keeps_ensureLogs : Keeps id ensureLogs := by
  refine .get_bind fun frame => ?_
  split
  · rfl
  · rfl

theorem keeps_steps (operations : List (StreamStep Expr)) : Keeps id (steps m operations) :=
  .get_bind fun _ => rfl

end Operations

/-- What a body observes of an event that it logs is the answer to it. -/
theorem run_log (event : Bytes) (n : Nat) (frame : Frame) :
    ∃ l, (frame.host.loggings event (n + 1)).getLast? = some l ∧
      (log event (n + 1)).run frame =
        (.ok (), { frame with host := l.after, trace := .value l.answer :: frame.trace }) := by
  obtain ⟨l, hlast, htimes⟩ := frame.host.logTimes_eq event n
  refine ⟨l, hlast, ?_⟩
  show (Except.ok (), { frame with
    host := (frame.host.logTimes event (n + 1)).2
    trace := .value (frame.host.logTimes event (n + 1)).1 :: frame.trace }) = _
  rw [htimes]

/-- The events of the host of a frame. -/
def events (frame : Frame) : List Bytes := frame.host.events

theorem keeps_observe (o : Observation) : Keeps events (observe o) := .modify fun _ => rfl

theorem keeps_bind (name : String) (v : Value) : Keeps events (bind name v) := .modify fun _ => rfl

theorem keeps_change (f : Value → Except Fault Value) : Keeps events (change f) := by
  refine .get_bind fun frame => ?_
  rcases frame.state with _ | ⟨name, byRef, v⟩ | cursor
  · rfl
  · show events ((ofExcept (f v) >>= _ : Body Unit).run frame).2 = events frame
    cases f v with
    | error f' => rfl
    | ok w => rfl
  · rfl

theorem keeps_replace (v : Value) : Keeps events (replace v) := by
  refine .get_bind fun frame => ?_
  split
  · exact keeps_change _ frame
  · exact keeps_change _ frame

theorem keeps_store (operation : Store → α × Store) : Keeps events (store operation) := by
  refine .get_bind fun frame => ?_
  rcases frame.state with _ | ⟨name, byRef, v⟩ | cursor
  · rfl
  · rfl
  · rfl

theorem keeps_raw (steps : List (Except Fault (StreamStep Value))) : Keeps events (raw steps) :=
  .bind (keeps_store _) fun _ => keeps_observe _

/-! ## The loggings of a body -/

section Loggings

variable (m : Module)

/-- The event that a value is encoded as, if there is a logger. -/
def encoded (e : Expr) (as : Option TypeExpr) : Body Bytes := do
  ensureLogs
  let v ← value m e
  let c ← match as with
    | some t => codec m t
    | none => ofExcept (Codec.ofType m.facts v.ownType)
  ofExcept (c.encode v)

/-- The event that a value is, if there is a logger. -/
def given (e : Expr) : Body Bytes := do
  ensureLogs
  match ← value m e with
  | .bytes event => pure event
  | .text _ => throw (.raised .type "string argument without an encoding")
  | v => throw v.sizeFault

/-- Whether two values compare as asked where they stand. -/
def decides (comparison : Comparison) (left right : Expr) : Body Bool := do
  let a ← value m left
  let b ← value m right
  ofExcept (holds comparison a b)

/-- The loggings of an event that is logged a number of times once it is known. -/
def loggingsOf (event : Body Bytes) (times : Nat) (frame : Frame) : List Logging :=
  match (event.run frame).1 with
  | .ok event => frame.host.loggings event times
  | .error _ => []

/-- The loggings of what goes on with the answer to an operation. -/
def loggingsAfter {α : Type} (x : Body α) (ls : α → Frame → List Logging) (frame : Frame) :
    List Logging :=
  match x.run frame with
  | (.ok a, left) => ls a left
  | (.error _, _) => []

/-- The loggings of contract code of any kind that is run in a frame, in their order. -/
def codeLoggings : Interaction → Frame → List Logging
  | .done _, _ | .fail _ _, _ => []
  | .look next, frame => codeLoggings (next frame.view) frame
  | .log event next, frame =>
    match ensureLogs.run frame with
    | (.ok _, _) =>
      ⟨frame.host, event⟩ ::
        codeLoggings (next (frame.host.log event).1) { frame with host := (frame.host.log event).2 }
    | (.error _, _) => []
  | .operate step next, frame =>
    loggingsAfter (store fun s => s.step step) (fun answer left => codeLoggings (next answer) left)
      frame
  | .change v next, frame =>
    loggingsAfter (change fun _ => .ok v) (fun _ left => codeLoggings next left) frame

mutual

/-- The loggings of a statement that is run in a frame. -/
def stmtLoggings : Stmt → Frame → List Logging
  | .log e as, frame => loggingsOf (encoded m e as) 1 frame
  | .logBytes e times, frame => loggingsOf (given m e) times frame
  | .onlyIf comparison left right body, frame =>
    match ((decides m comparison left right).run frame).1 with
    | .ok true => loggings body frame
    | _ => []
  | .attempt body, frame => loggings body frame
  | .act code, frame => codeLoggings code frame
  | _, _ => []

/-- The loggings of a body that is run in a frame, in their order. -/
def loggings : List Stmt → Frame → List Logging
  | [], _ => []
  | s :: rest, frame =>
    stmtLoggings s frame ++
      match (stmt m s).run frame with
      | (.ok none, left) => loggings rest left
      | _ => []

end

theorem keeps_encoded (e : Expr) (as : Option TypeExpr) : Keeps id (encoded m e as) := by
  refine .bind keeps_ensureLogs fun _ => .bind (keeps_value m e) fun v => ?_
  cases as with
  | some t => exact .bind (keeps_codec m t) fun _ => .ofExcept _
  | none => exact .bind (.ofExcept _) fun _ => .ofExcept _

theorem keeps_given (e : Expr) : Keeps id (given m e) := by
  refine .bind keeps_ensureLogs fun _ => .bind (keeps_value m e) fun v => ?_
  cases v with
  | bytes event => exact .pure event
  | _ => exact .throw _

theorem keeps_decides (comparison : Comparison) (left right : Expr) :
    Keeps id (decides m comparison left right) :=
  .bind (keeps_value m left) fun _ => .bind (keeps_value m right) fun _ => .ofExcept _

theorem stmt_log (e : Expr) (as : Option TypeExpr) :
    stmt m (.log e as) = (do
      let event ← encoded m e as
      log event 1
      pure none) := by
  cases as <;> simp only [stmt, encoded, bind_assoc]

theorem stmt_logBytes (e : Expr) (times : Nat) :
    stmt m (.logBytes e times) = (do
      let event ← given m e
      log event times
      pure none) := by
  simp only [stmt, given, bind_assoc]
  refine bind_congr fun _ => bind_congr fun v => ?_
  cases v <;> rfl

theorem stmt_onlyIf (comparison : Comparison) (left right : Expr) (body : List Stmt) :
    stmt m (.onlyIf comparison left right body) = (do
      if ← decides m comparison left right then stmts m body else pure none) := by
  simp only [stmt, decides, bind_assoc]

/-- A run of these statements leaves the events that its loggings lead to. -/
def Explains (x : Body (Option Value)) (ls : Frame → List Logging) : Prop :=
  ∀ frame, Follow (events frame) (ls frame) (events (x.run frame).2)

theorem Explains.of_keeps {x : Body (Option Value)} (hx : Keeps events x) :
    Explains x fun _ => [] := hx

/-- Logging an event that is known without a change to the frame. -/
theorem explains_log {event : Body Bytes} (hevent : Keeps id event) (times : Nat) :
    Explains (do
      let event ← event
      log event times
      pure none) (loggingsOf event times) := by
  intro frame
  rw [run_bind_of_keeps hevent, loggingsOf]
  cases (event.run frame).1 with
  | error f => rfl
  | ok event => exact frame.host.follow_loggings event times

/-- An operation that logs nothing, and a body that goes on with its answer. -/
theorem Explains.bind_keeps {α : Type} {x : Body α} (hx : Keeps events x)
    {k : α → Body (Option Value)} {ls : α → Frame → List Logging} (hk : ∀ a, Explains (k a) (ls a)) :
    Explains (x >>= k) (loggingsAfter x ls) := by
  intro frame
  have hframe := hx frame
  rw [run_bind, loggingsAfter]
  rcases hrun : x.run frame with ⟨outcome, left⟩
  rw [hrun] at hframe
  cases outcome with
  | error f => exact hframe
  | ok a =>
    have hrest := hk a left
    rw [hframe] at hrest
    exact hrest

/-- **Contract code of any kind appends events by its loggings only.** -/
theorem explains_interact (code : Interaction) : Explains (interact code) (codeLoggings code) := by
  induction code with
  | done result => exact .of_keeps (.pure result)
  | fail kind text => exact .of_keeps (.throw _)
  | look next ih => exact fun frame => ih frame.view frame
  | log event next ih =>
    intro frame
    simp only [interact, codeLoggings]
    rw [run_bind_of_keeps keeps_ensureLogs]
    rcases hlogs : ensureLogs.run frame with ⟨outcome, left⟩
    cases outcome with
    | error f => rfl
    | ok _ => exact ⟨rfl, ih _ { frame with host := (frame.host.log event).2 }⟩
  | operate step next ih =>
    have hrest := Explains.bind_keeps (keeps_store fun s => s.step step) ih
    exact hrest
  | change v next ih =>
    have hrest := Explains.bind_keeps (keeps_change fun _ => .ok v) fun _ => ih
    exact hrest

/-- The condition logs nothing, so what is logged is logged by the body or not at all. -/
theorem explains_onlyIf (comparison : Comparison) (left right : Expr) {body : List Stmt}
    (hbody : Explains (stmts m body) (loggings m body)) :
    Explains (stmt m (.onlyIf comparison left right body))
      (stmtLoggings m (.onlyIf comparison left right body)) := by
  intro frame
  rw [stmt_onlyIf, run_bind_of_keeps (keeps_decides m comparison left right)]
  simp only [stmtLoggings]
  cases ((decides m comparison left right).run frame).1 with
  | error f => rfl
  | ok holds =>
    cases holds with
    | true => exact hbody frame
    | false => rfl

/-- An exception that is caught changes the trace only, and one that is not changes nothing. -/
theorem events_attempt (body : List Stmt) (frame : Frame) :
    events ((stmt m (.attempt body)).run frame).2 = events ((stmts m body).run frame).2 := by
  simp only [stmt]
  unfold ExceptT.run
  dsimp only
  rcases (stmts m body) frame with ⟨outcome, left⟩
  cases outcome with
  | ok result => rfl
  | error f =>
    dsimp only
    split
    · rfl
    · rfl

/-- What a body has logged stays logged, whether its exception is caught or not. -/
theorem explains_attempt {body : List Stmt} (hbody : Explains (stmts m body) (loggings m body)) :
    Explains (stmt m (.attempt body)) (stmtLoggings m (.attempt body)) := by
  intro frame
  rw [events_attempt]
  exact hbody frame

mutual

theorem explains_stmt : ∀ s : Stmt, Explains (stmt m s) (stmtLoggings m s)
  | .log e as => stmt_log m e as ▸ explains_log (keeps_encoded m e as) 1
  | .logBytes e times => stmt_logBytes m e times ▸ explains_log (keeps_given m e) times
  | .onlyIf comparison left right body =>
    explains_onlyIf m comparison left right (explains_stmts body)
  | .attempt body => explains_attempt m (explains_stmts body)
  | .observe e => .of_keeps (.bind (keeps_value m e).of_id fun _ =>
    .bind (keeps_observe _) fun _ => .pure _)
  | .parse t => .of_keeps (.bind (keeps_parameter m t).of_id fun _ =>
    .bind (keeps_observe _) fun _ => .pure _)
  | .parseOrReject t => by
    refine .of_keeps (.bind (keeps_parameter m t).of_id fun outcome => ?_)
    split
    · exact .bind (keeps_bind _ _) fun _ => .pure _
    · exact .bind (keeps_observe _) fun _ => .pure _
  | .parseOrFail t message => by
    refine .of_keeps (.bind (keeps_parameter m t).of_id fun outcome => ?_)
    cases Result.ofValue? outcome with
    | none => exact .pure _
    | some result => exact .bind (.ofExcept _) fun _ => .bind (keeps_bind _ _) fun _ => .pure _
  | .showState => by
    refine .of_keeps (.get_bind fun frame => ?_)
    split
    · exact Keeps.bind (keeps_observe _) (fun _ => .pure _) frame
    · exact Keeps.bind (keeps_observe _) (fun _ => .pure _) frame
    · rfl
  | .cursor operations => .of_keeps (.bind (keeps_steps m operations).of_id fun _ =>
    .get_bind fun frame => Keeps.bind (keeps_observe _) (fun _ => .pure _) frame)
  | .raw operations => .of_keeps (.bind (keeps_steps m operations).of_id fun _ =>
    .bind (keeps_raw _) fun _ => .pure _)
  | .set field e => .of_keeps (.bind (keeps_value m e).of_id fun _ =>
    .bind (keeps_change _) fun _ => .pure _)
  | .replace e => .of_keeps (.bind (keeps_value m e).of_id fun _ =>
    .bind (keeps_replace _) fun _ => .pure _)
  | .push e => .of_keeps (.bind (keeps_value m e).of_id fun _ =>
    .bind (keeps_change _) fun _ => .pure _)
  | .put key e => .of_keeps (.bind (keeps_value m key).of_id fun _ =>
    .bind (keeps_value m e).of_id fun _ => .bind (keeps_change _) fun _ => .pure _)
  | .raise _ _ => .of_keeps (.throw _)
  | .trap _ => .of_keeps (.throw _)
  | .act code => explains_interact code
  | .ret e => .of_keeps (.bind (keeps_value m e).of_id fun _ => .pure _)

/-- **All that a body appends to the events it appends by its loggings**, each of which finds what the
one before it left. -/
theorem explains_stmts : ∀ ss : List Stmt, Explains (stmts m ss) (loggings m ss)
  | [] => .of_keeps (.pure _)
  | s :: rest => by
    intro frame
    have hfirst := explains_stmt s frame
    rw [stmts, run_bind, loggings]
    rcases hrun : (stmt m s).run frame with ⟨outcome, left⟩
    rw [hrun] at hfirst
    rcases outcome with f | _ | v
    · exact hfirst.append rfl
    · exact hfirst.append (explains_stmts rest left)
    · exact hfirst.append rfl

end

end Loggings

end Body

/-! ## Calls -/

namespace EntryPoint

variable (m : Module) (spec : Spec) (fn : FunctionEntry) (plan? : Option StatePlan) (amount : Value)
  (h : Host)

/-- The loggings of a call, none of them if its function is not run. -/
def loggings : List Logging :=
  if !spec.payable && !amount.beq (.int 0) then []
  else
    match handed spec fn plan? h.state with
    | .error _ => []
    | .ok held => Body.loggings m fn.body (frame spec fn amount held h)

variable {m spec fn plan? amount h} in
theorem Runs.follow {outcome : Except Fault Value} {left : Frame}
    (hrefused : (!spec.payable && !amount.beq (.int 0)) = false)
    (hrun : Runs m spec fn plan? amount h outcome left) :
    Follow h.events (loggings m spec fn plan? amount h) left.host.events := by
  obtain ⟨held, hheld, hrun⟩ := hrun
  have hbody := Body.explains_stmts m fn.body (frame spec fn amount held h)
  rw [FunctionEntry.run] at hrun
  rw [loggings, hrefused, hheld]
  rcases hstmts : (Body.stmts m fn.body).run (frame spec fn amount held h) with ⟨result, left'⟩
  rw [hstmts] at hbody hrun
  cases result <;> cases hrun <;> exact hbody

/-- The loggings of a call lead to the events that it leaves, before it is settled. -/
theorem follow_call :
    Follow h.events (loggings m spec fn plan? amount h)
      (call m spec fn plan? amount h).host.events := by
  by_cases hrefused : (!spec.payable && !amount.beq (.int 0)) = true
  · simp only [loggings, call, hrefused, if_true]
    rfl
  rw [Bool.not_eq_true] at hrefused
  have hends := call_ends m spec fn plan? amount h
  generalize call m spec fn plan? amount h = made at hends ⊢
  cases hends with
  | refused hpayable hamount => simp [hpayable, hamount] at hrefused
  | unread hf =>
    rw [loggings, hrefused, hf]
    rfl
  | raised hrun | rejected hrun | notAResult hrun _ | notAnAction hrun _ _ | unwritten hrun _
  | setUp hrun _ _ | acted hrun _ _ => exact hrun.follow hrefused

end EntryPoint

/-- The loggings of a call that was made. -/
def MadeCall.loggings (m : Module) (made : MadeCall) : List Logging :=
  match made.request.entry.body with
  | .entryPoint spec place plan? =>
    match m.functions[place]? with
    | some fn => EntryPoint.loggings m spec fn plan? made.request.amount made.before
    | none => []
  | _ => []

namespace Module

variable {m : Module} {h : Host} {r : Request} {rs : List Request}

theorem follow_make (hentry : r.entry.IsEntryPoint) :
    Follow h.events ((m.make h r).loggings m)
      (m.callExport r.entry r.amount (h.under r.circumstances)).host.events := by
  obtain ⟨spec, place, plan?, hbody⟩ := hentry
  have hrequest : (m.make h r).request = r := rfl
  simp only [MadeCall.loggings, hrequest, hbody, callExport]
  cases m.functions[place]? with
  | none => rfl
  | some fn => exact EntryPoint.follow_call m spec fn plan? r.amount (h.under r.circumstances)

/-- A failed call is undone, and any other is left as it is. -/
theorem make_host (hentry : r.entry.IsEntryPoint) :
    (m.make h r).call.host =
      if (m.make h r).call.failed then h.under r.circumstances
      else (m.callExport r.entry r.amount (h.under r.circumstances)).host := by
  obtain ⟨spec, place, plan?, hbody⟩ := hentry
  have hleads := leads_callExport (m := m) hbody r.amount (h.under r.circumstances)
  unfold Call.failed
  cases hstatus : (m.make h r).call.status with
  | ok n =>
    by_cases hn : 0 ≤ n
    · have hkept : (n == Host.rejected) = false := by
        simp only [Host.rejected, beq_eq_false_iff_ne]
        omega
      have hsucceeds := Call.succeeds_iff.mpr ⟨n, hstatus, hn⟩
      rw [if_neg (by simp [hkept])]
      exact congrArg Call.host (Call.invoke_of_succeeds hsucceeds)
    · have hfailed : (m.make h r).call.succeeds = false := by simp [Call.succeeds, hstatus, hn]
      rw [status_of_failed hbody hstatus (by omega), if_pos (by simp)]
      refine Call.invoke_host_of_failed hleads hfailed fun f hf => ?_
      cases hstatus.symm.trans hf
  | error f =>
    by_cases htrap : f.isTrap = true
    · have hfailed : (m.make h r).call.succeeds = false := by simp [Call.succeeds, hstatus]
      rw [if_pos htrap]
      refine Call.invoke_host_of_failed hleads hfailed fun f' hf => ?_
      cases hstatus.symm.trans hf
      exact htrap
    · rw [if_neg htrap]
      exact Call.invoke_host_of_fault hstatus (Bool.not_eq_true _ ▸ htrap)

/-- The events that calls have appended, one after the other. -/
def appendedBy (m : Module) (made : List MadeCall) : List Bytes :=
  made.flatMap fun call => Logging.appended (call.loggings m)

/-- **The events after a run are those of before and what the calls have appended that did not fail.**
By induction over the calls of the run, each of which starts from the host that the one before it left.
-/
theorem events_after (hentries : ∀ r ∈ rs, r.entry.IsEntryPoint) :
    (m.after h rs).events = h.events ++ m.appendedBy (m.kept h rs) := by
  induction rs generalizing h with
  | nil => exact (List.append_nil _).symm
  | cons r rs ih =>
    have hentry := hentries r List.mem_cons_self
    have hrest : ∀ r' ∈ rs, r'.entry.IsEntryPoint := by
      intro r' hr'
      exact hentries r' (List.mem_cons_of_mem r hr')
    rw [after_cons, ih hrest]
    cases hfailed : (m.make h r).call.failed with
    | true =>
      have hundone : (m.make h r).call.host.events = h.events := by
        rw [make_host hentry, hfailed]
        rfl
      rw [kept_cons_of_failed rs hfailed, hundone]
    | false =>
      have hleft : (m.make h r).call.host.events =
          h.events ++ Logging.appended ((m.make h r).loggings m) := by
        rw [make_host hentry, hfailed]
        exact (follow_make hentry).eq_append
      rw [kept_cons rs hfailed, hleft, List.append_assoc]
      rfl

/-- What a logging of a call finds: the events of before the call, and those that the call has appended
already. -/
theorem loggings_split (hentry : r.entry.IsEntryPoint) {own later : List Logging} {l : Logging}
    (hsplit : (m.make h r).loggings m = own ++ l :: later) :
    l.before.events = h.events ++ Logging.appended own := by
  have hfollow := follow_make (m := m) (h := h) hentry
  rw [hsplit] at hfollow
  obtain ⟨found, hown, hfound, -⟩ := hfollow.of_append
  rw [hfound, hown.eq_append]

/-- **The log is full at a number of events, and the events of earlier calls are among them.** An event
that is not too large is refused if and only if the events that the host held before the first call of
the run, those that calls before this one appended without failing, and those that this call has
appended are that many together. Otherwise it is appended, and nothing else is changed. So it is the
call's own events that count on a host that had none before the call, and only there. -/
theorem full_iff {front : List Request} (hentries : ∀ r' ∈ front ++ [r], r'.entry.IsEntryPoint)
    {own later : List Logging} {l : Logging}
    (hsplit : (m.make (m.after h front) r).loggings m = own ++ l :: later)
    (hsize : l.event.length ≤ Host.maxEventSize) :
    let earlier := h.events ++ m.appendedBy (m.kept h front)
    l.before.events = earlier ++ Logging.appended own ∧
    (l.answer = Logging.full ↔
      Host.maxEvents ≤ earlier.length + (Logging.appended own).length) ∧
    (l.answer = Logging.full → l.after = l.before) ∧
    (l.answer ≠ Logging.full → l.answer = .ok .none ∧
      l.after = { l.before with events := l.before.events ++ [l.event] }) := by
  intro earlier
  have hentry := hentries r (List.mem_append_right front List.mem_cons_self)
  have hfront : ∀ r' ∈ front, r'.entry.IsEntryPoint := by
    intro r' hr'
    exact hentries r' (List.mem_append_left [r] hr')
  have hfound : l.before.events = earlier ++ Logging.appended own := by
    rw [loggings_split hentry hsplit, events_after hfront]
  -- the event is small enough, so only the number of events can be in its way
  have hroom : l.Appends ↔ ¬ Host.maxEvents ≤ earlier.length + (Logging.appended own).length := by
    rw [← List.length_append, ← hfound, Nat.not_le]
    exact ⟨fun happends => happends.2, fun hroom => ⟨hsize, hroom⟩⟩
  have hfull : l.answer = Logging.full ↔ ¬ l.Appends := by
    constructor
    · intro hanswer happends
      rw [(Logging.log_of_appends happends).1] at hanswer
      cases hanswer
    · intro happends
      exact (Logging.log_of_full hsize happends).1
  refine ⟨hfound, ?_, ?_, ?_⟩
  · rw [hfull, hroom, not_not]
  · intro hanswer
    exact Logging.after_of_not_appends (hfull.mp hanswer)
  · intro hanswer
    exact Logging.log_of_appends (not_not.mp (mt hfull.mpr hanswer))

section Journal

/-- Fill the log. -/
def openBody : List Stmt := [.logBytes (.bytes [1]) 64, .ret (.ok (.int 0))]

/-- Log one event. -/
def noteBody : List Stmt := [.logBytes (.bytes [2]) 1, .ret (.ok (.action .accept))]

/-- A contract that fills the log when it is set up, and logs one event with each message. -/
def journalDecls : List Decl :=
  [.function "open" [("ctx", none), ("amount", none), ("logger", none)]
    (some (.ok (.type (.sized .u16)))) openBody
    [.entryPoint .init
      (some ⟨[], [("contract", .text "c"), ("payable", .bool true), ("enable_logger", .bool true)]⟩)],
   .function "note" [("ctx", none), ("amount", none), ("logger", none), ("state", none)] none noteBody
    [.entryPoint .receive
      (some ⟨[], [("contract", .text "c"), ("name", .text "note"), ("payable", .bool true),
        ("enable_logger", .bool true), ("low_level", .bool true)]⟩)]]

def openExport : Export :=
  ⟨"init_c", .init, .entryPoint ⟨.init, "c", none, true, true, false, none⟩ 0
    (some ⟨counterCodec, false⟩), "open"⟩

def noteExport : Export :=
  ⟨"c.note", .receive, .entryPoint ⟨.receive, "c", some "note", true, true, true, none⟩ 1 none, "note"⟩

/-- What the declaration makes. -/
def journalModule : Module where
  functions :=
    [⟨"open", [("ctx", none), ("amount", none), ("logger", none)], some (.ok (.sized .u16)), openBody,
      [openExport]⟩,
     ⟨"note", [("ctx", none), ("amount", none), ("logger", none), ("state", none)], none, noteBody,
      [noteExport]⟩]
  names := [("open", .function 0), ("note", .function 1)]

theorem ofDecls_journalDecls : ofDecls (.ok {}) journalDecls = .ok journalModule := rfl

/-- Set the contract up. -/
def openRequest : Request := ⟨openExport, .int 0, {}⟩

/-- Send it a message. -/
def noteRequest : Request := ⟨noteExport, .int 0, {}⟩

set_option maxRecDepth 2000 in
/-- The message is sent after the contract was set up, and its one event is refused. -/
theorem full_iff_journal :
    ∃ l, (journalModule.make (journalModule.after {} [openRequest]) noteRequest).loggings
        journalModule = [] ++ l :: [] ∧
      l.event.length ≤ Host.maxEventSize ∧ l.before.events.length = 64 ∧
      l.answer = Logging.full ∧ l.after = l.before := by
  have hentries : ∀ r ∈ [openRequest] ++ [noteRequest], r.entry.IsEntryPoint := by
    intro r hr
    simp only [List.cons_append, List.nil_append, List.mem_cons, List.not_mem_nil, or_false] at hr
    rcases hr with rfl | rfl <;> exact ⟨_, _, _, rfl⟩
  obtain ⟨l, hsplit, hevent⟩ : ∃ l,
      (journalModule.make (journalModule.after {} [openRequest]) noteRequest).loggings
        journalModule = [] ++ l :: [] ∧ l.event = [2] := ⟨_, rfl, rfl⟩
  have hsize : l.event.length ≤ Host.maxEventSize := by
    rw [hevent]
    decide
  obtain ⟨hfound, hfull, hafter, -⟩ := full_iff hentries hsplit hsize
  have hanswer : l.answer = Logging.full := hfull.mpr (by decide)
  refine ⟨l, hsplit, hsize, ?_, hanswer, hafter hanswer⟩
  rw [hfound]
  rfl

set_option maxRecDepth 2000 in
/-- An event of one byte is refused in a call that has appended none. -/
theorem full_at_first :
    ofDecls (.ok {}) journalDecls = .ok journalModule ∧
      openExport ∈ journalModule.exports ∧ noteExport ∈ journalModule.exports ∧
      ∃ l, (journalModule.make (journalModule.after {} [openRequest]) noteRequest).loggings
          journalModule = [l] ∧
        l.event = [2] ∧ l.answer = Logging.full ∧ l.after = l.before :=
  ⟨ofDecls_journalDecls, .head _, .tail _ (.head _), _, rfl, rfl, rfl, rfl⟩

end Journal

end Module

end ContractKit
