import ContractKit.Proofs.Codec.Ends
import ContractKit.Proofs.Contract.Store

/-!
# `Proofs/Contract/Splice.lean`: writing through the cursor

One write splices its bytes in at the cursor (`write_eq_splice`). Two splices, the second where the
first one ended, are one splice of all their bytes (`splice_splice`), so a sequence of writes is a
splice of everything that is written, whatever the chunks are and wherever the old end lies among them
(`writeAll_eq_splice`). What a codec writes for a value is such a sequence, and a codec that reads it
back from where it starts does not get past its end (`run_splice`).
-/

set_option autoImplicit false

namespace ContractKit

namespace StreamStep

variable {α : Type}

/-- Whether an operation writes a byte or a byte string. -/
def writes : StreamStep α → Bool
  | .writeByte _ | .write _ => true
  | _ => false

/-- The bytes that an operation writes if it does not fail. -/
def written : StreamStep α → Bytes
  | .writeByte n => [UInt8.ofNat n.toNat]
  | .write data => data
  | _ => []

end StreamStep

/-- A sink takes the bytes of one write after the other. -/
theorem Sink.write_write (sink : Sink) (a b : Bytes) : (sink.write a).write b = sink.write (a ++ b) :=
  congrArg Sink.mk (List.append_assoc _ _ _)

namespace Store

/-! ## Splices -/

section Splices

variable (s : Store) (a b : Bytes)

theorem cursor_splice : (s.splice a).cursor = (s.cursor.toNat + a.length : Nat) := rfl

theorem before_splice : (s.splice a).before = s.before ++ a := by
  have hlen : (s.before ++ a).length = s.cursor.toNat + a.length := by
    rw [List.length_append, length_before]
  have htake : (s.splice a).bytes.take (s.cursor.toNat + a.length) = s.before ++ a := by
    rw [← hlen]
    exact List.take_left
  rw [before, cursor_splice, Int.toNat_natCast, htake]
  -- the splice reaches its own end, so no zeros are missing
  have hzeros : s.cursor.toNat + a.length - (s.splice a).bytes.length = 0 := by
    rw [splice, List.length_append, hlen]
    omega
  rw [hzeros]
  exact List.append_nil _

theorem ahead_splice : (s.splice a).ahead = s.ahead.drop a.length := by
  have hlen : (s.before ++ a).length = s.cursor.toNat + a.length := by
    rw [List.length_append, length_before]
  rw [ahead, cursor_splice, Int.toNat_natCast, ← hlen]
  exact List.drop_left

/-- **A splice where another one ended is one splice of both.** -/
theorem splice_splice : (s.splice a).splice b = s.splice (a ++ b) := by
  rw [splice, before_splice, ahead_splice, cursor_splice, Int.toNat_natCast, List.drop_drop, splice]
  simp only [List.append_assoc, List.length_append, Nat.add_assoc]

/-- The bytes reach as far as they did, or to the end of what was written. -/
theorem size_splice (h : 0 ≤ s.cursor) :
    ((s.splice a).size : Int) = max (s.size : Int) (s.cursor + a.length) := by
  rw [size, size, splice]
  simp only [List.length_append, length_before, ahead, List.length_drop]
  omega

end Splices

/-- The front of what follows the cursor's old place is what was written there. -/
theorem drop_splice (s : Store) (a : Bytes) :
    (s.splice a).bytes.drop s.cursor.toNat = a ++ s.ahead.drop a.length := by
  rw [splice, List.append_assoc, ← length_before s]
  exact List.drop_left

/-! ## Sequences of writes -/

variable {s : Store}

theorem writeAll_splice (s : Store) (a : Bytes) (chunks : List Bytes) :
    (s.splice a).writeAll chunks = s.splice (a ++ chunks.flatten) := by
  induction chunks generalizing a with
  | nil => rw [List.flatten_nil, List.append_nil]; rfl
  | cons b chunks ih =>
    rw [List.flatten_cons, ← List.append_assoc, ← ih, ← splice_splice]
    exact congrArg (writeAll · chunks) (write_eq_splice (Int.natCast_nonneg _) b)

/-- **Writes one after the other are one splice of all that they write.** No write at all is none: it
does not even fill up to the cursor with zeros. -/
theorem writeAll_eq_splice (h : 0 ≤ s.cursor) {chunks : List Bytes} (hne : chunks ≠ []) :
    s.writeAll chunks = s.splice chunks.flatten := by
  cases chunks with
  | nil => exact absurd rfl hne
  | cons a chunks =>
    rw [List.flatten_cons, ← writeAll_splice]
    exact congrArg (writeAll · chunks) (write_eq_splice h a)

/-- An operation that writes, if it does not fail, writes the same bytes to a store and to a sink. -/
theorem step_writes {op : StreamStep Value} (hop : op.writes = true)
    (hok : (s.step op).1.isOk = true) :
    s.step op = (.ok .nothing, s.write op.written) ∧
      ∀ sink : Sink, sink.step op = (.ok .nothing, sink.write op.written) := by
  cases op with
  | write data => exact ⟨rfl, fun _ => rfl⟩
  | writeByte n =>
    cases hbyte : StreamStep.byteOf n with
    | error f =>
      rw [step, hbyte] at hok
      cases hok
    | ok data =>
      obtain rfl : [UInt8.ofNat n.toNat] = data := by
        rw [StreamStep.byteOf] at hbyte
        split at hbyte
        · exact Except.ok.inj hbyte
        · cases hbyte
      simp only [step, Sink.step, hbyte]
      exact ⟨rfl, fun _ => rfl⟩
  | _ => cases hop

/-- Operations that write, if none of them fails, write one after the other what they write. -/
theorem runSteps_writes {ops : List (StreamStep Value)} (hops : ∀ op ∈ ops, op.writes = true)
    (hok : ∀ outcome ∈ (runSteps step s (ops.map .ok)).1, outcome.isOk = true) :
    runSteps step s (ops.map .ok) =
        (ops.map fun _ => .ok .nothing, s.writeAll (ops.map StreamStep.written)) ∧
      ∀ sink : Sink, runSteps Sink.step sink (ops.map .ok) =
        (ops.map fun _ => .ok .nothing, sink.write (ops.flatMap StreamStep.written)) := by
  induction ops generalizing s with
  | nil => exact ⟨rfl, fun sink => Prod.ext rfl (congrArg Sink.mk (List.append_nil _).symm)⟩
  | cons op ops ih =>
    obtain ⟨hop, hops⟩ := List.forall_mem_cons.mp hops
    obtain ⟨hfirst, hok⟩ : (s.step op).1.isOk = true ∧
        ∀ outcome ∈ (runSteps step (s.step op).2 (ops.map .ok)).1, outcome.isOk = true :=
      List.forall_mem_cons.mp hok
    obtain ⟨hstore, hsink⟩ := step_writes hop hfirst
    rw [hstore] at hok
    obtain ⟨hrest, hsinks⟩ := ih hops hok
    refine ⟨?_, fun sink => ?_⟩
    · simp only [List.map_cons, runSteps, hstore, hrest]
      rfl
    · simp only [List.map_cons, runSteps, hsink, hsinks, List.flatMap_cons, Sink.write_write]

/-! ## Codecs -/

/-- A codec writes to a store what it writes to a byte string, in one splice. -/
theorem emit_eq_splice (h : 0 ≤ s.cursor) {e : Emit} {data : Bytes} (he : e.toBytes = .ok data)
    (hne : data ≠ []) : s.emit e = (.ok (), s.splice data) := by
  obtain ⟨chunks, fault⟩ := e
  cases fault with
  | some f => cases he
  | none =>
    obtain rfl : chunks.flatten = data := Except.ok.inj he
    have hchunks : chunks ≠ [] := by
      rintro rfl
      exact hne rfl
    exact Prod.ext rfl (writeAll_eq_splice h hchunks)

/-- **A program that ends inside of a string reads from where it was written what it reads from the
string**, and moves the cursor over what it takes of it. -/
theorem run_splice {α : Type} {p : Read α} {data : Bytes} (h : 0 ≤ s.cursor) (hends : p.Ends data) :
    run ⟨(s.splice data).bytes, s.cursor⟩ p =
      ((p.run data).1,
        ⟨(s.splice data).bytes, s.cursor + (data.length - (p.run data).2.length : Nat)⟩) := by
  have hcursor : (s.cursor.toNat : Int) = s.cursor := Int.toNat_of_nonneg h
  have hsize : (s.splice data).bytes.length =
      s.cursor.toNat + data.length + (s.ahead.drop data.length).length := by
    rw [splice, List.length_append, List.length_append, length_before]
  have hleft := Read.length_run_le p data
  have hrun : run ⟨(s.splice data).bytes, (s.cursor.toNat : Nat)⟩ p = _ :=
    runRead_eq p (by omega)
  rw [drop_splice, hends.run_append, hcursor] at hrun
  refine hrun.trans (Prod.ext rfl (congrArg (Store.mk _) ?_))
  rw [List.length_append]
  omega

/-- **Writing through the cursor is an exact splice.** Operations that write, one or more of them and
none failing, leave a store whose cursor is valid with what they write in the place of as many bytes at
the cursor, with zeros before it where there were none, and with every other byte; the same operations
on an empty sink leave just what they write. So a codec that writes a value writes its encoding there,
if it has any byte, and reading from where that starts gives what reading the encoding gives, with the
cursor inside of it or, for what is decoded whole, right behind it. -/
theorem writing_splices {s : Store} (h : 0 ≤ s.cursor) :
    (∀ ops : List (StreamStep Value), ops ≠ [] → (∀ op ∈ ops, op.writes = true) →
      (∀ outcome ∈ (runSteps step s (ops.map .ok)).1, outcome.isOk = true) →
      ∃ data outcomes, data = ops.flatMap StreamStep.written ∧
        runSteps step s (ops.map .ok) = (outcomes, s.splice data) ∧
        ((s.splice data).size : Int) = max (s.size : Int) (s.cursor + data.length) ∧
        (s.splice data).cursor = s.cursor + data.length ∧
        runSteps Sink.step ⟨[]⟩ (ops.map .ok) = (outcomes, ⟨data⟩) ∧
        (Sink.step ⟨data⟩ .finalize).1 = .ok (.bytes data) ∧
        (Sink.step ⟨data⟩ .position).1 = .ok (.int data.length)) ∧
    ∀ (c : Codec) (v : Value) (data : Bytes), c.encode v = .ok data → data ≠ [] →
      s.emit (c.emit v) = (.ok (), s.splice data) ∧
      ∃ s', (s.splice data).seek s.cursor = .ok s' ∧ s'.bytes = (s.splice data).bytes ∧
        s'.run c.read = ((c.read.run data).1,
          ⟨s'.bytes, s.cursor + (data.length - (c.read.run data).2.length : Nat)⟩) ∧
        ∀ w, c.decode data = .ok w → s'.run c.read = (.ok w, s.splice data) := by
  have hend : ∀ data : Bytes, (s.splice data).cursor = s.cursor + data.length := by
    intro data
    rw [cursor_splice, Int.natCast_add, Int.toNat_of_nonneg h]
  -- a codec writes by chunks as the operations do, and reads back from where the cursor was before
  refine ⟨fun ops hne hops hok => ?_, fun c v data hv hne => ?_⟩
  · obtain ⟨hstore, hsink⟩ := runSteps_writes hops hok
    rw [writeAll_eq_splice h (by simpa using hne), ← List.flatMap_def] at hstore
    exact ⟨_, _, rfl, hstore, size_splice s _ h, hend _, hsink ⟨[]⟩, rfl, rfl⟩
  · have hseek : (s.splice data).seek s.cursor = .ok ⟨(s.splice data).bytes, s.cursor⟩ :=
      if_neg (Int.not_lt.mpr h)
    have hrun := run_splice h (Codec.ends_of_emit hv)
    refine ⟨emit_eq_splice h hv hne, _, hseek, rfl, hrun, fun w hw => ?_⟩
    have htakes := (Read.runAll_eq_ok_iff.mp hw).run_append []
    rw [List.append_nil] at htakes
    rw [hrun, htakes]
    exact Prod.ext rfl (congrArg (Store.mk _) (hend data).symm)

/-- Three bytes with the cursor two places behind them: two writes fill the gap with zeros, and a pair
that is written there is read back. -/
theorem writing_splices_gap :
    (∀ op ∈ ([.writeByte 7, .write [8, 9]] : List (StreamStep Value)), op.writes = true) ∧
    (∃ outcomes, runSteps step ⟨[1, 2, 3], 5⟩ ([.writeByte 7, .write [8, 9]].map .ok) =
        (outcomes, ⟨[1, 2, 3, 0, 0, 7, 8, 9], 8⟩) ∧
      runSteps Sink.step ⟨[]⟩ ([.writeByte 7, .write [8, 9]].map .ok) = (outcomes, ⟨[7, 8, 9]⟩)) ∧
    (Codec.tuple [.int ⟨2, false⟩, .bool]).encode (.tuple [.int 258, .bool true]) =
      .ok [2, 1, 1] ∧
    emit ⟨[1, 2, 3], 5⟩ ((Codec.tuple [.int ⟨2, false⟩, .bool]).emit
      (.tuple [.int 258, .bool true])) = (.ok (), ⟨[1, 2, 3, 0, 0, 2, 1, 1], 8⟩) ∧
    ∃ s', seek ⟨[1, 2, 3, 0, 0, 2, 1, 1], 8⟩ 5 = .ok s' ∧
      s'.run (Codec.tuple [.int ⟨2, false⟩, .bool]).read =
        (.ok (.tuple [.int 258, .bool true]), ⟨[1, 2, 3, 0, 0, 2, 1, 1], 8⟩) := by
  obtain ⟨hwrites, hcodec⟩ := writing_splices (s := ⟨[1, 2, 3], 5⟩) (by decide)
  have hops : ∀ op ∈ ([.writeByte 7, .write [8, 9]] : List (StreamStep Value)),
      op.writes = true := by decide
  obtain ⟨data, outcomes, rfl, hstore, -, -, hsink, -⟩ :=
    hwrites [.writeByte 7, .write [8, 9]] (by simp) hops (by decide)
  have hv : (Codec.tuple [.int ⟨2, false⟩, .bool]).encode (.tuple [.int 258, .bool true]) =
      .ok [2, 1, 1] := rfl
  obtain ⟨hemit, s', hseek, -, -, hread⟩ := hcodec _ _ _ hv (by simp)
  exact ⟨hops, ⟨outcomes, hstore, hsink⟩, hv, hemit, s', hseek, hread _ rfl⟩

end Store

end ContractKit
