import ContractKit.Codec.Decode
import ContractKit.Proofs.Contract.Store

/-!
# `Proofs/Contract/Reading.lean`: reading a store is reading its bytes

A store keeps all its bytes and moves a cursor over them; a reader keeps the bytes that are left. The
two are beside each other when the cursor lies in the bytes and what is behind it is what the reader
has left. Every operation that reads answers the same on both and leaves them beside each other
(`Beside.step`), so a run of such operations cannot tell them apart (`Beside.runSteps`); a program that
reads the whole of a store from its start is the decoder of its bytes.
-/

set_option autoImplicit false

namespace ContractKit

/-- Whether an operation reads, peeks or asks if anything is left. -/
def StreamStep.reads {α : Type} : StreamStep α → Bool
  | .isEmpty | .peekByte | .peek _ | .readByte | .read _ | .readAll | .finalize => true
  | _ => false

/-- What is peeked is there, and is of the length that was asked for. -/
theorem Reader.peek_eq_ok_iff {r : Reader} {n : Int} {data : Bytes} :
    r.peek n = .ok data ↔ 0 ≤ n ∧ n.toNat ≤ r.rest.length ∧ data = r.rest.take n.toNat := by
  rw [peek, Read.hasAtLeast_eq]
  constructor
  · intro h
    split at h
    · cases h
    · rename_i hn
      split at h
      · rename_i hleft
        exact ⟨Int.not_lt.mp hn, of_decide_eq_true hleft, (Except.ok.inj h).symm⟩
      · cases h
  · rintro ⟨hn, hleft, rfl⟩
    rw [if_neg (Int.not_lt.mpr hn), if_pos (decide_eq_true hleft)]

namespace Store

/-- The cursor lies in the bytes of the store, and those behind it are what the reader has left. -/
def Beside (s : Store) (r : Reader) : Prop :=
  ∃ k ≤ s.bytes.length, s.cursor = (k : Nat) ∧ r.rest = s.bytes.drop k

/-- The same operation on a store and on a reader: it answers the same on both and leaves them beside
each other, with no byte of the store changed, and where it fails neither moves. -/
structure StepsAlike (s : Store) (r : Reader) (op : StreamStep Value) : Prop where
  outcome : (s.step op).1 = (r.step op).1
  beside : (s.step op).2.Beside (r.step op).2
  bytes : (s.step op).2.bytes = s.bytes
  still : ∀ f, (s.step op).1 = .error f → (s.step op).2 = s ∧ (r.step op).2 = r

variable {s : Store} {r : Reader} {data : Bytes} {k : Nat}

theorem beside_drop (hk : k ≤ data.length) : Beside ⟨data, k⟩ ⟨data.drop k⟩ := ⟨k, hk, rfl, rfl⟩

/-- An operation that moves nothing has only to answer the same. -/
theorem StepsAlike.of_still {op : StreamStep Value} (h : s.Beside r)
    (hstore : (s.step op).2 = s) (hreader : (r.step op).2 = r)
    (houtcome : (s.step op).1 = (r.step op).1) : StepsAlike s r op where
  outcome := houtcome
  beside := by rwa [hstore, hreader]
  bytes := by rw [hstore]
  still _ _ := ⟨hstore, hreader⟩

theorem stepsAlike_readByte (hk : k ≤ data.length) :
    StepsAlike ⟨data, k⟩ ⟨data.drop k⟩ .readByte := by
  have hreader : Reader.step ⟨data.drop k⟩ .readByte =
      ((Reader.peekByte ⟨data.drop k⟩).map fun b => .int b.toNat, ⟨(data.drop k).drop 1⟩) := rfl
  cases hdrop : data.drop k with
  | nil =>
    have hstore : step ⟨data, k⟩ .readByte = (.error (.wire .outOfData), ⟨data, k⟩) := by
      rw [step, readByte_end hdrop]
      rfl
    refine .of_still (hdrop ▸ beside_drop hk) ?_ rfl ?_ <;> rw [hstore]
    rfl
  | cons b rest =>
    have hstore : step ⟨data, k⟩ .readByte = (.ok (.int b.toNat), ⟨data, (k + 1 : Nat)⟩) := by
      rw [step, readByte_drop hdrop]
      rfl
    obtain ⟨hlt, rfl⟩ := Bytes.drop_succ_of_drop hdrop
    refine ⟨?_, ?_, ?_, fun f hf => ?_⟩
    · rw [hstore]
      rfl
    · rw [hstore]
      exact beside_drop hlt
    · rw [hstore]
    · rw [hstore] at hf
      cases hf

theorem stepsAlike_read (hk : k ≤ data.length) (n : Int) :
    StepsAlike ⟨data, k⟩ ⟨data.drop k⟩ (.read n) := by
  have hpeek := peekBytes_natCast (n := n) hk
  cases hread : Reader.peek ⟨data.drop k⟩ n with
  | error f =>
    have hstore : step ⟨data, k⟩ (.read n) = (.error f, ⟨data, k⟩) := by
      simp only [step, readBytes, hpeek, hread]
      rfl
    have hreader : Reader.step ⟨data.drop k⟩ (.read n) = (.error f, ⟨data.drop k⟩) := by
      simp only [Reader.step, hread]
    refine .of_still (beside_drop hk) ?_ ?_ ?_ <;> simp only [hstore, hreader]
  | ok front =>
    obtain ⟨hn, hleft, -⟩ := Reader.peek_eq_ok_iff.mp hread
    obtain ⟨m, rfl⟩ := Int.eq_ofNat_of_zero_le hn
    have hstore : step ⟨data, k⟩ (.read m) = (.ok (.bytes front), ⟨data, (k + m : Nat)⟩) := by
      simp only [step, readBytes, hpeek, hread]
      rfl
    have hreader : Reader.step ⟨data.drop k⟩ (.read m) =
        (.ok (.bytes front), ⟨data.drop (k + m)⟩) := by
      simp only [Reader.step, hread, List.drop_drop, Int.toNat_natCast]
    have hm : k + m ≤ data.length := by
      rw [Int.toNat_natCast, List.length_drop] at hleft
      omega
    refine ⟨?_, ?_, ?_, fun f hf => ?_⟩
    · rw [hstore, hreader]
    · rw [hstore, hreader]
      exact beside_drop hm
    · rw [hstore]
    · rw [hstore] at hf
      cases hf

theorem stepsAlike_readAll (hk : k ≤ data.length) :
    StepsAlike ⟨data, k⟩ ⟨data.drop k⟩ .readAll := by
  have hstore : step ⟨data, k⟩ .readAll =
      (.ok (.bytes (data.drop k)), ⟨data, (data.length : Nat)⟩) := by
    rw [step, readAll_natCast, Nat.max_eq_right hk]
  refine ⟨?_, ?_, ?_, fun f hf => ?_⟩
  · rw [hstore]
    rfl
  · rw [hstore]
    exact ⟨data.length, Nat.le_refl _, rfl, (List.drop_length).symm⟩
  · rw [hstore]
  · rw [hstore] at hf
    cases hf

/-- **An operation that reads does the same on a store as on the bytes behind its cursor.** It covers
the failures as well, and counts below zero, for which both refuse and stay where they are. -/
theorem Beside.step (h : s.Beside r) {op : StreamStep Value} (hop : op.reads = true) :
    StepsAlike s r op := by
  obtain ⟨data, cursor⟩ := s
  obtain ⟨rest⟩ := r
  obtain ⟨k, hk, rfl, rfl⟩ := h
  cases op with
  | isEmpty =>
    exact .of_still (beside_drop hk) rfl rfl
      (congrArg (fun b => Except.ok (StreamResult.bool b)) isEmpty_natCast)
  | finalize =>
    refine .of_still (beside_drop hk) rfl rfl ?_
    show (finalize ⟨data, k⟩).map _ = (Reader.finalize ⟨data.drop k⟩).map _
    rw [finalize, isEmpty_natCast, Reader.finalize]
  | peekByte =>
    exact .of_still (beside_drop hk) rfl rfl (congrArg (Except.map _) peekByte_natCast)
  | peek n =>
    exact .of_still (beside_drop hk) rfl rfl (congrArg (Except.map _) (peekBytes_natCast hk))
  | readByte => exact stepsAlike_readByte hk
  | read n => exact stepsAlike_read hk n
  | readAll => exact stepsAlike_readAll hk
  | writeByte | write | position | size | seek | truncate | encode | decode => cases hop

/-- **A run of operations that read cannot tell a store from the bytes behind its cursor.** -/
theorem Beside.runSteps (h : s.Beside r) {ops : List (StreamStep Value)}
    (hops : ∀ op ∈ ops, op.reads = true) :
    (ContractKit.runSteps Store.step s (ops.map .ok)).1 =
        (ContractKit.runSteps Reader.step r (ops.map .ok)).1 ∧
      (ContractKit.runSteps Store.step s (ops.map .ok)).2.Beside
        (ContractKit.runSteps Reader.step r (ops.map .ok)).2 ∧
      (ContractKit.runSteps Store.step s (ops.map .ok)).2.bytes = s.bytes := by
  induction ops generalizing s r with
  | nil => exact ⟨rfl, h, rfl⟩
  | cons op ops ih =>
    obtain ⟨hop, hops⟩ := List.forall_mem_cons.mp hops
    have hstep := h.step hop
    obtain ⟨houtcomes, hbeside, hbytes⟩ := ih hstep.beside hops
    exact ⟨congrArg₂ List.cons hstep.outcome houtcomes, hbeside, hbytes.trans hstep.bytes⟩

/-- **Reading the state of a contract agrees with reading bytes.** Operations that read, in any number
and order, answer the same on a store and on a reader beside it, faults included; the two stay beside
each other, the bytes of the store stay what they are, and an operation that fails moves neither. So a
codec that reads all of a store from its start does what it does on the bytes. -/
theorem reads_as_bytes :
    (∀ (s : Store) (r : Reader), s.Beside r → ∀ ops : List (StreamStep Value),
      (∀ op ∈ ops, op.reads = true) →
      ∃ outcomes s' r', ContractKit.runSteps Store.step s (ops.map .ok) = (outcomes, s') ∧
        ContractKit.runSteps Reader.step r (ops.map .ok) = (outcomes, r') ∧
        s'.Beside r' ∧ s'.bytes = s.bytes ∧
        ∀ op : StreamStep Value, op.reads = true → ∀ f, (s'.step op).1 = .error f →
          s'.step op = (.error f, s') ∧ r'.step op = (.error f, r')) ∧
    ∀ (c : Codec) (data : Bytes),
      (do
        let v ← (run ⟨data, 0⟩ c.read).1
        (run ⟨data, 0⟩ c.read).2.finalize
        pure v) = c.decode data := by
  refine ⟨fun s r h ops hops => ?_, fun c data => run_finalize_eq c.read data⟩
  obtain ⟨houtcomes, hbeside, hbytes⟩ := h.runSteps hops
  refine ⟨_, _, _, rfl, Prod.ext houtcomes.symm rfl, hbeside, hbytes, fun op hop f hf => ?_⟩
  have hstep := hbeside.step hop
  obtain ⟨hstore, hreader⟩ := hstep.still f hf
  exact ⟨Prod.ext hf hstore, Prod.ext (hstep.outcome.symm.trans hf) hreader⟩

/-- Three bytes with the cursor behind the first one: a peek, two reads that are refused, one that is
not, and the end. -/
theorem reads_as_bytes_rest :
    (Beside ⟨[5, 1, 2], 1⟩ ⟨[1, 2]⟩ ∧
      ∀ op ∈ ([.peek 2, .read (-1), .read 3, .readByte, .readAll, .finalize] :
        List (StreamStep Value)), op.reads = true) ∧
    ∃ outcomes s' r',
      ContractKit.runSteps Store.step ⟨[5, 1, 2], 1⟩
          ([.peek 2, .read (-1), .read 3, .readByte, .readAll, .finalize].map .ok) =
        (outcomes, s') ∧
      ContractKit.runSteps Reader.step ⟨[1, 2]⟩
          ([.peek 2, .read (-1), .read 3, .readByte, .readAll, .finalize].map .ok) =
        (outcomes, r') ∧
      s'.Beside r' := by
  have hbeside : Beside ⟨[5, 1, 2], 1⟩ ⟨[1, 2]⟩ := ⟨1, by decide, rfl, rfl⟩
  have hops : ∀ op ∈ ([.peek 2, .read (-1), .read 3, .readByte, .readAll, .finalize] :
      List (StreamStep Value)), op.reads = true := by decide
  obtain ⟨outcomes, s', r', hstore, hreader, hbeside', -⟩ :=
    reads_as_bytes.1 _ _ hbeside _ hops
  exact ⟨⟨hbeside, hops⟩, outcomes, s', r', hstore, hreader, hbeside'⟩

end Store

end ContractKit
