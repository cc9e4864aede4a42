import ContractKit.Proofs.Contract.Store

/-!
# `Proofs/Contract/Cursor.lean`: where the cursor of a store stands

Every operation but one leaves the cursor of a store at the start or behind it, wherever it stood
there before: `seek` refuses a place below zero, and all that reads or writes moves forward. The one is
`truncate`, which takes a size below zero as a place counted from the end and puts the cursor there
(`step_cursor_nonneg_iff`). So the cursor is valid in every store that is reached without such a cut
(`reached_valid`), and then whatever is read or peeked is what stands at the cursor.
-/

set_option autoImplicit false

namespace ContractKit

/-- Whether an operation cuts the bytes to a size below zero. -/
def StreamStep.cutsBelowZero {α : Type} : StreamStep α → Bool
  | .truncate (some n) => decide (n < 0)
  | _ => false

namespace Store

/-- The store that operations lead to from the start of a byte string. -/
def reached (data : Bytes) (ops : List (StreamStep Value)) : Store :=
  (runSteps step ⟨data, 0⟩ (ops.map .ok)).2

variable {α : Type} {s : Store}

/-! ## What each operation does to the cursor -/

@[simp] theorem cursor_write (s : Store) (data : Bytes) :
    (s.write data).cursor = s.cursor + data.length := rfl

@[simp] theorem cursor_truncate (s : Store) (size? : Option Int) :
    (s.truncate size?).cursor = min s.cursor (size?.getD s.cursor) := rfl

theorem cursor_le_writeAll (s : Store) (chunks : List Bytes) :
    s.cursor ≤ (s.writeAll chunks).cursor := by
  induction chunks generalizing s with
  | nil => exact Int.le_refl _
  | cons data chunks ih =>
    have := ih (s.write data)
    rw [cursor_write] at this
    exact Int.le_trans (by omega) this

theorem cursor_le_readByte (s : Store) : s.cursor ≤ s.readByte.2.cursor := by
  rw [readByte]
  split
  · exact Int.le_add_one (Int.le_refl _)
  · exact Int.le_refl _

/-- A count below zero is refused, so the cursor is not moved back. -/
theorem cursor_le_readBytes (s : Store) (n : Int) : s.cursor ≤ (s.readBytes n).2.cursor := by
  rw [readBytes]
  split
  · rename_i data hpeek
    have hn : 0 ≤ n := by
      rw [peekBytes] at hpeek
      split at hpeek
      · cases hpeek
      · omega
    exact Int.le_add_of_nonneg_right hn
  · exact Int.le_refl _

theorem cursor_le_runRead (p : Read α) (s : Store) : s.cursor ≤ (runRead p s).2.cursor := by
  induction p generalizing s with
  | done a | fail f => exact Int.le_refl _
  | byte next ih =>
    have hbyte := cursor_le_readByte s
    rw [runRead]
    rcases hread : s.readByte with ⟨f | b, s'⟩ <;> rw [hread] at hbyte
    · exact hbyte
    · exact Int.le_trans hbyte (ih b s')
  | bytes n next ih =>
    have hbytes := cursor_le_readBytes s n
    rw [runRead]
    rcases hread : s.readBytes n with ⟨f | data, s'⟩ <;> rw [hread] at hbytes
    · exact hbytes
    · exact Int.le_trans hbytes (ih data s')

/-- **Only a cut below zero takes the cursor there.** All operations but one either check the place that
they move to or move forwards. -/
theorem step_cursor_nonneg_iff (h : 0 ≤ s.cursor) (op : StreamStep Value) :
    0 ≤ (s.step op).2.cursor ↔ op.cutsBelowZero = false := by
  -- a cut takes the cursor along, so it alone has a condition; the others are true on both sides
  cases op with
  | truncate size? =>
    show 0 ≤ (s.truncate size?).cursor ↔ _
    cases size? with
    | none => simp [StreamStep.cutsBelowZero, h]
    | some size => simp [StreamStep.cutsBelowZero, h]
  | seek place =>
    refine iff_of_true ?_ rfl
    rw [step]
    split
    · rename_i s' hseek
      rw [seek] at hseek
      split at hseek
      · cases hseek
      · cases hseek
        show 0 ≤ place
        omega
    · exact h
  | writeByte n =>
    refine iff_of_true ?_ rfl
    rw [step]
    split
    · rw [cursor_write]
      omega
    · exact h
  | write data => exact iff_of_true (Int.le_trans h (Int.le_add_of_nonneg_right (by omega))) rfl
  | readByte => exact iff_of_true (Int.le_trans h s.cursor_le_readByte) rfl
  | read n => exact iff_of_true (Int.le_trans h (s.cursor_le_readBytes n)) rfl
  | readAll => exact iff_of_true (Int.le_trans h (Int.le_max_left _ _)) rfl
  | encode format v => exact iff_of_true (Int.le_trans h (s.cursor_le_writeAll _)) rfl
  | decode format => exact iff_of_true (Int.le_trans h (cursor_le_runRead _ s)) rfl
  | peekByte | peek | isEmpty | finalize | position | size => exact iff_of_true h rfl

theorem runSteps_cursor_nonneg (h : 0 ≤ s.cursor) {ops : List (StreamStep Value)}
    (hops : ∀ op ∈ ops, op.cutsBelowZero = false) :
    0 ≤ (runSteps step s (ops.map .ok)).2.cursor := by
  induction ops generalizing s with
  | nil => exact h
  | cons op ops ih =>
    obtain ⟨hop, hops⟩ := List.forall_mem_cons.mp hops
    exact ih ((step_cursor_nonneg_iff h op).mpr hop) hops

/-! ## Reading -/

/-- Whether an operation that reads or peeks answers with what stands at the cursor, or with a wire
error where less stands there than it asks for. Nothing is asked of the other operations. -/
def Gives (s : Store) (outcome : Except Fault StreamResult) : StreamStep Value → Prop
  | .readByte | .peekByte =>
    (∃ b rest, s.ahead = b :: rest ∧ outcome = .ok (.int b.toNat)) ∨
      s.ahead = [] ∧ outcome = .error (.wire .outOfData)
  | .read n | .peek n =>
    (∃ front rest, s.ahead = front ++ rest ∧ (front.length : Int) = n ∧
        outcome = .ok (.bytes front)) ∨
      n < 0 ∧ outcome = .error (.wire .negativeCount) ∨
      s.size < s.cursor + n ∧ outcome = .error (.wire .outOfData)
  | .readAll => outcome = .ok (.bytes s.ahead)
  | _ => True

theorem fst_readByte (s : Store) : s.readByte.1 = s.peekByte := by
  rw [readByte]
  split <;> simp_all

theorem fst_readBytes (s : Store) (n : Int) : (s.readBytes n).1 = s.peekBytes n := by
  rw [readBytes]
  split <;> simp_all

theorem gives_peekByte (h : 0 ≤ s.cursor) :
    s.Gives (s.peekByte.map fun b => .int b.toNat) .peekByte := by
  obtain ⟨data, k, rfl⟩ := exists_natCast h
  rw [peekByte_natCast]
  cases hdrop : data.drop k with
  | nil => exact .inr ⟨hdrop, rfl⟩
  | cons b rest => exact .inl ⟨b, rest, hdrop, rfl⟩

theorem gives_peekBytes (h : 0 ≤ s.cursor) (n : Int) :
    s.Gives ((s.peekBytes n).map .bytes) (.peek n) := by
  obtain ⟨data, k, rfl⟩ := exists_natCast h
  rw [peekBytes]
  split
  · rename_i hn
    exact .inr (.inl ⟨hn, rfl⟩)
  · split
    · rename_i hleft
      refine .inr (.inr ⟨?_, rfl⟩)
      show (data.length : Int) < k + n
      have : (data.length : Int) - k < n := hleft
      omega
    · rename_i hn hleft
      obtain ⟨m, rfl⟩ := Int.eq_ofNat_of_zero_le (Int.not_lt.mp hn)
      have hm : k + m ≤ data.length := by
        have : ¬ (data.length : Int) - k < m := hleft
        omega
      refine .inl ⟨(data.drop k).take m, data.drop (k + m), ?_, ?_, ?_⟩
      · rw [← List.drop_drop]
        exact (List.take_append_drop m _).symm
      · rw [List.length_take, List.length_drop, Nat.min_eq_left (by omega)]
      · exact congrArg (fun front => Except.ok (StreamResult.bytes front)) (Bytes.slice_natCast hm)

/-- **With a valid cursor, what is read or peeked is what stands there.** -/
theorem step_gives (h : 0 ≤ s.cursor) (op : StreamStep Value) : s.Gives (s.step op).1 op := by
  cases op with
  | peekByte => exact gives_peekByte h
  | readByte =>
    show s.Gives (s.readByte.1.map _) .peekByte
    rw [fst_readByte]
    exact gives_peekByte h
  | peek n => exact gives_peekBytes h n
  | read n =>
    show s.Gives ((s.readBytes n).1.map _) (.peek n)
    rw [fst_readBytes]
    exact gives_peekBytes h n
  | readAll =>
    obtain ⟨data, k, rfl⟩ := exists_natCast h
    show Except.ok (StreamResult.bytes (readAll ⟨data, k⟩).1) = _
    rw [readAll_natCast]
    rfl
  | writeByte | write | isEmpty | finalize | position | size | seek | truncate | encode | decode =>
    exact trivial

/-! ## Stores that operations lead to -/

/-- **In every store that is reached without a cut below zero the cursor is valid**: it stands at the
start or behind it, a cut keeps exactly the bytes of the front that its size says and moves the cursor
back to it, and what is read or peeked is what stands at the cursor, or a wire error. From such a store
only a cut below zero leads to one whose cursor is not valid: it drops bytes of the end and takes the
cursor to the place that it was given. -/
theorem reached_valid {data : Bytes} {ops : List (StreamStep Value)} {s : Store}
    (hs : reached data ops = s) (hops : ∀ op ∈ ops, op.cutsBelowZero = false) :
    0 ≤ s.cursor ∧
      (∀ op, s.Gives (s.step op).1 op) ∧
      (∀ n, 0 ≤ n → s.truncate (some n) = ⟨s.bytes.take n.toNat, min s.cursor n⟩) ∧
      s.truncate none = ⟨s.bytes.take s.cursor.toNat, s.cursor⟩ ∧
      (∀ op, 0 ≤ (s.step op).2.cursor ↔ op.cutsBelowZero = false) ∧
      ∀ n, n < 0 → s.truncate (some n) = ⟨s.bytes.take (s.bytes.length + n).toNat, n⟩ := by
  have hcursor : 0 ≤ s.cursor := hs ▸ runSteps_cursor_nonneg (Int.le_refl 0) hops
  exact ⟨hcursor, step_gives hcursor, fun n => truncate_nonneg, truncate_none hcursor,
    step_cursor_nonneg_iff hcursor, fun n hn => truncate_neg hn hcursor⟩

/-- Three bytes, grown to six by a write behind the end. -/
theorem reached_valid_grown :
    reached [1, 2, 3] [.seek 5, .write [7], .seek 1] = ⟨[1, 2, 3, 0, 0, 7], 1⟩ ∧
      (∀ op ∈ ([.seek 5, .write [7], .seek 1] : List (StreamStep Value)),
        op.cutsBelowZero = false) ∧
      (⟨[1, 2, 3, 0, 0, 7], 1⟩ : Store).Gives
        ((⟨[1, 2, 3, 0, 0, 7], 1⟩ : Store).step (.read 4)).1 (.read 4) ∧
      (⟨[1, 2, 3, 0, 0, 7], 1⟩ : Store).truncate (some 4) = ⟨[1, 2, 3, 0], 1⟩ := by
  have hs : reached [1, 2, 3] [.seek 5, .write [7], .seek 1] = ⟨[1, 2, 3, 0, 0, 7], 1⟩ := by
    decide
  have hops : ∀ op ∈ ([.seek 5, .write [7], .seek 1] : List (StreamStep Value)),
      op.cutsBelowZero = false := by decide
  obtain ⟨-, hgives, hcut, -⟩ := reached_valid hs hops
  exact ⟨hs, hops, hgives _, hcut 4 (by decide)⟩

/-- A cut below zero is not refused: it takes a byte off the end and the cursor below zero, and one
that goes back further than there are bytes leaves a cursor at which a byte is peeked with a fault that
is no wire error. -/
theorem truncate_below_zero :
    (⟨[1, 2, 3], 0⟩ : Store).step (.truncate (some (-1))) = (.ok .nothing, ⟨[1, 2], -1⟩) ∧
      ((reached [1, 2, 3] [.truncate (some (-4))]).step .peekByte).1 =
        .error (.raised (.other "IndexError") "bytearray index out of range") :=
  ⟨rfl, rfl⟩

end Store

end ContractKit
