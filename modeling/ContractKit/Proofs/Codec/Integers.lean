import ContractKit.Codec.OfType
import ContractKit.Proofs.Codec.Leaves
import ContractKit.Wire.Format

/-!
# `Proofs/Codec/Integers.lean`: integers of every width

`Format.int` writes and reads integers of any width. The numbers that it has bytes for are those of
two's complement (`Format.InRange`), and all strings of its width stand for one of them each
(`Format.int_bijection`). A codec of a sized integer accepts the numbers of its format, so what it
refuses is never left to the writer to refuse.

That the number and the string determine each other is `LittleEndian.Format.encode?_eq_some_iff`; here it
is carried to the programs that write and read.
-/

set_option autoImplicit false

namespace ContractKit.Format

/-- The numbers that so many bytes have a form for: those from zero on, or from half of all strings below
zero on. -/
def InRange (width : Nat) (signed : Bool) (n : Int) : Prop :=
  if signed then -(2 : Int) ^ (8 * width - 1) ≤ n ∧ n < (2 : Int) ^ (8 * width - 1)
  else 0 ≤ n ∧ n < (2 : Int) ^ (8 * width)

instance (width : Nat) (signed : Bool) (n : Int) : Decidable (InRange width signed n) :=
  inferInstanceAs (Decidable (if signed then _ ∧ _ else _ ∧ _))

variable {width : Nat} {signed : Bool} {n : Int} {data : Bytes}

theorem holds_iff_inRange (hwidth : 1 ≤ width) :
    (⟨width, signed⟩ : LittleEndian.Format).Holds n ↔ InRange width signed n := by
  have hne : width ≠ 0 := Nat.one_le_iff_ne_zero.mp hwidth
  cases signed with
  | true => simp [InRange, LittleEndian.Format.Holds, LittleEndian.Format.lower,
      LittleEndian.Format.upper, hne]
  | false => simp [InRange, LittleEndian.Format.Holds, LittleEndian.Format.lower,
      LittleEndian.Format.upper]

/-! ## Writing -/

/-- An integer is written in one piece or not at all. -/
theorem emit_int_eq_chunk_iff :
    (Format.int width signed).emit (.int n) = .chunk data ↔
      (⟨width, signed⟩ : LittleEndian.Format).encode? n = some data := by
  have hemit : (Format.int width signed).emit (.int n) = Emit.int ⟨width, signed⟩ n := by
    simp [emit, emitInt, Value.number?]
  rw [hemit, Emit.int]
  cases (⟨width, signed⟩ : LittleEndian.Format).encode? n with
  | some written => simp [Emit.chunk]
  | none => simp [Emit.chunk, Emit.fail]

theorem emit_int_of_not_inRange (hwidth : 1 ≤ width) (h : ¬ InRange width signed n) :
    (Format.int width signed).emit (.int n) = .fail (.wire .integerRange) := by
  have hnone : (⟨width, signed⟩ : LittleEndian.Format).encode? n = none := by
    rw [LittleEndian.Format.encode?, if_neg (mt (holds_iff_inRange hwidth).mp h)]
  simp [emit, emitInt, Value.number?, Emit.int, hnone]

theorem inRange_of_encode? (hwidth : 1 ≤ width)
    (h : (⟨width, signed⟩ : LittleEndian.Format).encode? n = some data) : InRange width signed n :=
  (holds_iff_inRange hwidth).mp (Codec.holds_of_encode? h)

theorem exists_emit_int (hwidth : 1 ≤ width) (h : InRange width signed n) :
    ∃ data, data.length = width ∧ (Format.int width signed).emit (.int n) = .chunk data := by
  have hholds := (holds_iff_inRange hwidth).mpr h
  obtain ⟨data, hdata⟩ : ∃ data, (⟨width, signed⟩ : LittleEndian.Format).encode? n = some data := by
    rw [LittleEndian.Format.encode?, if_pos hholds]
    exact ⟨_, rfl⟩
  obtain ⟨hlen, -⟩ := LittleEndian.Format.encode?_eq_some_iff.mp hdata
  exact ⟨data, hlen, emit_int_eq_chunk_iff.mpr hdata⟩

/-- Nothing is written of an integer exactly if it is out of range. -/
theorem fault_emit_int (hwidth : 1 ≤ width) :
    ((Format.int width signed).emit (.int n)).fault = none ↔ InRange width signed n := by
  constructor
  · intro h
    by_contra hout
    rw [emit_int_of_not_inRange hwidth hout] at h
    cases h
  · intro h
    obtain ⟨data, -, hdata⟩ := exists_emit_int hwidth h
    rw [hdata]
    rfl

/-! ## Reading -/

/-- What is written of an integer is read again, whatever stands behind it. -/
theorem run_int_append (h : (Format.int width signed).emit (.int n) = .chunk data) (rest : Bytes) :
    (Format.int width signed).read.run (data ++ rest) = (.ok (.int n), rest) := by
  have hread : (Format.int width signed).read =
      (Read.int ⟨width, signed⟩).bind fun n => .done (.int n) := by
    simp [read]
  have htakes : (Read.int ⟨width, signed⟩).Takes data n :=
    Read.takes_int.mpr (Emit.toBytes_int.mpr (emit_int_eq_chunk_iff.mp h))
  rw [hread, Read.run_eq_ok_iff]
  exact ⟨data, rfl, Read.takes_map.mpr ⟨n, htakes, rfl⟩⟩

/-- Every string of the width is what is written of some integer. -/
theorem exists_int_of_length (h : data.length = width) :
    ∃ n, (Format.int width signed).emit (.int n) = .chunk data := by
  refine ⟨(⟨width, signed⟩ : LittleEndian.Format).decode data, emit_int_eq_chunk_iff.mpr ?_⟩
  exact LittleEndian.Format.encode?_eq_some_iff.mpr ⟨h, rfl⟩

/-! ## Codecs -/

theorem one_le_width (i : SizedInt) : 1 ≤ i.format.width := by
  cases i <;> decide

/-- The codec of a sized integer accepts the numbers in range. -/
theorem check_int_iff (i : SizedInt) :
    (Codec.int i.format).check (.int n) = .ok () ↔ InRange i.format.width i.format.signed n := by
  rw [Codec.check, Codec.accepts_int]
  exact holds_iff_inRange (one_le_width i)

/-- **Integers of a width and the byte strings of that width are in bijection.** A number in range is
written as a string of the width, any other one is refused before anything is written; the string is
read as the number, whatever stands behind it; and every string of the width is one of these. The codec
of a sized integer accepts exactly the numbers that can be written. -/
theorem int_bijection (hwidth : 1 ≤ width) (signed : Bool) :
    (∀ n : Int,
      ((∃ data, data.length = width ∧ (Format.int width signed).emit (.int n) = .chunk data) ↔
        InRange width signed n) ∧
      (¬ InRange width signed n → ∃ f, (Format.int width signed).emit (.int n) = .fail f ∧
        f.kind = .wire .general) ∧
      ∀ data, (Format.int width signed).emit (.int n) = .chunk data → data.length = width ∧
        ∀ rest, (Format.int width signed).read.run (data ++ rest) = (.ok (.int n), rest)) ∧
    (∀ data : Bytes, data.length = width → ∃ n, InRange width signed n ∧
      (Format.int width signed).emit (.int n) = .chunk data ∧
      ∀ rest, (Format.int width signed).read.run (data ++ rest) = (.ok (.int n), rest)) ∧
    ∀ (classes : Classes) (i : SizedInt), ∃ c, Codec.ofType classes (.sized i) = .ok c ∧ ∀ n : Int,
      (c.check (.int n) = .ok () ↔ InRange i.format.width i.format.signed n) ∧
      (c.check (.int n) = .ok () ↔
        ((Format.int i.format.width i.format.signed).emit (.int n)).fault = none) := by
  -- writing and reading are the format at work, and the range is what the format holds
  refine ⟨?_, ?_, ?_⟩
  · intro n
    refine ⟨⟨?_, exists_emit_int hwidth⟩, ?_, ?_⟩
    · rintro ⟨data, -, hdata⟩
      exact inRange_of_encode? hwidth (emit_int_eq_chunk_iff.mp hdata)
    · intro hout
      exact ⟨_, emit_int_of_not_inRange hwidth hout, rfl⟩
    · intro data hdata
      obtain ⟨hlen, -⟩ :=
        LittleEndian.Format.encode?_eq_some_iff.mp (emit_int_eq_chunk_iff.mp hdata)
      exact ⟨hlen, run_int_append hdata⟩
  · intro data hlen
    obtain ⟨n, hn⟩ := exists_int_of_length hlen
    exact ⟨n, inRange_of_encode? hwidth (emit_int_eq_chunk_iff.mp hn), hn, run_int_append hn⟩
  · intro classes i
    refine ⟨.int i.format, rfl, fun n => ⟨check_int_iff i, ?_⟩⟩
    rw [check_int_iff, fault_emit_int (one_le_width i)]

/-- The least number of two signed bytes is written as them and read again; the one below it is refused,
by the codec as well. -/
theorem int_bijection_lowest :
    1 ≤ 2 ∧ InRange 2 true (-32768) ∧ ¬ InRange 2 true (-32769) ∧
      (Format.int (2 : Nat) true).emit (.int (-32768)) = .chunk [0x00, 0x80] ∧
      (Format.int (2 : Nat) true).read.run [0x00, 0x80, 0xff] = (.ok (.int (-32768)), [0xff]) ∧
      (∃ f, (Format.int (2 : Nat) true).emit (.int (-32769)) = .fail f ∧ f.kind = .wire .general) ∧
      ¬ (Codec.int SizedInt.i16.format).check (.int (-32769)) = .ok () := by
  obtain ⟨hwrites, -, hcodec⟩ := int_bijection (by decide : 1 ≤ 2) true
  have hin : InRange 2 true (-32768) := by decide
  have hout : ¬ InRange 2 true (-32769) := by decide
  have hwritten : (Format.int (2 : Nat) true).emit (.int (-32768)) = .chunk [0x00, 0x80] := by
    rw [emit_int_eq_chunk_iff]
    decide
  obtain ⟨c, hc, hchecks⟩ := hcodec (fun _ => {}) .i16
  cases hc
  refine ⟨by decide, hin, hout, hwritten, ?_, (hwrites (-32769)).2.1 hout, ?_⟩
  · exact ((hwrites (-32768)).2.2 _ hwritten).2 [0xff]
  · exact mt (hchecks (-32769)).1.mp hout

end ContractKit.Format
