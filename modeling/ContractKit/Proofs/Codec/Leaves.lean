import ContractKit.Proofs.Codec.Variants

/-!
# `Proofs/Codec/Leaves.lean`: codecs without codecs below

For the codecs that delegate to no others reading is writing backwards, on the nose: the reader takes
exactly the byte strings that the writer leaves for a value of exactly the type (`Faithful`). The round
trip and its converse both start from here.
-/

set_option autoImplicit false

namespace ContractKit.Codec

open LittleEndian

/-- The reader takes what the writer leaves for exact values, and nothing else. -/
def Faithful (c : Codec) : Prop :=
  ∀ (v : Value) (data : Bytes), c.read.Takes data v ↔ c.Exact v ∧ (c.emit v).toBytes = .ok data

/-! ## Numbers, truth values, texts and byte strings -/

theorem accepts_int {format : Format} {n : Int} :
    accepts (.int format) (.int n) = .ok () ↔ format.Holds n := by
  show (if format.upper ≤ n then refuse .aboveUpperBound
    else if n < format.lower then refuse .belowLowerBound else .ok ()) = .ok () ↔ _
  unfold Format.Holds refuse
  split
  · simp
    omega
  split
  · simp
    omega
  · simp
    omega

theorem holds_of_encode? {format : Format} {n : Int} {data : Bytes}
    (h : format.encode? n = some data) : format.Holds n := by
  obtain ⟨hlen, rfl⟩ := Format.encode?_eq_some_iff.mp h
  exact (Format.holds_decode hlen).1

theorem faithful_int (format : Format) : (Codec.int format).Faithful := by
  intro v data
  rw [read, Read.takes_map]
  simp only [Read.takes_int]
  constructor
  · rintro ⟨n, hn, rfl⟩
    refine ⟨⟨n, rfl⟩, ?_⟩
    rw [emit, Emit.toBytes_after_eq_ok, accepts_int]
    exact ⟨holds_of_encode? (Emit.toBytes_int.mp hn), hn⟩
  · rintro ⟨⟨n, rfl⟩, h⟩
    rw [emit, Emit.toBytes_after_eq_ok] at h
    exact ⟨n, h.2, rfl⟩

theorem faithful_bool : Codec.bool.Faithful := by
  intro v data
  rw [read, Read.takes_map]
  simp only [Read.takes_bool]
  constructor
  · rintro ⟨b, hb, rfl⟩
    exact ⟨⟨b, rfl⟩, hb⟩
  · rintro ⟨⟨b, rfl⟩, h⟩
    exact ⟨b, h, rfl⟩

theorem faithful_bytes (width : PrefixWidth) (order : OrderPolicy) :
    (Codec.bytes width order).Faithful := by
  intro v data
  rw [read, Read.takes_map]
  simp only [Read.takes_prefixedBytes]
  constructor
  · rintro ⟨b, hb, rfl⟩
    exact ⟨⟨b, rfl⟩, hb⟩
  · rintro ⟨⟨b, rfl⟩, h⟩
    exact ⟨b, h, rfl⟩

theorem faithful_text (width : PrefixWidth) (order : OrderPolicy) :
    (Codec.text width order).Faithful := by
  intro v data
  rw [read, Read.takes_map]
  simp only [Read.takes_prefixedText]
  constructor
  · rintro ⟨s, hs, rfl⟩
    exact ⟨⟨s, rfl⟩, hs⟩
  · rintro ⟨⟨s, rfl⟩, h⟩
    exact ⟨s, h, rfl⟩

/-! ## Addresses -/

theorem faithful_accountAddress : Codec.accountAddress.Faithful := by
  intro v data
  have hemit : ∀ x : Bytes, (Codec.accountAddress.emit (.bytes x)).toBytes = .ok data ↔
      x.length = 32 ∧ x = data := by
    intro x
    rw [emit, Emit.toBytes_after_eq_ok, Emit.toBytes_chunk, Except.ok.injEq]
    refine and_congr_left fun _ => ?_
    show (if x.length = 32 then (.ok () : Except Fault Unit) else refuse _) = .ok () ↔ _
    split <;> simp_all [refuse]
  rw [read, Read.takes_map]
  simp only [Read.takes_getBytes]
  constructor
  · rintro ⟨x, ⟨rfl, hlen⟩, rfl⟩
    exact ⟨⟨x, rfl⟩, (hemit x).mpr ⟨hlen, rfl⟩⟩
  · rintro ⟨⟨x, rfl⟩, h⟩
    obtain ⟨hlen, rfl⟩ := (hemit x).mp h
    exact ⟨x, ⟨rfl, hlen⟩, rfl⟩

theorem isAddressPart_int {n : Int} :
    isAddressPart (.int n) = true ↔ (⟨8, false⟩ : Format).Holds n := by
  simp [isAddressPart, Value.integer?, Format.Holds, Format.lower, Format.upper]

theorem faithful_contractAddress : Codec.contractAddress.Faithful := by
  intro v data
  have hemit : ∀ i j : Int,
      (Codec.contractAddress.emit (.contractAddress i j)).toBytes = .ok data ↔
        ∃ x y, data = x ++ y ∧ (Emit.int ⟨8, false⟩ i).toBytes = .ok x ∧
          (Emit.int ⟨8, false⟩ j).toBytes = .ok y := by
    intro i j
    rw [Value.contractAddress, emit, Emit.toBytes_after_eq_ok]
    show _ ∧ (Emit.int ⟨8, false⟩ i ++ Emit.int ⟨8, false⟩ j).toBytes = .ok data ↔ _
    rw [Emit.toBytes_append_eq_ok]
    -- what can be written as two numbers of eight bytes has passed the check of the parts
    refine and_iff_right_of_imp ?_
    rintro ⟨x, y, -, hx, hy⟩
    have hi := isAddressPart_int.mpr (holds_of_encode? (Emit.toBytes_int.mp hx))
    have hj := isAddressPart_int.mpr (holds_of_encode? (Emit.toBytes_int.mp hy))
    show (if RecordClass.contractAddress.extends? ClassRef.contractAddress.id = true then
      if [Value.int i, Value.int j].all isAddressPart = true then .ok () else refuse .addressParts
      else refuse .expectedContractAddress) = .ok ()
    rw [if_pos (by decide), if_pos (by simp [hi, hj])]
  rw [read, Read.takes_bind]
  simp only [Read.takes_map, readAddressPart, Read.takes_int]
  constructor
  · rintro ⟨i, x, y, rfl, hx, j, hy, rfl⟩
    exact ⟨⟨i, j, rfl⟩, (hemit i j).mpr ⟨x, y, rfl, hx, hy⟩⟩
  · rintro ⟨⟨i, j, rfl⟩, h⟩
    obtain ⟨x, y, rfl, hx, hy⟩ := (hemit i j).mp h
    exact ⟨i, x, y, rfl, hx, j, hy, rfl⟩

/-! ## Classes without fields and plain members -/

theorem faithful_unit {target : Target} {directions : Directions}
    (hwrites : directions.writes = true) (hreads : directions.reads = true)
    (hbuilds : target.rejection.isNone = true) : (Codec.unit target directions).Faithful := by
  intro v data
  rw [takes_unit, build_eq hbuilds, Except.ok.injEq]
  constructor
  · rintro ⟨-, rfl, rfl⟩
    refine ⟨rfl, ?_⟩
    rw [emit, Emit.toBytes_after_eq_ok, toBytes_after_ensureWrites]
    exact ⟨instanceOf_record, hwrites, rfl⟩
  · rintro ⟨rfl, h⟩
    rw [emit, Emit.toBytes_after_eq_ok, toBytes_after_ensureWrites, Emit.toBytes_nothing,
      Except.ok.injEq] at h
    exact ⟨hreads, h.2.2.symm, rfl⟩

theorem faithful_members {enum : ClassRef} {hashable : Bool} {directions : Directions}
    {tag : TagWidth} {cases : List Member} (hwrites : directions.writes = true)
    (hreads : directions.reads = true)
    (hsound : SoundNode (.members enum hashable directions tag cases)) :
    (Codec.members enum hashable directions tag cases).Faithful := by
  intro v data
  have hemit : ∀ {i : Nat} {m : Member}, cases[i]? = some m →
      (((Codec.members enum hashable directions tag cases).emit (m.value enum)).toBytes = .ok data ↔
        (emitTag tag i).toBytes = .ok data) := by
    intro i m hm
    have hmember := memberOf?_exact hsound.2 hm
    have hhash : (m.value enum).isHashable = true := by
      simp [Member.value, Value.isHashable]
    rw [emit, Emit.toBytes_after_eq_ok, toBytes_after_ensureWrites, hmember]
    refine (and_iff_right ?_).trans (and_iff_right hwrites)
    rw [accepts, if_pos hhash, hmember]
  rw [takes_members]
  constructor
  · rintro ⟨-, i, m, htag, hm, rfl⟩
    exact ⟨⟨m, List.mem_of_getElem? hm, rfl⟩, (hemit hm).mpr htag⟩
  · rintro ⟨⟨m, hm, rfl⟩, h⟩
    obtain ⟨i, hi⟩ := List.getElem?_of_mem hm
    exact ⟨hreads, i, m, (hemit hi).mp h, hi, rfl⟩

end ContractKit.Codec
