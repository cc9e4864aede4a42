import ContractKit.Proofs.Codec.Exact
import ContractKit.Proofs.Wire.Programs

/-!
# `Proofs/Codec/Variants.lean`: records, variants and their tags

A value of an enumeration is written as the place of its variant and the fields behind it. The place
is looked for from the end, and members from the front; whatever place is found holds the variant that
the value belongs to (`variantOf?_spec`, `memberOf?_spec`), and a place fits in the tag that the number
of variants asks for (`le_of_forCount`). What is written and read for the values of a class follows from
that (`emit_variants`, `takes_variants`).
-/

set_option autoImplicit false

namespace ContractKit

open LittleEndian

namespace TagWidth

/-- A tag tells as many variants apart as it was chosen for. -/
theorem le_of_forCount {n : Nat} {tag : TagWidth} (h : forCount n = .ok tag) :
    n ≤ 256 ^ tag.bytes := by
  unfold forCount at h
  split at h
  · cases h
    simp only [bytes]
    omega
  split at h
  · cases h
    simp only [bytes, maxVariants] at *
    omega
  · cases h

/-- A tag has one byte exactly where that suffices. -/
theorem bytes_of_forCount {n : Nat} {tag : TagWidth} (h : forCount n = .ok tag) :
    tag.bytes = if n ≤ 256 then 1 else 2 := by
  unfold forCount at h
  split at h
  · cases h
    rw [if_pos (by omega)]
    rfl
  split at h
  · cases h
    rw [if_neg (by omega)]
    rfl
  · cases h

end TagWidth

namespace Codec

/-! ## Tags -/

theorem toBytes_emitTag {tag : TagWidth} {i : Nat} {data : Bytes} :
    (emitTag tag i).toBytes = .ok data ↔ data.length = tag.bytes ∧ ofDigits data = i := by
  rw [emitTag, Emit.toBytes_int, Format.encode?_eq_some_iff, Format.decode_unsigned]
  exact and_congr_right fun _ => Int.ofNat_inj

/-- Reading a tag is writing it backwards. -/
theorem takes_readTag {tag : TagWidth} {data : Bytes} {i : Nat} :
    (readTag tag).Takes data i ↔ (emitTag tag i).toBytes = .ok data := by
  rw [toBytes_emitTag, readTag, Read.takes_map]
  simp only [Read.takes_getBytes]
  constructor
  · rintro ⟨d, ⟨rfl, hlen⟩, rfl⟩
    exact ⟨hlen, rfl⟩
  · rintro ⟨hlen, rfl⟩
    exact ⟨data, ⟨rfl, hlen⟩, rfl⟩

/-- The place of a variant can be written. -/
theorem exists_toBytes_emitTag {tag : TagWidth} {n i : Nat} (h : TagWidth.forCount n = .ok tag)
    (hi : i < n) : ∃ data, (emitTag tag i).toBytes = .ok data ∧ data.length = tag.bytes := by
  have hlt : i < 256 ^ tag.bytes := Nat.lt_of_lt_of_le hi (TagWidth.le_of_forCount h)
  refine ⟨digits tag.bytes i, ?_, length_digits _ _⟩
  exact toBytes_emitTag.mpr ⟨length_digits _ _, ofDigits_digits hlt⟩

/-! ## Directions -/

theorem toBytes_after_ensureWrites {ref : ClassRef} {directions : Directions} {e : Emit}
    {data : Bytes} :
    (Emit.after (ensureWrites ref directions) e).toBytes = .ok data ↔
      directions.writes = true ∧ e.toBytes = .ok data := by
  rw [Emit.toBytes_after_eq_ok, ensureWrites]
  cases directions.writes with
  | true => simp
  | false => simp

theorem takes_ensureReads {α : Type} {ref : ClassRef} {directions : Directions} {k : Unit → Read α}
    {data : Bytes} {a : α} :
    ((ensureReads ref directions).bind k).Takes data a ↔
      directions.reads = true ∧ (k ()).Takes data a := by
  rw [ensureReads]
  cases directions.reads with
  | true => simp [Read.bind]
  | false => simp [Read.bind, Read.Takes]

/-! ## Records -/

theorem instanceOf_record {target : Target} {vs : List Value} :
    instanceOf target (.record target.cls vs) = .ok () := by
  simp [instanceOf, RecordClass.extends?]

/-- An instance of exactly the class shows its items as the fields. -/
theorem fieldItems_record {target : Target} {fields : List Codec} {vs : List Value}
    (h : vs.length = fields.length) :
    fieldItems target fields (.record target.cls vs) = .ok vs := by
  rw [fieldItems, if_pos h]
  split
  · rfl
  · rw [← h, List.take_length]

/-- A class that accepts all values builds an instance of any items. -/
theorem build_eq {target : Target} (h : target.rejection.isNone = true) (vs : List Value) :
    target.build vs = .ok (.record target.cls vs) := by
  rw [Option.isNone_iff_eq_none] at h
  simp [Target.build, h]

/-- What a class builds is the instance of the items, if it accepts them. -/
theorem eq_of_build {target : Target} {vs : List Value} {v : Value} (h : target.build vs = .ok v) :
    v = .record target.cls vs := by
  unfold Target.build at h
  dsimp only at h
  split at h
  · exact (Except.ok.inj h).symm
  split at h
  · split at h
    · cases h
    · exact (Except.ok.inj h).symm
  · exact (Except.ok.inj h).symm

/-! ## The variant of a value -/

theorem emitCase_eq : ∀ {cases : List (Target × List Codec)} {i : Nat} {target : Target}
    {fields : List Codec} {v : Value}, cases[i]? = some (target, fields) →
      emitCase cases i v =
        match fieldItems target fields v with
        | .error f => .fail f
        | .ok vs => emitEach fields vs
  | (_, _) :: _, 0, _, _, _, h => by
    cases h
    rfl
  | _ :: rest, i + 1, _, _, _, h => by
    rw [emitCase]
    exact emitCase_eq (by simpa using h)

theorem readCase_eq : ∀ {cases : List (Target × List Codec)} {i : Nat} {missing : WireError},
    readCase cases i missing =
      match cases[i]? with
      | some case => (readEach case.2).bind fun vs => Read.ofExcept (case.1.build vs)
      | none => .fail (.wire missing)
  | [], _, _ => rfl
  | (_, _) :: _, 0, _ => rfl
  | _ :: rest, i + 1, _ => by
    rw [readCase, readCase_eq, List.getElem?_cons_succ]

/-- The variant at the place that is found has the class of the value. -/
theorem variantOf?_spec {cases : List (Target × List Codec)} {v : Value} {i : Nat}
    (h : variantOf? cases v = some i) :
    ∃ cls items case, v = .record cls items ∧ cases[i]? = some case ∧
      case.1.cls.ref.id = cls.ref.id := by
  cases v with
  | record cls items =>
    rw [variantOf?] at h
    obtain ⟨⟨case, j⟩, hfind, rfl⟩ := Option.map_eq_some_iff.mp h
    -- the search goes from the end, but a place is a place from the front
    have hmem := List.mem_of_find?_eq_some hfind
    rw [List.mem_reverse, List.mem_zipIdx_iff_getElem?] at hmem
    exact ⟨cls, items, case, rfl, hmem, by simpa using List.find?_some hfind⟩
  | _ => cases h

/-- There is a place for every instance of the class of a variant. -/
theorem exists_variantOf? {cases : List (Target × List Codec)} {case : Target × List Codec}
    (hcase : case ∈ cases) (items : List Value) :
    ∃ i, variantOf? cases (.record case.1.cls items) = some i := by
  rw [← Option.isSome_iff_exists, variantOf?, Option.isSome_map, List.find?_isSome]
  obtain ⟨i, hi⟩ := List.getElem?_of_mem hcase
  refine ⟨(case, i), ?_, by simp⟩
  rw [List.mem_reverse, List.mem_zipIdx_iff_getElem?]
  exact hi

/-- The place of an instance of exactly the class of a variant holds that variant. -/
theorem variantOf?_exact {cases : List (Target × List Codec)} {case : Target × List Codec}
    (hcase : case ∈ cases)
    (hsame : ∀ a ∈ cases, ∀ b ∈ cases, a.1.cls.ref.id = b.1.cls.ref.id → a = b)
    (items : List Value) :
    ∃ i, variantOf? cases (.record case.1.cls items) = some i ∧ cases[i]? = some case := by
  obtain ⟨i, hi⟩ := exists_variantOf? hcase items
  obtain ⟨cls, items', case', hv, hget, hid⟩ := variantOf?_spec hi
  cases hv
  exact ⟨i, hi, by rw [hget, hsame case' (List.mem_of_getElem? hget) case hcase hid]⟩

/-! ## The member of a value -/

theorem memberOf?_spec {enum : ClassRef} {cases : List Member} {v : Value} {i : Nat}
    (h : memberOf? enum cases v = some i) :
    ∃ m, cases[i]? = some m ∧ (m.value enum).beq v = true := by
  obtain ⟨hi, hbeq, -⟩ := List.findIdx?_eq_some_iff_getElem.mp h
  exact ⟨cases[i], List.getElem?_eq_getElem hi, hbeq⟩

theorem member_beq_self (enum : ClassRef) (m : Member) :
    (m.value enum).beq (m.value enum) = true := by
  obtain ⟨name, number⟩ := m
  cases number with
  | none => simp [Member.value, Value.beq]
  | some n => simp [Member.value, Value.beq, Value.number?]

/-- The place of a member is its own, where members are told apart. -/
theorem memberOf?_exact {enum : ClassRef} {cases : List Member} {i : Nat} {m : Member}
    (hdistinct : cases.Pairwise fun a b => (a.value enum).beq (b.value enum) = false)
    (hm : cases[i]? = some m) : memberOf? enum cases (m.value enum) = some i := by
  obtain ⟨hi, rfl⟩ := List.getElem?_eq_some_iff.mp hm
  refine List.findIdx?_eq_some_iff_getElem.mpr ⟨hi, member_beq_self enum _, fun j hj => ?_⟩
  rw [List.pairwise_iff_getElem.mp hdistinct j i (by omega) hi hj]
  decide

/-! ## Classes -/

/-- An instance passes the check, so it is written unless its class does not derive that. -/
theorem emit_struct_eq {target : Target} {directions : Directions} {fields : List Codec}
    {vs : List Value} (h : vs.length = fields.length) :
    (Codec.struct target directions fields).emit (.record target.cls vs) =
      Emit.after (ensureWrites target.cls.ref directions) (emitEach fields vs) := by
  have haccepts : accepts (.struct target directions fields) (.record target.cls vs) = .ok () :=
    instanceOf_record
  rw [emit, haccepts, fieldItems_record h]
  rfl

theorem emit_struct {target : Target} {directions : Directions} {fields : List Codec}
    {vs : List Value} (hwrites : directions.writes = true) (h : vs.length = fields.length) :
    (Codec.struct target directions fields).emit (.record target.cls vs) = emitEach fields vs := by
  rw [emit_struct_eq h, ensureWrites, if_pos hwrites]
  rfl

theorem takes_struct {target : Target} {directions : Directions} {fields : List Codec}
    {data : Bytes} {v : Value} :
    (Codec.struct target directions fields).read.Takes data v ↔
      directions.reads = true ∧
        ∃ vs, (readEach fields).Takes data vs ∧ target.build vs = .ok v := by
  rw [read, takes_ensureReads, Read.takes_bind]
  simp only [Read.takes_ofExcept]
  refine and_congr_right fun _ => ?_
  constructor
  · rintro ⟨vs, front, rest, rfl, hvs, rfl, hv⟩
    exact ⟨vs, by simpa using hvs, hv⟩
  · rintro ⟨vs, hvs, hv⟩
    exact ⟨vs, data, [], by simp, hvs, rfl, hv⟩

theorem emit_variants_eq {enum : ClassRef} {directions : Directions} {tag : TagWidth}
    {cases : List (Target × List Codec)} {case : Target × List Codec} {i : Nat} {vs : List Value}
    (hvariant : variantOf? cases (.record case.1.cls vs) = some i) (hi : cases[i]? = some case)
    (h : vs.length = case.2.length) :
    (Codec.variants enum directions tag cases).emit (.record case.1.cls vs) =
      Emit.after (ensureWrites enum directions) (emitTag tag i ++ emitEach case.2 vs) := by
  have haccepts : accepts (.variants enum directions tag cases) (.record case.1.cls vs) = .ok () := by
    rw [accepts, hvariant]
  rw [emit, haccepts, hvariant]
  show Emit.after _ (emitTag tag i ++ emitCase cases i _) = _
  rw [emitCase_eq hi, fieldItems_record h]

theorem emit_variants {enum : ClassRef} {directions : Directions} {tag : TagWidth}
    {cases : List (Target × List Codec)} {case : Target × List Codec} {i : Nat} {vs : List Value}
    (hwrites : directions.writes = true)
    (hvariant : variantOf? cases (.record case.1.cls vs) = some i) (hi : cases[i]? = some case)
    (h : vs.length = case.2.length) :
    (Codec.variants enum directions tag cases).emit (.record case.1.cls vs) =
      emitTag tag i ++ emitEach case.2 vs := by
  rw [emit_variants_eq hvariant hi h, ensureWrites, if_pos hwrites]
  rfl

theorem takes_variants {enum : ClassRef} {directions : Directions} {tag : TagWidth}
    {cases : List (Target × List Codec)} {data : Bytes} {v : Value} :
    (Codec.variants enum directions tag cases).read.Takes data v ↔
      directions.reads = true ∧
        ∃ i case vs front rest, data = front ++ rest ∧ (emitTag tag i).toBytes = .ok front ∧
          cases[i]? = some case ∧ (readEach case.2).Takes rest vs ∧ case.1.build vs = .ok v := by
  refine takes_ensureReads.trans (and_congr_right fun _ => ?_)
  rw [Read.takes_bind]
  simp only [takes_readTag, readCase_eq]
  constructor
  · rintro ⟨i, front, rest, rfl, htag, h⟩
    cases hi : cases[i]? with
    | none =>
      rw [hi] at h
      exact h.elim
    | some case =>
      rw [hi] at h
      obtain ⟨vs, x, y, rfl, hvs, h⟩ := Read.takes_bind.mp h
      obtain ⟨rfl, hv⟩ := Read.takes_ofExcept.mp h
      exact ⟨i, case, vs, front, x ++ [], rfl, htag, hi, by simpa using hvs, hv⟩
  · rintro ⟨i, case, vs, front, rest, rfl, htag, hi, hvs, hv⟩
    refine ⟨i, front, rest, rfl, htag, ?_⟩
    rw [hi]
    exact Read.takes_bind.mpr ⟨vs, rest, [], by simp, hvs, Read.takes_ofExcept.mpr ⟨rfl, hv⟩⟩

theorem takes_unit {target : Target} {directions : Directions} {data : Bytes} {v : Value} :
    (Codec.unit target directions).read.Takes data v ↔
      directions.reads = true ∧ data = [] ∧ target.build [] = .ok v :=
  takes_ensureReads.trans (and_congr_right fun _ => Read.takes_ofExcept)

/-- The tag of a member is the place that it has. -/
theorem takes_members {enum : ClassRef} {hashable : Bool} {directions : Directions} {tag : TagWidth}
    {cases : List Member} {data : Bytes} {v : Value} :
    (Codec.members enum hashable directions tag cases).read.Takes data v ↔
      directions.reads = true ∧
        ∃ i m, (emitTag tag i).toBytes = .ok data ∧ cases[i]? = some m ∧ v = m.value enum := by
  refine takes_ensureReads.trans (and_congr_right fun _ => ?_)
  rw [Read.takes_bind]
  simp only [takes_readTag]
  constructor
  · intro h
    obtain ⟨i, front, rest, rfl, htag, h⟩ := h
    cases hm : cases[i]? with
    | none =>
      rw [hm] at h
      exact h.elim
    | some m =>
      rw [hm] at h
      obtain ⟨rfl, rfl⟩ := h
      exact ⟨i, m, by simpa using htag, hm, rfl⟩
  · intro h
    obtain ⟨i, m, htag, hm, rfl⟩ := h
    refine ⟨i, data, [], by simp, htag, ?_⟩
    rw [hm]
    exact ⟨rfl, rfl⟩

end Codec

end ContractKit
