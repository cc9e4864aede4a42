import ContractKit.Proofs.Codec.Parts
import ContractKit.Proofs.Codec.Variants
import ContractKit.Proofs.Fault.Confined

/-!
# `Proofs/Codec/Faults.lean`: how writing and reading fail

Nearly everything that a codec finds wrong is a bad value: a value of another type or out of range, or
bytes of another form. `WriteCause` and `ReadCause` list what else there is. A class may not derive
writing, or reading. A value can lack what is going to be written, which no check notices beforehand: a
contract address with fewer than two parts, and an instance without one of its fields. And a class that
rejects what was read does so with a fault of its own choice.

`WriteFault` and `ReadFault` are the same seen from outside, where a class that does not derive what is
asked for is reported as a bad value is.
-/

set_option autoImplicit false

namespace ContractKit

/-- The faults by which bad values are told. -/
def Fault.BadValue (f : Fault) : Prop := f.isBadValue = true

/-- Those of them that are about the value, and not about what its type derives. -/
def Fault.Malformed (f : Fault) : Prop := f.BadValue ∧ f.kind ≠ .wire .unsupported

theorem Fault.malformed_refused (r : Refusal) : (Fault.refused r).Malformed := by
  cases hrange : r.isRange with
  | true => simp [Malformed, BadValue, isBadValue, kind, FaultKind.isBadValue, FaultKind.lineage, hrange]
  | false => simp [Malformed, BadValue, isBadValue, kind, FaultKind.isBadValue, FaultKind.lineage, hrange]

theorem Fault.malformed_wire {error : WireError} (h : error.family ≠ .unsupported) :
    (Fault.wire error).Malformed :=
  ⟨rfl, fun hkind => h (FaultKind.wire.inj hkind)⟩

/-- Contract code has no word for a wire error. -/
theorem Fault.isWire_ofCode (kind : FaultKind) (text : String) : (ofCode kind text).isWire = false := by
  unfold ofCode
  cases kind <;> rfl

theorem Fault.malformed_unordered : Fault.unordered.Malformed := ⟨rfl, nofun⟩

theorem Fault.malformed_unhashable : Fault.unhashable.Malformed := ⟨rfl, nofun⟩

namespace Codec

/-! ## Checks -/

theorem confined_refuse {α : Type} (r : Refusal) :
    Confined Fault.Malformed (refuse r : Except Fault α) :=
  .error (Fault.malformed_refused r)

theorem confined_instanceOf (target : Target) (v : Value) :
    Confined Fault.Malformed (instanceOf target v) := by
  unfold instanceOf
  cases v with
  | record cls items => exact Confined.ite (.ok _) (confined_refuse _)
  | _ => exact confined_refuse _

/-- **A check refuses bad values and nothing else.** So a check that refuses a state aborts the call,
and nothing of it escapes. -/
theorem confined_accepts (c : Codec) (v : Value) : Confined Fault.Malformed (accepts c v) := by
  unfold accepts
  -- each check is a tree of conditions whose ends are acceptance or a refusal; `dsimp only` picks
  -- the tree
  cases c with
  | bool | bytes _ _ | text _ _ | set _ _ _ _ | map _ _ _ _ | varTuple _ | variants _ _ _ _ =>
    dsimp only
    split
    · exact .ok _
    · exact confined_refuse _
  | accountAddress | tuple _ =>
    dsimp only
    split
    · exact Confined.ite (.ok _) (confined_refuse _)
    · exact confined_refuse _
  | int format =>
    dsimp only
    split
    · exact confined_refuse _
    · exact Confined.ite (confined_refuse _) (Confined.ite (confined_refuse _) (.ok _))
  | contractAddress =>
    dsimp only
    split
    · exact Confined.ite (Confined.ite (.ok _) (confined_refuse _)) (confined_refuse _)
    · exact confined_refuse _
  | sequence tuples _ _ _ =>
    dsimp only
    refine Confined.ite ?_ ?_ <;>
    · split
      · exact .ok _
      · exact confined_refuse _
  | members _ _ _ _ _ =>
    dsimp only
    refine Confined.ite ?_ (.error Fault.malformed_unhashable)
    split
    · exact .ok _
    · exact confined_refuse _
  | optional _ => exact .ok _
  | struct target _ _ => exact confined_instanceOf target v
  | unit target _ => exact confined_instanceOf target v

theorem confined_fieldItems (target : Target) (fields : List Codec) (v : Value) :
    Confined Fault.Malformed (fieldItems target fields v) := by
  unfold fieldItems
  split
  · exact Confined.ite (Confined.ite (.ok _) (confined_refuse _)) (.ok _)
  · exact .ok _

/-! ## Writing -/

/-- What stops the writing of a value, each cause with the part of the codec that it comes from. It is
stated for all codecs at once, so whoever asks what a codec can fail with asks which parts it has. -/
inductive WriteCause (c : Codec) : Fault → Prop
  | malformed {f : Fault} (h : f.Malformed) : WriteCause c f
  /-- A class that does not derive writing. -/
  | notDerived {d : Codec} (hd : d ∈ c.parts) (h : d.derives Directions.writes = false)
      (type : String) : WriteCause c (.wire (.encodeNotDerived type))
  /-- A contract address that has fewer than two parts. -/
  | missingItem (h : .contractAddress ∈ c.parts) : WriteCause c missingItem
  /-- An instance of a class that lacks one of its fields. -/
  | missingField : WriteCause c missingField

theorem WriteCause.of_child {c d : Codec} (hd : d ∈ c.children) {f : Fault} (h : WriteCause d f) :
    WriteCause c f := by
  cases h with
  | malformed h => exact .malformed h
  | notDerived he h type => exact .notDerived (mem_parts_of_child hd he) h type
  | missingItem h => exact .missingItem (mem_parts_of_child hd h)
  | missingField => exact .missingField

/-- The faults that stop the writing of a value, once the codec can write: bad values, and the two ways
in which a value can be incomplete without being a bad one. -/
inductive WriteFault (c : Codec) : Fault → Prop
  | badValue {f : Fault} (h : f.BadValue) : WriteFault c f
  /-- A contract address that has fewer than two parts. -/
  | missingItem (h : .contractAddress ∈ c.parts) : WriteFault c missingItem
  /-- An instance of a class that lacks one of its fields. -/
  | missingField : WriteFault c missingField

theorem WriteCause.writeFault {c : Codec} {f : Fault} (h : WriteCause c f) : WriteFault c f := by
  cases h with
  | malformed h => exact .badValue h.1
  | notDerived _ _ _ => exact .badValue rfl
  | missingItem h => exact .missingItem h
  | missingField => exact .missingField

/-- Numbers are too large, and counts too long, for what they are written in. -/
theorem WriteCause.integerRange (c : Codec) : WriteCause c (.wire .integerRange) :=
  .malformed (Fault.malformed_wire nofun)

theorem WriteCause.countTooLong (c : Codec) (width : PrefixWidth) (n : Int) :
    WriteCause c (.wire (.countTooLong n width)) :=
  .malformed (Fault.malformed_wire nofun)

/-- Only what stops a codec stops the writing of the values of another one. -/
def StopsWithin (c d : Codec) : Prop := ∀ v, Emit.Confined (WriteCause c) (d.emit v)

section Writing

variable {c d : Codec} {cs : List Codec}

theorem confined_emitAddressPart (items : List Value) (i : Nat) :
    Emit.Confined (WriteCause .contractAddress) (emitAddressPart items i) := by
  unfold emitAddressPart
  split
  · exact .fail (.missingItem (self_mem_parts _))
  · exact .int (.integerRange _) _ _

/-- The fields of a record can be written as far as each of them can. -/
theorem confined_emitEach (hcs : ∀ d ∈ cs, StopsWithin c d) :
    ∀ vs : List Value, Emit.Confined (WriteCause c) (emitEach cs vs) := by
  induction cs with
  | nil => exact fun _ => .nothing
  | cons d cs ih =>
    intro vs
    cases vs with
    | nil => exact .fail .missingField
    | cons v vs =>
      rw [emitEach]
      exact .append (hcs d (by simp) v) (ih (fun d' hd' => hcs d' (by simp [hd'])) vs)

theorem confined_emitFields {target : Target} {v : Value} (hcs : ∀ d ∈ cs, StopsWithin c d) :
    Emit.Confined (WriteCause c)
      (match fieldItems target cs v with
        | .error f => .fail f
        | .ok vs => emitEach cs vs) := by
  split
  · rename_i f heq
    exact .fail (.malformed (confined_fieldItems target cs v f heq))
  · exact confined_emitEach hcs _

/-- A node is written when its check passes. -/
theorem confined_after_accepts {v : Value} {e : Emit} (he : Emit.Confined (WriteCause c) e) :
    Emit.Confined (WriteCause c) (.after (accepts d v) e) :=
  .after ((confined_accepts d v).mono fun _ => .malformed) fun _ => he

/-- The class of a node may not derive writing. -/
theorem confined_after_ensureWrites {target : ClassRef} {directions : Directions} {e : Emit}
    (hnode : c.derives Directions.writes = directions.writes) (he : Emit.Confined (WriteCause c) e) :
    Emit.Confined (WriteCause c) (.after (ensureWrites target directions) e) := by
  refine .after ?_ fun _ => he
  unfold ensureWrites
  split
  · exact .ok _
  · rename_i hwrites
    rw [← hnode, Bool.not_eq_true] at hwrites
    exact .error (.notDerived (self_mem_parts c) hwrites _)

/-- Items are written behind their number. -/
theorem confined_counted {α : Type} {width : PrefixWidth} {n : Nat} {write : α → Emit} {as : List α}
    (h : ∀ a, Emit.Confined (WriteCause c) (write a)) :
    Emit.Confined (WriteCause c) (Emit.count width n ++ Emit.each write as) :=
  .append (.count (.integerRange c) (.countTooLong c width) n) (.each fun a _ => h a)

/-! One lemma for each kind of codec that holds values of others. -/

section Containers

variable {tuples frozen hashable : Bool} {item member key value : Codec} {items : List Codec}
  {width : PrefixWidth} {order : OrderPolicy} {directions : Directions}

theorem stopsWithin_sequence (hitem : StopsWithin c item) :
    StopsWithin c (.sequence tuples item width order) := by
  intro v
  unfold emit
  refine confined_after_accepts ?_
  split
  · exact confined_counted hitem
  · exact confined_counted hitem
  · exact .nothing

theorem stopsWithin_varTuple (hitem : StopsWithin c item) : StopsWithin c (.varTuple item) := by
  intro v
  rw [emit]
  exact confined_after_accepts (confined_counted hitem)

/-- Members without an order are refused after their number. -/
theorem stopsWithin_set (hmember : StopsWithin c member) :
    StopsWithin c (.set frozen member width order) := by
  intro v
  rw [emit]
  refine confined_after_accepts (.append (.count (.integerRange _) (.countTooLong _ _) _) ?_)
  split
  · exact .each fun x _ => hmember x
  · exact .fail (.malformed Fault.malformed_unordered)

theorem stopsWithin_map (hkey : StopsWithin c key) (hvalue : StopsWithin c value) :
    StopsWithin c (.map key value width order) := by
  intro v
  unfold emit
  refine confined_after_accepts ?_
  split
  · refine .append (.count (.integerRange _) (.countTooLong _ _) _) ?_
    split
    · exact .each fun e _ => .append (hkey e.1) (hvalue e.2)
    · exact .fail (.malformed Fault.malformed_unordered)
  · exact .nothing

theorem stopsWithin_optional (hitem : StopsWithin c item) : StopsWithin c (.optional item) := by
  intro v
  unfold emit
  split
  · exact .byte _
  · exact .append (.byte _) (hitem v)

theorem stopsWithin_tuple (hitems : ∀ d ∈ items, StopsWithin c d) : StopsWithin c (.tuple items) := by
  intro v
  rw [emit]
  exact confined_after_accepts (confined_emitEach hitems _)

theorem stopsWithin_struct {target : Target}
    (hitems : ∀ d ∈ items, StopsWithin (.struct target directions items) d) :
    StopsWithin (.struct target directions items) (.struct target directions items) := by
  intro v
  rw [emit]
  exact confined_after_accepts (confined_after_ensureWrites rfl (confined_emitFields hitems))

/-- The fields are those of the variant that the value is found to be. -/
theorem stopsWithin_variants {enum : ClassRef} {tag : TagWidth} {cases : List (Target × List Codec)}
    (hfields : ∀ case ∈ cases, ∀ d ∈ case.2, StopsWithin (.variants enum directions tag cases) d) :
    StopsWithin (.variants enum directions tag cases) (.variants enum directions tag cases) := by
  intro v
  rw [emit]
  refine confined_after_accepts (confined_after_ensureWrites rfl ?_)
  split
  · rename_i i hi
    refine .append (.int (.integerRange _) _ _) ?_
    obtain ⟨cls, items, case, rfl, hcase, -⟩ := variantOf?_spec hi
    rw [emitCase_eq hcase]
    exact confined_emitFields (hfields case (List.mem_of_getElem? hcase))
  · exact .nothing

theorem stopsWithin_members {enum : ClassRef} {tag : TagWidth} {cases : List Member} :
    StopsWithin (.members enum hashable directions tag cases)
      (.members enum hashable directions tag cases) := by
  intro v
  rw [emit]
  refine confined_after_accepts (confined_after_ensureWrites rfl ?_)
  split
  · exact .int (.integerRange _) _ _
  · exact .nothing

end Containers

/-- **The writing of a value stops at a bad value, where something is missing, or at a class that does
not derive it.** -/
theorem emit_causes (c : Codec) : ∀ v : Value, Emit.Confined (WriteCause c) (c.emit v) := by
  induction c using induct with
  | h c ih =>
    have ih' : ∀ d ∈ c.children, StopsWithin c d := fun d hd v =>
      (ih d hd v).mono fun _ => WriteCause.of_child hd
    intro v
    -- nodes without parts stop by their check or by what they write; the others have a lemma each
    cases c with
    | int format =>
      rw [emit]
      exact confined_after_accepts (.int (.integerRange _) _ _)
    | bool =>
      rw [emit]
      exact confined_after_accepts (.byte _)
    | accountAddress =>
      unfold emit
      refine confined_after_accepts ?_
      split
      · exact .chunk _
      · exact .nothing
    | contractAddress =>
      unfold emit
      refine confined_after_accepts ?_
      split
      · exact .append (confined_emitAddressPart _ 0) (confined_emitAddressPart _ 1)
      · exact .nothing
    | bytes width order | text width order =>
      unfold emit
      refine confined_after_accepts ?_
      split
      · exact .prefixedBytes (.integerRange _) (.countTooLong _ _) _
      · exact .nothing
    | sequence tuples item width order => exact stopsWithin_sequence (ih' item (by simp [children])) v
    | varTuple item => exact stopsWithin_varTuple (ih' item (by simp [children])) v
    | set frozen member width order => exact stopsWithin_set (ih' member (by simp [children])) v
    | map key value width order =>
      exact stopsWithin_map (ih' key (by simp [children])) (ih' value (by simp [children])) v
    | optional item => exact stopsWithin_optional (ih' item (by simp [children])) v
    | tuple items => exact stopsWithin_tuple ih' v
    | struct target directions fields => exact stopsWithin_struct ih' v
    | unit target directions =>
      rw [emit]
      exact confined_after_accepts (confined_after_ensureWrites rfl .nothing)
    | variants enum directions tag cases =>
      exact stopsWithin_variants (fun _ hcase d hd => ih' d (mem_children_of_case hcase hd)) v
    | members enum hashable directions tag cases => exact stopsWithin_members v

theorem encode_causes (c : Codec) (v : Value) : Confined (WriteCause c) (c.encode v) :=
  emit_causes c v

theorem confined_encode (c : Codec) (v : Value) : Confined (WriteFault c) (c.encode v) :=
  (encode_causes c v).mono fun _ => WriteCause.writeFault

/-- **A codec that can write finds values malformed or wanting, and never a class that does not derive
writing.** -/
theorem kind_of_encode {v : Value} {f : Fault} (hcan : c.canWrite = true)
    (h : c.encode v = .error f) : f.kind ≠ .wire .unsupported := by
  cases encode_causes c v f h with
  | malformed h => exact h.2
  | notDerived hd hderives _ => exact absurd (can_iff_parts.mp hcan _ hd) (by simp [hderives])
  | missingItem _ => exact nofun
  | missingField => exact nofun

end Writing

/-! ## Reading -/

/-- The classes that a node builds instances of. -/
def targets : Codec → List Target
  | .struct target .. | .unit target _ => [target]
  | .variants _ _ _ cases => cases.map (·.1)
  | _ => []

/-- What ends the reading of a value, each cause with the part of the codec that it comes from. Bytes
that are not of the format are one cause; the others are what classes do not derive and do not accept.
-/
inductive ReadCause (c : Codec) : Fault → Prop
  | malformed {f : Fault} (h : f.Malformed) : ReadCause c f
  /-- A class that does not derive reading. -/
  | notDerived {d : Codec} (hd : d ∈ c.parts) (h : d.derives Directions.reads = false)
      (type : String) : ReadCause c (.wire (.decodeNotDerived type))
  /-- A class rejects what was read for one of its fields. -/
  | rejected {d : Codec} {target : Target} {r : Rejection} (hd : d ∈ c.parts)
      (htarget : target ∈ d.targets) (hr : target.rejection = some r) :
      ReadCause c (.ofCode r.kind r.text)

theorem ReadCause.of_child {c d : Codec} (hd : d ∈ c.children) {f : Fault} (h : ReadCause d f) :
    ReadCause c f := by
  cases h with
  | malformed h => exact .malformed h
  | notDerived he h type => exact .notDerived (mem_parts_of_child hd he) h type
  | rejected he htarget hr => exact .rejected (mem_parts_of_child hd he) htarget hr

theorem ReadCause.badData (c : Codec) {error : WireError} (h : error.family = .badData) :
    ReadCause c (.wire error) :=
  .malformed (Fault.malformed_wire (by rw [h]; decide))

/-- The faults that the reading of a value ends with, once the codec can read: bad values, and what
classes raise for the values that they reject, which can be of any kind. -/
inductive ReadFault (c : Codec) : Fault → Prop
  | badValue {f : Fault} (h : f.BadValue) : ReadFault c f
  /-- A class rejects what was read for one of its fields. -/
  | rejected {d : Codec} {target : Target} {r : Rejection} (hd : d ∈ c.parts)
      (htarget : target ∈ d.targets) (hr : target.rejection = some r) :
      ReadFault c (.ofCode r.kind r.text)

theorem ReadCause.readFault {c : Codec} {f : Fault} (h : ReadCause c f) : ReadFault c f := by
  cases h with
  | malformed h => exact .badValue h.1
  | notDerived _ _ _ => exact .badValue rfl
  | rejected hd htarget hr => exact .rejected hd htarget hr

/-- Keys are refused for their order or for what they are. -/
theorem confined_keyCheck (check : KeyCheck) (previous : Option Value) (k : Value) :
    Confined Fault.Malformed (check.accepts previous k) := by
  refine KeyCheck.confined_accepts (fun p _ => ?_) fun _ => Fault.malformed_unhashable
  unfold KeyCheck.follows
  split
  · exact .error Fault.malformed_unordered
  · exact .ok _
  · exact .error (Fault.malformed_wire nofun)

section Reading

variable {c : Codec} {cs : List Codec}

/-- The class of a node may not derive reading. -/
theorem confined_ensureReads {directions : Directions}
    (hnode : c.derives Directions.reads = directions.reads) (target : ClassRef) :
    (ensureReads target directions).Confined (ReadCause c) := by
  unfold ensureReads
  split
  · trivial
  · rename_i hreads
    rw [← hnode, Bool.not_eq_true] at hreads
    exact .notDerived (self_mem_parts c) hreads _

theorem confined_build {target : Target} (htarget : target ∈ c.targets) (items : List Value) :
    Confined (ReadCause c) (target.build items) := by
  unfold Target.build
  cases hr : target.rejection with
  | none => exact .ok _
  | some r =>
    dsimp only
    cases (Value.record target.cls items).field? r.field with
    | none => exact .ok _
    | some held => exact Confined.ite (.error (.rejected (self_mem_parts c) htarget hr)) (.ok _)

theorem confined_readEach (hcs : ∀ d ∈ cs, d.read.Confined (ReadCause c)) :
    (readEach cs).Confined (ReadCause c) := by
  induction cs with
  | nil => trivial
  | cons d cs ih =>
    rw [readEach]
    exact .bind (hcs d (by simp)) fun _ => .map (ih fun d' hd' => hcs d' (by simp [hd']))

/-- An instance is built when its fields have been read. -/
theorem confined_readFields {target : Target} (htarget : target ∈ c.targets)
    (hcs : ∀ d ∈ cs, d.read.Confined (ReadCause c)) :
    ((readEach cs).bind fun vs => Read.ofExcept (target.build vs)).Confined (ReadCause c) :=
  .bind (confined_readEach hcs) fun vs => .ofExcept (confined_build htarget vs)

/-- **The reading of a value ends with bytes that are malformed, with a class that rejects what was read,
or at a class that does not derive it.** -/
theorem read_causes (c : Codec) : c.read.Confined (ReadCause c) := by
  induction c using induct with
  | h c ih =>
    have ih' : ∀ d ∈ c.children, d.read.Confined (ReadCause c) := fun d hd =>
      (ih d hd).mono fun _ => ReadCause.of_child hd
    have hkeys : ∀ check previous k, Confined (ReadCause c) (KeyCheck.accepts check previous k) :=
      fun check previous k => (confined_keyCheck check previous k).mono fun _ => .malformed
    -- reading is put together of few programs, each confined by itself
    cases c with
    | int format => exact .map (.int format)
    | bool => exact .map (.bool fun _ => .badData _ rfl)
    | accountAddress => exact .map (.getBytes 32)
    | contractAddress => exact .bind (.int _) fun _ => .map (.int _)
    | bytes width order => exact .map (.prefixedBytes width)
    | text width order => exact .map (.prefixedText (.badData _ rfl) width)
    | sequence tuples item width order =>
      exact .map (.prefixedItems (ih' item (by simp [children])) width)
    | set frozen member width order =>
      exact .map (.keyed width (ih' member (by simp [children])) (hkeys _))
    | map key value width order =>
      have hentry := Read.Confined.entry (ih' key (by simp [children]))
        (ih' value (by simp [children]))
      exact .map (.keyed width hentry (hkeys _))
    | optional item =>
      refine .byte fun tag => ?_
      split
      · trivial
      · split
        · exact ih' item (by simp [children])
        · exact .badData _ rfl
    | tuple items => exact .map (confined_readEach ih')
    | varTuple item => exact .map (.prefixedItems (ih' item (by simp [children])) _)
    | struct target directions fields =>
      refine .bind (confined_ensureReads rfl _) fun _ => confined_readFields ?_ ih'
      simp [targets]
    | unit target directions =>
      refine .bind (confined_ensureReads rfl _) fun _ => .ofExcept (confined_build ?_ _)
      simp [targets]
    | variants enum directions tag cases =>
      refine .bind (confined_ensureReads rfl _) fun _ => .bind (.map (.getBytes _)) fun i => ?_
      rw [readCase_eq]
      split
      · rename_i case hcase
        have hmem := List.mem_of_getElem? hcase
        exact confined_readFields (List.mem_map_of_mem hmem) fun d hd =>
          ih' d (mem_children_of_case hmem hd)
      · exact .badData _ rfl
    | members enum hashable directions tag cases =>
      refine .bind (confined_ensureReads rfl _) fun _ => .bind (.map (.getBytes _)) fun i => ?_
      split
      · trivial
      · exact .badData _ rfl

theorem decode_causes (c : Codec) (data : Bytes) : Confined (ReadCause c) (c.decode data) :=
  (read_causes c).runAll (.malformed (Fault.malformed_wire (by decide)))
    (.malformed (Fault.malformed_wire (by decide))) data

theorem confined_decode (c : Codec) (data : Bytes) : Confined (ReadFault c) (c.decode data) :=
  (decode_causes c data).mono fun _ => ReadCause.readFault

/-- **Where a codec can read, no class stops it that does not derive reading.** What a class raises for
values that it rejects is told apart from that. -/
theorem kind_of_decode {data : Bytes} {f : Fault} (hcan : c.canRead = true)
    (h : c.decode data = .error f) : f.kind ≠ .wire .unsupported := by
  cases decode_causes c data f h with
  | malformed h => exact h.2
  | notDerived hd hderives _ => exact absurd (can_iff_parts.mp hcan _ hd) (by simp [hderives])
  | @rejected _ _ r _ _ _ =>
    intro hkind
    have hwire := Fault.isWire_ofCode r.kind r.text
    rw [Fault.isWire, hkind] at hwire
    cases hwire

end Reading

end Codec

end ContractKit
