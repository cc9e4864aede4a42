import ContractKit.Proofs.Codec.Admitted
import ContractKit.Proofs.Codec.Walk

/-!
# `Proofs/Codec/Held.lean`: what a value holds

Checking and writing are two recursions that go different ways: the check of a node is made before that
of anything below it, and writing interleaves the two and puts members and entries in order first. Both
are brought into one form here. A node is accepted by itself, and then the values that it holds are
checked, each by its own codec (`check_eq_ok`). It is written as a head, which is a count, a tag, or
all there is, and then as the values that it holds, in order (`emit_eq`, `toBytes_emit_eq_ok`).

What is proved about whole values is an induction over what they hold (`Inside`), with a fact about one
node at each step. The first of them is that nothing is written that the check would refuse
(`check_of_emit`).
-/

set_option autoImplicit false

namespace ContractKit.Codec

/-! ## The values that a value holds -/

/-- The items of a value where a tuple is expected, or a list. -/
def itemsOf? (tuples : Bool) (v : Value) : Option (List Value) :=
  if tuples then v.tupleItems?
  else
    match v with
    | .list vs => some vs
    | _ => none

/-- Each codec with the value at its place, unless there are too few values. -/
def paired? : List Codec → List Value → Option (List (Codec × Value))
  | [], _ => some []
  | _ :: _, [] => none
  | c :: cs, v :: vs => (paired? cs vs).map ((c, v) :: ·)

/-- The fields that a value shows, each with its codec. -/
def shownFields? (target : Target) (fields : List Codec) (v : Value) :
    Option (List (Codec × Value)) :=
  match fieldItems target fields v with
  | .ok vs => paired? fields vs
  | .error _ => none

/-- How the members of sets and the entries of maps are arranged. Checking leaves them as they are and
writing puts them in order; what a value holds is told once for any arrangement. -/
structure Arrangement where
  members : List Value → Option (List Value)
  entries : List (Value × Value) → Option (List (Value × Value))

/-- Leave them in their places. -/
def Arrangement.asHeld : Arrangement := ⟨some, some⟩

/-- Put them in ascending order. -/
def Arrangement.ascending : Arrangement := ⟨Value.sorted?, Value.sortedEntries?⟩

/-- The key and the value of an entry, each with its codec. -/
def entryParts (key value : Codec) (e : Value × Value) : List (Codec × Value) :=
  [(key, e.1), (value, e.2)]

/-- The values that a value holds, each with its codec. -/
def holdings? (arrangement : Arrangement) : Codec → Value → Option (List (Codec × Value))
  | .sequence tuples item .., v => (itemsOf? tuples v).map (·.map (item, ·))
  | .set _ member .., v =>
    (v.members?.bind arrangement.members).map (·.map (member, ·))
  | .map key value .., v =>
    match v with
    | .dict es => (arrangement.entries es).map (·.flatMap (entryParts key value))
    | _ => none
  | .optional item, v =>
    match v with
    | .none => some []
    | v => some [(item, v)]
  | .tuple items, v => v.tupleItems?.bind (paired? items)
  | .varTuple item, v => v.tupleItems?.map (·.map (item, ·))
  | .struct target _ fields, v => shownFields? target fields v
  | .variants _ _ _ cases, v =>
    (variantOf? cases v).bind fun i => cases[i]?.bind fun case => shownFields? case.1 case.2 v
  | _, _ => some []

/-- What a value holds, in the order in which it is checked. -/
abbrev held? : Codec → Value → Option (List (Codec × Value)) := holdings? .asHeld

/-- What a value holds, in the order in which it is written. -/
abbrev written? : Codec → Value → Option (List (Codec × Value)) := holdings? .ascending

/-- A value with its codec is inside another one with its codec: it is that one, or it is inside one
that that one holds. -/
inductive Inside : Codec → Value → Codec → Value → Prop
  | self (c : Codec) (v : Value) : Inside c v c v
  | held {c d e : Codec} {v x y : Value} {ps : List (Codec × Value)} (hps : held? c v = some ps)
    (hx : (d, x) ∈ ps) (hy : Inside d x e y) : Inside c v e y

/-! ## Nodes -/

/-- What is written for a value apart from what it holds. -/
def head : Codec → Value → Emit
  | .int format, v => Emit.int format (v.integer?.getD 0)
  | .bool, v => Emit.bool v.isTruthy
  | .accountAddress, v =>
    match v with
    | .bytes data => Emit.chunk data
    | _ => .nothing
  | .contractAddress, v =>
    match v with
    | .record _ items => emitAddressPart items 0 ++ emitAddressPart items 1
    | _ => .nothing
  | .bytes width _, v =>
    match v with
    | .bytes data => Emit.prefixedBytes width data
    | _ => .nothing
  | .text width _, v =>
    match v with
    | .text s => Emit.prefixedText width s
    | _ => .nothing
  | .sequence tuples _ width _, v => Emit.count width ((itemsOf? tuples v).getD []).length
  | .set _ _ width _, v => Emit.count width (v.members?.getD []).length
  | .map _ _ width _, v =>
    match v with
    | .dict es => Emit.count width es.length
    | _ => .nothing
  | .optional _, v =>
    match v with
    | .none => Emit.byte 0
    | _ => Emit.byte 1
  | .varTuple _, v => Emit.count .standard (v.tupleItems?.getD []).length
  | .variants _ _ tag cases, v =>
    match variantOf? cases v with
    | some i => emitTag tag i
    | none => .nothing
  | .members enum _ _ tag cases, v =>
    match memberOf? enum cases v with
    | some i => emitTag tag i
    | none => .nothing
  | .tuple _, _ | .struct .., _ | .unit .., _ => .nothing

theorem head_sequence {tuples : Bool} {item : Codec} {width : PrefixWidth} {order : OrderPolicy}
    {v : Value} {vs : List Value} (h : itemsOf? tuples v = some vs) :
    (Codec.sequence tuples item width order).head v = Emit.count width vs.length := by
  rw [head, h, Option.getD_some]

theorem head_set {frozen : Bool} {member : Codec} {width : PrefixWidth} {order : OrderPolicy}
    {v : Value} {vs : List Value} (h : v.members? = some vs) :
    (Codec.set frozen member width order).head v = Emit.count width vs.length := by
  rw [head, h, Option.getD_some]

theorem head_varTuple {item : Codec} {v : Value} {vs : List Value} (h : v.tupleItems? = some vs) :
    (Codec.varTuple item).head v = Emit.count .standard vs.length := by
  rw [head, h, Option.getD_some]

theorem head_optional {item : Codec} {v : Value} (h : v ≠ .none) :
    (Codec.optional item).head v = Emit.byte 1 := by
  cases v with
  | none => exact absurd rfl h
  | _ => rfl

theorem holdings_optional {arrangement : Arrangement} {item : Codec} {v : Value} (h : v ≠ .none) :
    holdings? arrangement (.optional item) v = some [(item, v)] := by
  cases v with
  | none => exact absurd rfl h
  | _ => rfl

/-! What a value holds, for each codec that delegates to others. -/

section Holdings

variable {arrangement : Arrangement} {v : Value} {ps : List (Codec × Value)} {tuples frozen : Bool}
  {item member key value : Codec} {items : List Codec} {width : PrefixWidth} {order : OrderPolicy}

theorem holdings_sequence_eq_some :
    holdings? arrangement (.sequence tuples item width order) v = some ps ↔
      ∃ vs, itemsOf? tuples v = some vs ∧ vs.map (item, ·) = ps :=
  Option.map_eq_some_iff

theorem holdings_varTuple_eq_some :
    holdings? arrangement (.varTuple item) v = some ps ↔
      ∃ vs, v.tupleItems? = some vs ∧ vs.map (item, ·) = ps :=
  Option.map_eq_some_iff

theorem holdings_set_eq_some :
    holdings? arrangement (.set frozen member width order) v = some ps ↔
      ∃ vs ws, v.members? = some vs ∧ arrangement.members vs = some ws ∧
        ws.map (member, ·) = ps := by
  simp only [holdings?, Option.map_eq_some_iff, Option.bind_eq_some_iff]
  constructor
  · rintro ⟨ws, ⟨vs, hvs, hws⟩, rfl⟩
    exact ⟨vs, ws, hvs, hws, rfl⟩
  · rintro ⟨vs, ws, hvs, hws, rfl⟩
    exact ⟨ws, ⟨vs, hvs, hws⟩, rfl⟩

theorem holdings_map_eq_some :
    holdings? arrangement (.map key value width order) v = some ps ↔
      ∃ es fs, v = .dict es ∧ arrangement.entries es = some fs ∧
        fs.flatMap (entryParts key value) = ps := by
  cases v with
  | dict es =>
    simp only [holdings?, Option.map_eq_some_iff, Value.dict.injEq]
    constructor
    · rintro ⟨fs, hfs, rfl⟩
      exact ⟨es, fs, rfl, hfs, rfl⟩
    · rintro ⟨_, fs, rfl, hfs, rfl⟩
      exact ⟨fs, hfs, rfl⟩
  | _ => simp [holdings?]

theorem holdings_optional_eq_some :
    holdings? arrangement (.optional item) v = some ps ↔
      v = .none ∧ ps = [] ∨ v ≠ .none ∧ ps = [(item, v)] := by
  by_cases hnone : v = .none
  · subst hnone
    simp [holdings?, eq_comm]
  · rw [holdings_optional hnone]
    simp [hnone, eq_comm]

theorem holdings_tuple_eq_some :
    holdings? arrangement (.tuple items) v = some ps ↔
      ∃ vs, v.tupleItems? = some vs ∧ paired? items vs = some ps :=
  Option.bind_eq_some_iff

theorem holdings_variants_eq_some {enum : ClassRef} {directions : Directions} {tag : TagWidth}
    {cases : List (Target × List Codec)} :
    holdings? arrangement (.variants enum directions tag cases) v = some ps ↔
      ∃ i case, variantOf? cases v = some i ∧ cases[i]? = some case ∧
        shownFields? case.1 case.2 v = some ps := by
  simp only [holdings?, Option.bind_eq_some_iff]
  constructor
  · rintro ⟨i, hi, case, hcase, h⟩
    exact ⟨i, case, hi, hcase, h⟩
  · rintro ⟨i, case, hi, hcase, h⟩
    exact ⟨i, hi, case, hcase, h⟩

end Holdings

/-- Write some values, each by its codec. -/
def emitParts (ps : List (Codec × Value)) : Emit := Emit.each (fun p => p.1.emit p.2) ps

section Parts

variable {arrangement : Arrangement} {ps qs : List (Codec × Value)} {c : Codec} {v : Value}

theorem emitParts_cons (p : Codec × Value) (ps : List (Codec × Value)) :
    emitParts (p :: ps) = p.1.emit p.2 ++ emitParts ps := rfl

theorem emitParts_append (ps qs : List (Codec × Value)) :
    emitParts (ps ++ qs) = emitParts ps ++ emitParts qs := by
  induction ps with
  | nil => rfl
  | cons p ps ih => rw [List.cons_append, emitParts_cons, emitParts_cons, ih, Emit.append_assoc]

theorem emitParts_map (item : Codec) (vs : List Value) :
    emitParts (vs.map (item, ·)) = Emit.each item.emit vs := by
  induction vs with
  | nil => rfl
  | cons v vs ih =>
    rw [List.map_cons, emitParts_cons, ih]
    rfl

theorem emitParts_entries (key value : Codec) (es : List (Value × Value)) :
    emitParts (es.flatMap (entryParts key value)) =
      Emit.each (fun e => key.emit e.1 ++ value.emit e.2) es := by
  induction es with
  | nil => rfl
  | cons e es ih =>
    rw [List.flatMap_cons, emitParts_append, ih]
    show (key.emit e.1 ++ (value.emit e.2 ++ Emit.nothing)) ++ _ = _
    rw [Emit.append_nothing]
    rfl

theorem emitParts_paired : ∀ {cs : List Codec} {vs : List Value} {ps : List (Codec × Value)},
    paired? cs vs = some ps → emitEach cs vs = emitParts ps
  | [], vs, ps, h => by
    cases h
    rfl
  | c :: cs, v :: vs, ps, h => by
    obtain ⟨qs, hqs, rfl⟩ := Option.map_eq_some_iff.mp h
    rw [emitEach, emitParts_cons, emitParts_paired hqs]

/-- Fields that are written are all there. -/
theorem exists_paired_of_emit : ∀ {cs : List Codec} {vs : List Value} {data : Bytes},
    (emitEach cs vs).toBytes = .ok data → ∃ ps, paired? cs vs = some ps
  | [], _, _, _ => ⟨[], rfl⟩
  | _ :: _, [], _, h => absurd h Emit.toBytes_fail_ne
  | c :: cs, v :: vs, data, h => by
    rw [emitEach, Emit.toBytes_append_eq_ok] at h
    obtain ⟨front, rest, -, -, hrest⟩ := h
    obtain ⟨ps, hps⟩ := exists_paired_of_emit hrest
    exact ⟨(c, v) :: ps, by rw [paired?, hps]; rfl⟩

theorem andThen_eq_ok {first : Except Fault Unit} {next : Unit → Except Fault Unit} :
    first.bind next = .ok () ↔ first = .ok () ∧ next () = .ok () := by
  cases first with
  | error f => simp [Except.bind]
  | ok u => simp [Except.bind]

theorem checkEach_eq_ok : ∀ {cs : List Codec} {vs : List Value},
    checkEach cs vs = .ok () ↔
      ∃ ps, paired? cs vs = some ps ∧ ∀ p ∈ ps, p.1.check p.2 = .ok ()
  | [], vs => by simp [checkEach, paired?]
  | c :: cs, [] => by simp [checkEach, paired?]
  | c :: cs, v :: vs => by
    rw [checkEach, andThen_eq_ok, paired?]
    simp only [checkEach_eq_ok, Option.map_eq_some_iff]
    constructor
    · rintro ⟨hv, ps, hps, hall⟩
      exact ⟨_, ⟨ps, hps, rfl⟩, List.forall_mem_cons.mpr ⟨hv, hall⟩⟩
    · rintro ⟨-, ⟨ps, hps, rfl⟩, hall⟩
      obtain ⟨hv, hall⟩ := List.forall_mem_cons.mp hall
      exact ⟨hv, ps, hps, hall⟩

theorem checkFields_eq_ok {target : Target} {fields : List Codec} :
    ((fieldItems target fields v).bind fun vs => checkEach fields vs) = .ok () ↔
      ∃ ps, shownFields? target fields v = some ps ∧ ∀ p ∈ ps, p.1.check p.2 = .ok () := by
  unfold shownFields?
  cases fieldItems target fields v with
  | error f => simp [Except.bind]
  | ok vs => exact checkEach_eq_ok

theorem mem_of_paired : ∀ {cs : List Codec} {vs : List Value} {ps : List (Codec × Value)},
    paired? cs vs = some ps → ∀ p ∈ ps, p.1 ∈ cs ∧ p.2 ∈ vs
  | [], vs, ps, h, p, hp => by
    cases h
    cases hp
  | c :: cs, v :: vs, ps, h, p, hp => by
    obtain ⟨qs, hqs, rfl⟩ := Option.map_eq_some_iff.mp h
    rcases List.mem_cons.mp hp with rfl | hp
    · exact ⟨List.mem_cons_self, List.mem_cons_self⟩
    · obtain ⟨hc, hv⟩ := mem_of_paired hqs p hp
      exact ⟨List.mem_cons_of_mem _ hc, List.mem_cons_of_mem _ hv⟩

theorem shownFields_eq_some {target : Target} {fields : List Codec} :
    shownFields? target fields v = some ps ↔
      ∃ vs, fieldItems target fields v = .ok vs ∧ paired? fields vs = some ps := by
  unfold shownFields?
  cases fieldItems target fields v <;> simp

theorem mem_of_shownFields {target : Target} {fields : List Codec}
    (h : shownFields? target fields v = some ps) : ∀ p ∈ ps, p.1 ∈ fields := by
  obtain ⟨vs, -, hps⟩ := shownFields_eq_some.mp h
  intro p hp
  exact (mem_of_paired hps p hp).1

/-- **The values that a value holds have the codecs that its codec delegates to.** It is what lets an
induction over codecs go on to the values. -/
theorem mem_children_of_holdings (h : holdings? arrangement c v = some ps) :
    ∀ p ∈ ps, p.1 ∈ c.children := by
  have hmap : ∀ {item : Codec} {vs : List Value} {p : Codec × Value},
      p ∈ vs.map (item, ·) → p.1 = item := by
    intro item vs p hp
    obtain ⟨x, -, rfl⟩ := List.mem_map.mp hp
    rfl
  intro p hp
  cases c with
  | sequence tuples item _ _ =>
    obtain ⟨vs, -, rfl⟩ := holdings_sequence_eq_some.mp h
    simp [children, hmap hp]
  | varTuple item =>
    obtain ⟨vs, -, rfl⟩ := holdings_varTuple_eq_some.mp h
    simp [children, hmap hp]
  | set frozen member _ _ =>
    obtain ⟨vs, ws, -, -, rfl⟩ := holdings_set_eq_some.mp h
    simp [children, hmap hp]
  -- an entry is held as its key and its value, one behind the other
  | map key value _ _ =>
    obtain ⟨es, fs, -, -, rfl⟩ := holdings_map_eq_some.mp h
    obtain ⟨e, -, hp⟩ := List.mem_flatMap.mp hp
    have hp : p = (key, e.1) ∨ p = (value, e.2) := by simpa [entryParts] using hp
    rcases hp with rfl | rfl <;> simp [children]
  | optional item =>
    rcases holdings_optional_eq_some.mp h with ⟨-, rfl⟩ | ⟨-, rfl⟩
    · cases hp
    · obtain rfl := List.mem_singleton.mp hp
      simp [children]
  | tuple items =>
    obtain ⟨vs, -, hps⟩ := holdings_tuple_eq_some.mp h
    exact (mem_of_paired hps p hp).1
  | struct target _ fields => exact mem_of_shownFields h p hp
  | variants _ _ _ cases =>
    obtain ⟨i, case, -, hcase, h⟩ := holdings_variants_eq_some.mp h
    exact mem_children_of_case (List.mem_of_getElem? hcase) (mem_of_shownFields h p hp)
  | _ =>
    cases h
    cases hp

/-- What is written is what is held, in another order. -/
theorem perm_of_written (h : written? c v = some ps) : ∃ qs, held? c v = some qs ∧ ps.Perm qs := by
  cases c with
  | set frozen member _ _ =>
    obtain ⟨vs, ws, hvs, hws, rfl⟩ := holdings_set_eq_some.mp h
    exact ⟨_, holdings_set_eq_some.mpr ⟨vs, vs, hvs, rfl, rfl⟩,
      (Value.perm_of_sortedBy? hws).map _⟩
  | map key value _ _ =>
    obtain ⟨es, fs, rfl, hfs, rfl⟩ := holdings_map_eq_some.mp h
    exact ⟨_, rfl, (Value.perm_of_sortedBy? hfs).flatMap_right _⟩
  | _ => exact ⟨ps, h, .refl ps⟩

end Parts

/-! ## Accepted values -/

section Accepted

variable {v : Value}

theorem accepts_sequence {tuples : Bool} {item : Codec} {width : PrefixWidth} {order : OrderPolicy} :
    accepts (.sequence tuples item width order) v = .ok () ↔ ∃ vs, itemsOf? tuples v = some vs := by
  cases tuples with
  | true =>
    simp only [accepts, itemsOf?, if_true]
    cases v.tupleItems? <;> simp [refuse]
  | false => cases v <;> simp [accepts, itemsOf?, refuse]

theorem accepts_set {frozen : Bool} {member : Codec} {width : PrefixWidth} {order : OrderPolicy} :
    accepts (.set frozen member width order) v = .ok () ↔ ∃ vs, v.members? = some vs := by
  rw [accepts]
  cases v.members? <;> simp [refuse]

theorem accepts_map {key value : Codec} {width : PrefixWidth} {order : OrderPolicy} :
    accepts (.map key value width order) v = .ok () ↔ ∃ es, v = .dict es := by
  cases v <;> simp [accepts, refuse]

theorem accepts_tuple {items : List Codec} :
    accepts (.tuple items) v = .ok () ↔
      ∃ vs, v.tupleItems? = some vs ∧ vs.length = items.length := by
  rw [accepts]
  cases v.tupleItems? with
  | none => simp [refuse]
  | some vs =>
    by_cases h : vs.length = items.length
    · simp [h]
    · simp [h, refuse]

theorem accepts_varTuple {item : Codec} :
    accepts (.varTuple item) v = .ok () ↔ ∃ vs, v.tupleItems? = some vs := by
  rw [accepts]
  cases v.tupleItems? <;> simp [refuse]

theorem accepts_variants {enum : ClassRef} {directions : Directions} {tag : TagWidth}
    {cases : List (Target × List Codec)} :
    accepts (.variants enum directions tag cases) v = .ok () ↔ ∃ i, variantOf? cases v = some i := by
  rw [accepts]
  cases variantOf? cases v <;> simp [refuse]

/-- What is accepted as a member is equal to one, and so has its number. -/
theorem accepts_members {enum : ClassRef} {hashable : Bool} {directions : Directions} {tag : TagWidth}
    {cases : List Member} :
    accepts (.members enum hashable directions tag cases) v = .ok () ↔
      v.isHashable = true ∧ ∃ i, memberOf? enum cases v = some i := by
  rw [accepts]
  cases v.isHashable with
  | false => simp
  | true => cases memberOf? enum cases v <;> simp [refuse]

end Accepted

/-! ## Checking and writing, node by node -/

section Node

variable {c : Codec} {v : Value} {ps : List (Codec × Value)} {data : Bytes}

theorem each_eq_ok_map {item : Codec} {vs : List Value} :
    each item.check vs = .ok () ↔ ∀ p ∈ vs.map (item, ·), p.1.check p.2 = .ok () := by
  rw [each_eq_ok, List.forall_mem_map]

/-- The check of a value is the check of the node and then of all that the value holds. It is named so
that it can be shown of one kind of container at a time. -/
def ChecksWhatIsHeld (c : Codec) (v : Value) : Prop :=
  c.check v = .ok () ↔ accepts c v = .ok () ∧
    ∃ ps, held? c v = some ps ∧ ∀ p ∈ ps, p.1.check p.2 = .ok ()

theorem checksWhatIsHeld_sequence {tuples : Bool} {item : Codec} {width : PrefixWidth}
    {order : OrderPolicy} : ChecksWhatIsHeld (.sequence tuples item width order) v := by
  refine andThen_eq_ok.trans (and_congr_right fun haccepts => ?_)
  obtain ⟨vs, hvs⟩ := accepts_sequence.mp haccepts
  simp only [held?, holdings?, hvs, Option.map_some, Option.some.injEq, exists_eq_left']
  rw [← each_eq_ok_map]
  cases tuples with
  | true =>
    have hvs : v.tupleItems? = some vs := hvs
    rw [hvs]
  | false =>
    cases v <;> cases hvs
    exact Iff.rfl

theorem checksWhatIsHeld_varTuple {item : Codec} : ChecksWhatIsHeld (.varTuple item) v := by
  refine andThen_eq_ok.trans (and_congr_right fun haccepts => ?_)
  obtain ⟨vs, hvs⟩ := accepts_varTuple.mp haccepts
  simp only [held?, holdings?, hvs, Option.map_some, Option.some.injEq, exists_eq_left',
    Option.getD_some]
  exact each_eq_ok_map

theorem checksWhatIsHeld_set {frozen : Bool} {member : Codec} {width : PrefixWidth}
    {order : OrderPolicy} : ChecksWhatIsHeld (.set frozen member width order) v := by
  refine andThen_eq_ok.trans (and_congr_right fun haccepts => ?_)
  obtain ⟨vs, hvs⟩ := accepts_set.mp haccepts
  simp only [held?, holdings?, hvs, Arrangement.asHeld, Option.bind_some, Option.map_some,
    Option.some.injEq, exists_eq_left', Option.getD_some]
  exact each_eq_ok_map

/-- The key of an entry is checked and then its value, so a dictionary holds both behind each other. -/
theorem checksWhatIsHeld_map {key value : Codec} {width : PrefixWidth} {order : OrderPolicy} :
    ChecksWhatIsHeld (.map key value width order) v := by
  refine andThen_eq_ok.trans (and_congr_right fun haccepts => ?_)
  obtain ⟨es, rfl⟩ := accepts_map.mp haccepts
  simp only [held?, holdings?, Arrangement.asHeld, Option.map_some, Option.some.injEq,
    exists_eq_left', each_eq_ok, andThen_eq_ok, List.forall_mem_flatMap]
  simp only [entryParts, List.forall_mem_cons, List.not_mem_nil, false_imp_iff, implies_true,
    and_true]

theorem checksWhatIsHeld_optional {item : Codec} : ChecksWhatIsHeld (.optional item) v := by
  cases v with
  | none => simp [ChecksWhatIsHeld, check, accepts, held?, holdings?]
  | _ => simp [ChecksWhatIsHeld, check, accepts, held?, holdings?]

theorem checksWhatIsHeld_tuple {items : List Codec} : ChecksWhatIsHeld (.tuple items) v := by
  refine andThen_eq_ok.trans (and_congr_right fun haccepts => ?_)
  obtain ⟨vs, hvs, -⟩ := accepts_tuple.mp haccepts
  simp only [held?, holdings?, hvs, Option.getD_some, Option.bind_some]
  exact checkEach_eq_ok

theorem checksWhatIsHeld_variants {enum : ClassRef} {directions : Directions} {tag : TagWidth}
    {cases : List (Target × List Codec)} :
    ChecksWhatIsHeld (.variants enum directions tag cases) v := by
  refine andThen_eq_ok.trans (and_congr_right fun haccepts => ?_)
  obtain ⟨i, hi⟩ := accepts_variants.mp haccepts
  obtain ⟨cls, items, case, -, hcase, -⟩ := variantOf?_spec hi
  simp only [held?, holdings?, hi, hcase, Option.bind_some]
  rw [checkCase_eq hcase]
  exact checkFields_eq_ok

/-- **A value passes the check when it is accepted and all that it holds passes.** With this the check
is no recursion of its own any more: it is `accepts` at whatever the value holds. -/
theorem check_eq_ok :
    c.check v = .ok () ↔ accepts c v = .ok () ∧
      ∃ ps, held? c v = some ps ∧ ∀ p ∈ ps, p.1.check p.2 = .ok () := by
  cases c with
  | sequence _ _ _ _ => exact checksWhatIsHeld_sequence
  | varTuple _ => exact checksWhatIsHeld_varTuple
  | set _ _ _ _ => exact checksWhatIsHeld_set
  | map _ _ _ _ => exact checksWhatIsHeld_map
  | optional _ => exact checksWhatIsHeld_optional
  | tuple _ => exact checksWhatIsHeld_tuple
  | struct _ _ _ => exact andThen_eq_ok.trans (and_congr_right fun _ => checkFields_eq_ok)
  | variants _ _ _ _ => exact checksWhatIsHeld_variants
  | _ => simp [check, held?, holdings?]

/-- What is written for an accepted value is its head and then what it holds. Named like
`ChecksWhatIsHeld`, to be shown of one kind of codec at a time. -/
def WritesHeadAndParts (c : Codec) (v : Value) (ps : List (Codec × Value)) : Prop :=
  accepts c v = .ok () → written? c v = some ps → c.emit v = c.head v ++ emitParts ps

/-- A class that derives writing is written as if nothing had been asked. -/
theorem after_ensureWrites {ref : ClassRef} {directions : Directions} {e : Emit}
    (hwrites : directions.writes = true) : Emit.after (ensureWrites ref directions) e = e := by
  rw [ensureWrites, if_pos hwrites]
  rfl

/-- What holds nothing is its head. -/
theorem writesHeadAndParts_of_head (hnone : written? c v = some [])
    (hemit : accepts c v = .ok () → c.emit v = c.head v) : WritesHeadAndParts c v ps := by
  intro haccepts hps
  obtain rfl : [] = ps := Option.some.inj (hnone.symm.trans hps)
  rw [hemit haccepts]
  exact (Emit.append_nothing _).symm

theorem writesHeadAndParts_sequence {tuples : Bool} {item : Codec} {width : PrefixWidth}
    {order : OrderPolicy} : WritesHeadAndParts (.sequence tuples item width order) v ps := by
  intro haccepts hps
  obtain ⟨vs, hvs, rfl⟩ := holdings_sequence_eq_some.mp hps
  rw [emitParts_map, head_sequence hvs]
  show Emit.after (accepts _ v) _ = _
  rw [haccepts]
  cases tuples with
  | true =>
    have hvs : v.tupleItems? = some vs := hvs
    rw [hvs]
    rfl
  | false =>
    cases v <;> cases hvs
    rfl

theorem writesHeadAndParts_varTuple {item : Codec} : WritesHeadAndParts (.varTuple item) v ps := by
  intro haccepts hps
  obtain ⟨vs, hvs, rfl⟩ := holdings_varTuple_eq_some.mp hps
  rw [emit, haccepts, emitParts_map, head_varTuple hvs, hvs]
  rfl

/-- The members that are written are the arranged ones, and so the parts are as well. -/
theorem writesHeadAndParts_set {frozen : Bool} {member : Codec} {width : PrefixWidth}
    {order : OrderPolicy} : WritesHeadAndParts (.set frozen member width order) v ps := by
  intro haccepts hps
  obtain ⟨vs, ws, hvs, hws, rfl⟩ := holdings_set_eq_some.mp hps
  have hsorted : Value.sorted? vs = some ws := hws
  rw [emit, haccepts, emitParts_map, head_set hvs, hvs]
  simp only [Option.getD_some, hsorted]
  rfl

theorem writesHeadAndParts_map {key value : Codec} {width : PrefixWidth} {order : OrderPolicy} :
    WritesHeadAndParts (.map key value width order) v ps := by
  intro haccepts hps
  obtain ⟨es, fs, rfl, hfs, rfl⟩ := holdings_map_eq_some.mp hps
  have hsorted : Value.sortedEntries? es = some fs := hfs
  rw [emit, haccepts, emitParts_entries, head]
  simp only [hsorted]
  rfl

theorem writesHeadAndParts_optional {item : Codec} : WritesHeadAndParts (.optional item) v ps := by
  intro _ hps
  rcases holdings_optional_eq_some.mp hps with ⟨rfl, rfl⟩ | ⟨hnone, rfl⟩
  · rw [emit, head]
    exact (Emit.append_nothing _).symm
  · rw [emit_optional hnone, head_optional hnone, emitParts_cons]
    exact congrArg (Emit.byte 1 ++ ·) (Emit.append_nothing _).symm

theorem writesHeadAndParts_tuple {items : List Codec} : WritesHeadAndParts (.tuple items) v ps := by
  intro haccepts hps
  obtain ⟨vs, hvs, hps⟩ := holdings_tuple_eq_some.mp hps
  rw [emit, haccepts, hvs, head, Emit.nothing_append]
  exact emitParts_paired hps

theorem writesHeadAndParts_struct {target : Target} {directions : Directions} {fields : List Codec}
    (hwrites : directions.writes = true) :
    WritesHeadAndParts (.struct target directions fields) v ps := by
  intro haccepts hps
  rw [emit, haccepts, head, Emit.nothing_append]
  refine (after_ensureWrites hwrites).trans ?_
  obtain ⟨vs, hvs, hps⟩ := shownFields_eq_some.mp hps
  rw [hvs]
  exact emitParts_paired hps

theorem writesHeadAndParts_variants {enum : ClassRef} {directions : Directions} {tag : TagWidth}
    {cases : List (Target × List Codec)} (hwrites : directions.writes = true) :
    WritesHeadAndParts (.variants enum directions tag cases) v ps := by
  intro haccepts hps
  obtain ⟨i, case, hi, hcase, hps⟩ := holdings_variants_eq_some.mp hps
  rw [emit, haccepts, head, hi]
  refine (after_ensureWrites hwrites).trans ?_
  show emitTag tag i ++ emitCase cases i v = _
  obtain ⟨vs, hvs, hps⟩ := shownFields_eq_some.mp hps
  rw [emitCase_eq hcase, hvs]
  exact congrArg (emitTag tag i ++ ·) (emitParts_paired hps)

/-- **A value that is accepted is written as its head and then as what it holds.** The order of checks
and writes is lost by this, so it says nothing of values that are not accepted. -/
theorem emit_eq (haccepts : accepts c v = .ok ()) (hwrites : c.derives Directions.writes = true)
    (hps : written? c v = some ps) : c.emit v = c.head v ++ emitParts ps := by
  have hnode : WritesHeadAndParts c v ps := by
    cases c with
    | int _ | bool | accountAddress | contractAddress | bytes _ _ | text _ _ =>
      refine writesHeadAndParts_of_head rfl fun haccepts => ?_
      show Emit.after (accepts _ v) _ = _
      rw [haccepts]
      rfl
    | unit _ _ | members _ _ _ _ _ =>
      refine writesHeadAndParts_of_head rfl fun haccepts => ?_
      show Emit.after (accepts _ v) (Emit.after (ensureWrites _ _) _) = _
      rw [haccepts]
      exact after_ensureWrites hwrites
    | sequence _ _ _ _ => exact writesHeadAndParts_sequence
    | varTuple _ => exact writesHeadAndParts_varTuple
    | set _ _ _ _ => exact writesHeadAndParts_set
    | map _ _ _ _ => exact writesHeadAndParts_map
    | optional _ => exact writesHeadAndParts_optional
    | tuple _ => exact writesHeadAndParts_tuple
    | struct _ _ _ => exact writesHeadAndParts_struct hwrites
    | variants _ _ _ _ => exact writesHeadAndParts_variants hwrites
  exact hnode haccepts hps

/-- Fields that are written are shown. -/
theorem exists_shown_of_emit {target : Target} {fields : List Codec}
    (h : (emitCase [(target, fields)] 0 v).toBytes = .ok data) :
    ∃ ps, shownFields? target fields v = some ps := by
  rw [emitCase] at h
  cases hitems : fieldItems target fields v with
  | error f =>
    rw [hitems] at h
    exact absurd h Emit.toBytes_fail_ne
  | ok vs =>
    rw [hitems] at h
    obtain ⟨ps, hps⟩ := exists_paired_of_emit h
    exact ⟨ps, shownFields_eq_some.mpr ⟨vs, hitems, hps⟩⟩

/-- What is written is accepted, its class derives writing, and what it holds can be put in order. -/
theorem written_of_emit (h : (c.emit v).toBytes = .ok data) :
    accepts c v = .ok () ∧ c.derives Directions.writes = true ∧ ∃ ps, written? c v = some ps := by
  cases c with
  | int _ | bool | accountAddress | contractAddress | bytes _ _ | text _ _ =>
    exact ⟨(Emit.toBytes_after_eq_ok.mp h).1, rfl, [], rfl⟩
  | unit _ _ | members _ _ _ _ _ =>
    obtain ⟨haccepts, h⟩ := Emit.toBytes_after_eq_ok.mp h
    exact ⟨haccepts, (toBytes_after_ensureWrites.mp h).1, [], rfl⟩
  | sequence tuples item width order =>
    obtain ⟨haccepts, -⟩ := Emit.toBytes_after_eq_ok.mp h
    obtain ⟨vs, hvs⟩ := accepts_sequence.mp haccepts
    exact ⟨haccepts, rfl, _, holdings_sequence_eq_some.mpr ⟨vs, hvs, rfl⟩⟩
  | set frozen member width order =>
    obtain ⟨haccepts, h⟩ := Emit.toBytes_after_eq_ok.mp h
    obtain ⟨vs, hvs⟩ := accepts_set.mp haccepts
    rw [hvs, Option.getD_some] at h
    cases hsorted : Value.sorted? vs with
    -- members without an order are not written at all
    | none =>
      simp only [hsorted] at h
      obtain ⟨x, y, -, -, hy⟩ := Emit.toBytes_append_eq_ok.mp h
      exact absurd hy Emit.toBytes_fail_ne
    | some ws =>
      exact ⟨haccepts, rfl, _, holdings_set_eq_some.mpr ⟨vs, ws, hvs, hsorted, rfl⟩⟩
  | map key value width order =>
    obtain ⟨haccepts, h⟩ := Emit.toBytes_after_eq_ok.mp h
    obtain ⟨es, rfl⟩ := accepts_map.mp haccepts
    cases hsorted : Value.sortedEntries? es with
    | none =>
      simp only [hsorted] at h
      obtain ⟨x, y, -, -, hy⟩ := Emit.toBytes_append_eq_ok.mp h
      exact absurd hy Emit.toBytes_fail_ne
    | some fs =>
      exact ⟨haccepts, rfl, _, holdings_map_eq_some.mpr ⟨es, fs, rfl, hsorted, rfl⟩⟩
  | optional item =>
    refine ⟨rfl, rfl, ?_⟩
    cases v <;> exact ⟨_, rfl⟩
  | tuple items =>
    obtain ⟨haccepts, h⟩ := Emit.toBytes_after_eq_ok.mp h
    obtain ⟨vs, hvs, -⟩ := accepts_tuple.mp haccepts
    rw [hvs, Option.getD_some] at h
    obtain ⟨ps, hps⟩ := exists_paired_of_emit h
    exact ⟨haccepts, rfl, ps, holdings_tuple_eq_some.mpr ⟨vs, hvs, hps⟩⟩
  | varTuple item =>
    obtain ⟨haccepts, -⟩ := Emit.toBytes_after_eq_ok.mp h
    obtain ⟨vs, hvs⟩ := accepts_varTuple.mp haccepts
    exact ⟨haccepts, rfl, _, holdings_varTuple_eq_some.mpr ⟨vs, hvs, rfl⟩⟩
  | struct target directions fields =>
    obtain ⟨haccepts, h⟩ := Emit.toBytes_after_eq_ok.mp h
    obtain ⟨hwrites, h⟩ := toBytes_after_ensureWrites.mp h
    exact ⟨haccepts, hwrites, exists_shown_of_emit h⟩
  | variants enum directions tag cases =>
    obtain ⟨haccepts, h⟩ := Emit.toBytes_after_eq_ok.mp h
    obtain ⟨hwrites, h⟩ := toBytes_after_ensureWrites.mp h
    obtain ⟨i, hi⟩ := accepts_variants.mp haccepts
    obtain ⟨cls, items, case, -, hcase, -⟩ := variantOf?_spec hi
    rw [hi] at h
    obtain ⟨front, rest, -, -, hrest⟩ := Emit.toBytes_append_eq_ok.mp h
    rw [emitCase_eq hcase] at hrest
    obtain ⟨ps, hps⟩ := exists_shown_of_emit hrest
    exact ⟨haccepts, hwrites, ps, holdings_variants_eq_some.mpr ⟨i, case, hi, hcase, hps⟩⟩

/-- **The bytes of a value are those of its head and then those of what it holds.** Results about
written bytes start from here and not from `emit`, which has a case for each codec. -/
theorem toBytes_emit_eq_ok :
    (c.emit v).toBytes = .ok data ↔
      accepts c v = .ok () ∧ c.derives Directions.writes = true ∧ ∃ ps front rest, written? c v = some ps ∧
        data = front ++ rest ∧ (c.head v).toBytes = .ok front ∧
        Bytes.Pieces (fun p d => (p.1.emit p.2).toBytes = .ok d) ps rest := by
  constructor
  · intro h
    obtain ⟨haccepts, hwrites, ps, hps⟩ := written_of_emit h
    rw [emit_eq haccepts hwrites hps, Emit.toBytes_append_eq_ok] at h
    obtain ⟨front, rest, hdata, hfront, hrest⟩ := h
    exact ⟨haccepts, hwrites, ps, front, rest, hps, hdata, hfront, Emit.toBytes_each.mp hrest⟩
  · rintro ⟨haccepts, hwrites, ps, front, rest, hps, hdata, hfront, hrest⟩
    rw [emit_eq haccepts hwrites hps, Emit.toBytes_append_eq_ok]
    exact ⟨front, rest, hdata, hfront, Emit.toBytes_each.mpr hrest⟩

end Node

/-- **Nothing is written that the check would refuse**, whatever the value is. By induction over the
codec, through the parts in the order in which they are written, which is the order of the check up to a
permutation. -/
theorem check_of_emit {c : Codec} :
    ∀ {v : Value} {data : Bytes}, (c.emit v).toBytes = .ok data → c.check v = .ok () := by
  induction c using induct with
  | h c ih =>
    intro v data h
    obtain ⟨haccepts, -, ps, front, rest, hps, -, -, hrest⟩ := toBytes_emit_eq_ok.mp h
    obtain ⟨qs, hqs, hperm⟩ := perm_of_written hps
    refine check_eq_ok.mpr ⟨haccepts, qs, hqs, fun q hq => ?_⟩
    have hq' : q ∈ ps := hperm.mem_iff.mpr hq
    obtain ⟨d, hd, -⟩ := hrest.exists_of_mem hq'
    exact ih q.1 (mem_children_of_holdings hps q hq') hd

end ContractKit.Codec
