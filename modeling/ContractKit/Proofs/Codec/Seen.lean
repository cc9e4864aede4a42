import ContractKit.Proofs.Codec.Held

/-!
# `Proofs/Codec/Seen.lean`: what a codec sees of a value

A codec takes values of other classes than its own: a member of an integer enumeration for a number, a
record for a tuple, an instance of an extending class. `seen` is the value of exactly its type in the
place of such a one, with all that is written and nothing else. It leaves something out of two kinds of
values only, and a value that has none of them inside is `Plain`: an address with more than two parts,
and an instance of an extending class, which has fields of its own.

Plain keys compare as what is seen of them (`agree_seen`). So they have an order because exact keys
have one (`strictOn_passes`), and arranging them never fails.
-/

set_option autoImplicit false

namespace ContractKit

open Value (beqAll lexLt? lt?)

namespace Value

/-- Two pairs of values compare alike: one pair is equal if the other is, and ordered as the other is.
Nothing else of values is asked by arranging them. -/
structure Agree (a b a' b' : Value) : Prop where
  beq : a.beq b = a'.beq b'
  lt : lt? a b = lt? a' b'

theorem tupleItems?_record {cls : RecordClass} {items xs : List Value} :
    (record cls items).tupleItems? = some xs ↔ cls.isPositional = true ∧ xs = items := by
  rw [tupleItems?]
  cases cls.isPositional with
  | false => simp
  | true => simpa using eq_comm

/-- Whatever their classes, two values that have items are compared by these. -/
theorem compare_of_tupleItems? {v w : Value} {xs ys : List Value} (hv : v.tupleItems? = some xs)
    (hw : w.tupleItems? = some ys) : v.beq w = beqAll xs ys ∧ lt? v w = lexLt? xs ys := by
  cases v with
  | tuple _ =>
    cases hv
    simp only [beq, lt?, hw, and_self]
  | record cls _ =>
    obtain ⟨hpos, rfl⟩ := tupleItems?_record.mp hv
    have hform : cls.form = .positional := by simpa [RecordClass.isPositional] using hpos
    constructor
    · rw [beq.eq_def]
      simp only [hpos, hw, if_true]
    · simp only [lt?, hform, hw]
  | _ => cases hv

theorem Agree.of_items {v w v' w' : Value} {xs ys xs' ys' : List Value}
    (hv : v.tupleItems? = some xs) (hw : w.tupleItems? = some ys) (hv' : v'.tupleItems? = some xs')
    (hw' : w'.tupleItems? = some ys') (hbeq : beqAll xs ys = beqAll xs' ys')
    (hlt : lexLt? xs ys = lexLt? xs' ys') : Agree v w v' w' := by
  obtain ⟨hbeq', hlt'⟩ := compare_of_tupleItems? hv hw
  obtain ⟨hbeq'', hlt''⟩ := compare_of_tupleItems? hv' hw'
  exact ⟨by rw [hbeq', hbeq, hbeq''], by rw [hlt', hlt, hlt'']⟩

theorem Agree.of_numbers {v w v' w' : Value} {n m : Int} (hv : v.number? = some n)
    (hw : w.number? = some m) (hv' : v'.number? = some n) (hw' : w'.number? = some m) :
    Agree v w v' w' := by
  refine ⟨?_, by rw [lt?_of_number? hv hw, lt?_of_number? hv' hw']⟩
  rw [Bool.eq_iff_iff, beq_of_number? hv hw, beq_of_number? hv' hw']

/-- One item more on each side that compares alike. -/
theorem agree_cons {x y x' y' : Value} {xs ys xs' ys' : List Value} (h : Agree x y x' y')
    (hbeq : beqAll xs ys = beqAll xs' ys') (hlt : lexLt? xs ys = lexLt? xs' ys') :
    beqAll (x :: xs) (y :: ys) = beqAll (x' :: xs') (y' :: ys') ∧
      lexLt? (x :: xs) (y :: ys) = lexLt? (x' :: xs') (y' :: ys') := by
  simp only [beqAll, lexLt?, h.beq, h.lt, hbeq, hlt, and_self]

/-- Lists compare as what becomes of them, item by item. -/
theorem agree_map {f : Value → Value} : ∀ (xs ys : List Value),
    (∀ x ∈ xs, ∀ y ∈ ys, Agree x y (f x) (f y)) →
      beqAll xs ys = beqAll (xs.map f) (ys.map f) ∧ lexLt? xs ys = lexLt? (xs.map f) (ys.map f)
  | [], [], _ | [], _ :: _, _ | _ :: _, [], _ => by simp [beqAll, lexLt?]
  | x :: xs, y :: ys, h => by
    obtain ⟨hbeq, hlt⟩ := agree_map (f := f) xs ys fun x' hx' y' hy' =>
      h x' (List.mem_cons_of_mem _ hx') y' (List.mem_cons_of_mem _ hy')
    exact agree_cons (h x List.mem_cons_self y List.mem_cons_self) hbeq hlt

end Value

namespace Codec

open Value (Agree StrictOn KeySpace)

mutual

/-- The value of exactly the type of a codec that holds what the codec writes of a value. -/
def seen : Codec → Value → Value
  | .int _, v => .int (v.integer?.getD 0)
  | .contractAddress, v =>
    match v with
    | .record _ (index :: subindex :: _) =>
      .contractAddress (index.integer?.getD 0) (subindex.integer?.getD 0)
    | v => v
  | .sequence tuples item .., v =>
    let vs := ((itemsOf? tuples v).getD []).map (seen item)
    if tuples then .tuple vs else .list vs
  | .set frozen member .., v =>
    let vs := (v.members?.getD []).map (seen member)
    if frozen then .frozenset vs else .set vs
  | .map key value .., v =>
    match v with
    | .dict es => .dict (es.map fun e => (seen key e.1, seen value e.2))
    | v => v
  | .optional item, v =>
    match v with
    | .none => .none
    | v => seen item v
  | .tuple items, v => .tuple (seenEach items (v.tupleItems?.getD []))
  | .varTuple item, v => .tuple ((v.tupleItems?.getD []).map (seen item))
  | .struct target _ fields, v =>
    match fieldItems target fields v with
    | .ok vs => .record target.cls (seenEach fields vs)
    | .error _ => v
  | .unit target _, _ => .record target.cls []
  | .variants _ _ _ cases, v =>
    match variantOf? cases v with
    | some i => seenCase cases i v
    | none => v
  | .members enum _ _ _ cases, v =>
    match (memberOf? enum cases v).bind fun i => cases[i]? with
    | some m => m.value enum
    | none => v
  | .bool, v | .accountAddress, v | .bytes .., v | .text .., v => v

/-- The same for fields, each by its codec. -/
def seenEach : List Codec → List Value → List Value
  | c :: cs, v :: vs => seen c v :: seenEach cs vs
  | _, _ => []

/-- The same for a value of the variant at a place. -/
def seenCase : List (Target × List Codec) → Nat → Value → Value
  | [], _, v => v
  | (target, fields) :: _, 0, v =>
    match fieldItems target fields v with
    | .ok vs => .record target.cls (seenEach fields vs)
    | .error _ => v
  | _ :: rest, i + 1, v => seenCase rest i v

end

/-- Whether a value has nothing of its own that the codec leaves out: an address has two parts, and an
instance is one of the declared class and not of a class that extends it. A record without names for
its fields is compared as a tuple, so there it makes no difference. -/
def PlainNode : Codec → Value → Prop
  | .contractAddress, v => ∃ vs, v.tupleItems? = some vs ∧ vs.length = 2
  | .struct target _ fields, v =>
    if target.cls.isPositional then ∃ vs, v.tupleItems? = some vs
    else ∃ vs, v = .record target.cls vs ∧ vs.length = fields.length
  | .unit target _, v => v = .record target.cls []
  | .variants _ _ _ cases, v =>
    ∃ case ∈ cases, ∃ vs, v = .record case.1.cls vs ∧
      (case.1.cls.isPositional = false → vs.length = case.2.length)
  | _, _ => True

/-- A value with nothing inside that its codec leaves out. -/
def Plain (c : Codec) (v : Value) : Prop := ∀ d x, Inside c v d x → PlainNode d x

/-- A plain value that passes the check. The check also takes instances of extending classes, whose own
fields change how they compare, so plainness is asked for beside it. -/
structure Passes (c : Codec) (v : Value) : Prop where
  check : c.check v = .ok ()
  plain : c.Plain v

section

variable {c : Codec} {v : Value} {ps : List (Codec × Value)}

theorem Plain.node (h : c.Plain v) : c.PlainNode v := h c v (.self c v)

theorem Plain.held (h : c.Plain v) (hps : held? c v = some ps) : ∀ p ∈ ps, p.1.Plain p.2 :=
  fun _ hp d x hx => h d x (.held hps hp hx)

namespace Passes

theorem accepts (h : c.Passes v) : accepts c v = .ok () := (check_eq_ok.mp h.check).1

theorem exists_held (h : c.Passes v) :
    ∃ ps, held? c v = some ps ∧ ∀ p ∈ ps, p.1.Passes p.2 := by
  obtain ⟨-, ps, hps, hall⟩ := check_eq_ok.mp h.check
  exact ⟨ps, hps, fun p hp => ⟨hall p hp, h.plain.held hps p hp⟩⟩

/-- A value that holds items of one codec holds values that pass. -/
theorem items {item : Codec} {vs : List Value} (h : c.Passes v)
    (hps : held? c v = some (vs.map (item, ·))) : ∀ x ∈ vs, item.Passes x := by
  obtain ⟨qs, hqs, hall⟩ := h.exists_held
  obtain rfl := Option.some.inj (hps.symm.trans hqs)
  exact fun x hx => hall (item, x) (List.mem_map_of_mem hx)

/-- The keys and the values of a map that passes do. -/
theorem entries {key value : Codec} {width : PrefixWidth} {order : OrderPolicy}
    {es : List (Value × Value)} (h : (Codec.map key value width order).Passes (.dict es)) :
    ∀ e ∈ es, key.Passes e.1 ∧ value.Passes e.2 := by
  intro e he
  obtain ⟨ps, hps, hall⟩ := h.exists_held
  cases hps
  have hmem : ∀ p ∈ entryParts key value e, p ∈ es.flatMap (entryParts key value) :=
    fun p hp => List.mem_flatMap.mpr ⟨e, he, hp⟩
  exact ⟨hall (key, e.1) (hmem _ (by simp [entryParts])),
    hall (value, e.2) (hmem _ (by simp [entryParts]))⟩

end Passes

theorem forall₂_of_paired {P : Codec → Value → Prop} :
    ∀ {cs : List Codec} {vs : List Value} {ps : List (Codec × Value)}, paired? cs vs = some ps →
      vs.length = cs.length → (∀ p ∈ ps, P p.1 p.2) → List.Forall₂ P cs vs
  | [], [], _, _, _, _ => .nil
  | c :: cs, v :: vs, ps, h, hlen, hall => by
    obtain ⟨qs, hqs, rfl⟩ := Option.map_eq_some_iff.mp h
    obtain ⟨hv, hall⟩ := List.forall_mem_cons.mp hall
    exact .cons hv (forall₂_of_paired hqs (Nat.succ.inj hlen) hall)

theorem forall_of_paired {P : Codec → Value → Prop} :
    ∀ {cs : List Codec} {vs : List Value} {ps : List (Codec × Value)}, paired? cs vs = some ps →
      List.Forall₂ P cs vs → ∀ p ∈ ps, P p.1 p.2
  | _, _, _, h, .nil => by
    cases h
    simp
  | _, _, _, h, .cons hv hvs => by
    obtain ⟨qs, hqs, rfl⟩ := Option.map_eq_some_iff.mp h
    exact List.forall_mem_cons.mpr ⟨hv, forall_of_paired hqs hvs⟩

/-- The items of a tuple that passes do, each by its codec. -/
theorem Passes.tuple {items : List Codec} (h : (Codec.tuple items).Passes v) :
    ∃ vs, v.tupleItems? = some vs ∧ List.Forall₂ Passes items vs := by
  obtain ⟨vs, hvs, hlen⟩ := accepts_tuple.mp h.accepts
  obtain ⟨ps, hps, hall⟩ := h.exists_held
  obtain ⟨ws, hws, hpaired⟩ := holdings_tuple_eq_some.mp hps
  obtain rfl := Option.some.inj (hvs.symm.trans hws)
  exact ⟨vs, hvs, forall₂_of_paired hpaired hlen hall⟩

/-- The fields that a value shows that passes do, each by its codec. -/
theorem Passes.struct {target : Target} {directions : Directions} {fields : List Codec}
    (h : (Codec.struct target directions fields).Passes v) :
    ∃ vs, fieldItems target fields v = .ok vs ∧ List.Forall₂ Passes fields vs ∧
      if target.cls.isPositional then v.tupleItems? = some vs else v = .record target.cls vs := by
  obtain ⟨ps, hps, hall⟩ := h.exists_held
  obtain ⟨vs, hshown, hpaired⟩ := shownFields_eq_some.mp hps
  refine ⟨vs, hshown, ?_⟩
  have hplain := h.plain.node
  by_cases hpos : target.cls.isPositional = true
  · simp only [PlainNode, if_pos hpos] at hplain
    obtain ⟨ws, hws⟩ := hplain
    cases v with
    | record cls items =>
      obtain ⟨-, rfl⟩ := Value.tupleItems?_record.mp hws
      simp only [fieldItems, if_pos hpos] at hshown
      split at hshown
      · rename_i hlen
        cases hshown
        rw [if_pos hpos]
        exact ⟨forall₂_of_paired hpaired hlen hall, hws⟩
      · cases hshown
    | _ => cases h.accepts
  · simp only [PlainNode, if_neg hpos] at hplain
    obtain ⟨ws, rfl, hlen⟩ := hplain
    rw [fieldItems_record hlen] at hshown
    cases hshown
    rw [if_neg hpos]
    exact ⟨forall₂_of_paired hpaired hlen hall, rfl⟩

/-- The variant that a value which passes is of, with its fields. -/
theorem Passes.variants {enum : ClassRef} {directions : Directions} {tag : TagWidth}
    {cases : List (Target × List Codec)} (hsound : (Codec.variants enum directions tag cases).SoundNode)
    (h : (Codec.variants enum directions tag cases).Passes v) :
    ∃ i case vs, variantOf? cases v = some i ∧ cases[i]? = some case ∧
      v = .record case.1.cls vs ∧ fieldItems case.1 case.2 v = .ok vs ∧
      List.Forall₂ Passes case.2 vs := by
  obtain ⟨case, hcase, vs, rfl, hlen⟩ := h.plain.node
  obtain ⟨i, hi, hget⟩ := variantOf?_exact hcase hsound.2 vs
  obtain ⟨ps, hps, hall⟩ := h.exists_held
  simp only [held?, holdings?, hi, hget, Option.bind_some] at hps
  obtain ⟨ws, hws, hpaired⟩ := shownFields_eq_some.mp hps
  have hlen' : vs.length = case.2.length := by
    by_cases hpos : case.1.cls.isPositional = true
    · simp only [fieldItems, if_pos hpos] at hws
      split at hws
      · assumption
      · cases hws
    · exact hlen (by simpa using hpos)
  obtain rfl := Except.ok.inj ((fieldItems_record hlen').symm.trans hws)
  exact ⟨i, case, vs, hi, hget, rfl, hws, forall₂_of_paired hpaired hlen' hall⟩

/-- What a value of exactly the type holds is of exactly the types. -/
theorem exact_of_held (hsound : c.SoundNode) (h : c.Exact v) (hps : held? c v = some ps) :
    ∀ p ∈ ps, p.1.Exact p.2 := by
  have hitems : ∀ {item : Codec} {vs : List Value}, (∀ x ∈ vs, item.Exact x) →
      ∀ p ∈ vs.map (item, ·), p.1.Exact p.2 := by
    intro item vs hvs p hp
    obtain ⟨x, hx, rfl⟩ := List.mem_map.mp hp
    exact hvs x hx
  have hfields : ∀ {target : Target} {fields : List Codec} {vs : List Value},
      List.Forall₂ Exact fields vs →
      shownFields? target fields (.record target.cls vs) = some ps → ∀ p ∈ ps, p.1.Exact p.2 := by
    intro target fields vs hvs hps
    obtain ⟨ws, hws, hpaired⟩ := shownFields_eq_some.mp hps
    rw [fieldItems_record hvs.length_eq.symm] at hws
    cases hws
    exact forall_of_paired hpaired hvs
  -- a value of exactly the type is the one constructor for it, so what it holds is read off there
  cases c with
  | sequence tuples item _ _ =>
    obtain ⟨vs, rfl, hvs⟩ := h
    cases tuples <;> cases hps <;> exact hitems hvs
  | varTuple item =>
    obtain ⟨vs, rfl, hvs⟩ := h
    cases hps
    exact hitems hvs
  | set frozen member _ _ =>
    obtain ⟨vs, rfl, hvs, -⟩ := h
    cases frozen <;> cases hps <;> exact hitems hvs
  | map key value _ _ =>
    obtain ⟨es, rfl, hes, -⟩ := h
    cases hps
    intro p hp
    obtain ⟨e, he, hp⟩ := List.mem_flatMap.mp hp
    have hp : p = (key, e.1) ∨ p = (value, e.2) := by simpa [entryParts] using hp
    rcases hp with rfl | rfl
    · exact (hes e he).1
    · exact (hes e he).2
  | optional item =>
    by_cases hnone : v = .none
    · subst hnone
      cases hps
      simp
    · rw [held?, holdings_optional hnone] at hps
      cases hps
      simpa using h.resolve_left hnone
  | tuple items =>
    obtain ⟨vs, rfl, hvs⟩ := h
    exact forall_of_paired hps (exactEach_iff.mp hvs)
  | struct target _ fields =>
    obtain ⟨vs, rfl, hvs⟩ := h
    exact hfields (exactEach_iff.mp hvs) hps
  | variants _ _ _ cases =>
    obtain ⟨case, hcase, vs, rfl, hvs⟩ := exactCase_iff.mp h
    obtain ⟨i, hi, hget⟩ := variantOf?_exact hcase hsound.2 vs
    simp only [held?, holdings?, hi, hget, Option.bind_some] at hps
    exact hfields hvs hps
  | _ =>
    cases hps
    simp

/-- **Values of exactly the type are plain.** So all that is shown of plain values holds of what is
read. -/
theorem plain_of_exact (hsound : c.Sound) (h : c.Exact v) : c.Plain v := by
  intro d x hinside
  induction hinside with
  | @self c v =>
    cases c with
    | contractAddress =>
      obtain ⟨i, j, rfl⟩ := h
      exact ⟨_, rfl, rfl⟩
    | struct target _ fields =>
      obtain ⟨vs, rfl, hvs⟩ := h
      by_cases hpos : target.cls.isPositional = true
      · exact (if_pos hpos).mpr ⟨vs, Value.tupleItems?_record.mpr ⟨hpos, rfl⟩⟩
      · exact (if_neg hpos).mpr ⟨vs, rfl, (exactEach_iff.mp hvs).length_eq.symm⟩
    | unit target _ => exact h
    | variants _ _ _ cases =>
      obtain ⟨case, hcase, vs, rfl, hvs⟩ := exactCase_iff.mp h
      exact ⟨case, hcase, vs, rfl, fun _ => hvs.length_eq.symm⟩
    | _ => trivial
  | held hps hx _ ih =>
    exact ih (hsound.child (mem_children_of_holdings hps _ hx)) (exact_of_held hsound.node h hps _ hx)

/-- The number of an integer that is accepted. -/
theorem accepts_integer {format : LittleEndian.Format} :
    accepts (.int format) v = .ok () ↔ ∃ n, v.integer? = some n ∧ format.Holds n := by
  rw [accepts]
  cases v.integer? with
  | none => simp [refuse]
  | some n =>
    unfold LittleEndian.Format.Holds refuse
    simp only [Option.some.injEq, exists_eq_left']
    split
    · simp
      omega
    split
    · simp
      omega
    · simp
      omega

theorem number?_of_integer? {n : Int} (h : v.integer? = some n) : v.number? = some n := by
  cases v with
  | int _ | member _ _ _ => exact h
  | _ => cases h

theorem isAddressPart_iff :
    isAddressPart v = true ↔ ∃ n, v.integer? = some n ∧ LittleEndian.Format.Holds ⟨8, false⟩ n := by
  unfold isAddressPart
  cases v.integer? <;> simp

/-- The parts of an address that passes. -/
theorem Passes.address (h : Codec.contractAddress.Passes v) :
    ∃ cls x y i j, v = .record cls [x, y] ∧ cls.isPositional = true ∧ x.integer? = some i ∧
      y.integer? = some j ∧ LittleEndian.Format.Holds ⟨8, false⟩ i ∧
      LittleEndian.Format.Holds ⟨8, false⟩ j := by
  have haccepts := h.accepts
  obtain ⟨vs, hvs, hlen⟩ := h.plain.node
  cases v with
  | record cls items =>
    obtain ⟨hpos, rfl⟩ := Value.tupleItems?_record.mp hvs
    obtain ⟨x, y, rfl⟩ := List.length_eq_two.mp hlen
    simp only [Codec.accepts] at haccepts
    split at haccepts
    · split at haccepts
      · rename_i hparts
        simp only [List.all_cons, List.all_nil, Bool.and_true, Bool.and_eq_true,
          isAddressPart_iff] at hparts
        obtain ⟨⟨i, hi, hi'⟩, j, hj, hj'⟩ := hparts
        exact ⟨cls, x, y, i, j, rfl, hpos, hi, hj, hi', hj'⟩
      · cases haccepts
    · cases haccepts
  | _ => cases haccepts

/-- Values that pass compare as what is seen of them. -/
def ComparesAsSeen (c : Codec) : Prop :=
  ∀ ⦃v w : Value⦄, c.Passes v → c.Passes w → Agree v w (c.seen v) (c.seen w)

section Containers

variable {item : Codec} {items : List Codec} {directions : Directions}

/-- Tuples of one codec, whatever their lengths. -/
theorem ComparesAsSeen.tuples (hitem : item.ComparesAsSeen) {v w : Value} {xs ys : List Value}
    (hv : v.tupleItems? = some xs) (hw : w.tupleItems? = some ys) (hxs : ∀ x ∈ xs, item.Passes x)
    (hys : ∀ y ∈ ys, item.Passes y) :
    Agree v w (.tuple (xs.map item.seen)) (.tuple (ys.map item.seen)) := by
  obtain ⟨hbeq, hlt⟩ := Value.agree_map (f := item.seen) xs ys
    fun x hx y hy => hitem (hxs x hx) (hys y hy)
  exact .of_items hv hw rfl rfl hbeq hlt

end Containers

end

end Codec

end ContractKit
