import ContractKit.Proofs.Codec.Variants

/-!
# `Proofs/Codec/Admitted.lean`: the values that a codec is for

`Admits` puts the two conditions on a value together: it is of exactly the type of the codec (`Exact`),
and it passes the check of the codec all the way down, so its numbers are in range and its addresses
have their size. There is one lemma for each way of putting codecs together, which says how a value is
admitted when its items are.
-/

set_option autoImplicit false

namespace ContractKit.Codec

/-! ## The check of exact values -/

theorem each_eq_ok {α : Type} {f : α → Except Fault Unit} {as : List α} :
    each f as = .ok () ↔ ∀ a ∈ as, f a = .ok () := by
  induction as with
  | nil => simp [each]
  | cons a as ih =>
    rw [each]
    cases h : f a with
    | error e =>
      constructor
      · intro hc
        cases hc
      · intro hall
        rw [hall a (by simp)] at h
        cases h
    | ok u =>
      show each f as = .ok () ↔ _
      rw [ih]
      simp [h]

theorem check_sequence {tuples : Bool} {item : Codec} {width : PrefixWidth} {order : OrderPolicy}
    (vs : List Value) :
    (Codec.sequence tuples item width order).check (if tuples then .tuple vs else .list vs) =
      each item.check vs := by
  cases tuples <;> rfl

theorem check_varTuple {item : Codec} (vs : List Value) :
    (Codec.varTuple item).check (.tuple vs) = each item.check vs := rfl

theorem check_setOf {frozen : Bool} {member : Codec} {width : PrefixWidth} {order : OrderPolicy}
    (vs : List Value) :
    (Codec.set frozen member width order).check (setOf frozen vs) =
      each member.check (Value.membersOf vs) := by
  cases frozen <;> rfl

theorem check_map {key value : Codec} {width : PrefixWidth} {order : OrderPolicy}
    (es : List (Value × Value)) :
    (Codec.map key value width order).check (.dict es) =
      each (fun e => (key.check e.1).bind fun _ => value.check e.2) es := rfl

theorem check_tuple {items : List Codec} {vs : List Value} (h : vs.length = items.length) :
    (Codec.tuple items).check (.tuple vs) = checkEach items vs := by
  have haccepts : accepts (.tuple items) (.tuple vs) = .ok () := if_pos h
  rw [check, haccepts]
  rfl

theorem check_struct {target : Target} {directions : Directions} {fields : List Codec}
    {vs : List Value} (h : vs.length = fields.length) :
    (Codec.struct target directions fields).check (.record target.cls vs) = checkEach fields vs := by
  have haccepts : accepts (.struct target directions fields) (.record target.cls vs) = .ok () :=
    instanceOf_record
  rw [check, haccepts, fieldItems_record h]
  rfl

theorem checkCase_eq {target : Target} {fields : List Codec} {v : Value} :
    ∀ {cases : List (Target × List Codec)} {i : Nat}, cases[i]? = some (target, fields) →
      checkCase cases i v = (fieldItems target fields v).bind fun vs => checkEach fields vs := by
  intro cases
  induction cases with
  | nil =>
    intro i h
    cases h
  | cons case cases ih =>
    intro i h
    cases i with
    | zero =>
      cases h
      rfl
    | succ i =>
      rw [checkCase]
      exact ih (by simpa using h)

theorem check_variants {enum : ClassRef} {directions : Directions} {tag : TagWidth}
    {cases : List (Target × List Codec)} {case : Target × List Codec} {i : Nat} {vs : List Value}
    (hvariant : variantOf? cases (.record case.1.cls vs) = some i) (hi : cases[i]? = some case)
    (h : vs.length = case.2.length) :
    (Codec.variants enum directions tag cases).check (.record case.1.cls vs) =
      checkEach case.2 vs := by
  have haccepts : accepts (.variants enum directions tag cases) (.record case.1.cls vs) = .ok () := by
    rw [accepts, hvariant]
  rw [check, haccepts, hvariant]
  show checkCase cases i _ = _
  rw [checkCase_eq hi, fieldItems_record h]
  rfl

/-! ## Admitted values -/

/-- The values that a codec is for: those of exactly its type that pass its check. -/
def Admits (c : Codec) (v : Value) : Prop := c.Exact v ∧ c.check v = .ok ()

theorem Admits.beq_self {c : Codec} {v : Value} (h : c.Admits v) : v.beq v = true :=
  beq_of_same h.1 (Value.Same.refl v)

theorem admits_optional {item : Codec} {v : Value} (h : v = .none ∨ item.Admits v) :
    (Codec.optional item).Admits v := by
  rcases h with rfl | ⟨hv, hcheck⟩
  · exact ⟨Or.inl rfl, rfl⟩
  · refine ⟨Or.inr hv, ?_⟩
    cases v with
    | none => rfl
    | _ => exact hcheck

theorem admits_sequence {tuples : Bool} {item : Codec} {width : PrefixWidth} {order : OrderPolicy}
    {vs : List Value} (h : ∀ x ∈ vs, item.Admits x) :
    (Codec.sequence tuples item width order).Admits (if tuples then .tuple vs else .list vs) := by
  refine ⟨⟨vs, rfl, fun x hx => (h x hx).1⟩, ?_⟩
  rw [check_sequence, each_eq_ok]
  exact fun x hx => (h x hx).2

theorem admits_varTuple {item : Codec} {vs : List Value} (h : ∀ x ∈ vs, item.Admits x) :
    (Codec.varTuple item).Admits (.tuple vs) := by
  refine ⟨⟨vs, rfl, fun x hx => (h x hx).1⟩, ?_⟩
  rw [check_varTuple, each_eq_ok]
  exact fun x hx => (h x hx).2

theorem admits_setOf {frozen : Bool} {member : Codec} {width : PrefixWidth} {order : OrderPolicy}
    {vs : List Value} (h : ∀ x ∈ Value.membersOf vs, member.Admits x)
    (hdistinct : (Value.membersOf vs).Pairwise fun a b => a.beq b = false) :
    (Codec.set frozen member width order).Admits (setOf frozen vs) := by
  refine ⟨⟨Value.membersOf vs, rfl, fun x hx => (h x hx).1, hdistinct⟩, ?_⟩
  rw [check_setOf, each_eq_ok]
  exact fun x hx => (h x hx).2

theorem admits_map {key value : Codec} {width : PrefixWidth} {order : OrderPolicy}
    {es : List (Value × Value)} (h : ∀ e ∈ es, key.Admits e.1 ∧ value.Admits e.2)
    (hdistinct : es.Pairwise fun a b => a.1.beq b.1 = false) :
    (Codec.map key value width order).Admits (.dict es) := by
  refine ⟨⟨es, rfl, fun e he => ⟨(h e he).1.1, (h e he).2.1⟩, hdistinct⟩, ?_⟩
  rw [check_map, each_eq_ok]
  intro e he
  rw [(h e he).1.2]
  exact (h e he).2.2

/-- Values for fields, each one that its codec is for. -/
theorem admits_fields {cs : List Codec} {vs : List Value} (h : List.Forall₂ Admits cs vs) :
    ExactEach cs vs ∧ checkEach cs vs = .ok () := by
  induction h with
  | nil => exact ⟨rfl, rfl⟩
  | @cons c v cs vs hv _ ih =>
    refine ⟨⟨v, vs, rfl, hv.1, ih.1⟩, ?_⟩
    rw [checkEach, hv.2]
    exact ih.2

theorem admits_tuple {items : List Codec} {vs : List Value} (h : List.Forall₂ Admits items vs) :
    (Codec.tuple items).Admits (.tuple vs) := by
  obtain ⟨hexact, hcheck⟩ := admits_fields h
  refine ⟨⟨vs, rfl, hexact⟩, ?_⟩
  rw [check_tuple (length_of_exactEach hexact)]
  exact hcheck

theorem admits_struct {target : Target} {directions : Directions} {fields : List Codec}
    {vs : List Value} (h : List.Forall₂ Admits fields vs) :
    (Codec.struct target directions fields).Admits (.record target.cls vs) := by
  obtain ⟨hexact, hcheck⟩ := admits_fields h
  refine ⟨⟨vs, rfl, hexact⟩, ?_⟩
  rw [check_struct (length_of_exactEach hexact)]
  exact hcheck

/-- The check may find the class at another place than the one that was meant, with the same fields. -/
theorem admits_variant {enum : ClassRef} {directions : Directions} {tag : TagWidth}
    {cases : List (Target × List Codec)} {case : Target × List Codec}
    (hsame : ∀ a ∈ cases, ∀ b ∈ cases, a.1.cls.ref.id = b.1.cls.ref.id → a = b)
    (hcase : case ∈ cases) {vs : List Value} (h : List.Forall₂ Admits case.2 vs) :
    (Codec.variants enum directions tag cases).Admits (.record case.1.cls vs) := by
  obtain ⟨hexact, hcheck⟩ := admits_fields h
  refine ⟨exactCase_iff.mpr ⟨case, hcase, vs, rfl, exactEach_iff.mp hexact⟩, ?_⟩
  obtain ⟨j, hvariant, hj⟩ := variantOf?_exact hcase hsame vs
  rw [check_variants hvariant hj (length_of_exactEach hexact)]
  exact hcheck

theorem admits_member {enum : ClassRef} {hashable : Bool} {directions : Directions} {tag : TagWidth}
    {cases : List Member} {m : Member}
    (hdistinct : cases.Pairwise fun a b => (a.value enum).beq (b.value enum) = false)
    (hm : m ∈ cases) : (Codec.members enum hashable directions tag cases).Admits (m.value enum) := by
  obtain ⟨i, hi⟩ := List.getElem?_of_mem hm
  refine ⟨⟨m, hm, rfl⟩, ?_⟩
  rw [check, accepts, memberOf?_exact hdistinct hi]
  simp [Member.value, Value.isHashable]

end ContractKit.Codec
