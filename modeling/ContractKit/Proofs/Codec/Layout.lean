import ContractKit.Proofs.Codec.Leaves
import ContractKit.Proofs.Wire.Keyed

/-!
# `Proofs/Codec/Layout.lean`: how the parts of a value lie in its bytes

One pair of lemmas for each way of putting codecs together. `emit_*` says what is written for an exact
value once the checks are known to pass, and `takes_*` says which bytes the reader takes. The round
trip and its converse read both sides off here and never unfold the encoder or the decoder again.
-/

set_option autoImplicit false

namespace ContractKit.Codec

/-! ## Optional values -/

theorem emit_optional {item : Codec} {v : Value} (h : v ≠ .none) :
    (Codec.optional item).emit v = Emit.byte 1 ++ item.emit v := by
  cases v with
  | none => exact absurd rfl h
  | _ => rfl

theorem takes_optional {item : Codec} {data : Bytes} {v : Value} :
    (Codec.optional item).read.Takes data v ↔
      data = [0] ∧ v = .none ∨ ∃ rest, data = 1 :: rest ∧ item.read.Takes rest v := by
  rw [read]
  simp only [Read.Takes]
  constructor
  · rintro ⟨b, rest, rfl, h⟩
    by_cases h0 : b = 0
    · rw [if_pos h0] at h
      obtain ⟨rfl, rfl⟩ := h
      exact Or.inl ⟨by rw [h0], rfl⟩
    · rw [if_neg h0] at h
      by_cases h1 : b = 1
      · rw [if_pos h1] at h
        exact Or.inr ⟨rest, by rw [h1], h⟩
      · rw [if_neg h1] at h
        exact h.elim
  · rintro (⟨rfl, rfl⟩ | ⟨rest, rfl, h⟩)
    · exact ⟨0, [], rfl, by simp [Read.Takes]⟩
    · exact ⟨1, rest, rfl, by simpa using h⟩

/-! ## Lists, sets and maps -/

theorem emit_sequence {tuples : Bool} {item : Codec} {width : PrefixWidth} {order : OrderPolicy}
    (vs : List Value) :
    (Codec.sequence tuples item width order).emit (if tuples then .tuple vs else .list vs) =
      Emit.count width vs.length ++ Emit.each item.emit vs := by
  cases tuples <;> rfl

theorem takes_sequence {tuples : Bool} {item : Codec} {width : PrefixWidth} {order : OrderPolicy}
    {data : Bytes} {v : Value} :
    (Codec.sequence tuples item width order).read.Takes data v ↔
      ∃ vs, (Read.prefixedItems width item.read).Takes data vs ∧
        v = if tuples then .tuple vs else .list vs := by
  rw [read, Read.takes_map]

theorem emit_varTuple {item : Codec} (vs : List Value) :
    (Codec.varTuple item).emit (.tuple vs) =
      Emit.count .standard vs.length ++ Emit.each item.emit vs := rfl

theorem takes_varTuple {item : Codec} {data : Bytes} {v : Value} :
    (Codec.varTuple item).read.Takes data v ↔
      ∃ vs, (Read.prefixedItems .standard item.read).Takes data vs ∧ v = .tuple vs := by
  rw [read, Read.takes_map]

/-- The members are written in order, if they have one. -/
theorem emit_set {frozen : Bool} {member : Codec} {width : PrefixWidth} {order : OrderPolicy}
    {vs ws : List Value} (h : Value.sortedBy? Value.lt? vs = some ws) :
    (Codec.set frozen member width order).emit (if frozen then .frozenset vs else .set vs) =
      Emit.count width vs.length ++ Emit.each member.emit ws := by
  have hsorted : Value.sorted? vs = some ws := h
  cases frozen with
  | true =>
    simp only [if_true, emit, Value.members?, Option.getD_some, hsorted]
    rfl
  | false =>
    simp only [Bool.false_eq_true, if_false, emit, Value.members?, Option.getD_some, hsorted]
    rfl

theorem takes_set {frozen : Bool} {member : Codec} {width : PrefixWidth} {order : OrderPolicy}
    {data : Bytes} {v : Value} :
    (Codec.set frozen member width order).read.Takes data v ↔
      ∃ vs, (Read.prefixedItems width member.read).Takes data vs ∧
        (keyCheck order).Accepted none vs ∧ v = setOf frozen vs := by
  rw [read, Read.takes_map]
  simp only [Read.takes_keyed, List.map_id, and_assoc]

/-- Write an entry. -/
def emitEntry (key value : Codec) (e : Value × Value) : Emit := key.emit e.1 ++ value.emit e.2

/-- The entries are written in the order of their keys, if those have one. -/
theorem emit_map {key value : Codec} {width : PrefixWidth} {order : OrderPolicy}
    {es fs : List (Value × Value)}
    (h : Value.sortedBy? (fun a b => Value.lt? a.1 b.1) es = some fs) :
    (Codec.map key value width order).emit (.dict es) =
      Emit.count width es.length ++ Emit.each (emitEntry key value) fs := by
  have hsorted : Value.sortedEntries? es = some fs := h
  simp only [emit, hsorted]
  rfl

theorem takes_map {key value : Codec} {width : PrefixWidth} {order : OrderPolicy} {data : Bytes}
    {v : Value} :
    (Codec.map key value width order).read.Takes data v ↔
      ∃ es, (Read.prefixedItems width (Read.entry key.read value.read)).Takes data es ∧
        (keyCheck order).Accepted none (es.map Prod.fst) ∧ v = .dict (Value.entriesOf es) := by
  rw [read, Read.takes_map]
  simp only [Read.takes_keyed, and_assoc]

/-! ## Tuples, structs and variants -/

theorem takes_readEach_cons {c : Codec} {cs : List Codec} {data : Bytes} {vs : List Value} :
    (readEach (c :: cs)).Takes data vs ↔
      ∃ x xs front rest, vs = x :: xs ∧ data = front ++ rest ∧ c.read.Takes front x ∧
        (readEach cs).Takes rest xs := by
  rw [readEach, Read.takes_bind]
  constructor
  · rintro ⟨x, front, rest, rfl, hx, h⟩
    obtain ⟨xs, hxs, rfl⟩ := Read.takes_map.mp h
    exact ⟨x, xs, front, rest, rfl, rfl, hx, hxs⟩
  · rintro ⟨x, xs, front, rest, rfl, rfl, hx, hxs⟩
    exact ⟨x, front, rest, rfl, hx, Read.takes_map.mpr ⟨xs, hxs, rfl⟩⟩

theorem emit_tuple {items : List Codec} {vs : List Value} (h : vs.length = items.length) :
    (Codec.tuple items).emit (.tuple vs) = emitEach items vs := by
  have haccepts : accepts (.tuple items) (.tuple vs) = .ok () := if_pos h
  rw [emit, haccepts]
  rfl

theorem takes_tuple {items : List Codec} {data : Bytes} {v : Value} :
    (Codec.tuple items).read.Takes data v ↔ ∃ vs, (readEach items).Takes data vs ∧ v = .tuple vs := by
  rw [read, Read.takes_map]

end ContractKit.Codec
