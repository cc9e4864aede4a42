import ContractKit.Proofs.Codec.Encodable
import ContractKit.Proofs.Codec.OfType

/-!
# `Proofs/Codec/Prefix.lean`: values behind a count of any width

A value that starts with a count is checked first, then counted, and what stands behind the count is
written last. Neither the check nor the number nor what is behind looks at the prefix, so a codec with
another prefix writes the same behind another count (`encode_withPrefix`). There are two codecs for
tuples of any length, and with the standard prefix they are one (`emit_varTuple_eq`,
`read_varTuple_eq`).

An annotation that takes a prefix of its own has a codec if it has one without, and it is that one with
the prefix changed (`prefixed_eq_map`).
-/

set_option autoImplicit false

namespace ContractKit

open LittleEndian (digits)

namespace Emit

/-- What stands behind a count is written if the count fits. -/
theorem toBytes_count_append (width : PrefixWidth) (n : Nat) (e : Emit) :
    (count width n ++ e).toBytes =
      if n ≤ width.maxCount then e.toBytes.map (digits width.bytes n ++ ·)
      else .error (.wire (.countTooLong n width)) := by
  by_cases hle : n ≤ width.maxCount
  · rw [if_pos hle, toBytes_append, toBytes_count.mpr ⟨hle, rfl⟩]
    cases e.toBytes <;> rfl
  · rw [if_neg hle, Codec.count_eq_fail (Nat.not_le.mp hle)]
    rfl

end Emit

namespace Codec

/-! ## Count and content -/

/-- Whether values start with a count. -/
def isCounted : Codec → Bool
  | .bytes .. | .text .. | .sequence .. | .set .. | .map .. | .varTuple _ => true
  | _ => false

/-- The codec with another prefix. Tuples of any length get one of their own. -/
def withPrefix (width : PrefixWidth) (order : OrderPolicy) : Codec → Codec
  | .bytes _ _ => .bytes width order
  | .text _ _ => .text width order
  | .sequence tuples item _ _ => .sequence tuples item width order
  | .set frozen member _ _ => .set frozen member width order
  | .map key value _ _ => .map key value width order
  | .varTuple item => .sequence true item width order
  | c => c

/-- How many things the prefix of a value counts. -/
def countOf (c : Codec) (v : Value) : Nat := ((count? c v).map (·.1)).getD 0

/-- What is written behind the count of a value. -/
def behind : Codec → Value → Emit
  | .bytes .., v =>
    match v with
    | .bytes data => Emit.chunk data
    | _ => .nothing
  | .text .., v =>
    match v with
    | .text s => Emit.chunk (Bytes.ofText s)
    | _ => .nothing
  | .sequence tuples item .., v => Emit.each item.emit ((itemsOf? tuples v).getD [])
  | .set _ member .., v =>
    match Value.sorted? (v.members?.getD []) with
    | some vs => Emit.each member.emit vs
    | none => .fail .unordered
  | .map key value .., v =>
    match v with
    | .dict es =>
      match Value.sortedEntries? es with
      | some es => Emit.each (fun e => key.emit e.1 ++ value.emit e.2) es
      | none => .fail .unordered
    | _ => .nothing
  | .varTuple item, v => Emit.each item.emit (v.tupleItems?.getD [])
  | _, _ => .nothing

/-- The outcome of writing a value behind a count of some width. -/
def encodeCounted (c : Codec) (width : PrefixWidth) (v : Value) : Except Fault Bytes :=
  (accepts c v).bind fun _ =>
    if c.countOf v ≤ width.maxCount then
      (c.behind v).toBytes.map (digits width.bytes (c.countOf v) ++ ·)
    else .error (.wire (.countTooLong (c.countOf v) width))

variable {c : Codec} {width : PrefixWidth} {order : OrderPolicy} {v : Value}

/-- The check at a node does not look at the prefix. -/
theorem accepts_withPrefix : accepts (c.withPrefix width order) v = accepts c v := by
  cases c <;> rfl

theorem emit_of_refused (hcounted : c.isCounted = true) {f : Fault} (h : accepts c v = .error f) :
    c.emit v = .fail f := by
  cases c with
  | bytes _ _ | text _ _ | sequence _ _ _ _ | set _ _ _ _ | map _ _ _ _ | varTuple _ =>
    show Emit.after (accepts _ v) _ = _
    rw [h]
    rfl
  | _ => cases hcounted

theorem isCounted_withPrefix : (c.withPrefix width order).isCounted = c.isCounted := by
  cases c <;> rfl

theorem emit_items {tuples : Bool} {item : Codec} {vs : List Value} (h : itemsOf? tuples v = some vs) :
    (Codec.sequence tuples item width order).emit v =
      Emit.count width vs.length ++ Emit.each item.emit vs := by
  rw [emit_eq (accepts_sequence.mpr ⟨vs, h⟩) rfl (holdings_sequence_eq_some.mpr ⟨vs, h, rfl⟩),
    emitParts_map, head_sequence h]

/-- A value that is accepted is written as its count and then as what is behind. -/
theorem emit_withPrefix (hcounted : c.isCounted = true) (h : accepts c v = .ok ()) :
    (c.withPrefix width order).emit v = Emit.count width (c.countOf v) ++ c.behind v := by
  cases c with
  | bytes _ _ => cases v <;> first | rfl | cases h
  | text _ _ => cases v <;> first | rfl | cases h
  | sequence tuples item _ _ =>
    obtain ⟨vs, hvs⟩ := accepts_sequence.mp h
    rw [withPrefix, emit_items hvs, countOf, count?, behind, hvs]
    rfl
  | set frozen member _ _ =>
    obtain ⟨vs, hvs⟩ := accepts_set.mp h
    rw [withPrefix, emit, accepts_set.mpr ⟨vs, hvs⟩, countOf, count?, behind, hvs]
    rfl
  | map key value _ _ => cases v <;> first | rfl | cases h
  | varTuple item =>
    obtain ⟨vs, hvs⟩ := accepts_varTuple.mp h
    have hitems : itemsOf? true v = some vs := hvs
    rw [withPrefix, emit_items hitems, countOf, count?, behind, hvs]
    rfl
  | _ => cases hcounted

/-- **A codec with another prefix writes the same behind another count.** What stands behind the count
is the same, so prefixes differ in their width and in which values are too large for them. -/
theorem encode_withPrefix (hcounted : c.isCounted = true) :
    (c.withPrefix width order).encode v = c.encodeCounted width v := by
  unfold encode encodeCounted
  cases h : accepts c v with
  | error f =>
    rw [emit_of_refused (isCounted_withPrefix.trans hcounted) (accepts_withPrefix.trans h)]
    rfl
  | ok => rw [emit_withPrefix hcounted h, Emit.toBytes_count_append]; rfl

/-! ## The two codecs for tuples of any length -/

theorem emit_varTuple_eq (item : Codec) (order : OrderPolicy) (v : Value) :
    (Codec.sequence true item .standard order).emit v = (Codec.varTuple item).emit v := by
  have haccepts : accepts (.sequence true item .standard order) v = accepts (.varTuple item) v := rfl
  show Emit.after (accepts _ v) _ = Emit.after (accepts _ v) _
  rw [haccepts]
  cases h : accepts (.varTuple item) v with
  | error f => rfl
  | ok =>
    obtain ⟨vs, hvs⟩ := accepts_varTuple.mp h
    rw [hvs]
    rfl

theorem read_varTuple_eq (item : Codec) (order : OrderPolicy) :
    (Codec.sequence true item .standard order).read = (Codec.varTuple item).read := by
  rw [read, read]
  rfl

/-! ## Annotations -/

theorem ofType_stripped (classes : Classes) : ∀ t : Ty,
    ofType classes t.stripped = ofType classes t
  | .annotated base _ => by rw [Ty.stripped, ofType, ofType_stripped classes base]
  | .sized _ | .accountAddress | .bool | .text | .bytes | .int | .float | .any | .none | .noneType
  | .dots | .bare _ | .cls _ | .object _ | .list _ | .set _ | .frozenset _ | .dict _ _ | .tuple _
  | .union _ _ | .forward _ | .forwardRef _ | .ok _ | .err _ | .stateRef _ => rfl

theorem widthOf_bytes (width : PrefixWidth) : widthOf width.bytes = .ok width := by
  rw [widthOf, PrefixWidth.ofInt?_bytes]

/-- **An annotation with a prefix of its own has the codec that it has without, with the prefix
changed**, or it has none for the same reason. -/
theorem prefixed_eq_map {classes : Classes} {kind : ContainerKind} {t : Ty}
    (hcheck : kind.check t = .ok ()) :
    prefixed classes kind width.bytes order t = (ofType classes t).map (withPrefix width order) := by
  have hfits := fits_of_check hcheck
  have hok : ∀ {α : Type} {next : Unit → Except Fault α}, (Except.ok () >>= next) = next () := rfl
  rw [← ofType_stripped, prefixed, hcheck, hok]
  generalize t.stripped = s at hfits
  unfold ContainerKind.Fits at hfits
  -- one case for each type of values that start with a count
  split at hfits
  case h_12 => exact hfits.elim
  all_goals simp only [widthOf_bytes, ofType]
  case h_1 | h_2 | h_5 | h_7 | h_8 | h_11 => rfl
  case h_3 item | h_4 item => cases ofType classes item <;> rfl
  case h_6 key value =>
    cases ensureHashable classes key.stripped key.shown with
    | error f => rfl
    | ok => cases ofType classes key <;> cases ofType classes value <;> rfl
  case h_9 member | h_10 member =>
    cases ensureHashable classes member.stripped member.stripped.shown with
    | error f => rfl
    | ok => cases ofType classes member <;> rfl

/-- The policy of a container without a prefix of its own. -/
def standardOrder : ContainerKind → OrderPolicy
  | .map | .set => .strictlyIncreasing
  | .sequence | .text => .unchecked

/-- Without a prefix of its own an annotation has the standard one, and it has it as an attribute would
choose it, tuples of any length apart. -/
theorem standard_of_ofType {classes : Classes} {kind : ContainerKind} {t : Ty}
    (hcheck : kind.check t = .ok ()) (h : ofType classes t = .ok c) :
    c.isCounted = true ∧
      (c.withPrefix .standard (standardOrder kind) = c ∨ ∃ item, c = .varTuple item) := by
  have hfits := fits_of_check hcheck
  rw [← ofType_stripped] at h
  generalize t.stripped = s at hfits h
  -- the types that fit are gone through: what has no codec drops out, and a tuple of one type is
  -- the exception
  unfold ContainerKind.Fits at hfits
  split at hfits
  case h_12 => exact hfits.elim
  all_goals simp only [ofType] at h
  case h_1 | h_11 =>
    cases h
    exact ⟨rfl, Or.inl rfl⟩
  case h_2 | h_5 | h_7 | h_8 => cases h
  case h_3 item =>
    obtain ⟨d, -, h⟩ := bind_eq_ok.mp h
    cases h
    exact ⟨rfl, Or.inl rfl⟩
  case h_4 item =>
    obtain ⟨d, -, h⟩ := bind_eq_ok.mp h
    cases h
    exact ⟨rfl, Or.inr ⟨d, rfl⟩⟩
  case h_6 key value =>
    obtain ⟨-, -, h⟩ := bind_eq_ok.mp h
    obtain ⟨k, -, h⟩ := bind_eq_ok.mp h
    obtain ⟨u, -, h⟩ := bind_eq_ok.mp h
    cases h
    exact ⟨rfl, Or.inl rfl⟩
  case h_9 member | h_10 member =>
    obtain ⟨-, -, h⟩ := bind_eq_ok.mp h
    obtain ⟨d, -, h⟩ := bind_eq_ok.mp h
    cases h
    exact ⟨rfl, Or.inl rfl⟩

/-- **With the standard prefix an annotation is written and read as it is without a prefix of its
own.** -/
theorem same_of_standard {classes : Classes} {kind : ContainerKind} {t : Ty}
    (hcheck : kind.check t = .ok ()) (h : ofType classes t = .ok c) :
    (∀ v, (c.withPrefix .standard (standardOrder kind)).encode v = c.encode v) ∧
      (c.withPrefix .standard (standardOrder kind)).read = c.read := by
  obtain ⟨-, heq | ⟨item, rfl⟩⟩ := standard_of_ofType hcheck h
  · rw [heq]
    exact ⟨fun _ => rfl, rfl⟩
  · refine ⟨fun v => ?_, read_varTuple_eq item _⟩
    rw [encode, encode, withPrefix, emit_varTuple_eq]

end Codec

end ContractKit
