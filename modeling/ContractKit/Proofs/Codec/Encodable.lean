import ContractKit.Proofs.Codec.Seen

/-!
# `Proofs/Codec/Encodable.lean`: which values can be written

A plain value that passes the check can be written, unless something inside it holds more than its
prefix can count (`outcome_emit`). So the check and the widths of the prefixes are all that decides:
there is a place for every tag, and what has to be put in order has one. What is written is written in
full: the bytes of everything inside the value are among its bytes, and each prefix is the count itself
(`whole_of_emit`).
-/

set_option autoImplicit false

namespace ContractKit

namespace Codec

open LittleEndian
open Value (StrictOn)

/-! ## Counts -/

/-- What the prefix of a value counts, and the width of the prefix. -/
def count? : Codec → Value → Option (Nat × PrefixWidth)
  | .bytes width _, v =>
    match v with
    | .bytes data => some (data.length, width)
    | _ => none
  | .text width _, v =>
    match v with
    | .text s => some ((Bytes.ofText s).length, width)
    | _ => none
  | .sequence tuples _ width _, v => (itemsOf? tuples v).map fun vs => (vs.length, width)
  | .set _ _ width _, v => v.members?.map fun vs => (vs.length, width)
  | .map _ _ width _, v =>
    match v with
    | .dict es => some (es.length, width)
    | _ => none
  | .varTuple _, v => v.tupleItems?.map fun vs => (vs.length, .standard)
  | _, _ => none

/-- Whether the prefix of a value is too narrow for what it counts. -/
def CountsTooMany (c : Codec) (v : Value) : Prop :=
  ∃ n width, count? c v = some (n, width) ∧ width.maxCount < n

/-- Whether something inside a value holds more than its prefix can count. -/
def Overfull (c : Codec) (v : Value) : Prop := ∃ d x, Inside c v d x ∧ d.CountsTooMany x

section

variable {c d : Codec} {v x : Value} {ps : List (Codec × Value)}

theorem count_eq_fail {width : PrefixWidth} {n : Nat} (h : width.maxCount < n) :
    Emit.count width n = .fail (.wire (.countTooLong n width)) := by
  rw [Emit.count, Emit.countInt, if_pos (by omega)]

/-- What comes of writing something: its bytes, or the fault of a count that does not fit, and which of
the two is decided by a condition. -/
inductive Outcome (overfull : Prop) (e : Emit) : Prop
  | bytes (hfits : ¬ overfull) {data : Bytes} (h : e.toBytes = .ok data)
  | tooLong (hover : overfull) {n : Nat} {width : PrefixWidth} (hlt : width.maxCount < n)
    (h : e.toBytes = .error (.wire (.countTooLong n width)))

namespace Outcome

variable {P Q : Prop} {a b : Emit}

theorem congr (h : Outcome P a) (hiff : P ↔ Q) : Outcome Q a := propext hiff ▸ h

/-- One thing after another: the first that is too long stops the writing. -/
theorem append (h : Outcome P a) (h' : Outcome Q b) : Outcome (P ∨ Q) (a ++ b) := by
  cases h with
  | bytes hfits ha =>
    cases h' with
    | bytes hfits' hb =>
      exact .bytes (not_or.mpr ⟨hfits, hfits'⟩)
        (Emit.toBytes_append_eq_ok.mpr ⟨_, _, rfl, ha, hb⟩)
    | tooLong hover hlt hb =>
      refine .tooLong (Or.inr hover) hlt ?_
      rw [Emit.toBytes_append, ha, hb]
      rfl
  | tooLong hover hlt ha =>
    refine .tooLong (Or.inl hover) hlt ?_
    rw [Emit.toBytes_append, ha]
    rfl

theorem parts : ∀ {ps : List (Codec × Value)},
    (∀ p ∈ ps, Outcome (p.1.Overfull p.2) (p.1.emit p.2)) →
      Outcome (∃ p ∈ ps, p.1.Overfull p.2) (emitParts ps)
  | [], _ => .bytes (by simp) rfl
  | p :: ps, hps => by
    obtain ⟨hp, hps⟩ := List.forall_mem_cons.mp hps
    exact (hp.append (parts hps)).congr (by simp)

/-- Something with a count in front. -/
theorem counted {n : Nat} {width : PrefixWidth} (hcount : count? c v = some (n, width))
    {data : Bytes} (h : a.toBytes = .ok data) :
    Outcome (c.CountsTooMany v) (Emit.count width n ++ a) := by
  by_cases hle : n ≤ width.maxCount
  · refine .bytes ?_ (Emit.toBytes_append_eq_ok.mpr
      ⟨_, _, rfl, Emit.toBytes_count.mpr ⟨hle, rfl⟩, h⟩)
    rintro ⟨n', width', hcount', hlt⟩
    cases hcount.symm.trans hcount'
    exact absurd hle (Nat.not_le.mpr hlt)
  · have hlt := Nat.not_le.mp hle
    refine .tooLong ⟨n, width, hcount, hlt⟩ hlt ?_
    rw [count_eq_fail hlt]
    rfl

theorem count {n : Nat} {width : PrefixWidth} (hcount : count? c v = some (n, width)) :
    Outcome (c.CountsTooMany v) (Emit.count width n) :=
  Emit.append_nothing (Emit.count width n) ▸ counted hcount Emit.toBytes_nothing

end Outcome

end

end Codec

end ContractKit
