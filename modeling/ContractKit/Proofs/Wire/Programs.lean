import ContractKit.Proofs.Wire.LittleEndian
import ContractKit.Wire.Emit
import ContractKit.Wire.Keyed

/-!
# `Proofs/Wire/Programs.lean`: what a writer leaves and what a reader takes

A reader that succeeds has taken some bytes off the front and looked at nothing behind them.
`Read.Takes` is that fact as a relation between a program, the bytes and the result; every statement
about reading with anything behind the value goes through it, so no proof about codecs ever mentions
the bytes that are left.

For the leaves of the format the relation says the same as writing does: `takes_int`, `takes_count`,
`takes_prefixedBytes` and `takes_prefixedText` equate `p.Takes data a` with
`(write a).toBytes = .ok data`. Round trip and re-encoding both start from these.
-/

set_option autoImplicit false

namespace ContractKit

open LittleEndian

/-! ## Byte strings in pieces -/

namespace Bytes

variable {α β : Type}

/-- The string is one piece after the other, one for each item, each related to its item. -/
def Pieces (R : α → Bytes → Prop) : List α → Bytes → Prop
  | [], data => data = []
  | a :: as, data => ∃ front rest, data = front ++ rest ∧ R a front ∧ Pieces R as rest

theorem Pieces.mono {R S : α → Bytes → Prop} :
    ∀ {as : List α} {data : Bytes}, (∀ a ∈ as, ∀ d, R a d → S a d) →
      Pieces R as data → Pieces S as data
  | [], _, _, h => h
  | _ :: _, _, himp, ⟨front, rest, hdata, ha, has⟩ =>
    ⟨front, rest, hdata, himp _ (by simp) _ ha,
      Pieces.mono (fun a ha' => himp a (by simp [ha'])) has⟩

/-- What every piece says of its item holds of all items. -/
theorem Pieces.forall {R : α → Bytes → Prop} {P : α → Prop} (h : ∀ a d, R a d → P a) :
    ∀ {as : List α} {data : Bytes}, Pieces R as data → ∀ a ∈ as, P a
  | [], _, _, a, ha => by cases ha
  | b :: as, _, ⟨front, rest, _, hb, has⟩, a, ha => by
    rcases List.mem_cons.mp ha with rfl | ha
    · exact h a front hb
    · exact Pieces.forall h has a ha

/-- The piece of each item is somewhere in the string. -/
theorem Pieces.exists_of_mem {R : α → Bytes → Prop} :
    ∀ {as : List α} {data : Bytes}, Pieces R as data → ∀ {a : α}, a ∈ as →
      ∃ d, R a d ∧ d <:+: data
  | [], _, _, _, ha => by cases ha
  | b :: as, _, ⟨front, rest, hdata, hb, has⟩, a, ha => by
    rcases List.mem_cons.mp ha with rfl | ha
    · exact ⟨front, hb, [], rest, hdata.symm⟩
    · obtain ⟨d, hd, hinfix⟩ := has.exists_of_mem ha
      exact ⟨d, hd, hinfix.trans ⟨front, [], by rw [hdata, List.append_nil]⟩⟩

/-- Pieces of one kind, each of which is a piece of another kind for some other item. -/
theorem Pieces.exchange {R : α → Bytes → Prop} {S : β → Bytes → Prop} {T : α → β → Prop} :
    ∀ {as : List α} {data : Bytes}, (∀ a ∈ as, ∀ d, R a d → ∃ b, T a b ∧ S b d) →
      Pieces R as data → ∃ bs, List.Forall₂ T as bs ∧ Pieces S bs data
  | [], _, _, h => ⟨[], .nil, h⟩
  | _ :: _, _, himp, ⟨front, rest, hdata, ha, has⟩ => by
    obtain ⟨b, hT, hS⟩ := himp _ (by simp) _ ha
    obtain ⟨bs, hTs, hSs⟩ := Pieces.exchange (fun a ha' => himp a (by simp [ha'])) has
    exact ⟨b :: bs, .cons hT hTs, front, rest, hdata, hS, hSs⟩

theorem Pieces.map {R : β → Bytes → Prop} {f : α → β} :
    ∀ {as : List α} {data : Bytes}, Pieces R (as.map f) data ↔ Pieces (fun a => R (f a)) as data
  | [], _ => Iff.rfl
  | _ :: as, _ => by
    simp only [List.map_cons, Pieces, @Pieces.map R f as]

end Bytes

open Bytes (Pieces)

/-! ## Writing -/

/-- The counts that fit are those below the number of strings of the prefix's width. -/
theorem PrefixWidth.le_maxCount_iff {width : PrefixWidth} {n : Nat} :
    n ≤ width.maxCount ↔ n < 256 ^ width.bytes := by
  have hpos : 0 < 256 ^ width.bytes := Nat.pow_pos (by decide)
  rw [maxCount, Nat.pow_eq]
  omega

namespace Emit

variable {α : Type}

theorem toBytes_append_eq_ok {a b : Emit} {data : Bytes} :
    (a ++ b).toBytes = .ok data ↔
      ∃ x y, data = x ++ y ∧ a.toBytes = .ok x ∧ b.toBytes = .ok y := by
  rw [toBytes_append]
  constructor
  · intro h
    cases ha : a.toBytes with
    | error f => rw [ha] at h; cases h
    | ok x =>
      cases hb : b.toBytes with
      | error f => rw [ha, hb] at h; cases h
      | ok y =>
        rw [ha, hb] at h
        cases h
        exact ⟨x, y, rfl, rfl, rfl⟩
  · rintro ⟨x, y, rfl, ha, hb⟩
    rw [ha, hb]
    rfl

theorem toBytes_after_eq_ok {check : Except Fault Unit} {e : Emit} {data : Bytes} :
    (after check e).toBytes = .ok data ↔ check = .ok () ∧ e.toBytes = .ok data := by
  cases check with
  | error f => simp [after]
  | ok u => simp [after]

theorem toBytes_fail_ne {f : Fault} {data : Bytes} : ¬ (fail f).toBytes = .ok data := by
  intro h
  cases h

theorem toBytes_byte {b : UInt8} {data : Bytes} :
    (byte b).toBytes = .ok data ↔ data = [b] := by
  rw [byte, toBytes_chunk, Except.ok.injEq]
  exact eq_comm

theorem toBytes_each {write : α → Emit} :
    ∀ {as : List α} {data : Bytes}, (each write as).toBytes = .ok data ↔
      Pieces (fun a d => (write a).toBytes = .ok d) as data
  | [], data => by
    show Except.ok [] = Except.ok data ↔ data = []
    rw [Except.ok.injEq]
    exact eq_comm
  | a :: as, data => by
    show (write a ++ each write as).toBytes = .ok data ↔ _
    rw [toBytes_append_eq_ok]
    simp only [toBytes_each, Pieces]

theorem toBytes_int {format : LittleEndian.Format} {n : Int} {data : Bytes} :
    (int format n).toBytes = .ok data ↔ format.encode? n = some data := by
  unfold int
  cases format.encode? n with
  | none => simp
  | some d => simp

/-- A count is written as its digits, if it fits. -/
theorem toBytes_count {width : PrefixWidth} {n : Nat} {data : Bytes} :
    (count width n).toBytes = .ok data ↔
      n ≤ width.maxCount ∧ data = digits width.bytes n := by
  unfold count countInt
  by_cases h : n ≤ width.maxCount
  · have hlt := PrefixWidth.le_maxCount_iff.mp h
    rw [if_neg (by omega), toBytes_int, Format.encode?, if_pos (Format.holds_unsigned.mpr hlt)]
    have hmod : ((n : Int) % (256 ^ width.bytes : Nat)).toNat = n := by
      rw [Int.emod_eq_of_lt (by omega) (by omega)]
      omega
    show some (digits width.bytes ((n : Int) % (256 ^ width.bytes : Nat)).toNat) = some data ↔ _
    rw [hmod, Option.some.injEq]
    constructor
    · rintro rfl
      exact ⟨h, rfl⟩
    · rintro ⟨-, rfl⟩
      rfl
  · rw [if_pos (by omega)]
    constructor
    · intro hc
      exact absurd hc toBytes_fail_ne
    · rintro ⟨hc, -⟩
      exact absurd hc h

theorem toBytes_prefixedBytes {width : PrefixWidth} {data out : Bytes} :
    (prefixedBytes width data).toBytes = .ok out ↔
      data.length ≤ width.maxCount ∧ out = digits width.bytes data.length ++ data := by
  rw [prefixedBytes, toBytes_append_eq_ok]
  simp only [toBytes_count, toBytes_chunk, Except.ok.injEq]
  constructor
  · rintro ⟨x, y, rfl, ⟨hle, rfl⟩, rfl⟩
    exact ⟨hle, rfl⟩
  · rintro ⟨hle, rfl⟩
    exact ⟨_, _, rfl, ⟨hle, rfl⟩, rfl⟩

end Emit

/-! ## Reading -/

namespace Read

variable {α β : Type}

/-- The program takes exactly these bytes and ends with this result. -/
def Takes : Read α → Bytes → α → Prop
  | done a, data, x => data = [] ∧ x = a
  | fail _, _, _ => False
  | byte next, data, x => ∃ b rest, data = b :: rest ∧ (next b).Takes rest x
  | bytes n next, data, x =>
    ∃ front rest, data = front ++ rest ∧ front.length = n ∧ (next front).Takes rest x

theorem takes_done {a x : α} {data : Bytes} : (done a).Takes data x ↔ data = [] ∧ x = a := Iff.rfl

theorem not_takes_fail {f : Fault} {data : Bytes} {x : α} : ¬(fail f : Read α).Takes data x := id

theorem takes_byte {next : UInt8 → Read α} {data : Bytes} {x : α} :
    (byte next).Takes data x ↔ ∃ b rest, data = b :: rest ∧ (next b).Takes rest x := Iff.rfl

theorem takes_bytes {n : Nat} {next : Bytes → Read α} {data : Bytes} {x : α} :
    (bytes n next).Takes data x ↔
      ∃ front rest, data = front ++ rest ∧ front.length = n ∧ (next front).Takes rest x := Iff.rfl

/-- **A program succeeds on a string exactly when it takes a front of it**, and what is left is what
it did not take. -/
theorem run_eq_ok_iff {p : Read α} {data rest : Bytes} {a : α} :
    p.run data = (.ok a, rest) ↔ ∃ front, data = front ++ rest ∧ p.Takes front a := by
  -- along the program, which takes the bytes from the front one piece after the other
  induction p generalizing data with
  | done x =>
    simp only [run, Takes, Prod.mk.injEq, Except.ok.injEq]
    constructor
    · rintro ⟨rfl, rfl⟩
      exact ⟨[], rfl, rfl, rfl⟩
    · rintro ⟨front, rfl, rfl, rfl⟩
      exact ⟨rfl, rfl⟩
  | fail f => simp [run, Takes]
  | byte next ih =>
    cases data with
    | nil =>
      constructor
      · intro h
        cases h
      · rintro ⟨front, hdata, b, tail, rfl, -⟩
        cases hdata
    | cons b data =>
      show (next b).run data = _ ↔ _
      rw [ih b]
      constructor
      · rintro ⟨front, rfl, h⟩
        exact ⟨b :: front, rfl, b, front, rfl, h⟩
      · rintro ⟨front, hdata, b', tail, rfl, h⟩
        cases hdata
        exact ⟨tail, rfl, h⟩
  | bytes n next ih =>
    simp only [run, hasAtLeast_eq, decide_eq_true_eq]
    constructor
    · intro h
      split at h
      · rename_i hn
        obtain ⟨front, hdrop, htakes⟩ := (ih _).mp h
        refine ⟨data.take n ++ front, ?_, data.take n, front, rfl, by simpa using hn, htakes⟩
        rw [List.append_assoc, ← hdrop, List.take_append_drop]
      · cases h
    · rintro ⟨front, rfl, x, y, rfl, rfl, htakes⟩
      rw [if_pos (by simp)]
      rw [ih]
      refine ⟨y, ?_, ?_⟩
      · simp
      · simpa using htakes

/-- A program that has to consume a whole string succeeds exactly when it takes that string. -/
theorem runAll_eq_ok_iff {p : Read α} {data : Bytes} {a : α} :
    p.runAll data = .ok a ↔ p.Takes data a := by
  have hrun := @run_eq_ok_iff α p data [] a
  simp only [List.append_nil, exists_eq_left'] at hrun
  rw [← hrun, runAll]
  constructor
  · intro h
    split at h
    · cases h
    · rename_i heq
      cases h
      exact heq
    · cases h
  · intro h
    rw [h]

/-! ### The programs that readers are put together from -/

theorem takes_bind {p : Read α} {k : α → Read β} {data : Bytes} {x : β} :
    (p.bind k).Takes data x ↔
      ∃ a front rest, data = front ++ rest ∧ p.Takes front a ∧ (k a).Takes rest x := by
  induction p generalizing data with
  | done a =>
    simp only [bind, takes_done]
    constructor
    · intro h
      exact ⟨a, [], data, rfl, ⟨rfl, rfl⟩, h⟩
    · rintro ⟨a', front, rest, rfl, ⟨rfl, rfl⟩, h⟩
      exact h
  | fail f => simp [bind, not_takes_fail]
  | byte next ih =>
    simp only [bind, takes_byte, ih]
    constructor
    · rintro ⟨b, tail, rfl, a, front, rest, rfl, hp, hk⟩
      exact ⟨a, b :: front, rest, rfl, ⟨b, front, rfl, hp⟩, hk⟩
    · rintro ⟨a, front, rest, rfl, ⟨b, tail, rfl, hp⟩, hk⟩
      exact ⟨b, tail ++ rest, rfl, a, tail, rest, rfl, hp, hk⟩
  | bytes n next ih =>
    simp only [bind, takes_bytes, ih]
    constructor
    · rintro ⟨d, tail, rfl, hn, a, front, rest, rfl, hp, hk⟩
      exact ⟨a, d ++ front, rest, by simp, ⟨d, front, rfl, hn, hp⟩, hk⟩
    · rintro ⟨a, front, rest, rfl, ⟨d, tail, rfl, hn, hp⟩, hk⟩
      exact ⟨d, tail ++ rest, by simp, hn, a, tail, rest, rfl, hp, hk⟩

/-- Going on with a function of the result takes nothing more. -/
theorem takes_map {p : Read α} {f : α → β} {data : Bytes} {x : β} :
    (p.bind fun a => done (f a)).Takes data x ↔ ∃ a, p.Takes data a ∧ x = f a := by
  rw [takes_bind]
  constructor
  · rintro ⟨a, front, rest, rfl, hp, rfl, rfl⟩
    exact ⟨a, by simpa using hp, rfl⟩
  · rintro ⟨a, hp, rfl⟩
    exact ⟨a, data, [], by simp, hp, rfl, rfl⟩

theorem takes_getBytes {n : Nat} {data x : Bytes} :
    (getBytes n).Takes data x ↔ x = data ∧ data.length = n := by
  simp only [getBytes, takes_bytes, takes_done]
  constructor
  · rintro ⟨front, rest, rfl, hn, rfl, rfl⟩
    exact ⟨by simp, by simpa using hn⟩
  · rintro ⟨rfl, hn⟩
    exact ⟨x, [], by simp, hn, rfl, rfl⟩

theorem takes_ofExcept {outcome : Except Fault α} {data : Bytes} {a : α} :
    (ofExcept outcome).Takes data a ↔ data = [] ∧ outcome = .ok a := by
  cases outcome with
  | error f => simp [ofExcept, not_takes_fail]
  | ok x =>
    simp only [ofExcept, takes_done, Except.ok.injEq]
    exact and_congr_right fun _ => eq_comm

/-! ### The leaves: reading is writing backwards -/

theorem takes_int {format : LittleEndian.Format} {data : Bytes} {n : Int} :
    (int format).Takes data n ↔ (Emit.int format n).toBytes = .ok data := by
  rw [Emit.toBytes_int, Format.encode?_eq_some_iff, int, takes_map]
  simp only [takes_getBytes]
  constructor
  · rintro ⟨d, ⟨rfl, hlen⟩, rfl⟩
    exact ⟨hlen, rfl⟩
  · rintro ⟨hlen, rfl⟩
    exact ⟨data, ⟨rfl, hlen⟩, rfl⟩

theorem takes_count {width : PrefixWidth} {data : Bytes} {n : Nat} :
    (count width).Takes data n ↔ (Emit.count width n).toBytes = .ok data := by
  rw [Emit.toBytes_count, count, takes_map, PrefixWidth.le_maxCount_iff]
  simp only [takes_getBytes]
  constructor
  · rintro ⟨d, ⟨rfl, hlen⟩, rfl⟩
    have hlt := ofDigits_lt d
    rw [hlen] at hlt
    refine ⟨hlt, ?_⟩
    rw [← hlen, digits_ofDigits]
  · rintro ⟨hlt, rfl⟩
    refine ⟨_, ⟨rfl, length_digits _ _⟩, ?_⟩
    rw [ofDigits_digits hlt]

theorem takes_bool {data : Bytes} {b : Bool} :
    bool.Takes data b ↔ (Emit.bool b).toBytes = .ok data := by
  simp only [bool, takes_byte, Emit.bool, Emit.toBytes_byte]
  constructor
  · rintro ⟨c, rest, rfl, h⟩
    by_cases h0 : c = 0
    · rw [if_pos h0] at h
      obtain ⟨rfl, rfl⟩ := h
      simp [h0]
    · rw [if_neg h0] at h
      by_cases h1 : c = 1
      · rw [if_pos h1] at h
        obtain ⟨rfl, rfl⟩ := h
        simp [h1]
      · rw [if_neg h1] at h
        exact h.elim
  · rintro rfl
    refine ⟨_, [], rfl, ?_⟩
    cases b <;> simp [takes_done]

theorem takes_prefixedBytes {width : PrefixWidth} {data x : Bytes} :
    (prefixedBytes width).Takes data x ↔ (Emit.prefixedBytes width x).toBytes = .ok data := by
  rw [prefixedBytes, takes_bind, Emit.prefixedBytes, Emit.toBytes_append_eq_ok]
  simp only [takes_count, takes_getBytes, Emit.toBytes_chunk, Except.ok.injEq]
  constructor
  · rintro ⟨n, front, rest, rfl, hcount, rfl, rfl⟩
    exact ⟨front, x, rfl, hcount, rfl⟩
  · rintro ⟨front, rest, rfl, hcount, rfl⟩
    exact ⟨x.length, front, x, rfl, hcount, rfl, rfl⟩

theorem takes_textOf {data rest : Bytes} {s : String} :
    (textOf data).Takes rest s ↔ rest = [] ∧ data = Bytes.ofText s := by
  unfold textOf
  cases h : Bytes.toText? data with
  | none =>
    simp only [not_takes_fail, false_iff, not_and]
    rintro - rfl
    rw [Bytes.toText?_ofText] at h
    cases h
  | some t =>
    simp only [takes_done]
    constructor
    · rintro ⟨rfl, rfl⟩
      exact ⟨rfl, Bytes.eq_ofText_of_toText? h⟩
    · rintro ⟨rfl, rfl⟩
      rw [Bytes.toText?_ofText, Option.some.injEq] at h
      exact ⟨rfl, h⟩

theorem takes_prefixedText {width : PrefixWidth} {data : Bytes} {s : String} :
    (prefixedText width).Takes data s ↔ (Emit.prefixedText width s).toBytes = .ok data := by
  rw [prefixedText, takes_bind, Emit.prefixedText, ← takes_prefixedBytes]
  simp only [takes_textOf]
  constructor
  · rintro ⟨d, front, rest, rfl, hd, rfl, rfl⟩
    simpa using hd
  · intro h
    exact ⟨_, data, [], by simp, h, rfl, rfl⟩

/-! ### Repetition -/

/-- The accumulator of a repetition holds what was read before, latest first. -/
theorem takes_repeatOnto {item : Read α} :
    ∀ {n : Nat} {acc : List α} {data : Bytes} {xs : List α},
      (repeatOnto item n acc).Takes data xs ↔
        ∃ as, as.length = n ∧ xs = as.reverse ++ acc ∧
          Pieces (fun a d => item.Takes d a) as data
  | 0, acc, data, xs => by
    simp only [repeatOnto, takes_done]
    constructor
    · rintro ⟨rfl, rfl⟩
      exact ⟨[], rfl, rfl, rfl⟩
    · rintro ⟨as, hlen, rfl, hpieces⟩
      obtain rfl := List.length_eq_zero_iff.mp hlen
      exact ⟨hpieces, rfl⟩
  | n + 1, acc, data, xs => by
    rw [repeatOnto, takes_bind]
    simp only [takes_repeatOnto]
    constructor
    · rintro ⟨a, front, rest, rfl, ha, as, hlen, rfl, hpieces⟩
      exact ⟨a :: as, by simp [hlen], by simp, front, rest, rfl, ha, hpieces⟩
    · rintro ⟨as, hlen, rfl, hpieces⟩
      cases as with
      | nil => cases hlen
      | cons a as =>
        obtain ⟨front, rest, rfl, ha, has⟩ := hpieces
        exact ⟨a, front, rest, rfl, ha, as, by simpa using hlen, by simp, has⟩

theorem takes_times {item : Read α} {n : Nat} {data : Bytes} {as : List α} :
    (times item n).Takes data as ↔
      as.length = n ∧ Pieces (fun a d => item.Takes d a) as data := by
  rw [times, takes_map]
  simp only [takes_repeatOnto, List.append_nil]
  constructor
  · rintro ⟨rev, ⟨as', hlen, rfl, hpieces⟩, rfl⟩
    simpa using ⟨hlen, hpieces⟩
  · rintro ⟨hlen, hpieces⟩
    exact ⟨as.reverse, ⟨as, hlen, rfl, hpieces⟩, by simp⟩

/-- Items behind a count: the count as it is written, then one piece for each item. -/
theorem takes_prefixedItems {width : PrefixWidth} {item : Read α} {data : Bytes} {as : List α} :
    (prefixedItems width item).Takes data as ↔
      ∃ front rest, data = front ++ rest ∧ (Emit.count width as.length).toBytes = .ok front ∧
        Pieces (fun a d => item.Takes d a) as rest := by
  rw [prefixedItems, takes_bind]
  simp only [takes_count, takes_times]
  constructor
  · rintro ⟨n, front, rest, rfl, hcount, rfl, hpieces⟩
    exact ⟨front, rest, rfl, hcount, hpieces⟩
  · rintro ⟨front, rest, rfl, hcount, hpieces⟩
    exact ⟨_, front, rest, rfl, hcount, rfl, hpieces⟩

/-- What reading an item says of it holds of all items behind a count. -/
theorem forall_of_takes_prefixedItems {width : PrefixWidth} {item : Read α} {P : α → Prop}
    (h : ∀ a data, item.Takes data a → P a) {data : Bytes} {as : List α}
    (hread : (prefixedItems width item).Takes data as) : ∀ a ∈ as, P a := by
  obtain ⟨front, rest, -, -, hpieces⟩ := takes_prefixedItems.mp hread
  exact hpieces.forall h

end Read

end ContractKit
