import ContractKit.Contract.Store
import ContractKit.Proofs.Wire.Extent

/-!
# `Proofs/Contract/Store.lean`: reading, writing and cutting a store

A program that reads from a store at its cursor does what it does on the bytes behind the cursor
(`runRead_eq`). Bytes that are written take the place of those behind the cursor and leave all others,
with zeros before them if the cursor stood past the end (`write_eq_splice`). So a store that is written
from its start and cut behind what was written holds just that, whatever it held before
(`bytes_overwrite`).
-/

set_option autoImplicit false

namespace ContractKit

namespace Bytes

theorem place_natCast (data : Bytes) (i : Nat) : place data i = min i data.length := by
  rw [place, if_neg (by omega), Int.toNat_natCast]

/-- The bytes between two places, counted from the start. -/
theorem slice_natCast {data : Bytes} {i n : Nat} (h : i + n ≤ data.length) :
    slice data i ((i : Int) + n) = (data.drop i).take n := by
  have hi : min i data.length = i := Nat.min_eq_left (by omega)
  have hstop : min (i + n) data.length = i + n := Nat.min_eq_left h
  rw [slice, ← Int.natCast_add, place_natCast, place_natCast, hi, hstop, Nat.add_sub_cancel_left]

/-- Where a byte is left, the place lies in the string and the next one is behind that byte. -/
theorem drop_succ_of_drop {data rest : Bytes} {k : Nat} {b : UInt8} (h : data.drop k = b :: rest) :
    k < data.length ∧ data.drop (k + 1) = rest := by
  constructor
  · have := congrArg List.length h
    rw [List.length_drop, List.length_cons] at this
    omega
  · rw [← List.drop_drop, h]
    rfl

/-- Bytes put in the place of as many behind a front, or of all if fewer are there. -/
theorem replaceSlice_append (front rest new : Bytes) :
    replaceSlice (front ++ rest) front.length ((front.length : Int) + new.length) new =
      front ++ new ++ rest.drop new.length := by
  have hstart : min front.length (front ++ rest).length = front.length := by
    rw [List.length_append]
    omega
  rw [replaceSlice, ← Int.natCast_add, place_natCast, place_natCast, hstart, List.take_left]
  congr 1
  rcases Nat.le_total new.length rest.length with hle | hle
  · rw [Nat.min_eq_left (by rw [List.length_append]; omega), Nat.max_eq_right (by omega),
      List.drop_append]
    simp
  · rw [Nat.min_eq_right (by rw [List.length_append]; omega), List.drop_of_length_le hle]
    exact List.drop_of_length_le (by omega)

end Bytes

namespace Store

variable {α : Type} {data : Bytes} {k : Nat}

theorem isEmpty_iff {s : Store} : s.isEmpty = true ↔ (s.bytes.length : Int) ≤ s.cursor :=
  decide_eq_true_iff

/-! ## Reading at a place counted from the start -/

/-- A valid cursor is at such a place. -/
theorem exists_natCast {s : Store} (h : 0 ≤ s.cursor) : ∃ data k, s = ⟨data, (k : Nat)⟩ := by
  obtain ⟨k, hk⟩ := Int.eq_ofNat_of_zero_le h
  exact ⟨s.bytes, k, congrArg (Store.mk s.bytes) hk⟩

theorem isEmpty_natCast : isEmpty ⟨data, k⟩ = (data.drop k).isEmpty := by
  rw [Bool.eq_iff_iff, isEmpty_iff, List.isEmpty_iff, List.drop_eq_nil_iff]
  exact Int.ofNat_le

/-- The byte at the cursor is the first one of those behind it, also where there is none. -/
theorem peekByte_natCast : peekByte ⟨data, k⟩ = Reader.peekByte ⟨data.drop k⟩ := by
  rw [peekByte, isEmpty_natCast]
  cases hdrop : data.drop k with
  | nil => rfl
  | cons b rest =>
    have hget : data[k]? = some b := by
      have := congrArg List.head? hdrop
      simpa using this
    have hat : Bytes.at? data k = some b := by
      rw [Bytes.at?, if_neg (by omega), Int.toNat_natCast, hget]
    simp [hat, Reader.peekByte]

/-- Past the end, not even the empty string is read. -/
theorem peekBytes_natCast {n : Int} (hk : k ≤ data.length) :
    peekBytes ⟨data, k⟩ n = Reader.peek ⟨data.drop k⟩ n := by
  rw [peekBytes, Reader.peek]
  split
  · rfl
  · rename_i hn
    obtain ⟨m, rfl⟩ := Int.eq_ofNat_of_zero_le (Int.not_lt.mp hn)
    have hleft : ((data.length : Int) - k < m) = ¬ m ≤ (data.drop k).length := by
      rw [List.length_drop, eq_iff_iff]
      omega
    simp only [size, hleft, Read.hasAtLeast_eq, Int.toNat_natCast, decide_eq_true_eq, ite_not]
    split
    · rename_i hm
      rw [List.length_drop] at hm
      exact congrArg _ (Bytes.slice_natCast (by omega))
    · rfl

/-- All that is left is read, and the cursor does not move back if nothing is. -/
theorem readAll_natCast : readAll ⟨data, k⟩ = (data.drop k, ⟨data, (max k data.length : Nat)⟩) := by
  have hslice : Bytes.slice data k data.length = data.drop k := by
    rw [Bytes.slice, Bytes.place_natCast, Bytes.place_natCast, Nat.min_self]
    rcases Nat.le_total k data.length with hk | hk
    · rw [Nat.min_eq_left hk, ← List.length_drop, List.take_length]
    · rw [Nat.min_eq_right hk, Nat.sub_self, List.take_zero, List.drop_of_length_le hk]
  have hmax : max (k : Int) data.length = (max k data.length : Nat) := by omega
  exact Prod.ext hslice (congrArg (Store.mk data) hmax)

theorem readByte_drop {b : UInt8} {rest : Bytes} (h : data.drop k = b :: rest) :
    readByte ⟨data, k⟩ = (.ok b, ⟨data, (k + 1 : Nat)⟩) := by
  simp [readByte, peekByte_natCast, h, Reader.peekByte]

theorem readByte_end (h : data.drop k = []) :
    readByte ⟨data, k⟩ = (.error (.wire .outOfData), ⟨data, k⟩) := by
  simp [readByte, peekByte_natCast, h, Reader.peekByte]

/-- Bytes that are asked for are read if they are there, and otherwise nothing moves. -/
theorem readBytes_natCast {n : Nat} (hk : k ≤ data.length) :
    readBytes ⟨data, k⟩ n =
      if k + n ≤ data.length then (.ok ((data.drop k).take n), ⟨data, (k + n : Nat)⟩)
      else (.error (.wire .outOfData), ⟨data, k⟩) := by
  have hle : k + n ≤ data.length ↔ n ≤ (data.drop k).length := by
    rw [List.length_drop]
    omega
  rw [readBytes, peekBytes_natCast hk, Reader.peek, if_neg (by omega)]
  simp only [hle, Read.hasAtLeast_eq, Int.toNat_natCast, decide_eq_true_eq]
  by_cases hn : n ≤ (data.drop k).length
  · simp only [if_pos hn]
    rfl
  · simp only [if_neg hn]

/-- **Reading from a store is reading the bytes behind its cursor**, which moves up to those that are
left. -/
theorem runRead_eq (p : Read α) (hk : k ≤ data.length) :
    runRead p ⟨data, k⟩ =
      ((p.run (data.drop k)).1, ⟨data, (data.length - (p.run (data.drop k)).2.length : Nat)⟩) := by
  induction p generalizing k with
  | done a | fail f =>
    rw [runRead, Read.run, List.length_drop, Nat.sub_sub_self hk]
  | byte next ih =>
    rw [runRead]
    cases hdrop : data.drop k with
    | nil =>
      have hlen : data.length = k := Nat.le_antisymm (List.drop_eq_nil_iff.mp hdrop) hk
      rw [readByte_end hdrop, Read.run, List.length_nil, Nat.sub_zero, hlen]
    | cons b rest =>
      obtain ⟨hlt, hrest⟩ := Bytes.drop_succ_of_drop hdrop
      rw [readByte_drop hdrop, Read.run, ← hrest]
      exact ih b hlt
  | bytes n next ih =>
    rw [runRead, Read.run, Read.hasAtLeast_eq, List.length_drop, readBytes_natCast hk]
    by_cases hn : k + n ≤ data.length
    · rw [if_pos hn, if_pos (by simp; omega), List.drop_drop]
      exact ih _ hn
    · rw [if_neg hn, if_neg (by simp; omega), List.length_drop, Nat.sub_sub_self hk]

/-- A store that is read from its start to its end gives what its bytes give. -/
theorem run_finalize_eq (p : Read α) (data : Bytes) :
    (do
      let a ← (run ⟨data, 0⟩ p).1
      (run ⟨data, 0⟩ p).2.finalize
      pure a) = p.runAll data := by
  have hrun : run ⟨data, 0⟩ p = _ := runRead_eq (k := 0) p (Nat.zero_le _)
  rw [hrun, List.drop_zero, Read.runAll]
  have hle := Read.length_run_le p data
  revert hle
  rcases p.run data with ⟨outcome, rest⟩
  intro hle
  cases outcome with
  | error f => rfl
  | ok a =>
    show (do
      finalize ⟨data, (data.length - rest.length : Nat)⟩
      pure a) = _
    cases rest with
    | nil =>
      have hempty : isEmpty ⟨data, (data.length : Nat)⟩ = true := isEmpty_iff.mpr (Int.le_refl _)
      simp only [finalize, List.length_nil, Nat.sub_zero, hempty]
      rfl
    | cons b rest =>
      have hempty : isEmpty ⟨data, (data.length - (b :: rest).length : Nat)⟩ = false := by
        rw [← Bool.not_eq_true, isEmpty_iff]
        show ¬ (data.length : Int) ≤ (data.length - (b :: rest).length : Nat)
        rw [List.length_cons] at hle ⊢
        omega
      simp only [finalize, hempty]
      rfl

/-! ## Writing -/

/-- The bytes before the cursor, which are zeros where there are none. -/
def before (s : Store) : Bytes :=
  s.bytes.take s.cursor.toNat ++ Bytes.zeros (s.cursor.toNat - s.bytes.length)

/-- The bytes from the cursor on. -/
def ahead (s : Store) : Bytes := s.bytes.drop s.cursor.toNat

/-- The store with bytes in the place of those from the cursor on, and the cursor behind them. -/
def splice (s : Store) (data : Bytes) : Store :=
  ⟨s.before ++ data ++ s.ahead.drop data.length, (s.cursor.toNat + data.length : Nat)⟩

@[simp] theorem length_before (s : Store) : s.before.length = s.cursor.toNat := by
  rw [before, Bytes.zeros, List.length_append, List.length_take, List.length_replicate]
  omega

/-- What writing starts from: zeros up to the cursor are no part of what is behind it. -/
theorem append_zeros (s : Store) :
    s.bytes ++ Bytes.zeros (s.cursor.toNat - s.bytes.length) = s.before ++ s.ahead := by
  rw [before, ahead]
  rcases Nat.le_total s.cursor.toNat s.bytes.length with hle | hle
  · simp [Nat.sub_eq_zero_of_le hle, Bytes.zeros]
  · simp [List.take_of_length_le hle, List.drop_of_length_le hle]

/-- **Writing at a valid cursor is an exact splice.** Bytes are filled up with zeros to a cursor behind
their end, then as many are replaced as are written. -/
theorem write_eq_splice {s : Store} (h : 0 ≤ s.cursor) (data : Bytes) :
    s.write data = s.splice data := by
  have hzeros : (s.cursor - s.size).toNat = s.cursor.toNat - s.bytes.length := by
    rw [size]
    omega
  have hcursor : s.cursor = (s.before.length : Nat) := by
    rw [length_before]
    omega
  rw [write, hzeros, append_zeros, splice]
  simp only [hcursor, Bytes.replaceSlice_append, Int.natCast_add, Int.toNat_natCast]

/-! ## Cutting -/

section Cutting

variable {s : Store}

/-- A cut to a size that is not below zero keeps so many bytes of the front, or all. -/
theorem truncate_nonneg {size : Int} (h : 0 ≤ size) :
    s.truncate (some size) = ⟨s.bytes.take size.toNat, min s.cursor size⟩ := by
  obtain ⟨n, rfl⟩ := Int.eq_ofNat_of_zero_le h
  rw [truncate]
  show Store.mk (if (n : Int) < s.bytes.length then s.bytes.take (s.bytes.place n) else s.bytes) _ = _
  rw [Bytes.place_natCast]
  split
  · rw [Nat.min_eq_left (by omega)]
    rfl
  · rw [Int.toNat_natCast, List.take_of_length_le (by omega)]
    rfl

/-- A cut with no size given is one to the place of the cursor, which stays. -/
theorem truncate_none (h : 0 ≤ s.cursor) :
    s.truncate none = ⟨s.bytes.take s.cursor.toNat, s.cursor⟩ := by
  show s.truncate (some s.cursor) = _
  rw [truncate_nonneg h, Int.min_self]

/-- A cut to a size below zero drops so many bytes of the end, and takes the cursor below zero. -/
theorem truncate_neg {size : Int} (h : size < 0) (hcursor : 0 ≤ s.cursor) :
    s.truncate (some size) = ⟨s.bytes.take (s.bytes.length + size).toNat, size⟩ := by
  rw [truncate]
  show Store.mk (if size < s.bytes.length then s.bytes.take (s.bytes.place size) else s.bytes)
    (min s.cursor size) = _
  rw [if_pos (by omega), Bytes.place, if_pos h, Int.min_eq_right (by omega)]

end Cutting

/-- **A store that is overwritten from its start and cut there holds what was written.** This is how a
state is stored, so nothing of the state before it is left, however long that was. -/
theorem bytes_overwrite (old data : Bytes) :
    (((⟨old, 0⟩ : Store).write data).truncate none).bytes = data := by
  have hbefore : (⟨old, 0⟩ : Store).before = [] := List.length_eq_zero_iff.mp (length_before _)
  rw [write_eq_splice (Int.le_refl 0), truncate_none (Int.natCast_nonneg _)]
  show (before ⟨old, 0⟩ ++ data ++ _).take (0 + data.length) = data
  rw [hbefore, List.nil_append, Nat.zero_add, List.take_left]

end Store

end ContractKit
