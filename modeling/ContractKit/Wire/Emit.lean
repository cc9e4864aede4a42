import ContractKit.Bytes.LittleEndian
import ContractKit.Fault

/-!
# `Wire/Emit.lean`: what an encoder writes

Encoding a value is a sequence of writes that either runs to its end or is stopped by a fault; what
was written before the fault stays written. `Emit` is that sequence as data. A byte string takes it
by concatenation (`toBytes`), a contract state by writing each chunk at its cursor
(`Contract/Store.lean`), so what the two have in common is said once.
-/

set_option autoImplicit false

namespace ContractKit

/-- The chunks written, in order, and the fault that stopped the writing, if one did. The chunks before a
fault count: a byte string that is being built is thrown away, but a stream has taken them. -/
structure Emit where
  chunks : List Bytes
  fault : Option Fault

namespace Emit

def nothing : Emit := ⟨[], none⟩

def chunk (data : Bytes) : Emit := ⟨[data], none⟩

def byte (b : UInt8) : Emit := chunk [b]

def fail (f : Fault) : Emit := ⟨[], some f⟩

/-- Write the one and then the other, unless the first was stopped. -/
def append (a b : Emit) : Emit :=
  match a.fault with
  | some _ => a
  | none => ⟨a.chunks ++ b.chunks, b.fault⟩

instance : Append Emit := ⟨append⟩

/-- Carry on with the outcome of a check that writes nothing. -/
def after (check : Except Fault Unit) (e : Emit) : Emit :=
  match check with
  | .error f => fail f
  | .ok () => e

def each {α : Type} (write : α → Emit) (items : List α) : Emit :=
  items.foldr (fun item rest => write item ++ rest) nothing

def written (e : Emit) : Bytes := e.chunks.flatten

/-- The bytes of a sequence of writes that ran to its end. -/
def toBytes (e : Emit) : Except Fault Bytes :=
  match e.fault with
  | some f => .error f
  | none => .ok e.written

/-! ## Fixed-width integers and counts -/

/-- Write an integer in a format that has to hold it. -/
def int (format : LittleEndian.Format) (n : Int) : Emit :=
  match format.encode? n with
  | some data => chunk data
  | none => fail (.wire .integerRange)

def countInt (width : PrefixWidth) (n : Int) : Emit :=
  if (width.maxCount : Int) < n then fail (.wire (.countTooLong n width))
  else int ⟨width.bytes, false⟩ n

/-- Write the number of items of something. -/
def count (width : PrefixWidth) (n : Nat) : Emit := countInt width n

/-- Write a truth value: one byte, 0 or 1. -/
def bool (b : Bool) : Emit := byte (if b then 1 else 0)

def prefixedBytes (width : PrefixWidth) (data : Bytes) : Emit :=
  count width data.length ++ chunk data

/-- Write the utf-8 form of a text after the count of its bytes. -/
def prefixedText (width : PrefixWidth) (s : String) : Emit :=
  prefixedBytes width (Bytes.ofText s)

/-! ## Laws -/

/-- Writing goes on after writes that ran to their end. -/
theorem mk_none_append (chunks : List Bytes) (b : Emit) :
    (⟨chunks, none⟩ : Emit) ++ b = ⟨chunks ++ b.chunks, b.fault⟩ := rfl

@[simp] theorem nothing_append (e : Emit) : nothing ++ e = e := rfl

@[simp] theorem append_nothing (e : Emit) : e ++ nothing = e := by
  obtain ⟨chunks, fault⟩ := e
  cases fault with
  | none => rw [mk_none_append]; simp [nothing]
  | some f => rfl

@[simp] theorem append_assoc (a b c : Emit) : a ++ b ++ c = a ++ (b ++ c) := by
  obtain ⟨ca, fa⟩ := a
  obtain ⟨cb, fb⟩ := b
  cases fa with
  | some f => rfl
  | none =>
    cases fb with
    | some f => rfl
    | none => simp only [mk_none_append, List.append_assoc]

@[simp] theorem toBytes_nothing : nothing.toBytes = .ok [] := rfl

@[simp] theorem toBytes_chunk (data : Bytes) : (chunk data).toBytes = .ok data := by
  simp [toBytes, chunk, written]

@[simp] theorem toBytes_fail (f : Fault) : (fail f).toBytes = .error f := rfl

/-- The bytes of two sequences of writes are those of the one and then those of the other. -/
theorem toBytes_append (a b : Emit) :
    (a ++ b).toBytes = a.toBytes.bind fun x => b.toBytes.bind fun y => .ok (x ++ y) := by
  obtain ⟨ca, fa⟩ := a
  obtain ⟨cb, fb⟩ := b
  cases fa with
  | some f => rfl
  | none =>
    rw [mk_none_append]
    cases fb <;> simp [toBytes, written, Except.bind]

end Emit

end ContractKit
