import ContractKit.Bytes.LittleEndian
import ContractKit.Fault

/-!
# `Wire/Read.lean`: what a decoder reads

A decoder is a program that asks for bytes and goes on with what it is given. `Read` is that program
as data: it can ask for the next byte or for the next `n` bytes, and it ends with a result or a
fault. It cannot look ahead or ask how much is left, so what it does depends on the bytes it consumes
alone.

A source runs the program: a byte string here (`run`), a contract state at its cursor in
`Contract/Store.lean`.
-/

set_option autoImplicit false

namespace ContractKit

/-- A program that reads bytes, as the tree of what it asks for. What it does next is a function of the
bytes that it was given, so that two sources which give the same bytes cannot be told apart. -/
inductive Read (α : Type)
  | done (result : α)
  | fail (fault : Fault)
  | byte (next : UInt8 → Read α)
  | bytes (n : Nat) (next : Bytes → Read α)

namespace Read

variable {α β : Type}

/-- Go on with the result of a program. -/
def bind : Read α → (α → Read β) → Read β
  | done a, k => k a
  | fail f, _ => fail f
  | byte next, k => byte fun b => (next b).bind k
  | bytes n next, k => bytes n fun data => (next data).bind k

instance : Monad Read where
  pure := done
  bind := bind

def getBytes (n : Nat) : Read Bytes := bytes n done

/-- The outcome of a computation that reads nothing. -/
def ofExcept : Except Fault α → Read α
  | .ok a => done a
  | .error f => fail f

/-! ## Running on a byte string -/

/-- Whether a byte string has `n` bytes, found without walking past them. -/
def hasAtLeast (n : Nat) (data : Bytes) : Bool :=
  match n with
  | 0 => true
  | k + 1 => !(data.drop k).isEmpty

/-- The outcome of a program on a byte string, and the bytes left, which are those that the last
request found when it could not be met. -/
def run : Read α → Bytes → Except Fault α × Bytes
  | done a, data => (.ok a, data)
  | fail f, data => (.error f, data)
  | byte _, [] => (.error (.wire .outOfData), [])
  | byte next, b :: data => (next b).run data
  | bytes n next, data =>
    if hasAtLeast n data then (next (data.take n)).run (data.drop n)
    else (.error (.wire .outOfData), data)

/-- The result of a program that has to consume a whole byte string. -/
def runAll (p : Read α) (data : Bytes) : Except Fault α :=
  match p.run data with
  | (.error f, _) => .error f
  | (.ok a, []) => .ok a
  | (.ok _, _ :: _) => .error (.wire .trailingData)

/-! ## Fixed-width integers and counts -/

def int (format : LittleEndian.Format) : Read Int :=
  (getBytes format.width).bind fun data => done (format.decode data)

def count (width : PrefixWidth) : Read Nat :=
  (getBytes width.bytes).bind fun data => done (LittleEndian.ofDigits data)

def bool : Read Bool :=
  byte fun b =>
    if b = 0 then done false
    else if b = 1 then done true
    else fail (.wire (.badBoolean b))

/-- The next byte string with a count before it. -/
def prefixedBytes (width : PrefixWidth) : Read Bytes := (count width).bind getBytes

/-- The text that bytes are the utf-8 form of. -/
def textOf (data : Bytes) : Read String :=
  match Bytes.toText? data with
  | some s => done s
  | none => fail (.wire .badUtf8)

/-- The next text with the count of its bytes before it. -/
def prefixedText (width : PrefixWidth) : Read String := (prefixedBytes width).bind textOf

/-- The results of running a program `n` times, before those in `acc`, latest first. -/
def repeatOnto (item : Read α) : (n : Nat) → (acc : List α) → Read (List α)
  | 0, acc => done acc
  | n + 1, acc => item.bind fun a => repeatOnto item n (a :: acc)

def times (item : Read α) (n : Nat) : Read (List α) :=
  (repeatOnto item n []).bind fun rev => done rev.reverse

/-- The next items with a count before them. -/
def prefixedItems (width : PrefixWidth) (item : Read α) : Read (List α) :=
  (count width).bind (times item)

/-! ## Laws -/

@[simp] theorem pure_eq_done (a : α) : (pure a : Read α) = done a := rfl

@[simp] theorem bind_eq (p : Read α) (k : α → Read β) : (p >>= k) = p.bind k := rfl

@[simp] theorem hasAtLeast_eq (n : Nat) (data : Bytes) :
    hasAtLeast n data = decide (n ≤ data.length) := by
  cases n with
  | zero => simp [hasAtLeast]
  | succ k =>
    simp only [hasAtLeast]
    by_cases h : k + 1 ≤ data.length
    · simp [h]; omega
    · simp [h]; omega

/-- Running two programs one after the other is running the second on what the first leaves. -/
theorem run_bind (p : Read α) (k : α → Read β) (data : Bytes) :
    (p.bind k).run data =
      match p.run data with
      | (.ok a, rest) => (k a).run rest
      | (.error f, rest) => (.error f, rest) := by
  induction p generalizing data with
  | done a => rfl
  | fail f => rfl
  | byte next ih =>
    cases data with
    | nil => rfl
    | cons b data => exact ih b data
  | bytes n next ih =>
    simp only [bind, run]
    split
    · exact ih _ _
    · rfl

end Read

end ContractKit
