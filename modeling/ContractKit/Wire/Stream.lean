import ContractKit.Wire.Format

/-!
# `Wire/Stream.lean`: byte streams, one operation at a time

The operations that byte streams offer, as data. A sink takes bytes, a reader gives them, and the state
of a contract (`Contract/Store.lean`) does both. A stream refuses the operations that it does not
have, and an operation that fails leaves behind what it had written or read before it did.
-/

set_option autoImplicit false

namespace ContractKit

/-- An operation on a stream. Values to be written are given by `α`: expressions where a body is
described, and values where it runs. Not every stream supports every operation. -/
inductive StreamStep (α : Type)
  | writeByte (n : Int)
  | write (data : Bytes)
  | readByte
  | peekByte
  | read (n : Int)
  | peek (n : Int)
  | readAll
  | isEmpty
  | finalize
  | position
  | size
  | seek (place : Int)
  | truncate (size : Option Int)
  | encode (format : Format) (value : α)
  | decode (format : Format)

/-- What an operation answers. -/
inductive StreamResult
  | nothing
  | bytes (data : Bytes)
  | value (value : Value)

namespace StreamResult

def int (n : Int) : StreamResult := value (.int n)

def bool (b : Bool) : StreamResult := value (.bool b)

end StreamResult

namespace StreamStep

/-- The operation with the value to be written replaced. -/
def mapM {α β : Type} (f : α → Except Fault β) : StreamStep α → Except Fault (StreamStep β)
  | writeByte n => .ok (writeByte n)
  | write data => .ok (write data)
  | readByte => .ok readByte
  | peekByte => .ok peekByte
  | read n => .ok (read n)
  | peek n => .ok (peek n)
  | readAll => .ok readAll
  | isEmpty => .ok isEmpty
  | finalize => .ok finalize
  | position => .ok position
  | size => .ok size
  | seek place => .ok (seek place)
  | truncate n => .ok (truncate n)
  | encode format value => (f value).map (encode format)
  | decode format => .ok (decode format)

/-- The fault of an operation that a stream does not have. -/
def missing : Fault := .raised .missingMember ""

def byteOf (n : Int) : Except Fault Bytes :=
  if 0 ≤ n ∧ n < 256 then .ok [UInt8.ofNat n.toNat] else .error .overflow

/-- The outcome of an operation that answers nothing. -/
def silent {σ : Type} (outcome : Except Fault Unit) (s : σ) : Except Fault StreamResult × σ :=
  (outcome.map fun _ => .nothing, s)

end StreamStep

/-! ## Sinks -/

/-- A stream that takes bytes. -/
structure Sink where
  bytes : Bytes
  deriving DecidableEq, Repr

namespace Sink

/-- The sink with more bytes. -/
def write (s : Sink) (data : Bytes) : Sink := ⟨s.bytes ++ data⟩

/-- Run a sequence of writes. What was written before a fault stays written. -/
def emit (s : Sink) (e : Emit) : Except Fault Unit × Sink :=
  (match e.fault with
    | some f => .error f
    | none => .ok (),
   s.write e.written)

def step (s : Sink) : StreamStep Value → Except Fault StreamResult × Sink
  | .writeByte n =>
    match StreamStep.byteOf n with
    | .ok data => (.ok .nothing, s.write data)
    | .error f => (.error f, s)
  | .write data => (.ok .nothing, s.write data)
  | .finalize => (.ok (.bytes s.bytes), s)
  | .position => (.ok (.int s.bytes.length), s)
  | .encode format v =>
    let (outcome, s) := s.emit (format.emit v)
    StreamStep.silent outcome s
  | _ => (.error StreamStep.missing, s)

end Sink

/-! ## Readers -/

/-- A stream that gives the bytes of a string. -/
structure Reader where
  rest : Bytes
  deriving DecidableEq, Repr

namespace Reader

/-- The next bytes, which are not taken. -/
def peek (r : Reader) (n : Int) : Except Fault Bytes :=
  if n < 0 then .error (.wire .negativeCount)
  else if Read.hasAtLeast n.toNat r.rest then .ok (r.rest.take n.toNat)
  else .error (.wire .outOfData)

/-- The next byte, which is not taken. -/
def peekByte (r : Reader) : Except Fault UInt8 :=
  match r.rest with
  | [] => .error (.wire .outOfData)
  | b :: _ => .ok b

/-- Every byte has to be taken. -/
def finalize (r : Reader) : Except Fault Unit :=
  if r.rest.isEmpty then .ok () else .error (.wire .trailingData)

def step (r : Reader) : StreamStep Value → Except Fault StreamResult × Reader
  | .readByte => (r.peekByte.map fun b => .int b.toNat, ⟨r.rest.drop 1⟩)
  | .peekByte => (r.peekByte.map fun b => .int b.toNat, r)
  | .read n =>
    match r.peek n with
    | .ok data => (.ok (.bytes data), ⟨r.rest.drop n.toNat⟩)
    | .error f => (.error f, r)
  | .peek n => (r.peek n |>.map .bytes, r)
  | .readAll => (.ok (.bytes r.rest), ⟨[]⟩)
  | .isEmpty => (.ok (.bool r.rest.isEmpty), r)
  | .finalize => StreamStep.silent r.finalize r
  | .decode format =>
    let (outcome, rest) := format.read.run r.rest
    (outcome.map .value, ⟨rest⟩)
  | _ => (.error StreamStep.missing, r)

end Reader

/-- The outcomes of operations run one after the other, faults included. A fault ends nothing: the next
operation goes on with the stream as the one that failed left it. -/
def runSteps {σ : Type} (step : σ → StreamStep Value → Except Fault StreamResult × σ) :
    σ → List (Except Fault (StreamStep Value)) → List (Except Fault StreamResult) × σ
  | s, [] => ([], s)
  | s, .error f :: rest =>
    let (outcomes, s) := runSteps step s rest
    (.error f :: outcomes, s)
  | s, .ok operation :: rest =>
    let (outcome, s) := step s operation
    let (outcomes, s) := runSteps step s rest
    (outcome :: outcomes, s)

end ContractKit
