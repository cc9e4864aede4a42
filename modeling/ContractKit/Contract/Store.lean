import ContractKit.Wire.Stream

/-!
# `Contract/Store.lean`: the state of a contract as bytes

A store is a byte string with a cursor that reads and writes share. Writing past the end grows the
bytes, with zeros where the cursor stood beyond them; truncating cuts them and pulls the cursor back.

The cursor is a whole number of either sign, since `truncate` takes any: a place below zero counts
back from the end of the bytes where bytes are taken or cut, as places in a sequence do here.
-/

set_option autoImplicit false

namespace ContractKit

/-! ## Places counted from either end -/

namespace Bytes

/-- The place that an index stands for: counted back from the end when it is below zero, and moved
to the nearest end when it lies outside. -/
def place (data : Bytes) (i : Int) : Nat :=
  if i < 0 then (data.length + i).toNat else min i.toNat data.length

/-- The bytes from one place up to another. -/
def slice (data : Bytes) (start stop : Int) : Bytes :=
  let a := place data start
  (data.drop a).take (place data stop - a)

/-- The bytes with those from one place up to another replaced. -/
def replaceSlice (data : Bytes) (start stop : Int) (new : Bytes) : Bytes :=
  let a := place data start
  data.take a ++ new ++ data.drop (max a (place data stop))

/-- The byte at an index, counted back from the end when it is below zero. -/
def at? (data : Bytes) (i : Int) : Option UInt8 :=
  if i < 0 then
    if data.length + i < 0 then none else data[(data.length + i).toNat]?
  else data[i.toNat]?

end Bytes

/-- A byte string with a cursor that reading, writing and peeking share. The cursor may lie behind the end,
where nothing can be read and writing fills the gap with zeros. -/
structure Store where
  bytes : Bytes
  cursor : Int := 0
  deriving DecidableEq, Repr

namespace Store

def size (s : Store) : Nat := s.bytes.length

/-- Whether no byte is left at the cursor. -/
def isEmpty (s : Store) : Bool := decide ((s.size : Int) ≤ s.cursor)

/-! ## Moving -/

/-- Move the cursor to a place, which may lie past the end. -/
def seek (s : Store) (place : Int) : Except Fault Store :=
  if place < 0 then .error (.wire .seekBeforeStart) else .ok { s with cursor := place }

/-- Cut the bytes to a size, which is the cursor's place if none is given. Nothing refuses a size below
zero, which counts from the end and takes the cursor with it. -/
def truncate (s : Store) (size? : Option Int) : Store :=
  let size := size?.getD s.cursor
  { bytes := if size < s.size then s.bytes.take (Bytes.place s.bytes size) else s.bytes,
    cursor := min s.cursor size }

/-! ## Writing -/

/-- Write bytes at the cursor, over those that are there. -/
def write (s : Store) (data : Bytes) : Store :=
  let stop := s.cursor + data.length
  let padded := s.bytes ++ Bytes.zeros (s.cursor - s.size).toNat
  { bytes := Bytes.replaceSlice padded s.cursor stop data, cursor := stop }

/-- Write each chunk of a sequence of writes. -/
def writeAll (s : Store) (chunks : List Bytes) : Store := chunks.foldl write s

/-- Run a sequence of writes. What was written before a fault stays written. -/
def emit (s : Store) (e : Emit) : Except Fault Unit × Store :=
  (match e.fault with
    | some f => .error f
    | none => .ok (),
   s.writeAll e.chunks)

/-! ## Reading -/

/-- The byte at the cursor. -/
def peekByte (s : Store) : Except Fault UInt8 :=
  if s.isEmpty then .error (.wire .outOfData)
  else
    match Bytes.at? s.bytes s.cursor with
    | some b => .ok b
    | none => .error (.raised (.other "IndexError") "bytearray index out of range")

/-- The next bytes at the cursor. -/
def peekBytes (s : Store) (n : Int) : Except Fault Bytes :=
  if n < 0 then .error (.wire .negativeCount)
  else if s.size - s.cursor < n then .error (.wire .outOfData)
  else .ok (Bytes.slice s.bytes s.cursor (s.cursor + n))

/-- The byte at the cursor, which moves past it. -/
def readByte (s : Store) : Except Fault UInt8 × Store :=
  match s.peekByte with
  | .ok b => (.ok b, { s with cursor := s.cursor + 1 })
  | .error f => (.error f, s)

/-- The next bytes at the cursor, which moves past them. -/
def readBytes (s : Store) (n : Int) : Except Fault Bytes × Store :=
  match s.peekBytes n with
  | .ok data => (.ok data, { s with cursor := s.cursor + n })
  | .error f => (.error f, s)

/-- The bytes from the cursor to the end, to which it moves. -/
def readAll (s : Store) : Bytes × Store :=
  (Bytes.slice s.bytes s.cursor s.size, { s with cursor := max s.cursor s.size })

/-- Every byte has to be read. -/
def finalize (s : Store) : Except Fault Unit :=
  if s.isEmpty then .ok () else .error (.wire .trailingData)

/-- The outcome of a reading program on a store. A store has a cursor that can lie anywhere, so this is
a recursion of its own and no run of the program on the bytes behind the cursor. -/
def runRead {α : Type} : Read α → Store → Except Fault α × Store
  | .done a, s => (.ok a, s)
  | .fail f, s => (.error f, s)
  | .byte next, s =>
    match s.readByte with
    | (.ok b, s) => runRead (next b) s
    | (.error f, s) => (.error f, s)
  | .bytes n next, s =>
    match s.readBytes n with
    | (.ok data, s) => runRead (next data) s
    | (.error f, s) => (.error f, s)

/-- The outcome of a reading program at the cursor. -/
def run {α : Type} (s : Store) (p : Read α) : Except Fault α × Store := runRead p s

/-! ## Operations -/

def step (s : Store) : StreamStep Value → Except Fault StreamResult × Store
  | .writeByte n =>
    match StreamStep.byteOf n with
    | .ok data => (.ok .nothing, s.write data)
    | .error f => (.error f, s)
  | .write data => (.ok .nothing, s.write data)
  | .readByte =>
    let (outcome, s) := s.readByte
    (outcome.map fun b => .int b.toNat, s)
  | .peekByte => (s.peekByte.map fun b => .int b.toNat, s)
  | .read n =>
    let (outcome, s) := s.readBytes n
    (outcome.map .bytes, s)
  | .peek n => (s.peekBytes n |>.map .bytes, s)
  | .readAll =>
    let (data, s) := s.readAll
    (.ok (.bytes data), s)
  | .isEmpty => (.ok (.bool s.isEmpty), s)
  | .finalize => StreamStep.silent s.finalize s
  | .position => (.ok (.int s.cursor), s)
  | .size => (.ok (.int s.size), s)
  | .seek place =>
    match s.seek place with
    | .ok s => (.ok (.int s.cursor), s)
    | .error f => (.error f, s)
  | .truncate size => (.ok .nothing, s.truncate size)
  | .encode format v =>
    let (outcome, s) := s.emit (format.emit v)
    StreamStep.silent outcome s
  | .decode format =>
    let (outcome, s) := s.run format.read
    (outcome.map .value, s)

end Store

end ContractKit
