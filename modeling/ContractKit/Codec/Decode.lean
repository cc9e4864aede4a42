import ContractKit.Codec.Encode

/-!
# `Codec/Decode.lean`: reading a value

Reading follows the layout that writing produces. The keys of sets and maps are checked one by one
as the codec's policy says, and an instance is built as soon as its fields are read, so a class that
rejects them does so before anything after them is read.
-/

set_option autoImplicit false

namespace ContractKit.Codec

/-- Refuse to read where only writing is derived. -/
def ensureReads (target : ClassRef) (directions : Directions) : Read Unit :=
  if directions.reads then .done () else .fail (.wire (.decodeNotDerived target.name))

def readTag (tag : TagWidth) : Read Nat :=
  (Read.getBytes tag.bytes).bind fun data => .done (LittleEndian.ofDigits data)

def readAddressPart : Read Int := Read.int ⟨8, false⟩

/-- How keys are checked under a policy. -/
def keyCheck (order : OrderPolicy) : KeyCheck :=
  ⟨order == .strictlyIncreasing, true⟩

/-- The set of some members. -/
def setOf (frozen : Bool) (vs : List Value) : Value :=
  if frozen then .frozenset (Value.membersOf vs) else .set (Value.membersOf vs)

mutual

/-- The next value, as a program that asks for bytes. The program knows nothing of where the bytes come
from, so the same one reads a byte string, a parameter and the state of a contract. -/
def read : Codec → Read Value
  | .int format => (Read.int format).bind fun n => .done (.int n)
  | .bool => Read.bool.bind fun b => .done (.bool b)
  | .accountAddress => (Read.getBytes 32).bind fun data => .done (.bytes data)
  | .contractAddress =>
    readAddressPart.bind fun index =>
      readAddressPart.bind fun subindex => .done (.contractAddress index subindex)
  | .bytes width _ => (Read.prefixedBytes width).bind fun data => .done (.bytes data)
  | .text width _ => (Read.prefixedText width).bind fun s => .done (.text s)
  | .sequence tuples item width _ =>
    (Read.prefixedItems width (read item)).bind fun vs =>
      .done (if tuples then .tuple vs else .list vs)
  | .set frozen item width order =>
    (Read.keyed width (keyCheck order) id (read item)).bind fun vs => .done (setOf frozen vs)
  | .map key value width order =>
    (Read.keyed width (keyCheck order) (·.1) (Read.entry (read key) (read value))).bind fun es =>
      .done (.dict (Value.entriesOf es))
  | .optional item =>
    .byte fun tag =>
      if tag = 0 then .done .none
      else if tag = 1 then read item
      else .fail (.wire (.badOptionTag tag))
  | .tuple items => (readEach items).bind fun vs => .done (.tuple vs)
  | .varTuple item =>
    (Read.prefixedItems .standard (read item)).bind fun vs => .done (.tuple vs)
  | .struct target directions fields =>
    (ensureReads target.cls.ref directions).bind fun _ =>
      (readEach fields).bind fun vs => Read.ofExcept (target.build vs)
  | .unit target directions =>
    (ensureReads target.cls.ref directions).bind fun _ => Read.ofExcept (target.build [])
  | .variants enum directions tag cases =>
    (ensureReads enum directions).bind fun _ =>
      (readTag tag).bind fun i => readCase cases i (.badVariantTag i enum.name)
  | .members enum _ directions tag cases =>
    (ensureReads enum directions).bind fun _ =>
      (readTag tag).bind fun i =>
        match cases[i]? with
        | some m => .done (m.value enum)
        | none => .fail (.wire (.badVariantTag i enum.name))

def readEach : List Codec → Read (List Value)
  | [] => .done []
  | c :: cs => (read c).bind fun v => (readEach cs).bind fun vs => .done (v :: vs)

/-- The next value of the variant at a place, or the given error if there is none. -/
def readCase : List (Target × List Codec) → Nat → WireError → Read Value
  | [], _, missing => .fail (.wire missing)
  | (target, fields) :: _, 0, _ =>
    (readEach fields).bind fun vs => Read.ofExcept (target.build vs)
  | _ :: rest, i + 1, missing => readCase rest i missing

end

/-- The value that a whole byte string stands for. -/
def decode (c : Codec) (data : Bytes) : Except Fault Value := c.read.runAll data

/-- The value at the front of a byte string, and the bytes after it. -/
def decodePrefix (c : Codec) (data : Bytes) : Except Fault (Value × Bytes) :=
  match c.read.run data with
  | (.ok v, rest) => .ok (v, rest)
  | (.error f, _) => .error f

end ContractKit.Codec
