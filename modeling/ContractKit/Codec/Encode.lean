import ContractKit.Codec.Check

/-!
# `Codec/Encode.lean`: writing a value

Every node is checked before it is written, and the nodes below it when it is their turn. Sets and
maps are written in ascending order of their members and keys, which therefore need an order as soon
as there are two of them; the count is written before they are arranged.
-/

set_option autoImplicit false

namespace ContractKit.Codec

/-- Refuse to write where only reading is derived. -/
def ensureWrites (target : ClassRef) (directions : Directions) : Except Fault Unit :=
  if directions.writes then .ok () else .error (.wire (.encodeNotDerived target.name))

def emitTag (tag : TagWidth) (i : Nat) : Emit := Emit.int ⟨tag.bytes, false⟩ i

/-- The fault of asking a tuple for an item that it has not. -/
def missingItem : Fault := .raised (.other "IndexError") "tuple index out of range"

/-- Write the part of a contract address at a place. -/
def emitAddressPart (items : List Value) (i : Nat) : Emit :=
  match items[i]? with
  | none => .fail missingItem
  | some v => Emit.int ⟨8, false⟩ (v.integer?.getD 0)

mutual

/-- The writes of a value, with the fault at which they stop. Each node checks what it writes before it
writes it, so what was written before a fault is a part of what would have been. -/
def emit : Codec → Value → Emit
  | .int format, v =>
    Emit.after (accepts (.int format) v) (Emit.int format (v.integer?.getD 0))
  | .bool, v => Emit.after (accepts .bool v) (Emit.bool v.isTruthy)
  | .accountAddress, v =>
    Emit.after (accepts .accountAddress v)
      (match v with
        | .bytes data => Emit.chunk data
        | _ => .nothing)
  | .contractAddress, v =>
    Emit.after (accepts .contractAddress v)
      (match v with
        | .record _ items => emitAddressPart items 0 ++ emitAddressPart items 1
        | _ => .nothing)
  | .bytes width order, v =>
    Emit.after (accepts (.bytes width order) v)
      (match v with
        | .bytes data => Emit.prefixedBytes width data
        | _ => .nothing)
  | .text width order, v =>
    Emit.after (accepts (.text width order) v)
      (match v with
        | .text s => Emit.prefixedText width s
        | _ => .nothing)
  | .sequence tuples item width order, v =>
    Emit.after (accepts (.sequence tuples item width order) v)
      (match v.tupleItems?, v with
        | some vs, _ => Emit.count width vs.length ++ Emit.each (emit item) vs
        | none, .list vs => Emit.count width vs.length ++ Emit.each (emit item) vs
        | none, _ => .nothing)
  | .set frozen item width order, v =>
    Emit.after (accepts (.set frozen item width order) v)
      (let vs := v.members?.getD []
       Emit.count width vs.length ++
         match Value.sorted? vs with
         | some vs => Emit.each (emit item) vs
         | none => .fail .unordered)
  | .map key value width order, v =>
    Emit.after (accepts (.map key value width order) v)
      (match v with
        | .dict es =>
          Emit.count width es.length ++
            match Value.sortedEntries? es with
            | some es => Emit.each (fun e => emit key e.1 ++ emit value e.2) es
            | none => .fail .unordered
        | _ => .nothing)
  | .optional item, v =>
    match v with
    | .none => Emit.byte 0
    | v => Emit.byte 1 ++ emit item v
  | .tuple items, v =>
    Emit.after (accepts (.tuple items) v) (emitEach items (v.tupleItems?.getD []))
  | .varTuple item, v =>
    Emit.after (accepts (.varTuple item) v)
      (let vs := v.tupleItems?.getD []
       Emit.count .standard vs.length ++ Emit.each (emit item) vs)
  | .struct target directions fields, v =>
    Emit.after (accepts (.struct target directions fields) v)
      (Emit.after (ensureWrites target.cls.ref directions)
        (match fieldItems target fields v with
          | .error f => .fail f
          | .ok vs => emitEach fields vs))
  | .unit target directions, v =>
    Emit.after (accepts (.unit target directions) v)
      (Emit.after (ensureWrites target.cls.ref directions) .nothing)
  | .variants enum directions tag cases, v =>
    Emit.after (accepts (.variants enum directions tag cases) v)
      (Emit.after (ensureWrites enum directions)
        (match variantOf? cases v with
          | some i => emitTag tag i ++ emitCase cases i v
          | none => .nothing))
  | .members enum hashable directions tag cases, v =>
    Emit.after (accepts (.members enum hashable directions tag cases) v)
      (Emit.after (ensureWrites enum directions)
        (match memberOf? enum cases v with
          | some i => emitTag tag i
          | none => .nothing))

def emitEach : List Codec → List Value → Emit
  | [], _ => .nothing
  | _ :: _, [] => .fail missingField
  | c :: cs, v :: vs => emit c v ++ emitEach cs vs

/-- Write the fields of a value of the variant at a place. -/
def emitCase : List (Target × List Codec) → Nat → Value → Emit
  | [], _, _ => .nothing
  | (target, fields) :: _, 0, v =>
    match fieldItems target fields v with
    | .error f => .fail f
    | .ok vs => emitEach fields vs
  | _ :: rest, i + 1, v => emitCase rest i v

end

def encode (c : Codec) (v : Value) : Except Fault Bytes := (c.emit v).toBytes

end ContractKit.Codec
