import ContractKit.Codec.Basic

/-!
# `Codec/Check.lean`: which values a codec accepts

`accepts` is the check that is made at a node before it is written: it looks at the value itself and,
apart from the parts of a contract address, not into it. `check` makes the same checks all the way
down. Both answer with the first refusal.

A class takes instances of classes that extend it. Their items start with those of the class, so the
fields of the class are the leading items.
-/

set_option autoImplicit false

namespace ContractKit.Codec

def refuse {α : Type} (r : Refusal) : Except Fault α := .error (.refused r)

/-- The items that a record shows as the fields of the class: the leading ones where fields have
names, and exactly as many as there are fields where they have not. -/
def fieldItems (target : Target) (fields : List Codec) (v : Value) :
    Except Fault (List Value) :=
  match v with
  | .record _ items =>
    if target.cls.isPositional then
      if items.length = fields.length then .ok items
      else refuse (.fieldCount fields.length items.length)
    else .ok (items.take fields.length)
  | _ => .ok []

/-- The fault of an instance that lacks one of its fields. -/
def missingField : Fault := .raised .missingMember ""

/-- The place of the variant that a value belongs to: of those of its class, the last. -/
def variantOf? (cases : List (Target × List Codec)) (v : Value) : Option Nat :=
  match v with
  | .record cls _ =>
    (cases.zipIdx.reverse.find? fun case => case.1.1.cls.ref.id == cls.ref.id).map (·.2)
  | _ => none

/-- The place of the member that a value is equal to. -/
def memberOf? (enum : ClassRef) (cases : List Member) (v : Value) : Option Nat :=
  cases.findIdx? fun m => (m.value enum).beq v

/-- The class that a value has to be an instance of. -/
def instanceOf (target : Target) (v : Value) : Except Fault Unit :=
  let refused := refuse (.expectedClass target.cls.ref.name v.className)
  match v with
  | .record cls _ => if cls.extends? target.cls.ref.id then .ok () else refused
  | _ => refused

/-- Whether a value is a part of a contract address. -/
def isAddressPart (v : Value) : Bool :=
  match v.integer? with
  | some n => decide (LittleEndian.Format.Holds ⟨8, false⟩ n)
  | none => false

/-- The check of a value at a node. It is the check by the type of the value and its size, in the order
in which the refusals are made; what the value holds is checked by the codecs below. -/
def accepts : Codec → Value → Except Fault Unit
  | .int format, v =>
    match v.integer? with
    | none => refuse .expectedInteger
    | some n =>
      if format.upper ≤ n then refuse .aboveUpperBound
      else if n < format.lower then refuse .belowLowerBound
      else .ok ()
  | .bool, v =>
    match v with
    | .bool _ => .ok ()
    | _ => refuse .expectedBoolean
  | .accountAddress, v =>
    match v with
    | .bytes data => if data.length = 32 then .ok () else refuse (.addressSize data.length)
    | _ => refuse .expectedBytes
  | .contractAddress, v =>
    match v with
    | .record cls items =>
      if cls.extends? ClassRef.contractAddress.id then
        if items.all isAddressPart then .ok () else refuse .addressParts
      else refuse .expectedContractAddress
    | _ => refuse .expectedContractAddress
  | .bytes .., v =>
    match v with
    | .bytes _ => .ok ()
    | _ => refuse .expectedBytes
  | .text .., v =>
    match v with
    | .text _ => .ok ()
    | _ => refuse .expectedText
  | .sequence tuples .., v =>
    if tuples then
      match v.tupleItems? with
      | some _ => .ok ()
      | none => refuse .expectedTuple
    else
      match v with
      | .list _ => .ok ()
      | _ => refuse .expectedList
  | .set .., v =>
    match v.members? with
    | some _ => .ok ()
    | none => refuse .expectedSet
  | .map .., v =>
    match v with
    | .dict _ => .ok ()
    | _ => refuse .expectedMap
  | .optional _, _ => .ok ()
  | .tuple items, v =>
    match v.tupleItems? with
    | some vs => if vs.length = items.length then .ok () else refuse .tupleSize
    | none => refuse .expectedTuple
  | .varTuple _, v =>
    match v.tupleItems? with
    | some _ => .ok ()
    | none => refuse .expectedTuple
  | .struct target .., v => instanceOf target v
  | .unit target _, v => instanceOf target v
  | .variants enum _ _ cases, v =>
    match variantOf? cases v with
    | some _ => .ok ()
    | none => refuse (.expectedVariant enum.name v.className)
  | .members enum _ _ _ cases, v =>
    if v.isHashable then
      match memberOf? enum cases v with
      | some _ => .ok ()
      | none => refuse (.expectedVariant enum.name v.className)
    else .error .unhashable

/-- A check of each value of a list, up to the first that fails. -/
def each {α : Type} (check : α → Except Fault Unit) : List α → Except Fault Unit
  | [] => .ok ()
  | v :: vs => (check v).bind fun _ => each check vs

mutual

/-- The check of a value and of all that it holds. A value that passes can still fail to be written, for
instance if a container is too large for its prefix. -/
def check : Codec → Value → Except Fault Unit
  | .sequence tuples item width order, v =>
    (accepts (.sequence tuples item width order) v).bind fun _ =>
      match v.tupleItems?, v with
      | some vs, _ => each (check item) vs
      | none, .list vs => each (check item) vs
      | none, _ => .ok ()
  | .set frozen item width order, v =>
    (accepts (.set frozen item width order) v).bind fun _ =>
      each (check item) (v.members?.getD [])
  | .map key value width order, v =>
    (accepts (.map key value width order) v).bind fun _ =>
      match v with
      | .dict es => each (fun e => (check key e.1).bind fun _ => check value e.2) es
      | _ => .ok ()
  | .optional item, v =>
    match v with
    | .none => .ok ()
    | v => check item v
  | .tuple items, v =>
    (accepts (.tuple items) v).bind fun _ => checkEach items (v.tupleItems?.getD [])
  | .varTuple item, v =>
    (accepts (.varTuple item) v).bind fun _ => each (check item) (v.tupleItems?.getD [])
  | .struct target directions fields, v =>
    (accepts (.struct target directions fields) v).bind fun _ =>
      (fieldItems target fields v).bind fun vs => checkEach fields vs
  | .variants enum directions tag cases, v =>
    (accepts (.variants enum directions tag cases) v).bind fun _ =>
      match variantOf? cases v with
      | some i => checkCase cases i v
      | none => .ok ()
  | .int format, v => accepts (.int format) v
  | .bool, v => accepts .bool v
  | .accountAddress, v => accepts .accountAddress v
  | .contractAddress, v => accepts .contractAddress v
  | .bytes width order, v => accepts (.bytes width order) v
  | .text width order, v => accepts (.text width order) v
  | .unit target directions, v => accepts (.unit target directions) v
  | .members enum hashable directions tag cases, v =>
    accepts (.members enum hashable directions tag cases) v

/-- The checks of the fields of a record, each by its codec. -/
def checkEach : List Codec → List Value → Except Fault Unit
  | [], _ => .ok ()
  | _ :: _, [] => .error missingField
  | c :: cs, v :: vs => (check c v).bind fun _ => checkEach cs vs

/-- The checks of the fields of a value of the variant at a place. -/
def checkCase : List (Target × List Codec) → Nat → Value → Except Fault Unit
  | [], _, _ => .ok ()
  | (target, fields) :: _, 0, v => (fieldItems target fields v).bind fun vs => checkEach fields vs
  | _ :: rest, i + 1, v => checkCase rest i v

end

end ContractKit.Codec
