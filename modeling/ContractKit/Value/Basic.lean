import ContractKit.Fault
import ContractKit.Ty.Basic
import ContractKit.Contract.Action

/-!
# `Value/Basic.lean`: the values of contracts

One type for everything that a contract computes with and that a codec reads or writes. Sets hold
no two equal members and maps no two equal keys; both keep the order of insertion, which no codec
shows, since members and keys are written in ascending order.

Instances of declared classes carry their class (`RecordClass`), with all that equality, order and
hashing need to know about it, so those are functions of the values alone (`Value/Equality.lean`,
`Value/Order.lean`).
-/

set_option autoImplicit false

namespace ContractKit

/-- How the instances of a record class behave: as values with named fields, or as tuples whose
items also have names. -/
inductive RecordForm
  /-- Named fields. Frozen instances cannot be changed and are hashable. `ordered` is the number of
  leading fields that `<` compares, if instances have an order. -/
  | named (frozen : Bool) (ordered : Option Nat)
  /-- A tuple whose items have names. -/
  | positional
  deriving DecidableEq, Repr

/-- A class whose instances are records. Every instance carries it, so that comparing, hashing and showing
a record need no module, and an instance of an extending class is told from one of the class itself. -/
structure RecordClass where
  ref : ClassRef
  /-- The names of the fields, in the order of declaration. -/
  fields : List String
  form : RecordForm
  /-- The classes that this one extends, nearest first. -/
  ancestors : List ClassId := []
  deriving DecidableEq, Repr

namespace RecordClass

/-- Whether instances of the class are instances of the class with this identity. -/
def extends? (c : RecordClass) (target : ClassId) : Bool :=
  c.ref.id == target || c.ancestors.contains target

/-- Whether instances are tuples. -/
def isPositional (c : RecordClass) : Bool := c.form == .positional

/-- Whether the class lets its instances be hashed. -/
def isHashable (c : RecordClass) : Bool :=
  match c.form with
  | .named frozen _ => frozen
  | .positional => true

/-- Contract addresses: an index and a subindex. -/
def contractAddress : RecordClass :=
  ⟨.contractAddress, ["index", "subindex"], .positional, []⟩

end RecordClass

/-- A value. The members of sets and the keys of maps differ from one another, and stand in the order in
which they were put in; equality does not look at that order. Faults, types and handles are values
because contract code holds them, and no codec takes them. -/
inductive Value
  | none
  | bool (b : Bool)
  | int (n : Int)
  | text (s : String)
  | bytes (data : Bytes)
  | list (items : List Value)
  | tuple (items : List Value)
  | set (members : List Value)
  | frozenset (members : List Value)
  | dict (entries : List (Value × Value))
  /-- An instance of a record class, with its items in the order of the fields. A positional record
  may hold any number of items. -/
  | record (cls : RecordClass) (items : List Value)
  /-- A member of an enumeration, with its number if the enumeration is one of integers. -/
  | member (enum : ClassRef) (name : String) (number : Option Int)
  | ok (value : Value)
  | err (error : Value)
  | action (action : Action)
  /-- A fault held as a value. -/
  | fault (fault : Fault)
  /-- A type held as a value. -/
  | type (ty : Ty)
  /-- Something that can only be handed on, with the name of its class. -/
  | handle (className : String)

namespace Value

instance : Inhabited Value := ⟨.none⟩

/-- The number that a value counts as where numbers are compared. -/
def number? : Value → Option Int
  | .bool b => some (if b then 1 else 0)
  | .int n => some n
  | .member _ _ number => number
  | _ => Option.none

/-- The number of a value that is an integer, truth values apart. -/
def integer? : Value → Option Int
  | .int n => some n
  | .member _ _ number => number
  | _ => Option.none

/-- The items of a tuple or of a positional record. -/
def tupleItems? : Value → Option (List Value)
  | .tuple items => some items
  | .record cls items => if cls.isPositional then some items else Option.none
  | _ => Option.none

/-- The members of a set of either kind. -/
def members? : Value → Option (List Value)
  | .set members | .frozenset members => some members
  | _ => Option.none

/-- The value of a field of a record. -/
def field? (name : String) : Value → Option Value
  | .record cls items => (cls.fields.zip items).lookup name
  | _ => Option.none

/-- The record with the value of one field replaced. -/
def setField? (name : String) (v : Value) : Value → Option Value
  | .record cls items =>
    if cls.fields.contains name then
      some (.record cls (cls.fields.zipWith (fun f old => if f == name then v else old) items))
    else Option.none
  | _ => Option.none

/-- A contract address. -/
def contractAddress (index subindex : Int) : Value :=
  .record .contractAddress [.int index, .int subindex]

def className : Value → String
  | .none => "NoneType"
  | .bool _ => "bool"
  | .int _ => "int"
  | .text _ => "str"
  | .bytes _ => "bytes"
  | .list _ => "list"
  | .tuple _ => "tuple"
  | .set _ => "set"
  | .frozenset _ => "frozenset"
  | .dict _ => "dict"
  | .record cls _ => cls.ref.name
  | .member enum _ _ => enum.name
  | .ok _ => "Ok"
  | .err _ => "Err"
  | .action a => a.className
  | .fault f => f.kind.word
  | .type ty => match ty with
    | .sized _ | .accountAddress => "NewType"
    | .list _ | .set _ | .frozenset _ | .dict _ _ | .tuple _ => "GenericAlias"
    | .union .named _ => "_UnionGenericAlias"
    | .union .bar _ => "UnionType"
    | .annotated .. => "_AnnotatedAlias"
    | .ok _ | .err _ | .stateRef _ => "_GenericAlias"
    | .forward _ => "str"
    | .forwardRef _ => "ForwardRef"
    | .none => "NoneType"
    | .object _ => "function"
    | .dots => "ellipsis"
    | .any => "_AnyMeta"
    | .cls _ | .bool | .text | .bytes | .int | .float | .noneType | .bare _ => "type"
  | .handle className => className

/-- Whether a value is a class, and so an annotation by itself. -/
def isClass (v : Value) : Bool :=
  match v with
  | .type ty => match ty with
    | .cls _ | .bool | .text | .bytes | .int | .float | .any | .noneType | .bare _ => true
    | _ => false
  | _ => false

/-- The annotation that a value is encoded as when none is given: its own class. -/
def ownType : Value → Ty
  | .none => .noneType
  | .bool _ => .bool
  | .int _ => .int
  | .text _ => .text
  | .bytes _ => .bytes
  | .list _ => .bare .list
  | .tuple _ => .bare .tuple
  | .set _ => .bare .set
  | .frozenset _ => .bare .frozenset
  | .dict _ => .bare .dict
  | .record cls _ => .cls cls.ref
  | .member enum _ _ => .cls enum
  | v => .cls ⟨.native v.className, v.className, "builtins"⟩

end Value

end ContractKit
