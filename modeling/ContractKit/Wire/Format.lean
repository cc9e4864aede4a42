import ContractKit.Wire.Keyed

/-!
# `Wire/Format.lean`: the building blocks of the wire format

A `Format` names one of the layouts that codecs are put together from, with its parameters: integers
of any width, counts, byte strings and texts, optional values, tuples, collections and mappings.
Formats write and read dynamic values directly. They check less than codecs do: what a codec refuses
beforehand shows here as a failed assertion or a fault of the operation itself.

Widths are given as plain numbers, since a format may be asked for with any; a count of a width that
does not exist is refused before anything is written or read.
-/

set_option autoImplicit false

namespace ContractKit

namespace Value

/-- The number of items of a value that has items. -/
def size? : Value → Option Nat
  | .text s => some s.length
  | .bytes data => some data.length
  | .list items | .tuple items => some items.length
  | .set members | .frozenset members => some members.length
  | .dict entries => some entries.length
  | .record cls items => if cls.isPositional then some items.length else Option.none
  | _ => Option.none

/-- The items of a value that has items: characters of a text, numbers of a byte string, keys of a
map. -/
def items? : Value → Option (List Value)
  | .text s => some (s.toList.map fun c => .text (String.singleton c))
  | .bytes data => some (data.map fun b => .int b.toNat)
  | .list items | .tuple items => some items
  | .set members | .frozenset members => some members
  | .dict entries => some (entries.map (·.1))
  | .record cls items => if cls.isPositional then some items else Option.none
  | _ => Option.none

/-- The fault of asking for the number of items of a value that has none. -/
def sizeFault (v : Value) : Fault :=
  .raised .type s!"object of type '{v.className}' has no len()"

end Value

/-- What a collection is read into. The bytes do not tell: the same bytes can be read as a list, a tuple
or a set. -/
inductive Builder
  | list
  | tuple
  | set
  | frozenset
  deriving DecidableEq, Repr

namespace Builder

/-- Whether the items have to be hashable. -/
def isSet : Builder → Bool
  | .set | .frozenset => true
  | _ => false

/-- The collection of some items. -/
def build : Builder → List Value → Value
  | .list, vs => .list vs
  | .tuple, vs => .tuple vs
  | .set, vs => .set (Value.membersOf vs)
  | .frozenset, vs => .frozenset (Value.membersOf vs)

end Builder

/-- A layout with its parameters. This is the layer below codecs: it knows widths and orders, and no
types and classes. -/
inductive Format
  | bool
  | int (width : Int) (signed : Bool)
  | length (width : Int)
  | bytes (width : Int)
  | text (width : Int)
  | optional (item : Format)
  | tuple (items : List Format)
  /-- `sorted` is about writing, `ascending` and `builder` are about reading. -/
  | collection (item : Format) (width : Int) (sorted ascending : Bool) (builder : Builder)
  | mapping (key value : Format) (width : Int) (sorted ascending : Bool)

namespace Format

/-- The prefix of a width, which has to be one that exists. -/
def prefixOf (width : Int) : Except Fault PrefixWidth :=
  match PrefixWidth.ofInt? width with
  | some w => .ok w
  | none => .error (.assertion s!"invalid length width: {width}")

/-- The largest count that fits in so many bytes, whether a prefix may be as wide or not. -/
def largestCount (width : Int) : Except Fault Nat :=
  if width < 0 then .error (.raised .value "negative shift count")
  else .ok (Nat.pow 256 width.toNat - 1)

/-! ## Writing -/

def emitCount (width : Int) (n : Int) : Emit :=
  match prefixOf width with
  | .error f => .fail f
  | .ok w => Emit.countInt w n

/-- Write an integer of any width. -/
def emitInt (width : Int) (signed : Bool) (v : Value) : Emit :=
  match v.number? with
  | none => .fail (.raised .type
      s!"descriptor 'to_bytes' for 'int' objects doesn't apply to a '{v.className}' object")
  | some n =>
    if width < 0 then .fail (.raised .value "length argument must be non-negative")
    else Emit.int ⟨width.toNat, signed⟩ n

def emitBytes (width : Int) (data : Bytes) : Emit :=
  emitCount width data.length ++ Emit.chunk data

/-- The values in the order in which they are written. -/
def arranged (sorted : Bool) (vs : List Value) : Except Fault (List Value) :=
  if sorted then
    match Value.sorted? vs with
    | some vs => .ok vs
    | none => .error .unordered
  else .ok vs

/-- The entries in the order in which they are written. -/
def arrangedEntries (sorted : Bool) (es : List (Value × Value)) :
    Except Fault (List (Value × Value)) :=
  if sorted then
    match Value.sortedEntries? es with
    | some es => .ok es
    | none => .error .unordered
  else .ok es

mutual

/-- The writes of a value in a layout, with the fault at which they stop. A value of the wrong kind is a
fault of whatever takes it apart: there is no type here to refuse it. -/
def emit : Format → Value → Emit
  | .bool, v => Emit.bool v.isTruthy
  | .int width signed, v => emitInt width signed v
  | .length width, v =>
    match v.number? with
    | none => Emit.after ((prefixOf width).map fun _ => ()) (.fail .unordered)
    | some n => emitCount width n
  | .bytes width, v =>
    match v with
    | .bytes data => emitBytes width data
    | _ => .fail (.assertion "")
  | .text width, v =>
    match v with
    | .text s => emitBytes width (Bytes.ofText s)
    | _ => .fail (.assertion "")
  | .optional item, v =>
    match v with
    | .none => Emit.byte 0
    | v => Emit.byte 1 ++ emit item v
  | .tuple items, v =>
    match v.size?, v.items? with
    | some n, some vs =>
      if n = items.length then emitEach items vs else .fail (.assertion "")
    | _, _ => .fail v.sizeFault
  | .collection item width sorted _ _, v =>
    match v.size?, v.items? with
    | some n, some vs =>
      emitCount width n ++
        match arranged sorted vs with
        | .error f => .fail f
        | .ok vs => Emit.each (emit item) vs
    | _, _ => .fail v.sizeFault
  | .mapping key value width sorted _, v =>
    match v.size? with
    | none => .fail v.sizeFault
    | some n =>
      emitCount width n ++
        match v with
        | .dict es =>
          match arrangedEntries sorted es with
          | .error f => .fail f
          | .ok es => Emit.each (fun e => emit key e.1 ++ emit value e.2) es
        | v => .fail (.raised .missingMember s!"'{v.className}' object has no attribute 'items'")

def emitEach : List Format → List Value → Emit
  | f :: fs, v :: vs => emit f v ++ emitEach fs vs
  | _, _ => Emit.nothing

end

/-! ## Reading -/

/-- Go on with the prefix of a width, which has to be one that exists. -/
def withPrefix {α : Type} (width : Int) (k : PrefixWidth → Read α) : Read α :=
  match prefixOf width with
  | .error f => .fail f
  | .ok w => k w

mutual

/-- The next value in a layout. The same bytes are read here as by the codecs, which add the types. -/
def read : Format → Read Value
  | .bool => Read.bool.bind fun b => .done (.bool b)
  | .int width signed =>
    if width < 0 then .fail (.wire .negativeCount)
    else (Read.int ⟨width.toNat, signed⟩).bind fun n => .done (.int n)
  | .length width => withPrefix width fun w => (Read.count w).bind fun n => .done (.int n)
  | .bytes width =>
    withPrefix width fun w => (Read.prefixedBytes w).bind fun data => .done (.bytes data)
  | .text width =>
    withPrefix width fun w => (Read.prefixedText w).bind fun s => .done (.text s)
  | .optional item =>
    .byte fun tag =>
      if tag = 0 then .done .none
      else if tag = 1 then read item
      else .fail (.wire (.badOptionTag tag))
  | .tuple items => (readEach items).bind fun vs => .done (.tuple vs)
  | .collection item width _ ascending builder =>
    withPrefix width fun w =>
      (Read.keyed w ⟨ascending, builder.isSet⟩ id (read item)).bind fun vs =>
        .done (builder.build vs)
  | .mapping key value width _ ascending =>
    withPrefix width fun w =>
      (Read.keyed w ⟨ascending, true⟩ (·.1) (Read.entry (read key) (read value))).bind fun es =>
        .done (.dict (Value.entriesOf es))

def readEach : List Format → Read (List Value)
  | [] => .done []
  | f :: fs => (read f).bind fun v => (readEach fs).bind fun vs => .done (v :: vs)

end

end Format

end ContractKit
