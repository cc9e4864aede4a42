import ContractKit.Wire.Keyed

/-!
# `Codec/Basic.lean`: codecs

A codec says how the values of one type are written and read. Codecs are trees: the codec of a list
holds the codec of its items, and the codec of a declared class holds those of its fields. They are
built from annotations (`Codec/OfType.lean`) and declarations (`Shape/Derived.lean`); writing,
checking and reading are recursions on the tree (`Codec/Encode.lean`, `Codec/Check.lean`,
`Codec/Decode.lean`).

A codec of a declared class has directions: it may be derived for writing only or for reading only,
and using it the other way is a fault when it happens.
-/

set_option autoImplicit false

namespace ContractKit

/-- How the keys of a container are checked when it is read. All policies write alike, with the keys
sorted; they differ in which other arrangements they read, and in what they make of equal keys. -/
inductive OrderPolicy
  | unchecked
  /-- Equal keys are resolved: the last value of a key wins. -/
  | unique
  /-- Each key has to be greater than the one before. -/
  | strictlyIncreasing
  deriving DecidableEq, Repr

def OrderPolicy.word : OrderPolicy → String
  | .unchecked => "unchecked"
  | .unique => "unique"
  | .strictlyIncreasing => "strictly_increasing"

/-- What a count prefix counts: items, entries, members, or the bytes of a text. The kind of the type
has to be that of the attribute that asks for the prefix. -/
inductive ContainerKind
  | sequence
  | map
  | set
  | text
  deriving DecidableEq, Repr

namespace ContainerKind

/-- The kinds in the order in which their attributes are looked for. -/
def all : List ContainerKind := [sequence, map, set, text]

/-- The name of the attribute that chooses the width of such a prefix. -/
def attr : ContainerKind → String
  | sequence => "size_length"
  | map => "map_size_length"
  | set => "set_size_length"
  | text => "string_size_length"

/-- The types that such a prefix fits, as messages name them. -/
def expected : ContainerKind → String
  | sequence => "a list[T], a tuple[T, ...] or bytes"
  | map => "a dict[K, V]"
  | set => "a set[T] or a frozenset[T]"
  | text => "a str"

end ContainerKind

/-- The directions that a declared class derives. Both are asked for when a codec is used and not when it
is built, except that a class which derives a direction needs it of all its fields. -/
structure Directions where
  writes : Bool
  reads : Bool
  deriving DecidableEq, Repr

/-- The width of the tag of an enumeration. -/
inductive TagWidth
  | one
  | two
  deriving DecidableEq, Repr

namespace TagWidth

def bytes : TagWidth → Nat
  | one => 1
  | two => 2

/-- The most variants that any tag tells apart. -/
def maxVariants : Nat := 65536

/-- The narrowest tag that tells so many variants apart. -/
def forCount (count : Int) : Except Fault TagWidth :=
  if count ≤ 256 then .ok one
  else if count ≤ maxVariants then .ok two
  else .error (.typeIssue .tooManyVariants)

end TagWidth

/-- A value that a class does not accept for a field, with the fault that building an instance
raises. -/
structure Rejection where
  field : String
  value : Value
  kind : FaultKind
  text : String

/-- A record class as codecs build its instances. What is read is handed to the class, which can reject
it: that is the one way in which contract code takes part in reading. -/
structure Target where
  cls : RecordClass
  rejection : Option Rejection

namespace Target

/-- The instance with the given items, unless the class rejects it. -/
def build (t : Target) (items : List Value) : Except Fault Value :=
  let v := Value.record t.cls items
  match t.rejection with
  | none => .ok v
  | some r =>
    match v.field? r.field with
    | some held => if held.beq r.value then .error (.ofCode r.kind r.text) else .ok v
    | none => .ok v

end Target

/-- A member of an enumeration: its name, and its number if the enumeration is one of integers. -/
structure Member where
  name : String
  number : Option Int
  deriving DecidableEq, Repr

def Member.value (enum : ClassRef) (m : Member) : Value := .member enum m.name m.number

/-- How the values of a type are written and read. A node says how its own part is laid out, which is a
number, a count, a tag or nothing, and holds the codecs of what follows. The codecs of declared classes
are held whole, so what is derived for a class later does not change a codec. -/
inductive Codec
  | int (format : LittleEndian.Format)
  | bool
  | accountAddress
  | contractAddress
  | bytes (width : PrefixWidth) (order : OrderPolicy)
  | text (width : PrefixWidth) (order : OrderPolicy)
  /-- A list, or a tuple of any length, with an explicit prefix. -/
  | sequence (tuples : Bool) (item : Codec) (width : PrefixWidth) (order : OrderPolicy)
  | set (frozen : Bool) (member : Codec) (width : PrefixWidth) (order : OrderPolicy)
  | map (key value : Codec) (width : PrefixWidth) (order : OrderPolicy)
  | optional (item : Codec)
  | tuple (items : List Codec)
  /-- A tuple of any length with the standard prefix. -/
  | varTuple (item : Codec)
  /-- A class with fields, in the order of declaration. -/
  | struct (target : Target) (directions : Directions) (fields : List Codec)
  /-- A class without fields. -/
  | unit (target : Target) (directions : Directions)
  /-- An enumeration whose variants are classes, each with the codecs of its fields. -/
  | variants (enum : ClassRef) (directions : Directions) (tag : TagWidth)
      (cases : List (Target × List Codec))
  /-- An enumeration of plain members. -/
  | members (enum : ClassRef) (hashable : Bool) (directions : Directions) (tag : TagWidth)
      (cases : List Member)

namespace Codec

/-! ## What a codec says about itself -/

/-- The names of the integer codecs. -/
def intName (format : LittleEndian.Format) : String :=
  (if format.signed then "I" else "U") ++ toString (8 * format.width) ++ "Codec"

/-- The name of the kind of codec. -/
def name : Codec → String
  | .int format => intName format
  | .bool => "BoolCodec"
  | .accountAddress => "AccountAddressCodec"
  | .contractAddress => "ContractAddressCodec"
  | .bytes .. => "BytesCodec"
  | .text .. => "Utf8StringCodec"
  | .sequence .. => "SequenceCodec"
  | .set .. => "SetCodec"
  | .map .. => "MapCodec"
  | .optional _ => "OptionalCodec"
  | .tuple _ | .varTuple _ => "TupleCodec"
  | .struct .. => "StructCodec"
  | .unit .. => "UnitCodec"
  | .variants .. | .members .. => "EnumCodec"

/-- The prefix of a codec that was given one: its width, what it counts and how keys are checked. -/
def prefix? : Codec → Option (PrefixWidth × ContainerKind × OrderPolicy)
  | .bytes width order | .sequence _ _ width order => some (width, .sequence, order)
  | .text width order => some (width, .text, order)
  | .set _ _ width order => some (width, .set, order)
  | .map _ _ width order => some (width, .map, order)
  | _ => none

/-- The width of the tag of an enumeration. -/
def tag? : Codec → Option TagWidth
  | .variants _ _ tag _ | .members _ _ _ tag _ => some tag
  | _ => none

/-- The class that a codec was derived for. -/
def target? : Codec → Option ClassRef
  | .struct target .. | .unit target _ => some target.cls.ref
  | .variants enum .. | .members enum .. => some enum
  | _ => none

/-- Whether a tuple codec takes tuples of any length. -/
def isVarTuple? : Codec → Option Bool
  | .tuple _ => some false
  | .varTuple _ => some true
  | _ => none

/-- How a codec of a declared class is printed. -/
def shown? (c : Codec) : Option String :=
  c.target?.map fun ref => s!"<{c.name} for {ref.name}>"

mutual

/-- Whether the values of a codec can be members of sets and keys of maps, as far as their type
tells. -/
def isHashable : Codec → Bool
  | .int _ | .bool | .accountAddress | .contractAddress | .bytes .. | .text .. => true
  | .sequence .. | .map .. => false
  | .set frozen .. => frozen
  | .optional item | .varTuple item => item.isHashable
  | .tuple items => allHashable items
  | .struct target .. | .unit target _ => target.cls.isHashable
  | .variants _ _ _ cases => cases.all fun case => case.1.cls.isHashable
  | .members _ hashable .. => hashable

/-- Whether all codecs of a list are hashable. -/
def allHashable : List Codec → Bool
  | [] => true
  | c :: cs => c.isHashable && allHashable cs

end

/-! ## Directions -/

mutual

/-- Whether a codec and all that it delegates to can be used in a direction, which is given by its
projection from the directions of a class. -/
def can (direction : Directions → Bool) : Codec → Bool
  | .int _ | .bool | .accountAddress | .contractAddress | .bytes .. | .text .. => true
  | .sequence _ item .. | .set _ item .. | .optional item | .varTuple item => can direction item
  | .map key value .. => can direction key && can direction value
  | .tuple items => canAll direction items
  | .struct _ directions fields => direction directions && canAll direction fields
  | .unit _ directions => direction directions
  | .variants _ directions _ cases => direction directions && canCases direction cases
  | .members _ _ directions .. => direction directions

/-- Whether all codecs of a list can be used in a direction. -/
def canAll (direction : Directions → Bool) : List Codec → Bool
  | [] => true
  | c :: cs => can direction c && canAll direction cs

/-- Whether the fields of all variants can be used in a direction. -/
def canCases (direction : Directions → Bool) : List (Target × List Codec) → Bool
  | [] => true
  | (_, fields) :: rest => canAll direction fields && canCases direction rest

end

/-- Whether values can be written, all the way down. -/
def canWrite (c : Codec) : Bool := c.can Directions.writes

/-- Whether values can be read, all the way down. -/
def canRead (c : Codec) : Bool := c.can Directions.reads

end Codec

end ContractKit
