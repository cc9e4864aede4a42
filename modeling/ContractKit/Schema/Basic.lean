import ContractKit.Wire.PrefixWidth

/-!
# `Schema/Basic.lean`: descriptions of the wire format

A schema is a tree that says how the values of a type lie in a byte string, so that a reader that
knows the schema alone can walk over them. It is published with a contract; its own binary form is in
`Schema/Binary.lean`.

A tree may be left unfinished: `hole` stands where a subtree is missing. It has no binary form.
-/

set_option autoImplicit false

namespace ContractKit

/-! ## Tags -/

/-- What a node of a schema is. -/
inductive TypeTag
  | unit | bool
  | u8 | u16 | u32 | u64 | i8 | i16 | i32 | i64
  | amount | accountAddress | contractAddress | timestamp | duration
  | pair | list | set | map | array | struct | enum | string
  | u128 | i128
  deriving DecidableEq, Repr

namespace TypeTag

/-- All tags with their words, each at the place that its byte names. -/
def words : List (TypeTag × String) :=
  [(unit, "UNIT"), (bool, "BOOL"), (u8, "U8"), (u16, "U16"), (u32, "U32"), (u64, "U64"),
   (i8, "I8"), (i16, "I16"), (i32, "I32"), (i64, "I64"), (amount, "AMOUNT"),
   (accountAddress, "ACCOUNT_ADDRESS"), (contractAddress, "CONTRACT_ADDRESS"),
   (timestamp, "TIMESTAMP"), (duration, "DURATION"), (pair, "PAIR"), (list, "LIST"), (set, "SET"),
   (map, "MAP"), (array, "ARRAY"), (struct, "STRUCT"), (enum, "ENUM"), (string, "STRING"),
   (u128, "U128"), (i128, "I128")]

def byte (tag : TypeTag) : UInt8 := UInt8.ofNat (words.findIdx fun entry => entry.1 == tag)

def ofByte? (b : UInt8) : Option TypeTag := words[b.toNat]?.map (·.1)

def word (tag : TypeTag) : String :=
  ((words.find? fun entry => entry.1 == tag).map (·.2)).getD ""

def ofWord? (word : String) : Option TypeTag :=
  (words.find? fun entry => entry.2 == word).map (·.1)

/-- Whether a node with this tag is complete without anything below it. -/
def isPrimitive : TypeTag → Bool
  | pair | list | set | map | array | struct | enum | string => false
  | _ => true

end TypeTag

namespace PrefixWidth

/-- The widths with the words for them in schemas, each at the place that its byte names. -/
def words : List (PrefixWidth × String) :=
  [(one, "U8"), (two, "U16"), (four, "U32"), (eight, "U64")]

/-- The byte of a width in a schema. -/
def code : PrefixWidth → UInt8
  | one => 0
  | two => 1
  | four => 2
  | eight => 3

def ofCode? (b : UInt8) : Option PrefixWidth := words[b.toNat]?.map (·.1)

def word (w : PrefixWidth) : String :=
  ((words.find? fun entry => entry.1 == w).map (·.2)).getD ""

def ofWord? (word : String) : Option PrefixWidth :=
  (words.find? fun entry => entry.2 == word).map (·.1)

end PrefixWidth

/-! ## Trees -/

mutual

/-- A description of the wire format of a type, for readers that do not have the type. It says what a value
is made of and how wide the counts are, so it can be walked without knowing any class. -/
inductive Schema
  /-- A node that is its tag alone. The tag may be one that says that more follows; such a node has
  a binary form that is not read back. -/
  | primitive (tag : TypeTag)
  | pair (first second : Schema)
  | list (size : PrefixWidth) (item : Schema)
  | set (size : PrefixWidth) (member : Schema)
  | map (size : PrefixWidth) (key value : Schema)
  | array (length : Int) (item : Schema)
  | string (size : PrefixWidth)
  | struct (fields : Schema.Fields)
  | enum (variants : List (String × Schema.Fields))
  | hole

/-- A description of the fields of a struct or a variant. -/
inductive Schema.Fields
  | named (fields : List (String × Schema))
  | unnamed (items : List Schema)
  | none
  | hole

end

namespace Schema

instance : Inhabited Schema := ⟨.hole⟩

/-- The type of the empty tuple. -/
def unit : Schema := .primitive .unit

/-- A value that may be absent: an enumeration of two variants. -/
def optional (item : Schema) : Schema :=
  .enum [("None", .none), ("Some", .unnamed [item])]

/-- The width of the count at the front of a value, if it starts with one. -/
def sizeLength? : Schema → Option PrefixWidth
  | list size _ | set size _ | map size _ _ | string size => some size
  | _ => Option.none

/-- The schema with the width of its count replaced, if it has one. -/
def withSizeLength (size : PrefixWidth) : Schema → Schema
  | list _ item => list size item
  | set _ member => set size member
  | map _ key value => map size key value
  | string _ => string size
  | s => s

end Schema

end ContractKit
