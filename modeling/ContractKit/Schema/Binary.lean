import ContractKit.Schema.Basic
import ContractKit.Wire.Emit
import ContractKit.Wire.Read

/-!
# `Schema/Binary.lean`: the binary form of schemas

Every node starts with its tag byte. Primitive nodes are that byte; after it come, for the others,
the byte of the count's width, the length of an array, the schemas below, or the fields. Fields start
with a byte of their own and a count. Counts, array lengths and the lengths of names take four bytes.

Reading is a recursion on a depth budget. Each level consumes a byte before it goes deeper, so a
budget above the number of bytes is never used up: `Schema.decode` takes the least such budget, and
running out of budget means the same as running out of bytes.
-/

set_option autoImplicit false

namespace ContractKit.Schema

/-! ## Writing -/

def lengthFormat : LittleEndian.Format := ⟨4, false⟩

def namedByte : UInt8 := 0

def unnamedByte : UInt8 := 1

def noneByte : UInt8 := 2

mutual

/-- The writes of a schema: the tag of each node, what there is to say of the node itself, and then its
parts. A hole has no tag, so it is refused. -/
def emit : Schema → Emit
  | .primitive tag => Emit.byte tag.byte
  | .pair first second => Emit.byte TypeTag.pair.byte ++ (emit first ++ emit second)
  | .list size item => Emit.byte TypeTag.list.byte ++ (Emit.byte size.code ++ emit item)
  | .set size member => Emit.byte TypeTag.set.byte ++ (Emit.byte size.code ++ emit member)
  | .map size key value =>
    Emit.byte TypeTag.map.byte ++ (Emit.byte size.code ++ (emit key ++ emit value))
  | .array length item =>
    Emit.byte TypeTag.array.byte ++ (Emit.int lengthFormat length ++ emit item)
  | .string size => Emit.byte TypeTag.string.byte ++ Emit.byte size.code
  | .struct fields => Emit.byte TypeTag.struct.byte ++ emitFields fields
  | .enum variants =>
    Emit.byte TypeTag.enum.byte ++
      (Emit.count .four variants.length ++ emitVariants variants)
  | .hole => Emit.fail (.typeIssue .missingSchema)

def emitFields : Fields → Emit
  | .named fields =>
    Emit.byte namedByte ++ (Emit.count .four fields.length ++ emitNamed fields)
  | .unnamed items =>
    Emit.byte unnamedByte ++ (Emit.count .four items.length ++ emitItems items)
  | .none => Emit.byte noneByte
  | .hole => Emit.fail (.typeIssue .missingFields)

def emitNamed : List (String × Schema) → Emit
  | [] => Emit.nothing
  | (name, s) :: rest => (Emit.prefixedText .four name ++ emit s) ++ emitNamed rest

def emitItems : List Schema → Emit
  | [] => Emit.nothing
  | s :: rest => emit s ++ emitItems rest

def emitVariants : List (String × Fields) → Emit
  | [] => Emit.nothing
  | (name, fields) :: rest => (Emit.prefixedText .four name ++ emitFields fields) ++ emitVariants rest

end

def encode (s : Schema) : Except Fault Bytes := s.emit.toBytes

/-! ## Reading -/

def readSize : Read PrefixWidth :=
  .byte fun b =>
    match PrefixWidth.ofCode? b with
    | some w => .done w
    | none => .fail (.wire (.badSizeLength b))

/-- The next name with what follows it. -/
def readNamed {α : Type} (item : Read α) : Read (String × α) :=
  (Read.prefixedText .four).bind fun name => item.bind fun a => .done (name, a)

/-- The next description of fields, given how to read a schema. Reading is given by its nodes, so that
the budget for the depth is spent in one place (`read`). -/
def readFields (item : Read Schema) : Read Fields :=
  .byte fun b =>
    if b = namedByte then
      (Read.prefixedItems .four (readNamed item)).bind fun fields => .done (.named fields)
    else if b = unnamedByte then
      (Read.prefixedItems .four item).bind fun items => .done (.unnamed items)
    else if b = noneByte then .done .none
    else .fail (.wire (.badFieldsTag b))

/-- What follows the tag of a node, given how to read a schema. -/
def readBody (item : Read Schema) : TypeTag → Read Schema
  | .pair => item.bind fun first => item.bind fun second => .done (.pair first second)
  | .list => readSize.bind fun size => item.bind fun s => .done (.list size s)
  | .set => readSize.bind fun size => item.bind fun s => .done (.set size s)
  | .map =>
    readSize.bind fun size =>
      item.bind fun key => item.bind fun value => .done (.map size key value)
  | .array =>
    (Read.int lengthFormat).bind fun length => item.bind fun s => .done (.array length s)
  | .string => readSize.bind fun size => .done (.string size)
  | .struct => (readFields item).bind fun fields => .done (.struct fields)
  | .enum =>
    (Read.prefixedItems .four (readNamed (readFields item))).bind fun variants =>
      .done (.enum variants)
  | tag => .done (.primitive tag)

/-- The next schema, of a depth below the budget. Each node takes a byte, so a budget of more than there
are bytes is never used up (`decode`). -/
def read : (budget : Nat) → Read Schema
  | 0 => .fail (.wire .outOfData)
  | budget + 1 =>
    .byte fun b =>
      match TypeTag.ofByte? b with
      | some tag => readBody (read budget) tag
      | none => .fail (.wire (.badTypeTag b))

/-- The schema that a whole byte string stands for. -/
def decode (data : Bytes) : Except Fault Schema := (read (data.length + 1)).runAll data

end ContractKit.Schema
