import ContractKit.Codec.OfType

/-!
# `Schema/OfType.lean`: the schema of a type annotation

The schema of an annotation describes what its codec writes (`Codec/OfType.lean`). A class brings the
schema that was derived for it. Fewer annotations have a schema than have a codec, since tuples of
more than two items have none.
-/

set_option autoImplicit false

namespace ContractKit.Schema

def ofSized : SizedInt → Schema
  | .u8 => .primitive .u8
  | .u16 => .primitive .u16
  | .u32 => .primitive .u32
  | .u64 => .primitive .u64
  | .u128 => .primitive .u128
  | .i8 => .primitive .i8
  | .i16 => .primitive .i16
  | .i32 => .primitive .i32
  | .i64 => .primitive .i64
  | .i128 => .primitive .i128
  | .amount => .primitive .amount
  | .timestamp => .primitive .timestamp
  | .duration => .primitive .duration

def reject {α : Type} (issue : TypeIssue) : Except Fault α := .error (.typeIssue issue)

def ofClass (classes : Classes) (ref : ClassRef) : Except Fault Schema :=
  match (classes ref.id).schema with
  | some s => .ok s
  | Option.none =>
    if ref.id == ClassRef.contractAddress.id then .ok (.primitive .contractAddress)
    else reject (.noSchema (Ty.cls ref).shown)

/-- The schema of an annotation. It follows the codec of the annotation node by node, as far as schemas
have a word for it: there is none for tuples of one item or of more than two. -/
def ofType (classes : Classes) : Ty → Except Fault Schema
  | .annotated base _ => ofType classes base
  | .sized int => .ok (ofSized int)
  | .accountAddress => .ok (.primitive .accountAddress)
  | .bool => .ok (.primitive .bool)
  | .bytes => .ok (.list .standard (.primitive .u8))
  | .text => .ok (.string .standard)
  | .cls ref => ofClass classes ref
  | .list item => do
    let s ← ofType classes item
    pure (.list .standard s)
  | .set member => do
    let s ← ofType classes member
    pure (.set .standard s)
  | .frozenset member => do
    let s ← ofType classes member
    pure (.set .standard s)
  | .dict key value => do
    let k ← ofType classes key
    let v ← ofType classes value
    pure (.map .standard k v)
  | .tuple [item, .dots] => do
    let s ← ofType classes item
    pure (.list .standard s)
  | .tuple [] => .ok unit
  | .tuple [first, second] => do
    let a ← ofType classes first
    let b ← ofType classes second
    pure (.pair a b)
  | .tuple args => reject (.tupleArity args.length)
  | .union _ [.noneType, t] => do
    let s ← ofType classes t
    pure (optional s)
  | .union _ [t, .noneType] => do
    let s ← ofType classes t
    pure (optional s)
  | t => reject (.noSchema t.shown)

/-- The schema with its count in that many bytes, if a width is given and it has a count. A width has
to be one that a prefix may have even where there is no count. -/
def resized (s : Schema) (width : Option Int) : Except Fault Schema :=
  match width with
  | Option.none => .ok s
  | some n => do
    let size ← Codec.widthOf n
    match s with
    | .hole => throw (.raised .missingMember "size_length")
    | s => pure (s.withSizeLength size)

end ContractKit.Schema
