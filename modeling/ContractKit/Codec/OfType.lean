import ContractKit.Classes

/-!
# `Codec/OfType.lean`: the codec of a type annotation

The codec of an annotation is put together from those of its parts. A class brings the codec that was
derived for it, metadata is passed over, and an annotation without a codec is refused with the first
reason found from the outside in: a container asks whether its keys are hashable before it looks for
their codec.

`prefixed` is the codec of an annotation whose prefix has a width of its own, as a field with a length
attribute has. The standard widths and order policies are those of `ofType`.
-/

set_option autoImplicit false

namespace ContractKit.Codec

def reject {α : Type} (issue : TypeIssue) : Except Fault α := .error (.typeIssue issue)

/-- Refuse a type of keys that are not hashable, showing it in the given way. -/
def ensureHashable (classes : Classes) (t : Ty) (shown : String) : Except Fault Unit :=
  if t.isHashable classes then .ok () else reject (.notHashable shown)

/-- The codec of a container that does not say what it holds. -/
def ofBare {α : Type} : Container → Except Fault α
  | .dict => reject .mapArguments
  | .tuple => reject .tupleArguments
  | container => reject (.oneArgument container.name)

def ofClass (classes : Classes) (ref : ClassRef) : Except Fault Codec :=
  match (classes ref.id).codec with
  | some c => .ok c
  | none =>
    if ref.id == ClassRef.contractAddress.id then .ok .contractAddress
    else reject (.noCodec (Ty.cls ref).shown)

mutual

/-- The codec of an annotation. Classes have the codec that was derived for them; the other annotations
are built up from those of their parts, and refused where a container names no parts or keys cannot be
hashed. -/
def ofType (classes : Classes) : Ty → Except Fault Codec
  | .annotated base _ => ofType classes base
  | .sized i => .ok (.int i.format)
  | .accountAddress => .ok .accountAddress
  | .bool => .ok .bool
  | .bytes => .ok (.bytes .standard .unchecked)
  | .text => .ok (.text .standard .unchecked)
  | .cls ref => ofClass classes ref
  | .bare container => ofBare container
  | .list item => do
    let c ← ofType classes item
    pure (.sequence false c .standard .unchecked)
  | .set member => do
    ensureHashable classes member.stripped member.stripped.shown
    let c ← ofType classes member
    pure (.set false c .standard .strictlyIncreasing)
  | .frozenset member => do
    ensureHashable classes member.stripped member.stripped.shown
    let c ← ofType classes member
    pure (.set true c .standard .strictlyIncreasing)
  | .dict key value => do
    ensureHashable classes key.stripped key.shown
    let k ← ofType classes key
    let v ← ofType classes value
    pure (.map k v .standard .strictlyIncreasing)
  | .tuple [item, .dots] => do
    let c ← ofType classes item
    pure (.varTuple c)
  | .tuple args =>
    match args.getLast? with
    | some .dots => reject .misplacedEllipsis
    | _ => do
      let cs ← ofTypes classes args
      pure (.tuple cs)
  | .union _ [.noneType, t] => do
    let c ← ofType classes t
    pure (.optional c)
  | .union _ [t, .noneType] => do
    let c ← ofType classes t
    pure (.optional c)
  | .union _ _ => reject .notOptional
  | .forward name => reject (.unresolved (Text.quoted name))
  | .int => reject .unsizedInteger
  | t => reject (.noCodec t.shown)

/-- The codecs of some annotations, up to the first that has none. -/
def ofTypes (classes : Classes) : List Ty → Except Fault (List Codec)
  | [] => .ok []
  | t :: ts => do
    let c ← ofType classes t
    let cs ← ofTypes classes ts
    pure (c :: cs)

end

/-- The width of that many bytes, which has to be one that a prefix may have. -/
def widthOf (width : Int) : Except Fault PrefixWidth :=
  match PrefixWidth.ofInt? width with
  | some w => .ok w
  | none => reject (.badWidth width)

/-- The codec of an annotation whose prefix, of the given kind, has a width and a policy of its own.
The parts are looked up before the width is checked. -/
def prefixed (classes : Classes) (kind : ContainerKind) (width : Int) (order : OrderPolicy) (t : Ty) :
    Except Fault Codec := do
  kind.check t
  match t.stripped with
  | .bytes => return .bytes (← widthOf width) order
  | .text => return .text (← widthOf width) order
  | .bare container => ofBare container
  | .list item =>
    let c ← ofType classes item
    return .sequence false c (← widthOf width) order
  | .tuple [item, .dots] =>
    let c ← ofType classes item
    return .sequence true c (← widthOf width) order
  | .set member =>
    ensureHashable classes member.stripped member.stripped.shown
    let c ← ofType classes member
    return .set false c (← widthOf width) order
  | .frozenset member =>
    ensureHashable classes member.stripped member.stripped.shown
    let c ← ofType classes member
    return .set true c (← widthOf width) order
  | .dict key value =>
    ensureHashable classes key.stripped key.shown
    let k ← ofType classes key
    let v ← ofType classes value
    return .map k v (← widthOf width) order
  | t => reject (.noCodec t.shown)

end ContractKit.Codec
