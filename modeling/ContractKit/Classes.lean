import ContractKit.Codec.Basic
import ContractKit.Schema.Basic
import ContractKit.Ty.Printed

/-!
# `Classes.lean`: what annotations need to know about classes

An annotation refers to a class by identity. Looking up its codec or schema, or asking whether its
instances can be keys or can be changed in place, takes what is known about that class at that moment:
`Classes` is that knowledge as a function. The registry of declared classes provides one
(`Module/Basic.lean`); a class that it does not hold has no codec and no schema.
-/

set_option autoImplicit false

namespace ContractKit

/-- What is known about a class at some moment: whether its instances can be keys, whether they stay as
they are, and the codec and the schema that have been derived for it so far. A class without them is
refused wherever an annotation asks for its codec or its schema. -/
structure ClassFacts where
  /-- Whether instances can be members of sets and keys of maps, as far as the class tells. -/
  hashable : Bool := true
  /-- Whether instances cannot be changed in place. -/
  immutable : Bool := false
  /-- The codec derived for the class itself. -/
  codec : Option Codec := none
  /-- The schema derived for the class itself. -/
  schema : Option Schema := none

/-- What is known about each class, as a function of its identity. Everything that is derived from
annotations is a function of this, so a module only has to say what it knows. -/
abbrev Classes := ClassId → ClassFacts

namespace Ty

/-! ## Keys -/

/-- Whether the values of a type, leaving its arguments aside, can be keys. -/
def isHashableOrigin (classes : Classes) : Ty → Bool
  | .bare container => container == .frozenset || container == .tuple
  | .cls ref => (classes ref.id).hashable
  | .list _ | .set _ | .dict _ _ => false
  | .none | .dots | .forward _ | .forwardRef _ | .object _ => false
  | _ => true

/-- Whether the values of a type can be keys, leaving its arguments aside but asking every member of
a union. -/
def isHashable (classes : Classes) : Ty → Bool
  | .union _ members => members.all (isHashableOrigin classes)
  | t => isHashableOrigin classes t

/-! ## Changing in place -/

/-- Whether values of a type cannot be changed in place. -/
def isImmutable (classes : Classes) : Ty → Bool
  | .sized _ | .accountAddress | .bool | .text | .bytes | .int => true
  | .bare container => container == .frozenset || container == .tuple
  | .frozenset _ | .tuple _ | .union _ _ => true
  | .cls ref => (classes ref.id).immutable
  | _ => false

end Ty

/-! ## Length attributes -/

namespace ContainerKind

/-- Whether the values of a type start with a prefix of a kind. -/
def Fits : ContainerKind → Ty → Prop
  | .sequence, .bytes | .sequence, .bare .list | .sequence, .list _ => True
  | .sequence, .tuple [_, .dots] => True
  | .map, .bare .dict | .map, .dict _ _ => True
  | .set, .bare .set | .set, .bare .frozenset | .set, .set _ | .set, .frozenset _ => True
  | .text, .text => True
  | _, _ => False

instance (kind : ContainerKind) (t : Ty) : Decidable (kind.Fits t) := by
  unfold Fits
  split <;> infer_instance

/-- Refuse a type whose values do not start with a prefix of a kind. -/
def check (kind : ContainerKind) (t : Ty) : Except Fault Unit :=
  if kind.Fits t.stripped then .ok ()
  else .error (.typeIssue (.lengthAttribute kind.attr kind.expected t.stripped.shown))

end ContainerKind

end ContractKit
