import ContractKit.Bytes.LittleEndian
import ContractKit.Text.Quoted

/-!
# `Ty/Basic.lean`: type annotations

`Ty` is the language of annotations: what a field, a parameter, a state or a result may be declared
as. Not every annotation has a codec or a schema; those that have none are part of the language all
the same, because the report that refuses them shows them.

A union is kept in normal form by its constructors `Ty.unionOf` and `Ty.barOf`: flat, without
repetitions, with at least two members. Classes are referred to by identity (`ClassRef`); what is
derived for a class is kept elsewhere (`Module/Basic.lean`).
-/

set_option autoImplicit false

namespace ContractKit

/-- The identity of a class: one that the library brings, or the n-th declared one. Two declarations of
one name are two classes, so names do not identify them. -/
inductive ClassId
  | native (name : String)
  | declared (index : Nat)
  deriving DecidableEq, Repr

/-- A class as annotations and values refer to it. It is the identity that counts: two classes of one name
are different, and the names are there to be shown. -/
structure ClassRef where
  id : ClassId
  /-- The name with the names of the enclosing classes before it, joined by dots. -/
  name : String
  /-- The place whose name stands before the class's own where it is printed in full. -/
  home : String
  deriving DecidableEq, Repr

namespace ClassRef

/-- The name without those of the enclosing classes. -/
def shortName (c : ClassRef) : String :=
  String.ofList (c.name.toList.reverse.takeWhile (· ≠ '.')).reverse

/-- The name with everything before it. -/
def fullName (c : ClassRef) : String := c.home ++ "." ++ c.name

/-- The class of contract addresses. -/
def contractAddress : ClassRef :=
  ⟨.native "ContractAddress", "ContractAddress", "concordium_derive.types"⟩

end ClassRef

/-- The integer types of a fixed width. The last three have a meaning of their own and the format of
`u64`. -/
inductive SizedInt
  | u8 | u16 | u32 | u64 | u128
  | i8 | i16 | i32 | i64 | i128
  | amount | timestamp | duration
  deriving DecidableEq, Repr

namespace SizedInt

/-- The name of an integer type. -/
def name : SizedInt → String
  | u8 => "U8" | u16 => "U16" | u32 => "U32" | u64 => "U64" | u128 => "U128"
  | i8 => "I8" | i16 => "I16" | i32 => "I32" | i64 => "I64" | i128 => "I128"
  | amount => "Amount" | timestamp => "Timestamp" | duration => "Duration"

/-- All integer types. -/
def all : List SizedInt :=
  [u8, u16, u32, u64, u128, i8, i16, i32, i64, i128, amount, timestamp, duration]

/-- The width and signedness of an integer type. -/
def format : SizedInt → LittleEndian.Format
  | u8 => ⟨1, false⟩ | u16 => ⟨2, false⟩ | u32 => ⟨4, false⟩ | u64 => ⟨8, false⟩
  | u128 => ⟨16, false⟩
  | i8 => ⟨1, true⟩ | i16 => ⟨2, true⟩ | i32 => ⟨4, true⟩ | i64 => ⟨8, true⟩ | i128 => ⟨16, true⟩
  | amount | timestamp | duration => ⟨8, false⟩

end SizedInt

/-- The containers that an annotation may name without saying what they hold. -/
inductive Container
  | list | set | frozenset | dict | tuple
  deriving DecidableEq, Repr

/-- The name of a container. -/
def Container.name : Container → String
  | .list => "list" | .set => "set" | .frozenset => "frozenset" | .dict => "dict"
  | .tuple => "tuple"

/-- The two ways of writing a union. They differ in how they are printed alone. -/
inductive UnionSpelling
  | named
  | bar
  deriving DecidableEq, Repr

/-- A type annotation, evaluated: names are looked up and unions flattened. The constructors are those of
what can be written, with a meaning here or not, so that a refusal can show what it refuses. -/
inductive Ty
  | sized (int : SizedInt)
  | accountAddress
  | bool
  | text
  | bytes
  | int
  | float
  | any
  /-- The absent value, given as an annotation. -/
  | none
  /-- The type of the absent value. -/
  | noneType
  /-- The mark that ends the arguments of a tuple of any length. -/
  | dots
  | bare (container : Container)
  | cls (ref : ClassRef)
  /-- Something that is not a type at all, as it is printed. -/
  | object (shown : String)
  | list (item : Ty)
  | set (member : Ty)
  | frozenset (member : Ty)
  | dict (key value : Ty)
  | tuple (args : List Ty)
  | union (spelling : UnionSpelling) (members : List Ty)
  /-- A type with metadata, each piece as it is printed. -/
  | annotated (base : Ty) (metadata : List String)
  /-- The name of a type, not yet looked up. -/
  | forward (name : String)
  /-- The same, inside a form that keeps such names apart from other texts. -/
  | forwardRef (name : String)
  | ok (value : Ty)
  | err (error : Ty)
  | stateRef (state : Ty)

namespace Ty

instance : Inhabited Ty := ⟨.none⟩

/-- Tuples of any length. -/
def varTuple (item : Ty) : Ty := .tuple [item, .dots]

/-- The type without the metadata around it. -/
def stripped : Ty → Ty
  | .annotated base _ => base.stripped
  | t => t

/-! ## Equality

Two unions are equal when each holds the members of the other, however they are written. -/

mutual

/-- Whether two annotations are the same type. -/
def beq : Ty → Ty → Bool
  | .sized a, .sized b => a == b
  | .accountAddress, .accountAddress | .bool, .bool | .text, .text | .bytes, .bytes
  | .int, .int | .float, .float | .any, .any | .none, .none | .noneType, .noneType
  | .dots, .dots => true
  | .bare a, .bare b => a == b
  | .cls a, .cls b => a == b
  | .object a, .object b => a == b
  | .list a, .list b => beq a b
  | .set a, .set b => beq a b
  | .frozenset a, .frozenset b => beq a b
  | .dict k v, .dict k' v' => beq k k' && beq v v'
  | .tuple as, .tuple bs => beqAll as bs
  | .union _ as, .union _ bs => as.length == bs.length && allAmong as bs
  | .annotated a m, .annotated b n => beq a b && m == n
  | .forward a, .forward b => a == b
  | .forwardRef a, .forwardRef b => a == b
  | .ok a, .ok b => beq a b
  | .err a, .err b => beq a b
  | .stateRef a, .stateRef b => beq a b
  | _, _ => false

/-- Whether two lists of annotations agree place by place. -/
def beqAll : List Ty → List Ty → Bool
  | [], [] => true
  | a :: as, b :: bs => beq a b && beqAll as bs
  | _, _ => false

/-- Whether every annotation of the first list is one of the second. -/
def allAmong : List Ty → List Ty → Bool
  | [], _ => true
  | a :: as, bs => bs.any (beq a) && allAmong as bs

end

instance : BEq Ty := ⟨beq⟩

/-! ## Unions -/

/-- The members that a type brings into a union. -/
def unionMembers : Ty → List Ty
  | .union _ members => members
  | .none => [.noneType]
  | .forward name => [.forwardRef name]
  | t => [t]

/-- The list without the entries that repeat an earlier one. -/
def distinct (ts : List Ty) : List Ty :=
  (ts.foldl (fun seen t => if seen.any (beq t) then seen else t :: seen) []).reverse

/-- The union of some types: flat, without repetitions, and the one member alone if there is one. -/
def unionWith (spelling : UnionSpelling) (ts : List Ty) : Ty :=
  match distinct (ts.flatMap unionMembers) with
  | [t] => t
  | members => .union spelling members

/-- The union of some types. -/
def unionOf (ts : List Ty) : Ty := unionWith .named ts

/-- A type or nothing. -/
def optional (t : Ty) : Ty := unionOf [t, .noneType]

/-- Whether a type, on either side of a bar, makes the union one that is printed with its name. -/
def makesNamedUnion : Ty → Bool
  | .sized _ | .accountAddress | .annotated .. | .forwardRef _ | .ok _ | .err _ | .stateRef _
  | .union .named _ => true
  | _ => false

/-- The union of two types written with a bar. -/
def barOf (left right : Ty) : Ty :=
  if left.makesNamedUnion || right.makesNamedUnion then unionOf [left, right]
  else unionWith .bar [left, right]

/-- The type that the generic forms (`ok`, `err`, `stateRef`) keep for an argument. -/
def asArgument : Ty → Ty
  | .none => .noneType
  | .forward name => .forwardRef name
  | t => t

end Ty

end ContractKit
