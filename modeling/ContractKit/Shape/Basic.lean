import ContractKit.Attribute.Marker
import ContractKit.Codec.Basic

/-!
# `Shape/Basic.lean`: the shape of a class

Before a codec or a schema is derived for a class, the class is reduced to its shape: a struct, a class
without fields, or an enumeration, with a plan for every field. A plan says how the field is written:
as its type says, or with a prefix that its attributes choose. Codec and schema are made from the same
plans, so they agree on the format.
-/

set_option autoImplicit false

namespace ContractKit

/-! ## What is declared -/

/-- A field of a class as it is declared. Its hint is kept as it was written: attributes on it are read
when the field is planned, so that what is wrong is reported with the field's name. -/
structure FieldDecl where
  name : String
  hint : TypeHint
  /-- Whether instances are built with a value for the field. -/
  given : Bool := true

/-- A class with fields as it is declared. -/
structure RecordDecl where
  target : Target
  fields : List FieldDecl

/-- What kind of class is declared. The form decides what the shape of the class is; a plain class has
none, so neither a codec nor a schema is derived for it. -/
inductive ClassForm
  | record (decl : RecordDecl)
  /-- A class whose values are instances of the classes declared in its body. -/
  | sum (variants : List RecordDecl)
  /-- A class with a fixed list of members. -/
  | enum (members : List Member)
  | plain

/-! ## Plans -/

/-- How a field is written. Codecs and schemas are both made from the same plan of a field, so they
agree on every prefix. -/
inductive Strategy
  /-- As its type says. -/
  | delegate
  /-- With a prefix of its own. -/
  | prefixed (width : PrefixWidth) (kind : ContainerKind) (order : OrderPolicy)
  deriving DecidableEq, Repr

/-- What is derived for a field: how it is written, and where to report it when its type has no codec. Codec
and schema of the field are both functions of the plan. -/
structure FieldPlan where
  name : String
  /-- The declared type without the metadata around it. -/
  type : Ty
  strategy : Strategy
  span : Span

/-- The plans of the fields of a class. Whether the fields have names makes no difference to the bytes,
but it does to the schema. -/
inductive FieldPlans
  | none
  | named (plans : List FieldPlan)
  | unnamed (plans : List FieldPlan)

/-- The plans, in the order of declaration. -/
def FieldPlans.toList : FieldPlans → List FieldPlan
  | none => []
  | named plans | unnamed plans => plans

/-! ## Shapes -/

/-- A variant of an enumeration. -/
structure Variant where
  target : Target
  fields : FieldPlans

/-- The name of a variant: that of its class. -/
def Variant.name (v : Variant) : String := v.target.cls.ref.shortName

/-- The shape of a class: all that its codec and its schema are made of. The tag of an enumeration is chosen
here, from the number of its cases, so that there is no shape of too many. -/
inductive Shape
  | struct (target : Target) (fields : FieldPlans)
  | unit (target : Target)
  | variants (enum : ClassRef) (tag : TagWidth) (cases : List Variant)
  | members (enum : ClassRef) (tag : TagWidth) (cases : List Member)

end ContractKit
