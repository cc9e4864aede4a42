import ContractKit.Codec.OfType
import ContractKit.Fault.Gather
import ContractKit.Schema.OfType
import ContractKit.Shape.Basic

/-!
# `Shape/Derived.lean`: the codec and the schema of a shape

A struct is its fields in the order of declaration, an enumeration is the number of the variant as a
tag and then the fields of that variant. Every field has to have a codec that can be used in the
directions asked for; the problems of all fields, over all variants, are reported together.

The schema of a shape is made from the same plans, and a prefix that a plan chooses is recorded in it.
-/

set_option autoImplicit false

namespace ContractKit

namespace FieldPlan

/-- The codec of a field, in whatever directions it can be used. -/
def rawCodec (classes : Classes) (p : FieldPlan) : Except Fault Codec :=
  match p.strategy with
  | .delegate => Codec.ofType classes p.type
  | .prefixed width kind order => Codec.prefixed classes kind width.bytes order p.type

/-- The codec of a field, which has to be usable in the given directions. A class that derives less than
is asked for is found here, when the codec around it is derived, and never when it is used. -/
def codec (classes : Classes) (directions : Directions) (p : FieldPlan) : Except Fault Codec :=
  locate p.span do
    let c ← p.rawCodec classes
    if directions.writes && !c.canWrite then
      throw (.derive (.single (p.type.shown ++ " cannot be serialized") p.span))
    if directions.reads && !c.canRead then
      throw (.derive (.single (p.type.shown ++ " cannot be deserialized") p.span))
    pure c

def schema (classes : Classes) (p : FieldPlan) : Except Fault Schema := do
  let s ← locate p.span (Schema.ofType classes p.type)
  match p.strategy with
  | .delegate => pure s
  | .prefixed width _ _ => pure (s.withSizeLength width)

end FieldPlan

namespace FieldPlans

/-- The codecs of the fields, and the problems with those that have none. -/
def codecs (classes : Classes) (directions : Directions) (fields : FieldPlans) :
    Except Fault (List Codec × List Diagnostic) :=
  gather (fields.toList.map (FieldPlan.codec classes directions))

/-- The schemas of the fields, and the problems with those that have none. -/
def schema (classes : Classes) (fields : FieldPlans) :
    Except Fault (Schema.Fields × List Diagnostic) := do
  match fields with
  | .none => pure (.none, [])
  | .named plans =>
    let (fields, problems) ← gather (plans.map fun p =>
      (p.schema classes).map fun s => (p.name, s))
    pure (.named fields, problems)
  | .unnamed plans =>
    let (items, problems) ← gather (plans.map (FieldPlan.schema classes))
    pure (.unnamed items, problems)

end FieldPlans

namespace Shape

/-- The codecs of the fields of each variant, and the problems of all of them. -/
def caseCodecs (classes : Classes) (directions : Directions) :
    List Variant → Except Fault (List (Target × List Codec) × List Diagnostic)
  | [] => .ok ([], [])
  | v :: vs => do
    let (codecs, problems) ← v.fields.codecs classes directions
    let (rest, more) ← caseCodecs classes directions vs
    pure ((v.target, codecs) :: rest, problems ++ more)

/-- The codec of a class of this shape. All fields are tried, those of every variant included, and the
problems with any of them are reported together. -/
def codec (classes : Classes) (directions : Directions) : Shape → Except Fault Codec
  | .struct target fields => do
    let (codecs, problems) ← fields.codecs classes directions
    settle (.struct target directions codecs) problems
  | .unit target => .ok (.unit target directions)
  | .variants enum tag cases => do
    let (cases, problems) ← caseCodecs classes directions cases
    settle (.variants enum directions tag cases) problems
  | .members enum tag cases => .ok (.members enum true directions tag cases)

/-- The schemas of the fields of each variant, and the problems of all of them. -/
def caseSchemas (classes : Classes) :
    List Variant → Except Fault (List (String × Schema.Fields) × List Diagnostic)
  | [] => .ok ([], [])
  | v :: vs => do
    let (fields, problems) ← v.fields.schema classes
    let (rest, more) ← caseSchemas classes vs
    pure ((v.name, fields) :: rest, problems ++ more)

/-- The schema of a class of this shape, with the problems of all fields reported together. -/
def schema (classes : Classes) : Shape → Except Fault Schema
  | .struct _ fields => do
    let (fields, problems) ← fields.schema classes
    settle (.struct fields) problems
  | .unit _ => .ok (.struct .none)
  | .variants _ _ cases => do
    let (described, problems) ← caseSchemas classes cases
    settle (.enum described) problems
  | .members _ _ cases => .ok (.enum (cases.map fun m => (m.name, .none)))

end Shape

end ContractKit
