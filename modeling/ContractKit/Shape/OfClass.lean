import ContractKit.Shape.Plan
import ContractKit.Ty.Resolve

/-!
# `Shape/OfClass.lean`: the shape of a declared class

A class with fields is a struct, or a class without fields if it has none; a sum and a class with
members are enumerations. The names in the annotations are looked up first, and a name that is not
found is the one problem reported for the class. After that every field is looked at, and all their
problems are reported together.
-/

set_option autoImplicit false

namespace ContractKit

namespace RecordDecl

/-- The fields of a class with the names in their annotations looked up. -/
def hints (names : String → Except Fault Ty) (decl : RecordDecl) : Except Fault (List FieldDecl) :=
  decl.fields.mapM fun f => do
    let type ← f.hint.type.resolveHint names
    pure { f with hint := { f.hint with type } }

/-- The problem with a field that instances are not built with. -/
def undecodable (span : Span) (f : FieldDecl) : Option Diagnostic :=
  if f.given then none
  else some ⟨"fields with init=False cannot be decoded", span.atField f.name⟩

/-- The plans of the fields of a class at a place. -/
def plans (chars : Text.CharNames) (names : String → Except Fault Ty) (decl : RecordDecl)
    (span : Span) : Except Fault FieldPlans := do
  let fields ← match decl.hints names with
    | .ok fields => pure fields
    | .error f =>
      throw (.derive (.single ("cannot resolve the field annotations: " ++ f.text) span))
  let (plans, problems) ← gather (fields.map fun f =>
    FieldPlan.ofHint chars f.name f.hint (span.atField f.name))
  if decl.target.cls.isPositional then settle (.unnamed plans) problems
  else if fields.isEmpty then pure .none
  else settle (.named plans) (fields.filterMap (undecodable span) ++ problems)

end RecordDecl

namespace Shape

/-- The tag of an enumeration with so many variants. -/
def tagFor (count : Nat) (span : Span) : Except Fault TagWidth :=
  locate span (TagWidth.forCount count)

def ofRecord (chars : Text.CharNames) (names : String → Except Fault Ty) (decl : RecordDecl)
    (span : Span) : Except Fault Shape := do
  match ← decl.plans chars names span with
  | .none => pure (.unit decl.target)
  | fields => pure (.struct decl.target fields)

/-- The variant that a class in the body of a sum is. -/
def variantOf (chars : Text.CharNames) (names : String → Except Fault Ty) (sum : ClassRef)
    (decl : RecordDecl) : Except Fault Variant := do
  let item := sum.name ++ "." ++ decl.target.cls.ref.shortName
  let fields ← decl.plans chars names { item }
  pure ⟨decl.target, fields⟩

/-- The shape of a class. -/
def ofClass (chars : Text.CharNames) (names : String → Except Fault Ty) (ref : ClassRef)
    (form : ClassForm) : Except Fault Shape :=
  let span : Span := { item := ref.name }
  match form with
  | .enum ms => do
    let tag ← tagFor ms.length span
    pure (.members ref tag ms)
  | .sum decls => do
    let tag ← tagFor decls.length span
    let cases ← gatherAll (decls.map (variantOf chars names ref))
    pure (.variants ref tag cases)
  | .record decl => ofRecord chars names decl span
  | .plain =>
    .error (.derive (.single
      s!"{ref.name} must be a dataclass, a NamedTuple, a SumType or an enum.Enum subclass" span))

end Shape

end ContractKit
