import ContractKit.Classes
import ContractKit.Fault.Gather
import ContractKit.Shape.Basic

/-!
# `Shape/Plan.lean`: the plan of a field

The attributes of a field choose its plan. The length attributes are looked for in a fixed order and
the first one given decides, so the others are not even looked at. A map or a set is read with its keys
ascending if the attribute that asks for it is given, and with equal keys resolved if not.
-/

set_option autoImplicit false

namespace ContractKit.FieldPlan

/-- The policy of a container with a length attribute. The flag for the order is looked up for
containers that have keys, and means nothing for any other. -/
def orderOf (kind : ContainerKind) (attrs : List Attribute) : Except Fault OrderPolicy :=
  match kind with
  | .map | .set =>
    match Attribute.hasFlag "ensure_ordered" attrs with
    | .error report => .error (.derive report)
    | .ok true => .ok .strictlyIncreasing
    | .ok false => .ok .unique
  | _ => .ok .unchecked

/-- How a field of a type is written, going through some kinds of length attributes. The first kind that
is given decides; those behind it are not looked at. -/
def strategyOf (type : Ty) (span : Span) (attrs : List Attribute) :
    List ContainerKind → Except Fault Strategy
  | [] => .ok .delegate
  | kind :: kinds =>
    match Attribute.findLength? kind.attr attrs with
    | .error report => .error (.derive report)
    | .ok none => strategyOf type span attrs kinds
    | .ok (some width) => do
      locate (span.atAttribute kind.attr) (kind.check type)
      let order ← orderOf kind attrs
      pure (.prefixed width kind order)

/-- The plan of a field with an annotation. Unknown attributes are refused before any is looked up, and
all faults are at the place of the field. -/
def ofHint (chars : Text.CharNames) (name : String) (hint : TypeHint) (span : Span) :
    Except Fault FieldPlan := do
  let attrs ← hint.attributes chars span
  match Attribute.checkSite .field attrs with
  | .error report => throw (.derive report)
  | .ok () => pure ()
  let type := hint.type.stripped
  let strategy ← strategyOf type span attrs ContainerKind.all
  pure ⟨name, type, strategy, span⟩

end ContractKit.FieldPlan
