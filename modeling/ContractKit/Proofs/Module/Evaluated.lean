import ContractKit.Module.Body
import ContractKit.Proofs.Codec.Faults

/-!
# `Proofs/Module/Evaluated.lean`: how evaluating fails

Types and values are evaluated in a scope, and what can be wrong with them is many things. One thing
it is not: nothing that contract code evaluates aborts a call in the name of the library. The only
aborts that leave an evaluation are those that a declared class raises with a text of its own.
-/

set_option autoImplicit false

namespace ContractKit

open Source

/-- The faults that contract code ends with: an aborted call among them has a text of the contract's
own. -/
def Fault.ByContract : Fault → Prop
  | .trap (.byContract _) cause => cause = none
  | .trap _ _ => False
  | _ => True

namespace Fault

theorem byContract_of_badValue {f : Fault} (h : f.BadValue) : f.ByContract := by
  cases f with
  | trap reason cause => cases h
  | _ => trivial

theorem byContract_ofKind (kind : FaultKind) (text : String) : (ofKind kind text).ByContract := by
  unfold ofKind
  split
  · rfl
  · trivial

theorem byContract_ofCode (kind : FaultKind) (text : String) : (ofCode kind text).ByContract := by
  unfold ofCode
  split <;> trivial

end Fault

namespace Codec

theorem WriteFault.byContract {c : Codec} {f : Fault} (h : WriteFault c f) : f.ByContract := by
  cases h with
  | badValue h => exact Fault.byContract_of_badValue h
  | missingItem h => trivial
  | missingField => trivial

theorem ReadFault.byContract {c : Codec} {f : Fault} (h : ReadFault c f) : f.ByContract := by
  cases h with
  | badValue h => exact Fault.byContract_of_badValue h
  | rejected hd htarget hr => exact Fault.byContract_ofCode _ _

end Codec

/-! ## Instances -/

namespace Module

theorem confined_build (target : Target) (items : List Value) :
    Confined Fault.ByContract (target.build items) := by
  refine (Codec.confined_build (c := .unit target ⟨true, true⟩) ?_ items).mono fun f h =>
    h.readFault.byContract
  simp [Codec.targets]

theorem confined_itemsOf (cls : RecordClass) (defaults : List (String × Value))
    (optional : List String) (given : List (String × Value)) :
    Confined Fault.ByContract (itemsOf cls defaults optional given) := by
  unfold itemsOf
  split
  · exact .error trivial
  · dsimp only
    split
    · exact .ok _
    · exact .error trivial

theorem confined_instance (m : Module) (inner : Names) (path : String) (raw : Bool)
    (given : List (String × Value)) : Confined Fault.ByContract (m.build inner path raw given) := by
  unfold build
  split
  · exact .error trivial
  · refine Confined.ite (.ok _) ?_
    exact .bind (confined_itemsOf _ _ _ _) fun _ _ => confined_build _ _

theorem confined_memberNamed (m : Module) (inner : Names) (path : String) :
    Confined Fault.ByContract (m.memberNamed inner path) := by
  have hmissing : Confined Fault.ByContract
      (.error (.raised .missingMember path) : Except Fault Value) := .error trivial
  unfold memberNamed
  dsimp only
  split
  · split
    · split
      · split
        · exact .ok _
        -- a member that repeats another one has its name in the scope
        · split
          · exact .ok _
          · exact hmissing
      · exact hmissing
    · exact hmissing
  · exact hmissing

end Module

/-! ## Values -/

theorem Value.confined_add (left right : Value) : Confined Fault.ByContract (left.add right) := by
  unfold Value.add
  split
  · exact .ok _
  · exact .ok _
  · exact .ok _
  · exact .error trivial
  · exact .error trivial
  · exact .error trivial
  · split
    · exact .ok _
    · exact .ok _
    · exact .error trivial
    · exact .error trivial

namespace Scope

variable (scope : Scope)

theorem confined_bar (left right : Ty) : Confined Fault.ByContract (scope.bar left right) :=
  Confined.ite (.ok _) (Confined.ite (.ok _) (.error trivial))

theorem confined_markerTexts (vs : List Value) : Confined Fault.ByContract (markerTexts vs) := by
  induction vs with
  | nil => exact .ok _
  | cons v rest ih =>
    cases v with
    | text s => exact .map ih
    | _ => exact .error trivial

theorem confined_setOf (frozen : Bool) (vs : List Value) :
    Confined Fault.ByContract (setOf frozen vs) :=
  Confined.ite (.ok _) (.error trivial)

theorem confined_dictOf (es : List (Value × Value)) : Confined Fault.ByContract (dictOf es) :=
  Confined.ite (.ok _) (.error trivial)

mutual

theorem confined_hint : ∀ t : TypeExpr, Confined Fault.ByContract (hint scope t)
  | .annotated base metadata =>
    .bind (confined_hint base) fun _ _ => .bind (confined_metadataOf metadata) fun _ _ => .ok _
  | .type _ | .forward _ => .ok _
  | .named path => by
    rw [hint]
    split
    · exact .ok _
    · exact .error trivial
  | .list t | .set t | .frozenset t | .varTuple t | .optional t | .ok t | .err t | .stateRef t =>
    .bind (confined_hint t) fun _ _ => .ok _
  | .tuple ts | .union ts => .bind (confined_types ts) fun _ _ => .ok _
  | .dict a b | .result a b =>
    .bind (confined_hint a) fun _ _ => .bind (confined_hint b) fun _ _ => .ok _
  | .bar a b => .bind (confined_hint a) fun _ _ => .bind (confined_hint b) fun _ _ =>
    .bind (scope.confined_bar _ _) fun _ _ => .ok _

theorem confined_types : ∀ ts : List TypeExpr, Confined Fault.ByContract (types scope ts)
  | [] => .ok _
  | t :: ts => .bind (confined_hint t) fun _ _ => .bind (confined_types ts) fun _ _ => .ok _

theorem confined_metadataOf : ∀ ms : List MetadataExpr,
    Confined Fault.ByContract (metadataOf scope ms)
  | [] => .ok _
  | .text _ :: rest => .bind (confined_metadataOf rest) fun _ _ => .ok _
  | .marker items options :: rest =>
    .bind (confined_values items) fun _ _ => .bind (confined_namedValues options) fun _ _ =>
      .bind (confined_markerTexts _) fun _ _ => .bind (confined_metadataOf rest) fun _ _ => .ok _

/-- **Evaluating ends with a value or with a fault of the contract's own.** By induction over
expressions. Such a fault never aborts a call for a reason that the library alone gives, as that the
state cannot be read. -/
theorem confined_value : ∀ e : Expr, Confined Fault.ByContract (value scope e)
  | .none | .bool _ | .int _ | .text _ | .bytes _ | .action _ | .intSet _ _ => .ok _
  | .list items | .tuple items => .bind (confined_values items) fun _ _ => .ok _
  | .set members | .frozenset members =>
    .bind (confined_values members) fun _ _ => confined_setOf _ _
  | .dict entries => .bind (confined_pairs entries) fun _ _ => confined_dictOf _
  | .repeated item _ => .bind (confined_value item) fun _ _ => .ok _
  | .intDict _ _ v => .bind (confined_value v) fun _ _ => .ok _
  | .record path raw fields =>
    .bind (confined_namedValues fields) fun _ _ => scope.module.confined_instance _ path raw _
  | .member path => scope.module.confined_memberNamed scope.inner path
  | .ok v | .err v => .bind (confined_value v) fun _ _ => .ok _
  | .type t => by
    refine .bind (confined_hint t) fun _ _ => ?_
    split <;> exact .ok _
  | .variable name => by
    rw [value]
    split
    · exact .ok _
    · exact .error trivial
  | .field of name => by
    refine .bind (confined_value of) fun _ _ => ?_
    split
    · exact .ok _
    · exact .error trivial
  | .add left right => .bind (confined_value left) fun _ _ =>
    .bind (confined_value right) fun _ _ => Value.confined_add _ _
  | .size of => by
    refine .bind (confined_value of) fun _ _ => ?_
    split
    · exact .ok _
    · exact .error trivial

theorem confined_values : ∀ es : List Expr, Confined Fault.ByContract (values scope es)
  | [] => .ok _
  | e :: es => .bind (confined_value e) fun _ _ => .bind (confined_values es) fun _ _ => .ok _

theorem confined_namedValues : ∀ es : List (String × Expr),
    Confined Fault.ByContract (namedValues scope es)
  | [] => .ok _
  | (_, e) :: es =>
    .bind (confined_value e) fun _ _ => .bind (confined_namedValues es) fun _ _ => .ok _

theorem confined_pairs : ∀ es : List (Expr × Expr), Confined Fault.ByContract (pairs scope es)
  | [] => .ok _
  | (k, v) :: es => .bind (confined_value k) fun _ _ => .bind (confined_value v) fun _ _ =>
    .bind (confined_pairs es) fun _ _ => .ok _

end

theorem confined_type (t : TypeExpr) : Confined Fault.ByContract (scope.type t) :=
  .bind (scope.confined_hint t) fun _ _ => .ok _

end Scope

end ContractKit
