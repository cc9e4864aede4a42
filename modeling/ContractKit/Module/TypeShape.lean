import ContractKit.Contract.Context
import ContractKit.Module.Decorate

/-!
# `Module/TypeShape.lean`: the shape of a type

Every class has a shape or is refused one: the classes of the runtime too, whose fields are known here.
Types that are no classes have none.
-/

set_option autoImplicit false

namespace ContractKit

namespace ClassForm

/-- A class of the runtime with its fields. -/
def runtime (cls : RecordClass) (types : List Ty) : ClassForm :=
  .record ⟨⟨cls, none⟩, cls.fields.zipWith (fun name t => ⟨name, ⟨t, []⟩, true⟩) types⟩

def senderType : Ty := .unionOf [.accountAddress, .cls .contractAddress]

/-- The form of a class that is not declared, by its name. -/
def ofNative : String → ClassForm
  | "ContractAddress" => runtime .contractAddress [.sized .u64, .sized .u64]
  | "ChainMetadata" => runtime .chainMetadata [.sized .timestamp]
  | "InitContext" =>
    runtime .initContext [.cls RecordClass.chainMetadata.ref, .accountAddress, .bytes]
  | "ReceiveContext" =>
    runtime .receiveContext
      [.cls RecordClass.chainMetadata.ref, .accountAddress, .cls .contractAddress, .sized .amount,
       senderType, .accountAddress, .bytes]
  | _ => .plain

end ClassForm

namespace Ty

/-- The name that a type has of its own, or else how it is shown. A container has the name of its
kind. -/
def ownName : Ty → String
  | .cls ref => ref.name
  | .list _ => "list"
  | .set _ => "set"
  | .frozenset _ => "frozenset"
  | .dict _ _ => "dict"
  | .tuple _ => "tuple"
  | t => t.shown

def class? (t : Ty) : Option ClassRef :=
  match t with
  | .cls ref => some ref
  | .bool | .text | .bytes | .int | .float | .any | .noneType | .bare _ =>
    some ⟨.native t.ownName, t.ownName, "builtins"⟩
  | _ => Option.none

end Ty

namespace Module

def formOf (m : Module) (ref : ClassRef) : ClassForm :=
  match ref.id with
  | .native name => ClassForm.ofNative name
  | .declared place => ((m.classes[place]?).map (·.form)).getD .plain

/-- The shape of a type, found anew. -/
def shapeOfType (m : Module) (t : Ty) : Except Fault Shape :=
  match t.class? with
  | some ref => Shape.ofClass m.chars m.typeNamed ref (m.formOf ref)
  | none => problem "only classes can be derived" { item := t.ownName }

end Module

end ContractKit
