import ContractKit.Ty.Basic

/-!
# `Ty/Printed.lean`: how annotations are shown

A message shows a class, a named integer or a bare container by its short name, and everything with
arguments in full, arguments included. Inside the brackets the types that the language brings stand
bare and all others carry the name of their home.
-/

set_option autoImplicit false

namespace ContractKit.Ty

/-- The name of the home of the types that contracts are written with. -/
def typesHome : String := "concordium_derive.types."

mutual

/-- An annotation as an argument of another one. -/
def shownFull : Ty → String
  | .sized format => typesHome ++ format.name
  | .accountAddress => typesHome ++ "AccountAddress"
  | .bool => "bool"
  | .text => "str"
  | .bytes => "bytes"
  | .int => "int"
  | .float => "float"
  | .any => "typing.Any"
  | .none => "None"
  | .noneType => "NoneType"
  | .dots => "..."
  | .bare container => container.name
  | .cls ref => ref.fullName
  | .object shown => shown
  | .list item => "list[" ++ shownFull item ++ "]"
  | .set member => "set[" ++ shownFull member ++ "]"
  | .frozenset member => "frozenset[" ++ shownFull member ++ "]"
  | .dict key value => "dict[" ++ shownFull key ++ ", " ++ shownFull value ++ "]"
  | .tuple [] => "tuple[()]"
  | .tuple args => "tuple[" ++ ", ".intercalate (shownAll args) ++ "]"
  | .union .named [.noneType, t] => "typing.Optional[" ++ shownFull t ++ "]"
  | .union .named [t, .noneType] => "typing.Optional[" ++ shownFull t ++ "]"
  | .union .named members => "typing.Union[" ++ ", ".intercalate (shownAll members) ++ "]"
  | .union .bar members => " | ".intercalate (shownOperands members)
  | .annotated base metadata =>
    "typing.Annotated[" ++ ", ".intercalate (shownFull base :: metadata) ++ "]"
  | .forward name => Text.quoted name
  | .forwardRef name => "ForwardRef(" ++ Text.quoted name ++ ")"
  | .ok value => "concordium_derive.utils.result.Ok[" ++ shownFull value ++ "]"
  | .err error => "concordium_derive.utils.result.Err[" ++ shownFull error ++ "]"
  | .stateRef state => "concordium_derive.runtime.state.StateRef[" ++ shownFull state ++ "]"

/-- The arguments of an annotation, each in full. -/
def shownAll : List Ty → List String
  | [] => []
  | t :: ts => shownFull t :: shownAll ts

/-- The operands of bars, among which the absent value is shown as itself. -/
def shownOperands : List Ty → List String
  | [] => []
  | .noneType :: ts => "None" :: shownOperands ts
  | t :: ts => shownFull t :: shownOperands ts

end

/-- An annotation as messages show it. -/
def shown : Ty → String
  | .sized format => format.name
  | .accountAddress => "AccountAddress"
  | .any => "Any"
  | .none | .noneType => "None"
  | .cls ref => ref.shortName
  | .dots => "Ellipsis"
  | t => shownFull t

end ContractKit.Ty
