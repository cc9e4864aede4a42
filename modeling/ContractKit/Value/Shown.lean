import ContractKit.Ty.Printed
import ContractKit.Value.Basic

/-!
# `Value/Shown.lean`: how values are shown in messages

A value is shown the way it could be written down: texts and byte strings between quotes, containers
with their brackets, records with the names of their fields, results with their mark, and faults with
their kind and text. Types held as values are shown with what they are where they are classes, and by
their full form where they are not.
-/

set_option autoImplicit false

namespace ContractKit

/-- A type as a value is shown. -/
def Ty.shownAsValue (t : Ty) : String :=
  match t with
  | .cls _ | .bool | .text | .bytes | .int | .float | .noneType | .bare _ =>
    "<class '" ++ t.shownFull ++ "'>"
  | .dots => "Ellipsis"
  | t => t.shownFull

/-- A fault as a value is shown. -/
def Fault.shown (f : Fault) : String :=
  match f with
  | .assertion "" => f.kind.word ++ "()"
  | f => f.kind.word ++ "(" ++ Text.quoted f.message ++ ")"

/-- An action as a value is shown. -/
def Action.shown : Action → String
  | .accept => "Accept()"
  | .transfer recipient amount =>
    s!"SimpleTransfer(to={Text.quotedBytes recipient}, amount={amount})"
  | .send index subindex receiveName amount parameter =>
    s!"Send(to=ContractAddress(index={index}, subindex={subindex}), receive_name={Text.quoted receiveName}, amount={amount}, parameter={Text.quotedBytes parameter})"
  | .andThen first second => s!"AndThen(first={first.shown}, then={second.shown})"
  | .orElse first otherwise => s!"OrElse(first={first.shown}, otherwise={otherwise.shown})"

namespace Value

/-- Shown items between brackets. -/
def between (opening closing : String) (items : List String) : String :=
  opening ++ ", ".intercalate items ++ closing

mutual

/-- A value as messages show it. -/
def shown : Value → String
  | .none => "None"
  | .bool b => if b then "True" else "False"
  | .int n => toString n
  | .text s => Text.quoted s
  | .bytes data => Text.quotedBytes data
  | .list items => between "[" "]" (shownAll items)
  | .tuple [item] => "(" ++ shown item ++ ",)"
  | .tuple items => between "(" ")" (shownAll items)
  | .set [] => "set()"
  | .set members => between "\x7b" "\x7d" (shownAll members)
  | .frozenset [] => "frozenset()"
  | .frozenset members => between "frozenset(\x7b" "\x7d)" (shownAll members)
  | .dict entries => between "\x7b" "\x7d" (shownEntries entries)
  | .record cls items =>
    let name := if cls.isPositional then cls.ref.shortName else cls.ref.name
    between (name ++ "(") ")" (cls.fields.zipWith (fun f s => f ++ "=" ++ s) (shownAll items))
  | .member enum name number =>
    "<" ++ enum.shortName ++ "." ++ name ++
      (match number with
        | some n => s!": {n}>"
        | Option.none => ">")
  | .ok v => "Ok(" ++ shown v ++ ")"
  | .err v => "Err(" ++ shown v ++ ")"
  | .action a => a.shown
  | .fault f => f.shown
  | .type t => t.shownAsValue
  | .handle className => "<" ++ className ++ " object>"

def shownAll : List Value → List String
  | [] => []
  | v :: vs => shown v :: shownAll vs

def shownEntries : List (Value × Value) → List String
  | [] => []
  | (k, v) :: es => (shown k ++ ": " ++ shown v) :: shownEntries es

end

/-- A value as a text: a text is itself. -/
def asText : Value → String
  | .text s => s
  | v => v.shown

end Value

end ContractKit
