import ContractKit.Value.Basic

/-!
# `Value/Arithmetic.lean`: sums and multiples of values

Numbers are added, and texts, byte strings, lists and tuples are joined. A multiple is a sum of equal
values. Truth values and members of integer enumerations count as their numbers; any other pair of
values is refused.
-/

set_option autoImplicit false

namespace ContractKit.Value

/-- Refuse the operands of an operation. -/
def mismatch (text : String) : Except Fault Value := .error (.raised .type text)

/-- Refuse operands that are of no type that an operation knows. -/
def unsupported (operation : String) (left right : Value) : Except Fault Value :=
  mismatch
    s!"unsupported operand type(s) for {operation}: '{left.className}' and '{right.className}'"

def add (left right : Value) : Except Fault Value :=
  match left, right with
  | .text s, .text t => .ok (.text (s ++ t))
  | .bytes s, .bytes t => .ok (.bytes (s ++ t))
  | .list s, .list t => .ok (.list (s ++ t))
  | .text _, v => mismatch s!"can only concatenate str (not \"{v.className}\") to str"
  | .list _, v => mismatch s!"can only concatenate list (not \"{v.className}\") to list"
  | .bytes _, v => mismatch s!"can't concat {v.className} to bytes"
  | v, w =>
    match v.number?, w.number?, v.tupleItems?, w.tupleItems? with
    | some a, some b, _, _ => .ok (.int (a + b))
    | _, _, some s, some t => .ok (.tuple (s ++ t))
    | _, _, some _, Option.none =>
      mismatch s!"can only concatenate tuple (not \"{w.className}\") to tuple"
    | _, _, _, _ => unsupported "+" v w

/-- A value taken a number of times. -/
def times (v : Value) (n : Nat) : Except Fault Value :=
  match v with
  | .text s => .ok (.text (String.join (List.replicate n s)))
  | .bytes s => .ok (.bytes (List.replicate n s).flatten)
  | .list s => .ok (.list (List.replicate n s).flatten)
  | v =>
    match v.number?, v.tupleItems? with
    | some a, _ => .ok (.int (a * n))
    | _, some s => .ok (.tuple (List.replicate n s).flatten)
    | _, _ => unsupported "*" v (.int n)

end ContractKit.Value
