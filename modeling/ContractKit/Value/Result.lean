import ContractKit.Value.Equality
import ContractKit.Value.Shown

/-!
# `Value/Result.lean`: results

What can fail answers with a result: success with a value, or failure with a value that says why.
Asking a result for what it does not hold is a fault, and its text shows what it holds instead.
-/

set_option autoImplicit false

namespace ContractKit

/-- Success or failure, with a value. Contract functions return one, and so does reading the parameter;
a fault is neither. -/
inductive Result
  | ok (value : Value)
  | err (error : Value)

namespace Result

def ofValue? : Value → Option Result
  | .ok v => some (.ok v)
  | .err e => some (.err e)
  | _ => none

def toValue : Result → Value
  | .ok v => .ok v
  | .err e => .err e

def isOk : Result → Bool
  | .ok _ => true
  | .err _ => false

def isErr : Result → Bool
  | .ok _ => false
  | .err _ => true

def ok? : Result → Option Value
  | .ok v => some v
  | .err _ => none

def err? : Result → Option Value
  | .ok _ => none
  | .err e => some e

/-- Refuse to give what a result does not hold. -/
def refuse (text : String) : Except Fault Value := .error (.raised .unwrap text)

/-- The value of a result that has to be a success. -/
def unwrap : Result → Except Fault Value
  | .ok v => .ok v
  | .err e => refuse ("Called `Result.unwrap()` on an `Err` value: " ++ e.shown)

/-- The value of a result that has to be a failure. -/
def unwrapErr : Result → Except Fault Value
  | .ok _ => refuse "Called `Result.unwrap_err()` on an `Ok` value"
  | .err e => .ok e

/-- The value of a result that has to be a success, with a text for when it is none. -/
def expect (message : String) : Result → Except Fault Value
  | .ok v => .ok v
  | .err e => refuse (message ++ ": " ++ e.shown)

/-- The value of a success, or another one. -/
def unwrapOr (otherwise : Value) : Result → Value
  | .ok v => v
  | .err _ => otherwise

/-- The result with the value of a success changed. -/
def map (f : Value → Except Fault Value) : Result → Except Fault Result
  | .ok v => (f v).map .ok
  | .err e => .ok (.err e)

/-- The result with the value of a failure changed. -/
def mapErr (f : Value → Except Fault Value) : Result → Except Fault Result
  | .ok v => .ok (.ok v)
  | .err e => (f e).map .err

/-- What follows a success. A failure stays what it is. -/
def andThen (f : Value → Except Fault Result) : Result → Except Fault Result
  | .ok v => f v
  | .err e => .ok (.err e)

end Result

end ContractKit
