/-!
# `Text/Digits.lean`: the numbers that digits stand for
-/

set_option autoImplicit false

namespace ContractKit.Text

/-- The value of a hexadecimal digit of either case. -/
def hexValue? (c : Char) : Option Nat :=
  if '0' ≤ c ∧ c ≤ '9' then some (c.toNat - '0'.toNat)
  else if 'a' ≤ c ∧ c ≤ 'f' then some (c.toNat - 'a'.toNat + 10)
  else if 'A' ≤ c ∧ c ≤ 'F' then some (c.toNat - 'A'.toNat + 10)
  else none

/-- The value of some hexadecimal digits, from what those before them add up to. -/
def hexNumber? : Nat → List Char → Option Nat
  | acc, [] => some acc
  | acc, c :: cs => (hexValue? c).bind fun d => hexNumber? (16 * acc + d) cs

/-- The number that digits stand for in a base of at most ten, the largest digit first. -/
def digitsValue (base : Nat) (cs : List Char) : Nat :=
  cs.foldl (fun n c => base * n + (c.toNat - '0'.toNat)) 0

end ContractKit.Text
