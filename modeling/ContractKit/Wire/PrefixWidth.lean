/-!
# `Wire/PrefixWidth.lean`: the widths of a count

Every variable-sized value starts with a count: an unsigned little-endian integer of 1, 2, 4 or 8
bytes. The four widths are a type of their own, so a codec with any other width does not exist; a
number that was given as a width is turned into one by `ofInt?`.
-/

set_option autoImplicit false

namespace ContractKit

/-- The width of a count prefix, of the four that the format has. Being one of four, it needs no proof
that its bytes can be written. -/
inductive PrefixWidth
  | one
  | two
  | four
  | eight
  deriving DecidableEq, Repr

namespace PrefixWidth

def bytes : PrefixWidth → Nat
  | one => 1
  | two => 2
  | four => 4
  | eight => 8

/-- The largest count that fits. -/
def maxCount (w : PrefixWidth) : Nat := Nat.pow 256 w.bytes - 1

/-- The width of that many bytes, if there is one. -/
def ofInt? (n : Int) : Option PrefixWidth :=
  if n = 1 then some one
  else if n = 2 then some two
  else if n = 4 then some four
  else if n = 8 then some eight
  else none

/-- The width used where no attribute chooses one. -/
def standard : PrefixWidth := four

@[simp] theorem ofInt?_bytes (w : PrefixWidth) : ofInt? w.bytes = some w := by
  cases w <;> decide

end PrefixWidth

end ContractKit
