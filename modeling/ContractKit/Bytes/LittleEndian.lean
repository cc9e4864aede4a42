import ContractKit.Bytes

/-!
# `Bytes/LittleEndian.lean`: fixed-width integers

Every integer of the wire format has a fixed width in bytes and is written least significant byte
first, signed ones in two's complement. `Format` names a width and a signedness; `Format.encode?`
answers exactly for the numbers in range and `Format.decode` is its inverse on strings of that width.
-/

set_option autoImplicit false

namespace ContractKit.LittleEndian

/-- The lowest `width` base-256 digits of a number, least significant first. -/
def digits : (width : Nat) → Nat → Bytes
  | 0, _ => []
  | width + 1, n => UInt8.ofNat (n % 256) :: digits width (n / 256)

/-- The number with the given base-256 digits, least significant first. -/
def ofDigits : Bytes → Nat
  | [] => 0
  | b :: rest => b.toNat + 256 * ofDigits rest

/-- A width in bytes and a signedness. -/
structure Format where
  width : Nat
  signed : Bool
  deriving DecidableEq, Repr

namespace Format

/-- The least number of a format. A format of no bytes holds zero alone. -/
def lower (f : Format) : Int :=
  if f.signed && f.width != 0 then -(Nat.pow 2 (8 * f.width - 1) : Int) else 0

/-- The least number above a format. -/
def upper (f : Format) : Int :=
  if f.signed && f.width != 0 then Nat.pow 2 (8 * f.width - 1) else Nat.pow 2 (8 * f.width)

def Holds (f : Format) (n : Int) : Prop := f.lower ≤ n ∧ n < f.upper

instance (f : Format) (n : Int) : Decidable (f.Holds n) :=
  inferInstanceAs (Decidable (_ ∧ _))

/-- The bytes of a number that the format holds, in two's complement. -/
def encode? (f : Format) (n : Int) : Option Bytes :=
  if f.Holds n then some (digits f.width (n % Nat.pow 256 f.width).toNat) else none

/-- The number that a string of bytes stands for: the digits' value, less the whole range when the
format is signed and the sign bit is set. -/
def decode (f : Format) (bytes : Bytes) : Int :=
  let value := ofDigits bytes
  if f.signed && Nat.pow 256 bytes.length ≤ 2 * value then (value : Int) - Nat.pow 256 bytes.length
  else value

end Format

@[simp] theorem length_digits (width n : Nat) : (digits width n).length = width := by
  induction width generalizing n with
  | zero => rfl
  | succ width ih => simp [digits, ih]

end ContractKit.LittleEndian
