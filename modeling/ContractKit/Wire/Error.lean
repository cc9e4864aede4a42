import ContractKit.Text.Quoted
import ContractKit.Wire.PrefixWidth

/-!
# `Wire/Error.lean`: what can be wrong with a byte string

The causes for which reading or writing the wire format fails. Each cause belongs to one of five
families, and has one text.
-/

set_option autoImplicit false

namespace ContractKit

/-- The families of wire errors. Every family is a special case of `general`, so a handler of that one
handles all of them. -/
inductive WireFamily
  | general
  | unsupported
  | tooLong
  | outOfData
  | badData
  deriving DecidableEq, Repr

/-- A reason for which bytes cannot be read or written. The cause is kept with its data; its family and
its message are computed from it. -/
inductive WireError
  /-- A byte count below zero was asked for. -/
  | negativeCount
  /-- Fewer bytes are left than a read asks for. -/
  | outOfData
  /-- Bytes are left where the value should end. -/
  | trailingData
  /-- A cursor was moved before the first byte. -/
  | seekBeforeStart
  /-- A number is outside the range of its integer format. -/
  | integerRange
  /-- A count is too large for its prefix. -/
  | countTooLong (count : Int) (width : PrefixWidth)
  | badBoolean (byte : UInt8)
  | badUtf8
  /-- Keys that should ascend do not. -/
  | notIncreasing
  | badOptionTag (byte : UInt8)
  | badVariantTag (tag : Nat) (type : String)
  | badSizeLength (byte : UInt8)
  | badTypeTag (byte : UInt8)
  | badFieldsTag (byte : UInt8)
  /-- A type that derives reading alone was asked to write. -/
  | encodeNotDerived (type : String)
  /-- A type that derives writing alone was asked to read. -/
  | decodeNotDerived (type : String)
  deriving DecidableEq, Repr

namespace WireError

def family : WireError → WireFamily
  | negativeCount | trailingData | seekBeforeStart | integerRange => .general
  | outOfData => .outOfData
  | countTooLong .. => .tooLong
  | badBoolean _ | badUtf8 | notIncreasing | badOptionTag _ | badVariantTag .. | badSizeLength _
  | badTypeTag _ | badFieldsTag _ => .badData
  | encodeNotDerived _ | decodeNotDerived _ => .unsupported

def message : WireError → String
  | negativeCount => "value cannot be negative"
  | outOfData => "not enough bytes to read"
  | trailingData => "trailing data"
  | seekBeforeStart => "cannot seek before the start of the state"
  | integerRange => "too big to encode"
  | countTooLong count width =>
    s!"{count} does not fit in a {width.bytes}-byte length prefix"
  | badBoolean byte => "invalid boolean byte 0x" ++ Text.hexPadded 2 byte.toNat
  | badUtf8 => "invalid utf-8 data"
  | notIncreasing => "values are not in strictly increasing order"
  | badOptionTag byte =>
    "invalid tag 0x" ++ Text.hexPadded 2 byte.toNat ++ " for an optional value"
  | badVariantTag tag type => s!"invalid tag {tag} for {type}"
  | badSizeLength byte => s!"invalid size length: {byte.toNat}"
  | badTypeTag byte => s!"invalid schema type tag: {byte.toNat}"
  | badFieldsTag byte => s!"invalid schema fields tag: {byte.toNat}"
  | encodeNotDerived type => s!"{type} does not derive serialization"
  | decodeNotDerived type => s!"{type} does not derive deserialization"

end WireError

end ContractKit
