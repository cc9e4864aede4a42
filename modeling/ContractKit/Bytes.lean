import ContractKit.Text.Digits
import ContractKit.Text.Quoted

/-!
# `Bytes.lean`: byte strings

Everything that crosses the boundary of a contract (parameters, state, events, schemas) is a finite
string of bytes. The type is a list, so that every reader and writer is a recursion on it.
-/

set_option autoImplicit false

namespace ContractKit

/-- A string of bytes. -/
abbrev Bytes := List UInt8

namespace Bytes

def zeros (n : Nat) : Bytes := List.replicate n 0

/-- The bytes in hexadecimal, two lower-case digits each. -/
def hex (bytes : Bytes) : String :=
  String.ofList (bytes.flatMap fun b => Text.hexDigits 2 b.toNat)

/-- The bytes that pairs of hexadecimal digits stand for. -/
def ofHexDigits? : List Char → Option Bytes
  | [] => some []
  | [_] => none
  | high :: low :: rest => do
    let h ← Text.hexValue? high
    let l ← Text.hexValue? low
    let bytes ← ofHexDigits? rest
    pure (UInt8.ofNat (16 * h + l) :: bytes)

/-- The bytes that a text gives in hexadecimal. -/
def ofHex? (s : String) : Option Bytes := ofHexDigits? s.toList

/-- The utf-8 form of a text. -/
def ofText (s : String) : Bytes := s.toByteArray.data.toList

/-- The text that the bytes are the utf-8 form of, if they are one. -/
def toText? (bytes : Bytes) : Option String := String.fromUTF8? ⟨bytes.toArray⟩

/-- Reading the utf-8 form of a text gives the text back. -/
theorem toText?_ofText (s : String) : toText? (ofText s) = some s := by
  simp [toText?, ofText, String.fromUTF8?, s.isValidUTF8, String.fromUTF8]

/-- Only the utf-8 form of a text is read as that text. -/
theorem eq_ofText_of_toText? {bytes : Bytes} {s : String} (h : toText? bytes = some s) :
    bytes = ofText s := by
  unfold toText? String.fromUTF8? at h
  split at h
  · cases h; simp [ofText, String.fromUTF8]
  · cases h

end Bytes

end ContractKit
