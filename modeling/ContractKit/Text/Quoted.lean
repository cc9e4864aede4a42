import ContractKit.Text.Printable

/-!
# `Text/Quoted.lean`: texts and byte strings between quotes

Messages show a text between quotes, with an escape for every character that cannot stand as it is.
The quote is `'` unless the text holds a `'` and no `"`. A backslash, the quote in use, the line
feed, the carriage return and the tab have short escapes; any other character that is not printable
is written by its code point in two, four or eight hexadecimal digits, whichever is the first that
fits. Byte strings follow the same rules with every byte outside printable ASCII in two digits.
-/

set_option autoImplicit false

namespace ContractKit.Text

/-- The lower-case hexadecimal digit of a number below sixteen. -/
def hexDigit (n : Nat) : Char :=
  if n < 10 then Char.ofNat (48 + n) else Char.ofNat (87 + n)

/-- The last `width` hexadecimal digits of a number, most significant first. -/
def hexDigits : (width : Nat) → Nat → List Char
  | 0, _ => []
  | width + 1, n => hexDigits width (n / 16) ++ [hexDigit (n % 16)]

/-- A number in hexadecimal, with at least `width` digits. -/
def hexPadded (width n : Nat) : String :=
  let digits := Nat.toDigits 16 n
  String.ofList (List.replicate (width - digits.length) '0' ++ digits)

/-- The quote around a text: `'`, unless the text holds it and does not hold `"`. -/
def quoteFor (cs : List Char) : Char :=
  if cs.contains '\'' && !cs.contains '"' then '"' else '\''

/-- The escape of a character by its code point. -/
def escapeByCode (n : Nat) : List Char :=
  if n < 0x100 then '\\' :: 'x' :: hexDigits 2 n
  else if n < 0x10000 then '\\' :: 'u' :: hexDigits 4 n
  else '\\' :: 'U' :: hexDigits 8 n

/-- A character inside a quoted text. -/
def escapeChar (quote : Char) (c : Char) : List Char :=
  if c = quote || c = '\\' then ['\\', c]
  else if c = '\n' then ['\\', 'n']
  else if c = '\r' then ['\\', 'r']
  else if c = '\t' then ['\\', 't']
  else if isPrintable c then [c]
  else escapeByCode c.toNat

/-- A text between quotes. -/
def quoted (s : String) : String :=
  let cs := s.toList
  let quote := quoteFor cs
  String.ofList (quote :: cs.flatMap (escapeChar quote) ++ [quote])

/-- A byte inside a quoted byte string, printable ASCII standing as it is. -/
def escapeByte (quote : Char) (b : UInt8) : List Char :=
  let c := Char.ofNat b.toNat
  if c = quote || c = '\\' then ['\\', c]
  else if c = '\n' then ['\\', 'n']
  else if c = '\r' then ['\\', 'r']
  else if c = '\t' then ['\\', 't']
  else if 0x20 ≤ b.toNat && b.toNat < 0x7F then [c]
  else '\\' :: 'x' :: hexDigits 2 b.toNat

/-- A byte string between quotes, marked by a leading `b`. -/
def quotedBytes (bytes : List UInt8) : String :=
  let quote := quoteFor (bytes.map fun b => Char.ofNat b.toNat)
  String.ofList ('b' :: quote :: bytes.flatMap (escapeByte quote) ++ [quote])

example : quoteFor ['i', 't', '\'', 's'] = '"' := by decide
example : quoteFor ['\'', '"'] = '\'' := by decide
example : escapeChar '\'' '\n' = ['\\', 'n'] := by decide +kernel
example : escapeByCode 0 = ['\\', 'x', '0', '0'] := by decide
example : escapeByCode 0x2028 = ['\\', 'u', '2', '0', '2', '8'] := by decide

end ContractKit.Text
