import ContractKit.Bytes
import ContractKit.Document.Basic

/-!
# `Document/Parser.lean`: reading documents

Documents are written as JSON: `parse` reads one, with blanks around it. Of several parts of one name
in an object the last counts, at the place of the first. A text holds whole characters only, so an
escape that stands for half of one is refused unless the other half follows.

A reader takes what it reads from the front of the text and answers with it and what is left, or with
what is wrong. Every step takes at least one character, so the length of the text bounds the reading.
-/

set_option autoImplicit false

namespace ContractKit.Document

/-- Whether a character may stand between the words of a document. -/
def isSpace (c : Char) : Bool := c = ' ' || c = '\t' || c = '\n' || c = '\r'

/-- The text without the blanks at its front. -/
def skipSpaces (cs : List Char) : List Char := cs.dropWhile isSpace

/-! ## Texts -/

/-- The number that four hexadecimal digits are. -/
def unit? (a b c d : Char) : Option Nat := Text.hexNumber? 0 [a, b, c, d]

/-- The character that an escape of one letter stands for. -/
def escaped? : Char → Option Char
  | '"' => some '"'
  | '\\' => some '\\'
  | '/' => some '/'
  | 'b' => some '\x08'
  | 'f' => some '\x0c'
  | 'n' => some '\n'
  | 'r' => some '\r'
  | 't' => some '\t'
  | _ => none

/-- Whether a number is the first half of a character. -/
def isHighHalf (n : Nat) : Bool := 0xD800 ≤ n && n < 0xDC00

def isLowHalf (n : Nat) : Bool := 0xDC00 ≤ n && n < 0xE000

/-- The characters of a text up to its closing quote, those before them given in reverse. -/
def textOnto (acc : List Char) : List Char → Except String (String × List Char)
  | [] => .error "a text does not end"
  | '"' :: rest => .ok (String.ofList acc.reverse, rest)
  | '\\' :: 'u' :: a :: b :: c :: d :: rest =>
    match unit? a b c d with
    | none => .error "an escape needs four hexadecimal digits"
    | some n =>
      if isHighHalf n then
        match rest with
        | '\\' :: 'u' :: e :: f :: g :: h :: rest =>
          match unit? e f g h with
          | none => .error "an escape needs four hexadecimal digits"
          | some m =>
            if isLowHalf m then
              textOnto (Char.ofNat (0x10000 + (n - 0xD800) * 0x400 + (m - 0xDC00)) :: acc) rest
            else .error "half a character"
        | _ => .error "half a character"
      else if isLowHalf n then .error "half a character"
      else textOnto (Char.ofNat n :: acc) rest
  | '\\' :: c :: rest =>
    match escaped? c with
    | none => .error "an unknown escape"
    | some c => textOnto (c :: acc) rest
  | c :: rest =>
    if c.toNat < 0x20 then .error "a text holds no control characters"
    else textOnto (c :: acc) rest

/-! ## Numbers -/

/-- The digits at the front of a text, and what follows them. -/
def spanDigits (cs : List Char) : List Char × List Char :=
  (cs.takeWhile Char.isDigit, cs.dropWhile Char.isDigit)

/-- The most digits that an exponent may have. -/
def maxExponentDigits : Nat := 3

/-- The exponent at the front of a text, if one stands there. -/
def exponent (cs : List Char) : Except String (Option Int × List Char) :=
  match cs with
  | e :: rest =>
    if e = 'e' ∨ e = 'E' then
      let (negative, rest) := match rest with
        | '-' :: rest => (true, rest)
        | '+' :: rest => (false, rest)
        | rest => (false, rest)
      match spanDigits rest with
      | ([], _) => .error "an exponent needs digits"
      | (digits, rest) =>
        if maxExponentDigits < digits.length then .error "an exponent is too large"
        else
          let n : Int := Text.digitsValue 10 digits
          .ok (some (if negative then -n else n), rest)
    else .ok (none, cs)
  | [] => .ok (none, [])

/-- A number with digits after the point or an exponent. -/
def scaled (digits : Int) (places : Int) : Document :=
  if 0 ≤ places then .decimal digits places.toNat else .decimal (digits * Int.pow 10 (-places).toNat) 0

/-- The digits after a point at the front of a text, if one stands there. -/
def fraction (cs : List Char) : Except String (Option (List Char) × List Char) :=
  match cs with
  | '.' :: rest =>
    match spanDigits rest with
    | ([], _) => .error "a point needs digits after it"
    | (digits, rest) => .ok (some digits, rest)
  | cs => .ok (none, cs)

/-- The number at the front of a text, its sign having been read. -/
def number (negative : Bool) (cs : List Char) : Except String (Document × List Char) := do
  let (whole, rest) := spanDigits cs
  let signed := fun (n : Nat) => if negative then -(n : Int) else n
  match whole with
  | [] => .error "expected a value"
  | '0' :: _ :: _ => .error "a number starts with no spare zero"
  | whole =>
    let (decimals, rest) ← fraction rest
    let (power, rest) ← exponent rest
    match decimals, power with
    | none, none => pure (.int (signed (Text.digitsValue 10 whole)), rest)
    | decimals, power =>
      let decimals := decimals.getD []
      pure (scaled (signed (Text.digitsValue 10 (whole ++ decimals))) (decimals.length - power.getD 0), rest)

/-! ## Documents -/

/-- The words that stand for a document. -/
def words : List (List Char × Document) :=
  [("null".toList, .null), ("true".toList, .bool true), ("false".toList, .bool false)]

/-- A word or a number at the front of a text. -/
def wordOrNumber (cs : List Char) : Except String (Document × List Char) :=
  match words.find? fun entry => entry.1.isPrefixOf cs with
  | some (word, d) => .ok (d, cs.drop word.length)
  | none =>
    match cs with
    | '-' :: rest => number true rest
    | cs => number false cs

mutual

/-- The document at the front of a text. -/
def value : (budget : Nat) → List Char → Except String (Document × List Char)
  | 0, _ => .error "too deep"
  | budget + 1, cs =>
    match skipSpaces cs with
    | '"' :: rest => (textOnto [] rest).map fun (s, rest) => (.text s, rest)
    | '[' :: rest =>
      match skipSpaces rest with
      | ']' :: rest => .ok (.list [], rest)
      | rest => itemsOnto budget [] rest
    | '{' :: rest =>
      match skipSpaces rest with
      | '}' :: rest => .ok (.object [], rest)
      | rest => partsOnto budget [] rest
    | rest => wordOrNumber rest

/-- The items of a list up to its end, those before them given in reverse. -/
def itemsOnto : (budget : Nat) → (acc : List Document) → List Char →
    Except String (Document × List Char)
  | 0, _, _ => .error "too deep"
  | budget + 1, acc, cs => do
    let (d, rest) ← value budget cs
    match skipSpaces rest with
    | ',' :: rest => itemsOnto budget (d :: acc) rest
    | ']' :: rest => pure (.list (d :: acc).reverse, rest)
    | _ => .error "expected `,` or `]`"

/-- The parts of an object up to its end, given those before them. -/
def partsOnto : (budget : Nat) → (acc : List (String × Document)) → List Char →
    Except String (Document × List Char)
  | 0, _, _ => .error "too deep"
  | budget + 1, acc, cs => do
    match skipSpaces cs with
    | '"' :: rest =>
      let (name, rest) ← textOnto [] rest
      match skipSpaces rest with
      | ':' :: rest =>
        let (d, rest) ← value budget rest
        match skipSpaces rest with
        | ',' :: rest => partsOnto budget (put acc name d) rest
        | '}' :: rest => pure (.object (put acc name d), rest)
        | _ => .error "expected `,` or `\x7d`"
      | _ => .error "expected `:`"
    | _ => .error "expected a name"

end

def parse (text : String) : Except String Document := do
  let cs := text.toList
  let (d, rest) ← value (cs.length + 1) cs
  if (skipSpaces rest).isEmpty then pure d else .error "something follows the document"

end ContractKit.Document
