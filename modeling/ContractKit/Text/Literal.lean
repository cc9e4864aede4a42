import ContractKit.Text.CharNames
import ContractKit.Text.Digits

/-!
# `Text/Literal.lean`: the text that a quoted literal stands for

Between its quotes a literal holds characters that stand for themselves and escapes. An escape is a
backslash with a letter for a control character, with one to three octal digits, with `x`, `u` or `U`
and exactly two, four or eight hexadecimal digits, or with `N` and the name of a character between
braces; before a line end it joins the lines; before any other character it stands for itself. A literal
is refused when it holds a bare line end or a NUL, when its digits are missing or too large for a code
point, and when no character has the name.

A literal stands for code points. Those of surrogates are no characters, and a text here is made of
characters, so there are literals that are accepted and have no text (`ofCodes?`).
-/

set_option autoImplicit false

namespace ContractKit.Text

/-- The code point that exactly `width` hexadecimal digits at the front stand for. -/
def hexEscape? (width : Nat) (cs : List Char) : Option Nat :=
  if (cs.take width).length = width then
    (hexNumber? 0 (cs.take width)).bind fun n => if n < 0x110000 then some n else none
  else none

/-- Whether a character is an octal digit. -/
def isOctal (c : Char) : Bool := '0' ≤ c && c ≤ '7'

/-- The octal digits at the front, three at most. -/
def octalRun (cs : List Char) : List Char := (cs.take 3).takeWhile isOctal

/-- The code point of the character whose name stands between braces at the front, and how many
characters that is with the braces. -/
def namedEscape? (chars : CharNames) : List Char → Option (Nat × Nat)
  | '{' :: cs =>
    let name := cs.takeWhile (· != '}')
    if name.isEmpty || name.length = cs.length then none
    else (chars.find? (String.ofList name)).map fun c => (c.toNat, name.length + 2)
  | _ => none

/-- The character that a letter after a backslash stands for. -/
def letterEscape? (c : Char) : Option Char :=
  [('\\', '\\'), ('\'', '\''), ('"', '"'), ('a', '\x07'), ('b', '\x08'), ('f', '\x0c'),
   ('n', '\n'), ('r', '\r'), ('t', '\t'), ('v', '\x0b')].lookup c

/-- The number of hexadecimal digits that a letter after a backslash asks for. -/
def hexWidth? (c : Char) : Option Nat := [('x', 2), ('u', 4), ('U', 8)].lookup c

/-- The code points that an escape stands for, given the characters after its backslash, and how many
of those characters belong to it. A backslash before a line end stands for nothing, and one before a
character that makes no escape stands for itself. -/
def escape? (chars : CharNames) : List Char → Option (List Nat × Nat)
  | [] => none
  | '\r' :: '\n' :: _ => some ([], 2)
  | '\r' :: _ => some ([], 1)
  | '\n' :: _ => some ([], 1)
  | c :: cs =>
    match letterEscape? c with
    | some d => some ([d.toNat], 1)
    | none =>
      match hexWidth? c with
      | some width => (hexEscape? width cs).map fun n => ([n], 1 + width)
      | none =>
        if isOctal c then
          let run := octalRun (c :: cs)
          some ([digitsValue 8 run], run.length)
        else if c = 'N' then (namedEscape? chars cs).map fun (n, taken) => ([n], 1 + taken)
        else if c = '\x00' then none
        else some (['\\'.toNat, c.toNat], 1)

/-- The code points that the characters between the quotes of a literal stand for, or nothing if they
make no literal. It goes from escape to escape, each of which takes at least one character. -/
def unescape? (chars : CharNames) : List Char → Option (List Nat)
  | [] => some []
  | c :: cs =>
    if c = '\\' then
      match escape? chars cs with
      | some (codes, n) => (unescape? chars (cs.drop n)).map (codes ++ ·)
      | none => none
    else if c = '\n' || c = '\r' || c = '\x00' then none
    else (unescape? chars cs).map (c.toNat :: ·)
termination_by cs => cs.length

/-- The character of a code point. -/
def charOf? (n : Nat) : Option Char := if n.isValidChar then some (Char.ofNat n) else none

/-- The text of some code points, if all of them are characters. -/
def ofCodes? (codes : List Nat) : Option String := (codes.mapM charOf?).map String.ofList

end ContractKit.Text
